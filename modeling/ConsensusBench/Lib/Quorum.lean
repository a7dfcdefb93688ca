import Mathlib.Data.Finset.Card
import Mathlib.Data.List.Basic

namespace Quorum

/-!
# Quorums

Two majorities of one set of members share a member.  A majority is usually known as a list
of messages from different senders; `card_keys` turns such a list into a set.

Of quorums that are a fixed number of members, `overlap_iff` says how many any two share: as many
as their sizes exceed that of the whole set by, and no more.
-/

variable {ι A : Type} [DecidableEq ι]

/-- More than half of the members. -/
def Majority (members Q : Finset ι) : Prop := Q ⊆ members ∧ members.card < 2 * Q.card

/-- **Two majorities intersect.** -/
theorem Majority.exists_common {members Q Q' : Finset ι} (h : Majority members Q)
    (h' : Majority members Q') : ∃ j ∈ Q, j ∈ Q' := by
  have hcard : members.card < Q.card + Q'.card := by
    have h1 := h.2
    have h2 := h'.2
    omega
  obtain ⟨j, hj⟩ := Finset.inter_nonempty_of_card_lt_card_add_card h.1 h'.1 hcard
  exact ⟨j, Finset.mem_inter.mp hj⟩

/-- A list in which every key occurs at most once has as many keys as elements. -/
theorem card_keys {l : List A} {f : A → ι} (h : ∀ k, l.countP (fun a => f a = k) ≤ 1) :
    (l.map f).toFinset.card = l.length := by
  have hnodup : (l.map f).Nodup := by
    rw [List.nodup_iff_count_le_one]
    intro k
    have heq : (l.map f).count k = l.countP (fun a => f a = k) := by
      rw [List.count, List.countP_map]
      apply List.countP_congr
      intro a _
      simp
    rw [heq]
    exact h k
  rw [List.toFinset_card_of_nodup hnodup, List.length_map]

/-! ### Quorums of one size -/

section Overlap

variable {members Q Q' B : Finset ι} {k t : ℕ}

/-- Any two sets of `k` members share more than `t`. -/
def Overlap (members : Finset ι) (k t : ℕ) : Prop :=
  ∀ Q ⊆ members, ∀ Q' ⊆ members, Q.card = k → Q'.card = k → t < (Q ∩ Q').card

theorem card_add_card_le (hQ : Q ⊆ members) (hQ' : Q' ⊆ members) :
    Q.card + Q'.card ≤ members.card + (Q ∩ Q').card := by
  rw [← Finset.card_union_add_card_inter]
  exact Nat.add_le_add_right (Finset.card_le_card (Finset.union_subset hQ hQ')) _

/-- Two sets of `k` members need not share more than their sizes make them. -/
theorem exists_card_inter_le (hk : k ≤ members.card) : ∃ Q ⊆ members, ∃ Q' ⊆ members,
    Q.card = k ∧ Q'.card = k ∧ (Q ∩ Q').card ≤ 2 * k - members.card := by
  obtain ⟨Q, hQ, hcard⟩ := Finset.exists_subset_card_eq hk
  have hrest : (members \ Q).card = members.card - k := by
    rw [Finset.card_sdiff_of_subset hQ, hcard]
  rcases Nat.le_total k (members \ Q).card with hfit | hfew
  · -- there is room for a second set beside the first
    obtain ⟨Q', hQ', hcard'⟩ := Finset.exists_subset_card_eq hfit
    refine ⟨Q, hQ, Q', hQ'.trans Finset.sdiff_subset, hcard, hcard', ?_⟩
    have hdisjoint : Disjoint Q Q' := Finset.disjoint_sdiff.mono_right hQ'
    rw [Finset.disjoint_iff_inter_eq_empty.mp hdisjoint, Finset.card_empty]
    exact Nat.zero_le _
  · -- the second set has all members that the first one has not
    obtain ⟨Q', hsub, hQ', hcard'⟩ :=
      Finset.exists_subsuperset_card_eq Finset.sdiff_subset hfew hk
    refine ⟨Q, hQ, Q', hQ', hcard, hcard', ?_⟩
    have hall : Q ∪ Q' = members := by
      refine (Finset.union_subset hQ hQ').antisymm fun j hj => ?_
      by_cases hjQ : j ∈ Q
      · exact Finset.mem_union_left _ hjQ
      · exact Finset.mem_union_right _ (hsub (Finset.mem_sdiff.mpr ⟨hj, hjQ⟩))
    have hsum := Finset.card_union_add_card_inter Q Q'
    rw [hall, hcard, hcard'] at hsum
    omega

/-- **How large quorums must be** for any two of them to share more than `t` members. -/
theorem overlap_iff (hk : k ≤ members.card) :
    Overlap members k t ↔ members.card + t < 2 * k := by
  constructor
  · intro h
    obtain ⟨Q, hQ, Q', hQ', hcard, hcard', hle⟩ := exists_card_inter_le hk
    have hlt := h Q hQ Q' hQ' hcard hcard'
    omega
  · intro h Q hQ Q' hQ' hcard hcard'
    have hle := card_add_card_le hQ hQ'
    omega

/-- More than `t` common members are not all among `t` given ones. -/
theorem Overlap.exists_common (h : Overlap members k t) (hQ : Q ⊆ members) (hQ' : Q' ⊆ members)
    (hcard : Q.card = k) (hcard' : Q'.card = k) (hB : B.card ≤ t) : ∃ j ∈ Q, j ∈ Q' ∧ j ∉ B := by
  obtain ⟨j, hj, hjB⟩ :=
    Finset.exists_mem_notMem_of_card_lt_card (hB.trans_lt (h Q hQ Q' hQ' hcard hcard'))
  exact ⟨j, (Finset.mem_inter.mp hj).1, (Finset.mem_inter.mp hj).2, hjB⟩

end Overlap

end Quorum
