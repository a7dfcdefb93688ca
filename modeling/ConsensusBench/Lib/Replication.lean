import ConsensusBench.Lib.Quorum
import Mathlib.Data.List.Infix
import Mathlib.Logic.Function.Basic
import Mathlib.Logic.Relation

namespace Replication

/-!
# Replicating a log under elected leaders

The protocol without its messages.  Each party has a term and a log of entries that carry
terms; a candidate of a term that gathers votes of a majority leads the term, and its log is
what the others take over, in parts.  A party confirms that its log is part of the leader's.

* `State` remembers who voted for whom, the log of each candidate and each leader, and how
  much each party has confirmed to the leader of each term.
* `Step` — what party `i` may do.  `Inv` — the invariants, `Inv.step` — every step keeps them.
* A prefix `P` that ends with an entry of term `t` *stands* in term `t` if the leader of the
  term has it.  It is *chosen* once a majority has confirmed it, and *choosable* as long as
  this may still happen, which only gets harder (`Step.choosable`).
* `Inv.complete` — every later leader has all prefixes that are choosable, so
* `Inv.chosen_comparable` — any two chosen prefixes extend one another.
-/

open Quorum

variable {ι E : Type}

/-! ### States -/

/-- The parties' terms and logs, and the records of votes, candidates, leaders and
    confirmations. -/
structure State (ι E : Type) where
  now : ι → ℕ
  log : ι → List E
  vote : ι × ℕ → Option ι
  cand : ι × ℕ → Option (List E)
  lead : ℕ → Option (ι × List E)
  ack : ι × ℕ → ℕ

/-- The term of the last entry, `0` for an empty log. -/
def lastTerm (term : E → ℕ) (l : List E) : ℕ := (l.getLast?.map term).getD 0

/-- Log `l'` is at least as up-to-date as `l`. -/
def UpToDate (term : E → ℕ) (l' l : List E) : Prop :=
  lastTerm term l < lastTerm term l' ∨
    (lastTerm term l' = lastTerm term l ∧ l.length ≤ l'.length)

/-! ### Prefixes and how they are chosen -/

variable (members : Finset ι) (term : E → ℕ)

section Notions

variable (s : State ι E)

/-- Every prefix of `l` is one of the log of the leader of the term it ends with. -/
def Traced (l : List E) : Prop :=
  ∀ P e, P ++ [e] <+: l → ∃ c L, s.lead (term e) = some (c, L) ∧ P ++ [e] <+: L

/-- `P` is a prefix of the log of the leader of term `t`, and ends with an entry of `t`. -/
def Stands (t : ℕ) (P : List E) : Prop :=
  ∃ c L, s.lead t = some (c, L) ∧ P <+: L ∧ ∃ Q e, P = Q ++ [e] ∧ term e = t

/-- A majority may still confirm `m` entries in term `t`. -/
def Choosable (t m : ℕ) : Prop :=
  ∃ Q, Majority members Q ∧ ∀ j ∈ Q, s.now j ≤ t ∨ m ≤ s.ack (j, t)

/-- A majority has confirmed `m` entries in term `t`. -/
def Chosen (t m : ℕ) : Prop := ∃ Q, Majority members Q ∧ ∀ j ∈ Q, m ≤ s.ack (j, t)

/-- `P` is part of a prefix chosen in a term up to `t`. -/
def Certified (t : ℕ) (P : List E) : Prop :=
  P = [] ∨ ∃ t' ≤ t, ∃ P', Stands term s t' P' ∧ Chosen members s t' P'.length ∧ P <+: P'

end Notions

/-- The invariants. -/
structure Inv (s : State ι E) : Prop where
  traced : ∀ i, Traced term s (s.log i)
  traced_lead : ∀ t c L, s.lead t = some (c, L) → Traced term s L
  traced_cand : ∀ i t L, s.cand (i, t) = some L → Traced term s L
  log_le : ∀ i, ∀ e ∈ s.log i, term e ≤ s.now i
  lead_le : ∀ t c L, s.lead t = some (c, L) → ∀ e ∈ L, term e ≤ t
  cand_lt : ∀ i t L, s.cand (i, t) = some L → t ≤ s.now i ∧ ∀ e ∈ L, term e < t
  elected : ∀ t c L, s.lead t = some (c, L) →
    ∃ V, Majority members V ∧ ∀ j ∈ V, s.vote (j, t) = some c
  voted : ∀ j t c, s.vote (j, t) = some c → t ≤ s.now j ∧ ∃ L, s.cand (c, t) = some L
  acked : ∀ j t, s.ack (j, t) ≠ 0 →
    t ≤ s.now j ∧ ∃ c L, s.lead t = some (c, L) ∧ s.ack (j, t) ≤ L.length
  complete : ∀ t t' P c L, Stands term s t P → Choosable members s t P.length → t < t' →
    s.lead t' = some (c, L) → P <+: L
  kept : ∀ j t P, Stands term s t P → Choosable members s t P.length →
    P.length ≤ s.ack (j, t) → P <+: s.log j
  promised : ∀ j t t' c L P, s.vote (j, t') = some c → s.cand (c, t') = some L → t < t' →
    Stands term s t P → Choosable members s t P.length → P.length ≤ s.ack (j, t) → P <+: L

section Prefixes

variable {members term} {s : State ι E}

/-- A prefix of a traced log is traced. -/
theorem Traced.restrict {l l' : List E} (h : Traced term s l) (hl : l' <+: l) : Traced term s l' :=
  fun P e hP => h P e (hP.trans hl)

/-- **Log matching**: entries of one term at one position have the same entries before them. -/
theorem Traced.matching {l l' : List E} (h : Traced term s l) (h' : Traced term s l') {k : ℕ}
    {e e' : E} (he : l[k]? = some e) (he' : l'[k]? = some e') (ht : term e = term e') :
    l.take (k + 1) = l'.take (k + 1) := by
  have htake : ∀ {l : List E} {e : E}, l[k]? = some e → l.take (k + 1) = l.take k ++ [e] :=
    fun he => by rw [List.take_add_one, he]; rfl
  obtain ⟨c, L, hL, hP⟩ := h (l.take k) e (htake he ▸ List.take_prefix _ _)
  obtain ⟨c', L', hL', hP'⟩ := h' (l'.take k) e' (htake he' ▸ List.take_prefix _ _)
  rw [← ht, hL, Option.some.injEq, Prod.mk.injEq] at hL'
  obtain ⟨_, rfl⟩ := hL'
  rw [← htake he] at hP
  rw [← htake he'] at hP'
  obtain ⟨hk, _⟩ := List.getElem?_eq_some_iff.mp he
  obtain ⟨hk', _⟩ := List.getElem?_eq_some_iff.mp he'
  have hlen : (l.take (k + 1)).length = (l'.take (k + 1)).length := by
    rw [List.length_take, List.length_take]
    omega
  exact (List.prefix_of_prefix_length_le hP hP' (le_of_eq hlen)).eq_of_length hlen

/-- A prefix that stands has a last entry. -/
theorem Stands.pos {t : ℕ} {P : List E} (h : Stands term s t P) : 0 < P.length := by
  obtain ⟨_, _, _, _, Q, e, rfl, _⟩ := h
  simp

/-- A prefix that stands is part of the log of the leader. -/
theorem Stands.prefix_lead {t : ℕ} {P : List E} (h : Stands term s t P) {c : ι} {L : List E}
    (hl : s.lead t = some (c, L)) : P <+: L := by
  obtain ⟨_, _, hl', hP, _⟩ := h
  rw [hl, Option.some.injEq, Prod.mk.injEq] at hl'
  exact hl'.2 ▸ hP

/-- What is chosen could be. -/
theorem Chosen.choosable {t m : ℕ} (h : Chosen members s t m) : Choosable members s t m := by
  obtain ⟨Q, hQ, hack⟩ := h
  exact ⟨Q, hQ, fun j hj => .inr (hack j hj)⟩

/-- What is certified is so in later terms. -/
theorem Certified.mono_term {t t' : ℕ} {P : List E} (h : Certified members term s t P)
    (ht : t ≤ t') : Certified members term s t' P := by
  rcases h with rfl | ⟨t₀, ht₀, hrest⟩
  · exact .inl rfl
  · exact .inr ⟨t₀, le_trans ht₀ ht, hrest⟩

/-- A prefix of what is certified is certified. -/
theorem Certified.restrict {t : ℕ} {P P' : List E} (h : Certified members term s t P)
    (hP : P' <+: P) : Certified members term s t P' := by
  rcases h with rfl | ⟨t₀, ht₀, P₀, hs, hc, hP₀⟩
  · exact .inl (List.prefix_nil.mp hP)
  · exact .inr ⟨t₀, ht₀, P₀, hs, hc, hP.trans hP₀⟩

end Prefixes

/-! ### What the invariants give -/

section Results

variable {members term} {s : State ι E}

/-- **What is chosen is held by a majority.** -/
theorem Inv.held (h : Inv members term s) {t : ℕ} {P : List E} (hP : Stands term s t P)
    (hc : Chosen members s t P.length) :
    ∃ Q, Majority members Q ∧ ∀ j ∈ Q, P <+: s.log j := by
  have hchoosable := hc.choosable
  obtain ⟨Q, hQ, hack⟩ := hc
  exact ⟨Q, hQ, fun j hj => h.kept j t P hP hchoosable (hack j hj)⟩

/-- **What is chosen is in every later leader's log.** -/
theorem Inv.certified_lead (h : Inv members term s) {t t' : ℕ} {P : List E}
    (hP : Certified members term s t P) (ht : t ≤ t') {c : ι} {L : List E}
    (hl : s.lead t' = some (c, L)) : P <+: L := by
  rcases hP with rfl | ⟨t₀, ht₀, P₀, hstands, hchosen, hP₀⟩
  · exact List.nil_prefix
  · rcases Nat.lt_or_eq_of_le (le_trans ht₀ ht) with hlt | heq
    · exact hP₀.trans (h.complete t₀ t' P₀ c L hstands hchosen.choosable hlt hl)
    · exact hP₀.trans (hstands.prefix_lead (heq ▸ hl))

/-- **Any two chosen prefixes extend one another.** -/
theorem Inv.chosen_comparable (h : Inv members term s) {t t' : ℕ} {P P' : List E}
    (hP : Certified members term s t P) (hP' : Certified members term s t' P') :
    P <+: P' ∨ P' <+: P := by
  have hle : ∀ {t t' : ℕ} {P P' : List E}, t ≤ t' → Certified members term s t P →
      ∀ P₀, Stands term s t' P₀ → P' <+: P₀ → P <+: P' ∨ P' <+: P := by
    intro t t' P P' ht hP P₀ hs₀ hP'
    obtain ⟨c, L, hl, hP₀, _⟩ := hs₀
    exact List.prefix_or_prefix_of_prefix (h.certified_lead hP ht hl) (hP'.trans hP₀)
  rcases hP with rfl | ⟨t₀, ht₀, P₀, hs₀, hc₀, hP₀⟩
  · exact .inl List.nil_prefix
  rcases hP' with rfl | ⟨t₁, ht₁, P₁, hs₁, hc₁, hP₁⟩
  · exact .inr List.nil_prefix
  rcases le_total t₀ t₁ with hle' | hle'
  · exact hle hle' (.inr ⟨t₀, le_refl _, P₀, hs₀, hc₀, hP₀⟩) P₁ hs₁ hP₁
  · exact (hle hle' (.inr ⟨t₁, le_refl _, P₁, hs₁, hc₁, hP₁⟩) P₀ hs₀ hP₀).symm

/-- Taking over a part `M` of the leader's log that the party does not have keeps what the
    two have in common. -/
theorem prefix_of_replace {P M L l : List E} (hL : P <+: L) (hl : P <+: l) (hM : M <+: L)
    (hno : ¬ M <+: l) : P <+: M := by
  rcases List.prefix_or_prefix_of_prefix hL hM with h | h
  · exact h
  · exact absurd (h.trans hl) hno

/-- Cutting a log where it differs from the leader's keeps what the two have in common. -/
theorem prefix_of_truncate {P L l : List E} (hL : P <+: L) (hl : P <+: l) {k : ℕ} {x y : E}
    (hx : l[k]? = some x) (hy : L[k]? = some y) (hne : x ≠ y) : P <+: l.take k := by
  rw [List.prefix_take_iff]
  refine ⟨hl, ?_⟩
  by_contra hlt
  rw [not_le] at hlt
  obtain ⟨u, rfl⟩ := hl
  obtain ⟨v, rfl⟩ := hL
  rw [List.getElem?_append_left hlt] at hx hy
  exact hne (Option.some.inj (hx.symm.trans hy))

end Results

/-! ### Steps -/

variable [DecidableEq ι]

/-- What party `i` may do. -/
inductive Step (members : Finset ι) (term : E → ℕ) (i : ι) (s : State ι E) : State ι E → Prop
  | raise (t : ℕ) (ht : s.now i ≤ t) :
      Step members term i s { s with now := Function.update s.now i t }
  | stand : Step members term i s
      { s with
        now := Function.update s.now i (s.now i + 1)
        vote := Function.update s.vote (i, s.now i + 1) (some i)
        cand := Function.update s.cand (i, s.now i + 1) (some (s.log i)) }
  | grant (c : ι) (L : List E) (hv : s.vote (i, s.now i) = none ∨ s.vote (i, s.now i) = some c)
      (hc : s.cand (c, s.now i) = some L) (hup : UpToDate term L (s.log i)) :
      Step members term i s { s with vote := Function.update s.vote (i, s.now i) (some c) }
  | elect (V : Finset ι) (hV : Majority members V)
      (hvotes : ∀ j ∈ V, s.vote (j, s.now i) = some i)
      (hc : s.cand (i, s.now i) = some (s.log i)) (hl : s.lead (s.now i) = none) :
      Step members term i s
        { s with
          lead := Function.update s.lead (s.now i) (some (i, s.log i))
          ack := Function.update s.ack (i, s.now i) (s.log i).length }
  | append (e : E) (hl : s.lead (s.now i) = some (i, s.log i)) (he : term e = s.now i) :
      Step members term i s
        { s with
          log := Function.update s.log i (s.log i ++ [e])
          lead := Function.update s.lead (s.now i) (some (i, s.log i ++ [e]))
          ack := Function.update s.ack (i, s.now i) ((s.log i).length + 1) }
  | replace (c : ι) (L M : List E) (hl : s.lead (s.now i) = some (c, L)) (hM : M <+: L)
      (hno : ¬ M <+: s.log i) :
      Step members term i s { s with log := Function.update s.log i M }
  | truncate (c : ι) (L : List E) (k : ℕ) (x y : E) (hl : s.lead (s.now i) = some (c, L))
      (hx : (s.log i)[k]? = some x) (hy : L[k]? = some y) (hne : term x ≠ term y) :
      Step members term i s { s with log := Function.update s.log i ((s.log i).take k) }
  | confirm (c : ι) (L : List E) (hl : s.lead (s.now i) = some (c, L)) (hlog : s.log i <+: L) :
      Step members term i s
        { s with
          ack := Function.update s.ack (i, s.now i)
            (max (s.ack (i, s.now i)) (s.log i).length) }

section Inversion

variable {members term} {i : ι} {s s' : State ι E}

/-- Terms never go back. -/
theorem Step.now_le (h : Step members term i s s') (j : ι) : s.now j ≤ s'.now j := by
  have hup : ∀ t, s.now i ≤ t → s.now j ≤ Function.update s.now i t j := by
    intro t ht
    rw [Function.update_apply]
    split
    · rename_i hj
      rw [hj]
      exact ht
    · exact le_refl _
  cases h with
  | raise t ht => exact hup t ht
  | stand => exact hup _ (Nat.le_succ _)
  | _ => exact le_refl _

/-- Only the term of the party that moves changes. -/
theorem Step.now_eq (h : Step members term i s s') {j : ι} (hj : j ≠ i) : s'.now j = s.now j := by
  cases h with
  | raise | stand => exact Function.update_of_ne hj _ _
  | _ => rfl

/-- How a leader's log comes about: it was there, or the party was elected, or appended. -/
theorem Step.lead_inv (h : Step members term i s s') {t : ℕ} {c : ι} {L : List E}
    (hl : s'.lead t = some (c, L)) : s.lead t = some (c, L) ∨
      (t = s.now i ∧ c = i ∧ s.lead t = none ∧ L = s.log i ∧ s.cand (i, t) = some L ∧
        s'.log = s.log ∧ s'.now = s.now ∧ s'.vote = s.vote ∧
        ∃ V, Majority members V ∧ ∀ j ∈ V, s.vote (j, t) = some i) ∨
      (t = s.now i ∧ c = i ∧ s.lead t = some (i, s.log i) ∧ s'.now = s.now ∧
        s'.vote = s.vote ∧ s'.cand = s.cand ∧
        ∃ e, L = s.log i ++ [e] ∧ term e = t ∧ s'.log = Function.update s.log i L ∧
          s'.ack = Function.update s.ack (i, t) L.length) := by
  cases h with
  | elect V hV hvotes hc hnone =>
    dsimp only at hl
    by_cases ht : t = s.now i
    · subst ht
      rw [Function.update_self, Option.some.injEq, Prod.mk.injEq] at hl
      obtain ⟨rfl, rfl⟩ := hl
      exact .inr (.inl ⟨rfl, rfl, hnone, rfl, hc, rfl, rfl, rfl, V, hV, hvotes⟩)
    · rw [Function.update_of_ne ht] at hl
      exact .inl hl
  | append e hlead he =>
    dsimp only at hl
    by_cases ht : t = s.now i
    · subst ht
      rw [Function.update_self, Option.some.injEq, Prod.mk.injEq] at hl
      obtain ⟨rfl, rfl⟩ := hl
      refine .inr (.inr ⟨rfl, rfl, hlead, rfl, rfl, rfl, e, rfl, he, rfl, ?_⟩)
      rw [List.length_append]
      rfl
    · rw [Function.update_of_ne ht] at hl
      exact .inl hl
  | _ => exact .inl hl

/-- Leaders stay, and their logs only grow. -/
theorem Step.lead_grows (h : Step members term i s s') {t : ℕ} {c : ι} {L : List E}
    (hl : s.lead t = some (c, L)) : ∃ L', s'.lead t = some (c, L') ∧ L <+: L' := by
  cases h with
  | elect V hV hvotes hc hnone =>
    have ht : t ≠ s.now i := by
      rintro rfl
      exact absurd (hl.symm.trans hnone) (by simp)
    exact ⟨L, (Function.update_of_ne ht _ _).trans hl, List.prefix_refl L⟩
  | append e hlead he =>
    by_cases ht : t = s.now i
    · subst ht
      rw [hlead, Option.some.injEq, Prod.mk.injEq] at hl
      obtain ⟨rfl, rfl⟩ := hl
      exact ⟨s.log i ++ [e], Function.update_self .., List.prefix_append _ _⟩
    · exact ⟨L, (Function.update_of_ne ht _ _).trans hl, List.prefix_refl L⟩
  | _ => exact ⟨L, hl, List.prefix_refl L⟩

/-- Confirmations are only added for the current term of the party that moves. -/
theorem Step.ack_eq (h : Step members term i s s') {j : ι} {t : ℕ}
    (hne : j ≠ i ∨ t ≠ s.now i) : s'.ack (j, t) = s.ack (j, t) := by
  have hkey : (j, t) ≠ (i, s.now i) := by
    intro heq
    rw [Prod.mk.injEq] at heq
    rcases hne with hne | hne
    · exact hne heq.1
    · exact hne heq.2
  cases h with
  | elect | append | confirm => exact Function.update_of_ne hkey _ _
  | _ => rfl

/-- **Nothing becomes choosable**: parties that have left the term confirm no more in it. -/
theorem Step.choosable (h : Step members term i s s') {t m : ℕ}
    (hc : Choosable members s' t m) : Choosable members s t m := by
  obtain ⟨Q, hQ, hack⟩ := hc
  refine ⟨Q, hQ, fun j hj => ?_⟩
  -- a party confirms only in the term it is in, and terms do not go back
  rcases hack j hj with hle | hle
  · exact .inl (le_trans (h.now_le j) hle)
  · by_cases hkey : j = i ∧ t = s.now i
    · exact .inl (by rw [hkey.1, hkey.2])
    · rw [h.ack_eq (by tauto)] at hle
      exact .inr hle

/-- A prefix that stands did so before, or it is the log that the leader has appended to. -/
theorem Step.stands (h : Step members term i s s') (hinv : Inv members term s) {t : ℕ}
    {P : List E} (hP : Stands term s' t P) : Stands term s t P ∨
      (t = s.now i ∧ s.lead t = some (i, s.log i) ∧ s'.now = s.now ∧ s'.vote = s.vote ∧
        s'.cand = s.cand ∧ (s.log i).length < P.length ∧ s'.log i = P) := by
  obtain ⟨c, L, hl, hPL, Q, e, rfl, he⟩ := hP
  rcases h.lead_inv hl with hold | ⟨ht, rfl, _, rfl, hc, _⟩ |
    ⟨ht, rfl, hlead, hnow, hvote, hcand, e', rfl, he', hlog, _⟩
  · exact .inl ⟨c, L, hold, hPL, Q, e, rfl, he⟩
  · -- a candidate's log has no entries of its own term
    have hlt := (hinv.cand_lt _ t _ hc).2 e (hPL.subset (by simp))
    exact absurd hlt (by rw [he]; exact lt_irrefl t)
  · rcases List.prefix_concat_iff.mp hPL with heq | hold
    · refine .inr ⟨ht, hlead, hnow, hvote, hcand, ?_, ?_⟩
      · rw [heq]
        simp
      · rw [hlog, Function.update_self, heq]
    · exact .inl ⟨c, s.log c, hlead, hold, Q, e, rfl, he⟩

/-- How a log changes: the leader appends, or a party takes over or cuts back to a part of
    the log of the leader of its term. -/
theorem Step.log_inv (h : Step members term i s s') (j : ι) : s'.log j = s.log j ∨ (j = i ∧
    ((∃ e, s.lead (s.now i) = some (i, s.log i) ∧ term e = s.now i ∧ s'.now = s.now ∧
        s'.log i = s.log i ++ [e] ∧ s'.lead (s.now i) = some (i, s.log i ++ [e])) ∨
      (∃ c L, s.lead (s.now i) = some (c, L) ∧ s'.now = s.now ∧ s'.log i <+: L ∧
        ¬ s'.log i <+: s.log i) ∨
      ∃ c L k x y, s.lead (s.now i) = some (c, L) ∧ (s.log i)[k]? = some x ∧ L[k]? = some y ∧
        x ≠ y ∧ s'.now = s.now ∧ s'.log i = (s.log i).take k)) := by
  by_cases hj : j = i
  · subst hj
    cases h with
    | append e hl he =>
      exact .inr ⟨rfl, .inl ⟨e, hl, he, rfl, Function.update_self .., Function.update_self ..⟩⟩
    | replace c L M hl hM hno =>
      refine .inr ⟨rfl, .inr (.inl ⟨c, L, hl, rfl, ?_⟩)⟩
      dsimp only
      rw [Function.update_self]
      exact ⟨hM, hno⟩
    | truncate c L k x y hl hx hy hne =>
      exact .inr ⟨rfl, .inr (.inr ⟨c, L, k, x, y, hl, hx, hy, fun h => hne (congrArg term h), rfl,
        Function.update_self ..⟩)⟩
    | _ => exact .inl rfl
  · cases h with
    | append | replace | truncate => exact .inl (Function.update_of_ne hj _ _)
    | _ => exact .inl rfl

/-- How a vote comes about: for a log that is as up-to-date as the voter's. -/
theorem Step.vote_inv (h : Step members term i s s') {j : ι} {t : ℕ} {c : ι}
    (hv : s'.vote (j, t) = some c) : s.vote (j, t) = some c ∨ (j = i ∧ t = s'.now i ∧
      s'.ack = s.ack ∧ s'.lead = s.lead ∧ ∃ L, s'.cand (c, t) = some L ∧
        UpToDate term L (s.log i) ∧ (s.cand (c, t) = some L ∨ L = s.log i)) := by
  cases h with
  | stand =>
    dsimp only at hv
    by_cases hkey : (j, t) = (i, s.now i + 1)
    · rw [Prod.mk.injEq] at hkey
      obtain ⟨rfl, rfl⟩ := hkey
      rw [Function.update_self, Option.some.injEq] at hv
      subst hv
      have hnow : Function.update s.now j (s.now j + 1) j = s.now j + 1 := Function.update_self ..
      exact .inr ⟨rfl, hnow.symm, rfl, rfl, s.log j, Function.update_self ..,
        .inr ⟨rfl, le_refl _⟩, .inr rfl⟩
    · rw [Function.update_of_ne hkey] at hv
      exact .inl hv
  | grant c' L hfree hc hup =>
    dsimp only at hv
    by_cases hkey : (j, t) = (i, s.now i)
    · rw [Prod.mk.injEq] at hkey
      obtain ⟨rfl, rfl⟩ := hkey
      rw [Function.update_self, Option.some.injEq] at hv
      subst hv
      exact .inr ⟨rfl, rfl, rfl, rfl, L, hc, hup, .inl hc⟩
    · rw [Function.update_of_ne hkey] at hv
      exact .inl hv
  | _ => exact .inl hv

/-- How a candidate comes about: it stands with the log it has. -/
theorem Step.cand_inv (h : Step members term i s s') {c : ι} {t : ℕ} {L : List E}
    (hc : s'.cand (c, t) = some L) : s.cand (c, t) = some L ∨
      (c = i ∧ t = s.now i + 1 ∧ s'.now i = t ∧ L = s.log i) := by
  cases h with
  | stand =>
    dsimp only at hc
    by_cases hkey : (c, t) = (i, s.now i + 1)
    · rw [Prod.mk.injEq] at hkey
      obtain ⟨rfl, rfl⟩ := hkey
      rw [Function.update_self, Option.some.injEq] at hc
      exact .inr ⟨rfl, rfl, Function.update_self .., hc.symm⟩
    · rw [Function.update_of_ne hkey] at hc
      exact .inl hc
  | _ => exact .inl hc

/-- What is confirmed is part of the leader's log. -/
theorem Step.ack_inv (h : Step members term i s s') (hinv : Inv members term s) :
    s'.ack (i, s.now i) = s.ack (i, s.now i) ∨
      ∃ c L, s'.lead (s.now i) = some (c, L) ∧ s'.ack (i, s.now i) ≤ L.length := by
  cases h with
  | elect =>
    exact .inr ⟨i, s.log i, Function.update_self .., le_of_eq (Function.update_self ..)⟩
  | append e hl he =>
    refine .inr ⟨i, s.log i ++ [e], Function.update_self .., le_of_eq ?_⟩
    rw [List.length_append]
    exact Function.update_self ..
  | confirm c L hl hlog =>
    refine .inr ⟨c, L, hl, ?_⟩
    dsimp only
    rw [Function.update_self]
    apply max_le
    · by_cases h0 : s.ack (i, s.now i) = 0
      · rw [h0]
        exact Nat.zero_le _
      · obtain ⟨_, c', L', hl', hle⟩ := hinv.acked i (s.now i) h0
        rw [hl, Option.some.injEq, Prod.mk.injEq] at hl'
        rw [hl'.2]
        exact hle
    · exact hlog.length_le
  | _ => exact .inl rfl

/-- Votes stay. -/
theorem Step.vote_kept (h : Step members term i s s') (hinv : Inv members term s) {j c : ι}
    {t : ℕ} (hv : s.vote (j, t) = some c) : s'.vote (j, t) = some c := by
  cases h with
  | stand =>
    -- the party has not voted in the term in which it stands
    have hkey : (j, t) ≠ (i, s.now i + 1) := by
      intro heq
      rw [Prod.mk.injEq] at heq
      have hle := (hinv.voted j t c hv).1
      rw [heq.1, heq.2] at hle
      omega
    exact (Function.update_of_ne hkey _ _).trans hv
  | grant c' L hfree hc hup =>
    by_cases hkey : (j, t) = (i, s.now i)
    · rw [hkey] at hv ⊢
      rcases hfree with hnone | hsame
      · exact absurd (hv.symm.trans hnone) (by simp)
      · rw [hsame] at hv
        exact (Function.update_self ..).trans hv
    · exact (Function.update_of_ne hkey _ _).trans hv
  | _ => exact hv

/-- The logs of candidates stay. -/
theorem Step.cand_kept (h : Step members term i s s') (hinv : Inv members term s) {c : ι}
    {t : ℕ} {L : List E} (hc : s.cand (c, t) = some L) : s'.cand (c, t) = some L := by
  cases h with
  | stand =>
    have hkey : (c, t) ≠ (i, s.now i + 1) := by
      intro heq
      rw [Prod.mk.injEq] at heq
      have hle := (hinv.cand_lt c t L hc).1
      rw [heq.1, heq.2] at hle
      omega
    exact (Function.update_of_ne hkey _ _).trans hc
  | _ => exact hc

/-- Confirmations stay. -/
theorem Step.ack_le (h : Step members term i s s') (hinv : Inv members term s) (x : ι × ℕ) :
    s.ack x ≤ s'.ack x := by
  have hup : ∀ v, s.ack (i, s.now i) ≤ v → s.ack x ≤ Function.update s.ack (i, s.now i) v x := by
    intro v hv
    rw [Function.update_apply]
    split
    · rename_i hx
      rw [hx]
      exact hv
    · exact le_refl _
  cases h with
  | elect V hV hvotes hc hl =>
    -- nobody has confirmed anything in a term without a leader
    apply hup
    by_cases h0 : s.ack (i, s.now i) = 0
    · rw [h0]
      exact Nat.zero_le _
    · obtain ⟨_, c, L, hl', _⟩ := hinv.acked i (s.now i) h0
      exact absurd (hl.symm.trans hl') (by simp)
  | append e hl he =>
    apply hup
    by_cases h0 : s.ack (i, s.now i) = 0
    · rw [h0]
      exact Nat.zero_le _
    · obtain ⟨_, c, L, hl', hle⟩ := hinv.acked i (s.now i) h0
      rw [hl, Option.some.injEq, Prod.mk.injEq] at hl'
      obtain ⟨_, rfl⟩ := hl'
      exact Nat.le_succ_of_le hle
  | confirm c L hl hlog => exact hup _ (le_max_left _ _)
  | _ => exact le_refl _

end Inversion

/-! ### Every step keeps the invariants -/

section Preservation

variable {members term} {i : ι} {s s' : State ι E}

omit [DecidableEq ι] in
/-- A log that is traced stays so when the leader's logs grow. -/
theorem Traced.grow {l : List E} (h : Traced term s l)
    (hlead : ∀ t c L, s.lead t = some (c, L) → ∃ L', s'.lead t = some (c, L') ∧ L <+: L') :
    Traced term s' l := by
  intro P e hP
  obtain ⟨c, L, hl, hPL⟩ := h P e hP
  obtain ⟨L', hl', hL⟩ := hlead _ c L hl
  exact ⟨c, L', hl', hPL.trans hL⟩

omit [DecidableEq ι] in
/-- A traced log that the leader of a term extends by an entry of the term is traced. -/
theorem Traced.concat {l : List E} {e : E} (h : Traced term s l) {c : ι}
    (hl : s.lead (term e) = some (c, l ++ [e])) : Traced term s (l ++ [e]) := by
  intro P e' hP
  rcases List.prefix_concat_iff.mp hP with heq | hold
  · obtain ⟨hPl, hee⟩ := List.append_inj' heq rfl
    obtain rfl := List.singleton_inj.mp hee
    exact ⟨c, l ++ [e'], hl, hP⟩
  · exact h P e' hold

/-- A step keeps every log traced. -/
theorem Step.traced (h : Step members term i s s') (hinv : Inv members term s) (j : ι) :
    Traced term s' (s'.log j) := by
  have hgrow : ∀ {l}, Traced term s l → Traced term s' l := fun ht =>
    ht.grow fun t c L hl => h.lead_grows hl
  rcases h.log_inv j with heq | ⟨rfl, ⟨e, hl, he, _, hlog, hl'⟩ | ⟨c, L, hl, _, hL, _⟩ |
    ⟨c, L, k, x, y, _, _, _, _, _, hlog⟩⟩
  · rw [heq]
    exact hgrow (hinv.traced j)
  · rw [hlog]
    exact (hgrow (hinv.traced j)).concat (by rw [he]; exact hl')
  · exact hgrow ((hinv.traced_lead _ c L hl).restrict hL)
  · rw [hlog]
    exact hgrow ((hinv.traced j).restrict (List.take_prefix _ _))

/-- A step keeps the logs of leaders traced. -/
theorem Step.traced_lead (h : Step members term i s s') (hinv : Inv members term s) {t : ℕ}
    {c : ι} {L : List E} (hl : s'.lead t = some (c, L)) : Traced term s' L := by
  have hgrow : ∀ {l}, Traced term s l → Traced term s' l := fun ht =>
    ht.grow fun t c L hl => h.lead_grows hl
  rcases h.lead_inv hl with hold | ⟨_, _, _, rfl, _⟩ | ⟨_, rfl, _, _, _, _, e, rfl, he, _⟩
  · exact hgrow (hinv.traced_lead t c L hold)
  · exact hgrow (hinv.traced i)
  · exact (hgrow (hinv.traced c)).concat (by rw [he]; exact hl)

/-- A step leaves no entry of a log ahead of its party. -/
theorem Step.log_le (h : Step members term i s s') (hinv : Inv members term s) (j : ι) :
    ∀ e ∈ s'.log j, term e ≤ s'.now j := by
  intro e he
  rcases h.log_inv j with heq | ⟨rfl, ⟨e', hl, he', hnow, hlog, _⟩ | ⟨c, L, hl, hnow, hL, _⟩ |
    ⟨c, L, k, x, y, _, _, _, _, hnow, hlog⟩⟩
  · rw [heq] at he
    exact le_trans (hinv.log_le j e he) (h.now_le j)
  · rw [hlog] at he
    rw [hnow]
    rcases List.mem_append.mp he with he | he
    · exact hinv.log_le j e he
    · rw [List.mem_singleton.mp he, he']
  · rw [hnow]
    exact hinv.lead_le _ c L hl e (hL.subset he)
  · rw [hlog] at he
    rw [hnow]
    exact hinv.log_le j e (List.mem_of_mem_take he)

/-- A step leaves no entry of a leader's log ahead of its term. -/
theorem Step.lead_le (h : Step members term i s s') (hinv : Inv members term s) {t : ℕ} {c : ι}
    {L : List E} (hl : s'.lead t = some (c, L)) : ∀ e ∈ L, term e ≤ t := by
  intro e he
  rcases h.lead_inv hl with hold | ⟨_, _, _, rfl, hc, _⟩ | ⟨_, rfl, hold, _, _, _, e', rfl, he', _⟩
  · exact hinv.lead_le t c L hold e he
  · exact le_of_lt ((hinv.cand_lt i t _ hc).2 e he)
  · rcases List.mem_append.mp he with he | he
    · exact hinv.lead_le t c _ hold e he
    · rw [List.mem_singleton.mp he, he']

/-- A step leaves candidates at or past their term, with entries of earlier terms only. -/
theorem Step.cand_lt (h : Step members term i s s') (hinv : Inv members term s) {c : ι} {t : ℕ}
    {L : List E} (hc : s'.cand (c, t) = some L) : t ≤ s'.now c ∧ ∀ e ∈ L, term e < t := by
  rcases h.cand_inv hc with hold | ⟨rfl, rfl, hnow, rfl⟩
  · obtain ⟨hle, hlt⟩ := hinv.cand_lt c t L hold
    exact ⟨le_trans hle (h.now_le c), hlt⟩
  · exact ⟨le_of_eq hnow.symm, fun e he => Nat.lt_succ_of_le (hinv.log_le c e he)⟩

/-- Behind a step, a majority has voted for each leader. -/
theorem Step.elected (h : Step members term i s s') (hinv : Inv members term s) {t : ℕ} {c : ι}
    {L : List E} (hl : s'.lead t = some (c, L)) :
    ∃ V, Majority members V ∧ ∀ j ∈ V, s'.vote (j, t) = some c := by
  have hkept : ∀ {c}, (∃ V, Majority members V ∧ ∀ j ∈ V, s.vote (j, t) = some c) →
      ∃ V, Majority members V ∧ ∀ j ∈ V, s'.vote (j, t) = some c := by
    rintro c ⟨V, hV, hvotes⟩
    exact ⟨V, hV, fun j hj => h.vote_kept hinv (hvotes j hj)⟩
  rcases h.lead_inv hl with hold | ⟨_, rfl, _, _, _, _, _, _, hvotes⟩ | ⟨_, rfl, hold, _⟩
  · exact hkept (hinv.elected t c L hold)
  · exact hkept hvotes
  · exact hkept (hinv.elected t c _ hold)

/-- Behind a step, votes are for candidates of a term that their voter has come to. -/
theorem Step.voted (h : Step members term i s s') (hinv : Inv members term s) {j : ι} {t : ℕ}
    {c : ι} (hv : s'.vote (j, t) = some c) : t ≤ s'.now j ∧ ∃ L, s'.cand (c, t) = some L := by
  rcases h.vote_inv hv with hold | ⟨rfl, ht, _, _, L, hc, _⟩
  · obtain ⟨hle, L, hc⟩ := hinv.voted j t c hold
    exact ⟨le_trans hle (h.now_le j), L, h.cand_kept hinv hc⟩
  · exact ⟨le_of_eq ht, L, hc⟩

/-- Behind a step, confirmations are of the log of a leader. -/
theorem Step.acked (h : Step members term i s s') (hinv : Inv members term s) {j : ι} {t : ℕ}
    (hne : s'.ack (j, t) ≠ 0) :
    t ≤ s'.now j ∧ ∃ c L, s'.lead t = some (c, L) ∧ s'.ack (j, t) ≤ L.length := by
  have hold : s'.ack (j, t) = s.ack (j, t) →
      t ≤ s'.now j ∧ ∃ c L, s'.lead t = some (c, L) ∧ s'.ack (j, t) ≤ L.length := by
    intro heq
    rw [heq] at hne ⊢
    obtain ⟨hle, c, L, hl, hL⟩ := hinv.acked j t hne
    obtain ⟨L', hl', hLL'⟩ := h.lead_grows hl
    exact ⟨le_trans hle (h.now_le j), c, L', hl', le_trans hL hLL'.length_le⟩
  by_cases hkey : j = i ∧ t = s.now i
  · obtain ⟨rfl, rfl⟩ := hkey
    rcases h.ack_inv hinv with heq | hnew
    · exact hold heq
    · exact ⟨h.now_le j, hnew⟩
  · exact hold (h.ack_eq (by tauto))

/-! What is choosable. -/

omit [DecidableEq ι] in
/-- The leader of the current or a later term has what stands and is choosable. -/
theorem Inv.prefix_leader (h : Inv members term s) {t t' : ℕ} {P : List E}
    (hP : Stands term s t P) (hch : Choosable members s t P.length) (ht : t ≤ t') {c : ι}
    {L : List E} (hl : s.lead t' = some (c, L)) : P <+: L := by
  rcases Nat.lt_or_eq_of_le ht with hlt | heq
  · exact h.complete t t' P c L hP hch hlt hl
  · exact hP.prefix_lead (heq ▸ hl)

omit [DecidableEq ι] in
/-- **Up-to-date logs dominate**: what stands, is choosable and is part of a log is part of
    every log that is at least as up-to-date. -/
theorem Inv.dominate (h : Inv members term s) {t : ℕ} {P l L : List E} (hP : Stands term s t P)
    (hch : Choosable members s t P.length) (hl : Traced term s l) (hL : Traced term s L)
    (hPl : P <+: l) (hup : UpToDate term L l) : P <+: L := by
  have hpos := hP.pos
  obtain ⟨c, Lt, hlead, hPLt, Q, e, rfl, rfl⟩ := hP
  -- the last entry of `l` is of the term of `P` or a later one
  obtain ⟨R, x, rfl⟩ : ∃ R x, l = R ++ [x] := by
    rcases List.eq_nil_or_concat l with rfl | h
    · exact absurd (List.prefix_nil.mp hPl) (by simp)
    · simpa using h
  obtain ⟨cx, Lx, hlx, hRx⟩ := hl R x (List.prefix_refl _)
  have hle : term e ≤ term x := h.lead_le _ cx Lx hlx e
    ((hPl.trans hRx).subset (by simp))
  have hlast : ∀ R x, lastTerm term (R ++ [x]) = term x := by
    intro R x
    simp [lastTerm]
  rcases List.eq_nil_or_concat L with rfl | ⟨R', y, hy⟩
  · -- an empty log is not up-to-date
    rcases hup with hlt | ⟨_, hlen⟩
    · exact absurd hlt (Nat.not_lt_zero _)
    · exact absurd hlen (by simp)
  · rw [List.concat_eq_append] at hy
    subst hy
    obtain ⟨cy, Ly, hly, hRy⟩ := hL R' y (List.prefix_refl _)
    unfold UpToDate at hup
    rw [hlast, hlast] at hup
    rcases hup with hlt | ⟨heq, hlen⟩
    · -- the last entry of `L` is of a later term, whose leader has `P`
      have hPLy : Q ++ [e] <+: Ly :=
        h.complete _ _ _ cy Ly ⟨c, Lt, hlead, hPLt, Q, e, rfl, rfl⟩ hch (lt_of_le_of_lt hle hlt) hly
      rcases List.prefix_or_prefix_of_prefix hPLy hRy with hgood | hbad
      · exact hgood
      · have hyle := h.lead_le _ c Lt hlead y ((hbad.trans hPLt).subset (by simp))
        omega
    · -- both logs are parts of the log of one leader
      rw [heq, hlx, Option.some.injEq, Prod.mk.injEq] at hly
      obtain ⟨_, rfl⟩ := hly
      exact hPl.trans (List.prefix_of_prefix_length_le hRx hRy hlen)

/-- What a party has confirmed, is choosable and stands, is in its log before the step. -/
theorem Step.prefix_log (h : Step members term i s s') (hinv : Inv members term s) {j : ι}
    {t : ℕ} {P : List E} (hP : Stands term s t P) (hch : Choosable members s t P.length)
    (hack : P.length ≤ s'.ack (j, t)) : t ≤ s.now j ∧ P <+: s.log j := by
  have hold : P.length ≤ s.ack (j, t) → t ≤ s.now j ∧ P <+: s.log j := by
    intro hle
    have hne : s.ack (j, t) ≠ 0 := by
      have hpos := hP.pos
      omega
    exact ⟨(hinv.acked j t hne).1, hinv.kept j t P hP hch hle⟩
  -- only the party that moves confirms more, and only in its own term
  by_cases hkey : j = i ∧ t = s.now i
  · obtain ⟨rfl, rfl⟩ := hkey
    cases h with
    | elect V hV hvotes hc hl =>
      obtain ⟨c, L, hl', _⟩ := hP
      exact absurd (hl.symm.trans hl') (by simp)
    | append e hl he => exact ⟨le_refl _, hP.prefix_lead hl⟩
    | confirm c L hl hlog =>
      dsimp only at hack
      rw [Function.update_self] at hack
      rcases le_max_iff.mp hack with hle | hle
      · exact hold hle
      · exact ⟨le_refl _, List.prefix_of_prefix_length_le (hP.prefix_lead hl) hlog hle⟩
    | _ => exact hold hack
  · rw [h.ack_eq (by tauto)] at hack
    exact hold hack

/-- A log keeps what is choosable and stands in a term up to that of the party. -/
theorem Step.prefix_kept (h : Step members term i s s') (hinv : Inv members term s) {j : ι}
    {t : ℕ} {P : List E} (hP : Stands term s t P) (hch : Choosable members s t P.length)
    (ht : t ≤ s.now j) (hlog : P <+: s.log j) : P <+: s'.log j := by
  rcases h.log_inv j with heq | ⟨rfl, ⟨e, _, _, _, hnew, _⟩ | ⟨c, L, hl, _, hL, hno⟩ |
    ⟨c, L, k, x, y, hl, hx, hy, hne, _, hnew⟩⟩
  · rw [heq]
    exact hlog
  · rw [hnew]
    exact hlog.trans (List.prefix_append _ _)
  · exact prefix_of_replace (hinv.prefix_leader hP hch ht hl) hlog hL hno
  · rw [hnew]
    exact prefix_of_truncate (hinv.prefix_leader hP hch ht hl) hlog hx hy hne

/-- No party but the leader has confirmed what the leader has just appended. -/
theorem Step.not_acked (h : Step members term i s s') (hinv : Inv members term s)
    (hl : s.lead (s.now i) = some (i, s.log i)) {j : ι} (hj : j ≠ i) {m : ℕ}
    (hm : (s.log i).length < m) : ¬ m ≤ s'.ack (j, s.now i) := by
  intro hle
  rw [h.ack_eq (.inl hj)] at hle
  obtain ⟨_, c, L, hl', hL⟩ := hinv.acked j (s.now i) (by omega)
  rw [hl, Option.some.injEq, Prod.mk.injEq] at hl'
  rw [← hl'.2] at hL
  omega

/-- **A step keeps what a party has confirmed** in its log, while it may be chosen. -/
theorem Step.kept (h : Step members term i s s') (hinv : Inv members term s) {j : ι} {t : ℕ}
    {P : List E} (hP : Stands term s' t P) (hch : Choosable members s' t P.length)
    (hack : P.length ≤ s'.ack (j, t)) : P <+: s'.log j := by
  rcases h.stands hinv hP with hold | ⟨rfl, hl, _, _, _, hlen, hlog⟩
  · obtain ⟨ht, hPlog⟩ := h.prefix_log hinv hold (h.choosable hch) hack
    exact h.prefix_kept hinv hold (h.choosable hch) ht hPlog
  · by_cases hj : j = i
    · rw [hj, hlog]
    · exact absurd hack (h.not_acked hinv hl hj hlen)

/-- **A step keeps leaders complete**: they have what may have been chosen before their term. -/
theorem Step.complete (h : Step members term i s s') (hinv : Inv members term s) {t t' : ℕ}
    {P : List E} {c : ι} {L : List E} (hP : Stands term s' t P)
    (hch : Choosable members s' t P.length) (ht : t < t') (hl : s'.lead t' = some (c, L)) :
    P <+: L := by
  rcases h.stands hinv hP with hold | ⟨rfl, hlead, hnow, hvote, _, hlen, _⟩
  · have hch' := h.choosable hch
    -- the later leader was there, has just won, or has just appended
    rcases h.lead_inv hl with hlold | ⟨_, rfl, _, rfl, hc, _, hnow, _, V, hV, hvotes⟩ |
      ⟨_, rfl, hlold, _, _, _, e, rfl, _⟩
    · exact hinv.complete t t' P c L hold hch' ht hlold
    · -- a voter of the new leader has confirmed `P`, and voted for a log that has it
      obtain ⟨Q, hQ, hQack⟩ := hch'
      obtain ⟨j, hjV, hjQ⟩ := hV.exists_common hQ
      have hle := (hinv.voted j t' c (hvotes j hjV)).1
      rcases hQack j hjQ with hlate | hack
      · exact absurd (lt_of_lt_of_le ht (le_trans hle hlate)) (lt_irrefl t)
      · exact hinv.promised j t t' c _ P (hvotes j hjV) hc ht hold ⟨Q, hQ, hQack⟩ hack
    · exact (hinv.complete t t' P c _ hold hch' ht hlold).trans (List.prefix_append _ _)
  · -- a majority has left the term of the leader that has just appended
    obtain ⟨V, hV, hvotes⟩ := h.elected hinv hl
    obtain ⟨Q, hQ, hQack⟩ := hch
    obtain ⟨j, hjV, hjQ⟩ := hV.exists_common hQ
    have hle := (h.voted hinv (hvotes j hjV)).1
    rcases hQack j hjQ with hlate | hack
    · exact absurd (lt_of_lt_of_le ht (le_trans hle hlate)) (lt_irrefl _)
    · refine absurd hack (h.not_acked hinv hlead ?_ hlen)
      rintro rfl
      rw [hnow] at hle
      exact absurd (lt_of_lt_of_le ht hle) (lt_irrefl _)

/-- **A step keeps votes promises**: who confirmed what may be chosen votes for those who have
    it. -/
theorem Step.promised (h : Step members term i s s') (hinv : Inv members term s) {j : ι}
    {t t' : ℕ} {c : ι} {L P : List E} (hv : s'.vote (j, t') = some c)
    (hc : s'.cand (c, t') = some L) (ht : t < t') (hP : Stands term s' t P)
    (hch : Choosable members s' t P.length) (hack : P.length ≤ s'.ack (j, t)) : P <+: L := by
  rcases h.stands hinv hP with hold | ⟨rfl, hl, hnow, hvote, hcand, hlen, _⟩
  · have hch' := h.choosable hch
    -- a new vote goes to a log that is as up-to-date as the one with the confirmed part
    rcases h.vote_inv hv with hv | ⟨rfl, ht', hsame, _, L', hc', hup, hL'⟩
    · -- the vote is an old one, so the confirmation is one too
      obtain ⟨hle, L', hc'⟩ := hinv.voted j t' c hv
      obtain rfl := Option.some.inj ((h.cand_kept hinv hc').symm.trans hc)
      have hackold : P.length ≤ s.ack (j, t) := by
        rw [← h.ack_eq (j := j) (t := t) (by
          by_cases hj : j = i
          · subst hj
            exact .inr (by omega)
          · exact .inl hj)]
        exact hack
      exact hinv.promised j t t' c L' P hv hc' ht hold hch' hackold
    · obtain rfl := Option.some.inj (hc'.symm.trans hc)
      rw [hsame] at hack
      have hlog := hinv.kept j t P hold hch' hack
      rcases hL' with hcand | rfl
      · exact hinv.dominate hold hch' (hinv.traced j) (hinv.traced_cand c t' _ hcand) hlog hup
      · exact hlog
  · by_cases hj : j = i
    · subst hj
      have hle := (h.voted hinv hv).1
      rw [hnow] at hle
      exact absurd (lt_of_lt_of_le ht hle) (lt_irrefl _)
    · exact absurd hack (h.not_acked hinv hl hj hlen)

/-- **Every step keeps the invariants.** -/
theorem Inv.step (hinv : Inv members term s) (h : Step members term i s s') :
    Inv members term s' where
  traced := h.traced hinv
  traced_lead _ _ _ hl := h.traced_lead hinv hl
  traced_cand c t L hc := by
    have hgrow : ∀ {l}, Traced term s l → Traced term s' l := fun ht =>
      ht.grow fun t c L hl => h.lead_grows hl
    rcases h.cand_inv hc with hold | ⟨rfl, _, _, rfl⟩
    · exact hgrow (hinv.traced_cand c t L hold)
    · exact hgrow (hinv.traced c)
  log_le := h.log_le hinv
  lead_le _ _ _ hl := h.lead_le hinv hl
  cand_lt _ _ _ hc := h.cand_lt hinv hc
  elected _ _ _ hl := h.elected hinv hl
  voted _ _ _ hv := h.voted hinv hv
  acked _ _ hne := h.acked hinv hne
  complete _ _ _ _ _ hP hch ht hl := h.complete hinv hP hch ht hl
  kept _ _ _ hP hch hack := h.kept hinv hP hch hack
  promised _ _ _ _ _ _ hv hc ht hP hch hack := h.promised hinv hv hc ht hP hch hack

end Preservation

/-! ### Runs -/

/-- The steps party `i` takes one after another. -/
abbrev Runs (members : Finset ι) (term : E → ℕ) (i : ι) : State ι E → State ι E → Prop :=
  Relation.ReflTransGen (Step members term i)

/-- What moves of party `i` do to the records: they grow, and those of the others stay. -/
structure Moves (i : ι) (s s' : State ι E) : Prop where
  vote : ∀ x c, s.vote x = some c → s'.vote x = some c
  cand : ∀ x L, s.cand x = some L → s'.cand x = some L
  lead : ∀ t c L, s.lead t = some (c, L) → ∃ L', s'.lead t = some (c, L') ∧ L <+: L'
  ack : ∀ x, s.ack x ≤ s'.ack x
  now_of_ne : ∀ j, j ≠ i → s'.now j = s.now j
  log_of_ne : ∀ j, j ≠ i → s'.log j = s.log j
  lead_of_ne : ∀ t c L, c ≠ i → s'.lead t = some (c, L) → s.lead t = some (c, L)

section Runs

variable {members term} {i : ι} {s s' : State ι E}

omit [DecidableEq ι] in
/-- A state that stays as it is has moved, too. -/
theorem Moves.refl (i : ι) (s : State ι E) : Moves i s s where
  vote _ _ h := h
  cand _ _ h := h
  lead _ _ L h := ⟨L, h, List.prefix_refl L⟩
  ack _ := le_refl _
  now_of_ne _ _ := rfl
  log_of_ne _ _ := rfl
  lead_of_ne _ _ _ _ h := h

omit [DecidableEq ι] in
/-- Moves one after the other make one move. -/
theorem Moves.trans {s'' : State ι E} (h : Moves i s s') (h' : Moves i s' s'') : Moves i s s'' where
  vote x c hv := h'.vote x c (h.vote x c hv)
  cand x L hc := h'.cand x L (h.cand x L hc)
  lead t c L hl := by
    obtain ⟨L', hl', hL⟩ := h.lead t c L hl
    obtain ⟨L'', hl'', hL'⟩ := h'.lead t c L' hl'
    exact ⟨L'', hl'', hL.trans hL'⟩
  ack x := le_trans (h.ack x) (h'.ack x)
  now_of_ne j hj := (h'.now_of_ne j hj).trans (h.now_of_ne j hj)
  log_of_ne j hj := (h'.log_of_ne j hj).trans (h.log_of_ne j hj)
  lead_of_ne t c L hc hl := h.lead_of_ne t c L hc (h'.lead_of_ne t c L hc hl)

/-- What a step does to the records. -/
theorem Step.moves (h : Step members term i s s') (hinv : Inv members term s) : Moves i s s' where
  vote x c hv := h.vote_kept (j := x.1) (t := x.2) hinv hv
  cand x L hc := h.cand_kept (c := x.1) (t := x.2) hinv hc
  lead _ _ _ hl := h.lead_grows hl
  ack := h.ack_le hinv
  now_of_ne _ hj := h.now_eq hj
  log_of_ne j hj := by
    rcases h.log_inv j with heq | ⟨rfl, _⟩
    · exact heq
    · exact absurd rfl hj
  lead_of_ne t c L hc hl := by
    rcases h.lead_inv hl with hold | ⟨_, rfl, _⟩ | ⟨_, rfl, _⟩
    · exact hold
    · exact absurd rfl hc
    · exact absurd rfl hc

/-- **Runs keep the invariants**, and the records only grow. -/
theorem Inv.run (hinv : Inv members term s) (h : Runs members term i s s') :
    Inv members term s' ∧ Moves i s s' := by
  induction h with
  | refl => exact ⟨hinv, Moves.refl i s⟩
  | tail _ hstep ih =>
    obtain ⟨hinv', hmoves⟩ := ih
    exact ⟨hinv'.step hstep, hmoves.trans (hstep.moves hinv')⟩

omit [DecidableEq ι] in
/-- A prefix that stands keeps standing. -/
theorem Stands.mono {t : ℕ} {P : List E} (h : Stands term s t P) (hm : Moves i s s') :
    Stands term s' t P := by
  obtain ⟨c, L, hl, hP, hlast⟩ := h
  obtain ⟨L', hl', hL⟩ := hm.lead t c L hl
  exact ⟨c, L', hl', hP.trans hL, hlast⟩

omit [DecidableEq ι] in
/-- What is chosen stays so. -/
theorem Chosen.mono {t m : ℕ} (h : Chosen members s t m) (hm : Moves i s s') :
    Chosen members s' t m := by
  obtain ⟨Q, hQ, hack⟩ := h
  exact ⟨Q, hQ, fun j hj => le_trans (hack j hj) (hm.ack (j, t))⟩

omit [DecidableEq ι] in
/-- What is certified stays so. -/
theorem Certified.mono {t : ℕ} {P : List E} (h : Certified members term s t P)
    (hm : Moves i s s') : Certified members term s' t P := by
  rcases h with rfl | ⟨t₀, ht₀, P₀, hstands, hchosen, hP₀⟩
  · exact .inl rfl
  · exact .inr ⟨t₀, ht₀, P₀, hstands.mono hm, hchosen.mono hm, hP₀⟩

/-! What a party does on a message: it first goes to the term of the message. -/

section Derived

variable {t : ℕ}

/-- The state after party `i` has gone to term `t`. -/
abbrev State.raise (s : State ι E) (i : ι) (t : ℕ) : State ι E :=
  { s with now := Function.update s.now i t }

/-- A party may go to a later term. -/
theorem Runs.raise (ht : s.now i ≤ t) : Runs members term i s (s.raise i t) := .single (.raise t ht)

/-- A party that goes to a term is in it. -/
theorem State.raise_now (s : State ι E) (i : ι) (t : ℕ) : (s.raise i t).now i = t :=
  Function.update_self ..

/-- Going to the term of a candidate and voting for it. -/
theorem Runs.grant {c : ι} {L : List E} (ht : s.now i ≤ t)
    (hv : s.vote (i, t) = none ∨ s.vote (i, t) = some c) (hc : s.cand (c, t) = some L)
    (hup : UpToDate term L (s.log i)) : Runs members term i s
      { s.raise i t with vote := Function.update s.vote (i, t) (some c) } := by
  have hnow := s.raise_now i t
  have hstep : Step members term i (s.raise i t) _ :=
    .grant c L (by rwa [hnow]) (by rwa [hnow]) hup
  rw [hnow] at hstep
  exact (Runs.raise ht).tail hstep

/-- Going to the term of a leader and cutting the log where it differs. -/
theorem Runs.truncate {c : ι} {L : List E} {k : ℕ} {x y : E} (ht : s.now i ≤ t)
    (hl : s.lead t = some (c, L)) (hx : (s.log i)[k]? = some x) (hy : L[k]? = some y)
    (hne : term x ≠ term y) : Runs members term i s
      { s.raise i t with log := Function.update s.log i ((s.log i).take k) } :=
  (Runs.raise ht).tail (Step.truncate c L k x y (by rwa [s.raise_now i t]) hx hy hne)

/-- Going to the term of a leader and confirming the log. -/
theorem Runs.confirm {c : ι} {L : List E} (ht : s.now i ≤ t) (hl : s.lead t = some (c, L))
    (hlog : s.log i <+: L) :
    Runs members term i s
      { s.raise i t with
        ack := Function.update s.ack (i, t) (max (s.ack (i, t)) (s.log i).length) } := by
  have hnow := s.raise_now i t
  have hstep : Step members term i (s.raise i t) _ := .confirm c L (by rwa [hnow]) hlog
  rw [hnow] at hstep
  exact (Runs.raise ht).tail hstep

/-- Going to the term of a leader, taking over a part of its log and confirming it. -/
theorem Runs.replace {c : ι} {L M : List E} (ht : s.now i ≤ t) (hl : s.lead t = some (c, L))
    (hM : M <+: L) (hno : ¬ M <+: s.log i) :
    Runs members term i s
      { s.raise i t with
        log := Function.update s.log i M
        ack := Function.update s.ack (i, t) (max (s.ack (i, t)) M.length) } := by
  have hnow := s.raise_now i t
  have hstep : Step members term i (s.raise i t) _ := .replace c L M (by rwa [hnow]) hM hno
  have hlog : Function.update s.log i M i = M := Function.update_self ..
  have hconfirm : Step members term i { s.raise i t with log := Function.update s.log i M } _ :=
    .confirm c L (by rwa [hnow]) (by dsimp only; rwa [hlog])
  dsimp only at hconfirm
  rw [hlog] at hconfirm
  have hnow' : Function.update s.now i t i = t := Function.update_self ..
  rw [hnow'] at hconfirm
  exact ((Runs.raise ht).tail hstep).tail hconfirm

end Derived

end Runs

/-- The state in which nothing has happened. -/
def State.initial : State ι E where
  now _ := 0
  log _ := []
  vote _ := none
  cand _ := none
  lead _ := none
  ack _ := 0

omit [DecidableEq ι] in
/-- The invariants hold at the start. -/
theorem Inv.initial : Inv members term (State.initial : State ι E) where
  traced i P e h := absurd (List.prefix_nil.mp h) (by simp)
  traced_lead _ _ _ h := absurd h (by simp [State.initial])
  traced_cand _ _ _ h := absurd h (by simp [State.initial])
  log_le _ _ h := absurd h (by simp [State.initial])
  lead_le _ _ _ h := absurd h (by simp [State.initial])
  cand_lt _ _ _ h := absurd h (by simp [State.initial])
  elected _ _ _ h := absurd h (by simp [State.initial])
  voted _ _ _ h := absurd h (by simp [State.initial])
  acked _ _ h := absurd rfl h
  complete _ _ _ _ _ _ _ _ h := absurd h (by simp [State.initial])
  kept _ _ _ h := by
    obtain ⟨_, _, hl, _⟩ := h
    exact absurd hl (by simp [State.initial])
  promised _ _ _ _ _ _ h := absurd h (by simp [State.initial])

end Replication
