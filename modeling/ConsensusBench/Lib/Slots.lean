import ConsensusBench.Lib.AsyncNet
import ConsensusBench.Lib.HashMap

namespace AsyncNet

/-!
# Slots with their values

A party that agrees on one value under each key has a slot for the progress on a key and, apart from
the slots, the values of those that are open.  A slot is opened together with its value, and closed
as the value is taken out.

* `Slots.Backed` — no open slot is without its value.
* `Slots.Accounted` — what is to be shown of a slot behind a step, with a lemma for each of the ways
  in which a slot gets there.
* `Slots.Kept` — steps that account for their slots; so open slots are backed (`Kept.backed`), and
  closed ones have had their values taken (`Kept.taken_of_closed`).
-/

variable {ι σ α μ K Slot P : Type} [DecidableEq K]

/-- How to read slots off the state of a party. -/
structure Slots (σ K Slot P : Type) where
  slots : σ → HashMap K Slot
  pending : σ → HashMap K P
  closed : Slot → Prop

namespace Slots

variable (B : Slots σ K Slot P)

/-- The slot of `k` is closed. -/
def Closed (s : σ) (k : K) : Prop := ∃ slot, (B.slots s).lookup k = some slot ∧ B.closed slot

/-- Every open slot has its value pending. -/
def Backed (s : σ) : Prop :=
  ∀ k slot, (B.slots s).lookup k = some slot → ¬B.closed slot →
    ∃ p, (B.pending s).lookup k = some p

/-- Behind a step from `s` to `s'` the slot of `k` has its value or is closed; and if it is closed,
    it was before, or the step takes the value of `k`. -/
structure Accounted (taken : K → Prop) (s s' : σ) (k : K) (slot : Slot) : Prop where
  pending : ¬B.closed slot → ∃ p, (B.pending s').lookup k = some p
  done : B.closed slot → (B.slots s).lookup k = some slot ∨ taken k

section Steps

variable {B} {taken : K → Prop} {s s' : σ} {k k' : K} {slot slot' slot₀ : Slot} {p : P}

/-- A slot that was there before, with the values as before. -/
theorem Backed.keep (hb : B.Backed s) (hp : B.pending s' = B.pending s)
    (hs : (B.slots s).lookup k = some slot) : B.Accounted taken s s' k slot where
  pending hopen := by
    rw [hp]
    exact hb k slot hs hopen
  done _ := .inl hs

/-- A closed slot that was there before. -/
theorem Accounted.retained (hs : (B.slots s).lookup k = some slot) (hclosed : B.closed slot) :
    B.Accounted taken s s' k slot :=
  ⟨fun hopen => absurd hclosed hopen, fun _ => .inl hs⟩

/-- The slots behind a step that updates an open slot and leaves it open. -/
theorem Backed.update (hb : B.Backed s) (hp : B.pending s' = B.pending s)
    (hs₀ : (B.slots s).lookup k' = some slot₀) (hopen₀ : ¬B.closed slot₀)
    (hopen' : ¬B.closed slot') (hs : ((B.slots s).insert k' slot').lookup k = some slot) :
    B.Accounted taken s s' k slot := by
  rcases HashMap.of_lookup_insert hs with ⟨rfl, rfl⟩ | ⟨_, hs⟩
  · refine ⟨fun _ => ?_, fun hclosed => absurd hclosed hopen'⟩
    rw [hp]
    exact hb k slot₀ hs₀ hopen₀
  · exact hb.keep hp hs

/-- The slots behind a step that opens one with its value. -/
theorem Backed.opens (hb : B.Backed s) (hopen' : ¬B.closed slot')
    (hp : B.pending s' = (B.pending s).insert k' p)
    (hs : ((B.slots s).insert k' slot').lookup k = some slot) : B.Accounted taken s s' k slot := by
  rcases HashMap.of_lookup_insert hs with ⟨rfl, rfl⟩ | ⟨hne, hs⟩
  · refine ⟨fun _ => ⟨p, ?_⟩, fun hclosed => absurd hclosed hopen'⟩
    rw [hp, HashMap.lookup_insert_ite, if_pos rfl]
  · refine ⟨fun hopen => ?_, fun _ => .inl hs⟩
    rw [hp, HashMap.lookup_insert_ite, if_neg hne]
    exact hb k slot hs hopen

/-- The slots behind a step that closes one and takes its value. -/
theorem Backed.closes (hb : B.Backed s) (hclosed' : B.closed slot') (htaken : taken k')
    (hp : B.pending s' = (B.pending s).erase k')
    (hs : ((B.slots s).insert k' slot').lookup k = some slot) : B.Accounted taken s s' k slot := by
  rcases HashMap.of_lookup_insert hs with ⟨rfl, rfl⟩ | ⟨hne, hs⟩
  · exact ⟨fun hopen => absurd hclosed' hopen, fun _ => .inr htaken⟩
  · refine ⟨fun hopen => ?_, fun _ => .inl hs⟩
    rw [hp, HashMap.lookup_erase_ite, if_neg hne]
    exact hb k slot hs hopen

end Steps

/-! ### Runs -/

/-- A system whose parties start without slots, and whose steps account for theirs; step `o` takes
    the values of the keys for which `taken o` holds. -/
structure Kept (S : System ι σ α μ) [DecidableEq ι] (ok : System.Guard ι σ α μ)
    (taken : Occurrence ι σ α μ → K → Prop) : Prop where
  init : ∀ i, B.slots (S.init i) = ∅
  step : ∀ w o, S.Reach ok w → S.Fires w o → B.Backed o.before → ∀ k slot,
    (B.slots o.after).lookup k = some slot → B.Accounted (taken o) o.before o.after k slot

section Runs

variable {B} {S : System ι σ α μ} [DecidableEq ι] {ok : System.Guard ι σ α μ}
variable {taken : Occurrence ι σ α μ → K → Prop} {w : World ι σ α μ}

/-- **Open slots have their values.** -/
theorem Kept.backed (h : B.Kept S ok taken) (hw : S.Reach ok w) : ∀ i, B.Backed (w.nodes i) := by
  refine hw.everywhere (fun i k slot hs => ?_) fun w o hr hb _ hf k slot hs =>
    (h.step w o hr hf hb k slot hs).pending
  rw [h.init] at hs
  exact absurd hs (by simp)

/-- **The values of closed slots were taken.** -/
theorem Kept.taken_of_closed (h : B.Kept S ok taken) (hw : S.Reach ok w) :
    ∀ i k, B.Closed (w.nodes i) k → ∃ o ∈ w.history, o.node = i ∧ taken o k := by
  refine hw.induct_party (I := fun i s hist => ∀ k, B.Closed s k →
    ∃ o ∈ hist, o.node = i ∧ taken o k) ?_ ?_ ?_
  · rintro i k ⟨slot, hs, _⟩
    rw [h.init] at hs
    exact absurd hs (by simp)
  · rintro w o hr ih _ hf k ⟨slot, hs, hclosed⟩
    have hb : B.Backed o.before := by
      rw [hf.before_eq]
      exact h.backed hr o.node
    rcases (h.step w o hr hf hb k slot hs).done hclosed with hold | hnew
    · obtain ⟨o', ho', hrest⟩ := ih k ⟨slot, hold, hclosed⟩
      exact ⟨o', List.mem_cons_of_mem _ ho', hrest⟩
    · exact ⟨o, List.mem_cons_self, rfl, hnew⟩
  · intro i s o hist _ ih k hk
    obtain ⟨o', ho', hrest⟩ := ih k hk
    exact ⟨o', List.mem_cons_of_mem _ ho', hrest⟩

end Runs

end Slots

end AsyncNet
