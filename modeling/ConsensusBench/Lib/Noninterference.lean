import Mathlib.Data.List.Basic

namespace Noninterference

/-!
# Noninterference of a run of actions

A step function that may fail, actions of which an observer is shown some, and a relation
`agree` of the states that it cannot tell apart.  The relation is symmetric and transitive only:
a state that does not agree with itself is one that the observer is not about.

* `foldlM_agree` — steps that keep agreement keep it over a run of the same actions.
* `Unwinding.noninterference` — if hidden actions go unnoticed and shown ones keep agreement,
  then runs agree whose shown actions are the same, whatever else happens in them.
-/

variable {σ α : Type*} {agree : σ → σ → Prop}

/-! ### Outcomes -/

theorem rel_symm (hsymm : ∀ ⦃s s'⦄, agree s s' → agree s' s) {x y : Option σ}
    (h : Option.Rel agree x y) : Option.Rel agree y x := by
  cases h with
  | some hs => exact .some (hsymm hs)
  | none => exact .none

theorem rel_trans (htrans : ∀ ⦃s s' s''⦄, agree s s' → agree s' s'' → agree s s'')
    {x y z : Option σ} (h : Option.Rel agree x y) (h' : Option.Rel agree y z) :
    Option.Rel agree x z := by
  cases h with
  | some hs =>
    cases h' with
    | some hs' => exact .some (htrans hs hs')
  | none => exact h'

/-- What follows on agreeing outcomes has agreeing outcomes, if it has from agreeing states. -/
theorem rel_bind {β : Type*} {agree' : β → β → Prop} {x y : Option σ} {f g : σ → Option β}
    (h : Option.Rel agree x y)
    (hfg : ∀ {s s'}, agree s s' → Option.Rel agree' (f s) (g s')) :
    Option.Rel agree' (x.bind f) (y.bind g) := by
  cases h with
  | some hs => exact hfg hs
  | none => exact .none

theorem rel_map {β : Type*} {agree' : β → β → Prop} {x y : Option σ} {f g : σ → β}
    (h : Option.Rel agree x y) (hfg : ∀ {s s'}, agree s s' → agree' (f s) (g s')) :
    Option.Rel agree' (x.map f) (y.map g) := by
  cases h with
  | some hs => exact .some (hfg hs)
  | none => exact .none

/-! ### Runs -/

variable {step : σ → α → Option σ}

theorem foldlM_agree (as : List α) {s s' : σ}
    (hstep : ∀ a ∈ as, ∀ {s s'}, agree s s' → Option.Rel agree (step s a) (step s' a))
    (h : agree s s') : Option.Rel agree (as.foldlM step s) (as.foldlM step s') := by
  induction as generalizing s s' with
  | nil => exact .some h
  | cons a as ih =>
    rw [List.foldlM_cons, List.foldlM_cons]
    exact rel_bind (hstep a List.mem_cons_self h) fun hs =>
      ih (fun b hb => hstep b (List.mem_cons_of_mem a hb)) hs

/-- What an observer of the shown actions cannot tell apart. -/
structure Unwinding (step : σ → α → Option σ) (shown : α → Bool) (agree : σ → σ → Prop) :
    Prop where
  symm : ∀ ⦃s s'⦄, agree s s' → agree s' s
  trans : ∀ ⦃s s' s''⦄, agree s s' → agree s' s'' → agree s s''
  /-- A hidden action does not fail, and goes unnoticed. -/
  hidden : ∀ {a s s'}, shown a = false → agree s s' → ∃ t, step s a = some t ∧ agree t s'
  /-- A shown action does the same to what the observer sees. -/
  consistent : ∀ {a s s'}, shown a = true → agree s s' →
    Option.Rel agree (step s a) (step s' a)

namespace Unwinding

variable {shown : α → Bool} {s s' : σ}

/-- Hidden actions can be left out of the other run. -/
theorem purge (h : Unwinding step shown agree) (as : List α) (hs : agree s s') :
    Option.Rel agree (as.foldlM step s) ((as.filter shown).foldlM step s') := by
  induction as generalizing s s' with
  | nil => exact .some hs
  | cons a as ih =>
    by_cases ha : shown a = true
    · rw [List.filter_cons_of_pos ha, List.foldlM_cons, List.foldlM_cons]
      exact rel_bind (h.consistent ha hs) fun ht => ih ht
    · obtain ⟨t, hstep, ht⟩ := h.hidden (Bool.eq_false_iff.mpr ha) hs
      rw [List.filter_cons_of_neg ha, List.foldlM_cons, hstep]
      exact ih ht

/-- **Noninterference**: what is hidden in two runs makes no difference. -/
theorem noninterference (h : Unwinding step shown agree) {as as' : List α}
    (heq : as.filter shown = as'.filter shown) (hs : agree s s') :
    Option.Rel agree (as.foldlM step s) (as'.foldlM step s') := by
  -- both runs agree with the run of the shown actions alone
  have hleft := h.purge as hs
  have hright := h.purge as' (h.trans (h.symm hs) hs)
  rw [heq] at hleft
  exact rel_trans h.trans hleft (rel_symm h.symm hright)

end Unwinding

end Noninterference
