import Mathlib.Order.Basic
import Mathlib.Data.List.Basic

namespace Relay

/-!
# Reports of a growing value

The value at a source only grows, and each time it is reported over a FIFO channel.  A relay takes
over what it hears and reports it on.

* `Carries` — what has been heard at one end of a channel, what is on the way, and the last report
  at the other end, in order.
* `Link` — two channels in a row; `Link.drained` — when nothing is on the way all ends agree.
* `Handshake` — where order does not matter: a request that is served and answered.
-/

variable {α : Type} [Preorder α]

/-- Heard `a`, on the way `xs`, and reported `b` last. -/
def Carries : α → List α → α → Prop
  | a, [], b => a = b
  | a, x :: xs, b => a ≤ x ∧ Carries x xs b

variable {a b c : α} {xs ys : List α}

theorem Carries.le (h : Carries a xs b) : a ≤ b := by
  induction xs generalizing a with
  | nil => exact le_of_eq h
  | cons x xs ih =>
    obtain ⟨hle, hrest⟩ := h
    exact hle.trans (ih hrest)

/-- One more report. -/
theorem Carries.concat (h : Carries a xs b) (hle : b ≤ c) : Carries a (xs ++ [c]) c := by
  induction xs generalizing a with
  | nil =>
    obtain rfl : a = b := h
    exact ⟨hle, rfl⟩
  | cons x xs ih =>
    obtain ⟨hx, hrest⟩ := h
    exact ⟨hx, ih hrest⟩

/-- The reports `ys` from the source, at `c`, to the relay, at `b`, and the reports `xs` from there
    to the other end, at `a`. -/
structure Link (a : α) (xs : List α) (b : α) (ys : List α) (c : α) : Prop where
  back : Carries a xs b
  forth : Carries b ys c

namespace Link

theorem start (a : α) : Link a [] a [] a := ⟨rfl, rfl⟩

/-- The value at the source grows. -/
theorem grow {c' : α} (h : Link a xs b ys c) (hle : c ≤ c') : Link a xs b (ys ++ [c']) c' :=
  ⟨h.back, h.forth.concat hle⟩

/-- A report reaches the relay, which reports it on. -/
theorem forward {y : α} (h : Link a xs b (y :: ys) c) : b ≤ y ∧ Link a (xs ++ [y]) y ys c :=
  ⟨h.forth.1, h.back.concat h.forth.1, h.forth.2⟩

/-- A report reaches the other end. -/
theorem hear {x : α} (h : Link a (x :: xs) b ys c) : a ≤ x ∧ Link x xs b ys c :=
  ⟨h.back.1, h.back.2, h.forth⟩

theorem drained (h : Link a [] b [] c) : a = c ∧ b = c := by
  obtain ⟨rfl, rfl⟩ := h
  exact ⟨rfl, rfl⟩

end Link

/-! ### Requests and answers -/

section Requests

variable {β : Type} {asks answers : β → Prop} {served heard served' heard' : Prop} {m : β}
variable {q out : List β}

/-- A request is on the way, or it was served, and the answer is on the way or was heard. -/
def Handshake (asks answers : β → Prop) (served heard : Prop) (q : List β) : Prop :=
  (∃ m ∈ q, asks m) ∨ served ∧ ((∃ m ∈ q, answers m) ∨ heard)

namespace Handshake

/-- One message is taken off the way, and others are sent. -/
theorem next (h : Handshake asks answers served heard (m :: q))
    (hasks : asks m → served' ∧ ∃ m' ∈ out, answers m') (hserved : served → served')
    (hanswers : answers m → heard') (hheard : heard → heard') :
    Handshake asks answers served' heard' (q ++ out) := by
  rcases h with ⟨m', hm', ha⟩ | ⟨hs, ⟨m', hm', ha⟩ | hh⟩
  · rcases List.mem_cons.mp hm' with rfl | hm'
    · obtain ⟨hs', m'', hm'', ha'⟩ := hasks ha
      exact .inr ⟨hs', .inl ⟨m'', List.mem_append_right _ hm'', ha'⟩⟩
    · exact .inl ⟨m', List.mem_append_left _ hm', ha⟩
  · rcases List.mem_cons.mp hm' with rfl | hm'
    · exact .inr ⟨hserved hs, .inr (hanswers ha)⟩
    · exact .inr ⟨hserved hs, .inl ⟨m', List.mem_append_left _ hm', ha⟩⟩
  · exact .inr ⟨hserved hs, .inr (hheard hh)⟩

/-- A message is lost that is part of another exchange. -/
theorem skip (h : Handshake asks answers served heard (m :: q)) (hasks : ¬ asks m)
    (hanswers : ¬ answers m) : Handshake asks answers served heard q := by
  rw [← List.append_nil q]
  exact h.next (fun ha => absurd ha hasks) id (fun ha => absurd ha hanswers) id

/-- When nothing is on the way the exchange is over. -/
theorem done (h : Handshake asks answers served heard []) : served ∧ heard := by
  rcases h with ⟨_, hm, _⟩ | ⟨hs, ⟨_, hm, _⟩ | hh⟩
  · exact absurd hm List.not_mem_nil
  · exact absurd hm List.not_mem_nil
  · exact ⟨hs, hh⟩

end Handshake

end Requests

end Relay
