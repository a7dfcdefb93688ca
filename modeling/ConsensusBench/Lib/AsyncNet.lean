import Mathlib.Algebra.GroupWithZero.Nat
import Mathlib.Data.Finset.Card
import Mathlib.Data.List.Basic
import Mathlib.Logic.Function.Basic

namespace AsyncNet

/-!
# Asynchronous message passing with at-most-once delivery

A `System` is a finite set of parties that run one program over a medium.  A party moves
when it is called locally or when a message reaches it; what it sends joins the messages
in flight.  A message in flight may be taken out at any time, in any order: it is either
lost, or what the medium makes of it (`carry`, at most one message) reaches its addressee.

* `World` carries, besides the states and the messages in flight, the `history` of all
  steps the parties have taken, newest first.  Statements about what a party ever did are
  statements about this list.
* `Reach S ok` — the worlds reachable by steps that all meet the condition `ok`, which
  sees the world before the step, the party and what it is about to process.
* `Reach.induct` — the invariant rule.  Messages in flight need no invariant of their own:
  a received message comes with the step that sent it (`Fires.recv`).  `Reach.induct_party` is the
  rule for what is said of one party at a time, `Reach.since` for what its steps leave behind.
* `Along` — a condition on the steps of a history, which can be checked step by step;
  `Reach.of_along` makes it the guard of the run.
* `Reach.received_add_inFlight_le` — at-most-once delivery as a counting fact.
-/

variable {ι σ α μ : Type}

/-! ### Systems, worlds and steps -/

/-- A program run by the parties `members` over a medium that delivers `m` to `dst m`,
    possibly altered: `carry m` is what arrives in place of `m`. -/
structure System (ι σ α μ : Type) where
  members : Finset ι
  init : ι → σ
  act : ι → σ → α → σ × List μ
  recv : ι → σ → μ → Option (σ × List μ)
  dst : μ → ι
  carry : μ → List μ
  carry_le_one : ∀ m, (carry m).length ≤ 1

/-- What makes a party take a step. -/
inductive Cause (α μ : Type) where
  | call (a : α)
  | recv (m : μ)

/-- One step of one party. -/
structure Occurrence (ι σ α μ : Type) where
  node : ι
  cause : Cause α μ
  before : σ
  after : σ
  sent : List μ

/-- The parties' states, the messages in flight and the steps taken so far (newest first). -/
structure World (ι σ α μ : Type) where
  nodes : ι → σ
  inFlight : List μ
  history : List (Occurrence ι σ α μ)

/-- What the environment may do next; messages are picked by their place in flight. -/
inductive Event (ι α : Type) where
  | call (i : ι) (a : α)
  | deliver (k : ℕ)
  | lose (k : ℕ)

namespace World

/-- Book the step of party `i` that ends in `s` and sends `out`. -/
def record [DecidableEq ι] (w : World ι σ α μ) (i : ι) (c : Cause α μ) (s : σ) (out : List μ) :
    World ι σ α μ where
  nodes := Function.update w.nodes i s
  inFlight := w.inFlight ++ out
  history := ⟨i, c, w.nodes i, s, out⟩ :: w.history

/-- Take the `k`-th message out of flight. -/
def lose (w : World ι σ α μ) (k : ℕ) : World ι σ α μ :=
  { w with inFlight := w.inFlight.eraseIdx k }

/-- Some step so far sent `m`. -/
def Sent (w : World ι σ α μ) (m : μ) : Prop := ∃ o ∈ w.history, m ∈ o.sent

/-- Losing a message changes no party. -/
@[simp] theorem lose_nodes (w : World ι σ α μ) (k : ℕ) : (w.lose k).nodes = w.nodes := rfl

/-- Losing a message is no step. -/
@[simp] theorem lose_history (w : World ι σ α μ) (k : ℕ) :
    (w.lose k).history = w.history := rfl

/-- A step is put in front of the history. -/
@[simp] theorem record_history [DecidableEq ι] (w : World ι σ α μ) (i : ι) (c : Cause α μ) (s : σ)
    (out : List μ) :
    (w.record i c s out).history = ⟨i, c, w.nodes i, s, out⟩ :: w.history := rfl

/-- A step changes its party only. -/
@[simp] theorem record_nodes [DecidableEq ι] (w : World ι σ α μ) (i : ι) (c : Cause α μ) (s : σ)
    (out : List μ) : (w.record i c s out).nodes = Function.update w.nodes i s := rfl

/-- A step that is booked adds what it sent to the messages in flight, and to the sent ones. -/
theorem sent_record [DecidableEq ι] {w : World ι σ α μ} (h : ∀ m ∈ w.inFlight, w.Sent m) {i : ι}
    {c : Cause α μ} {s : σ} {out : List μ} :
    ∀ m ∈ (w.record i c s out).inFlight, (w.record i c s out).Sent m := by
  intro m hm
  rcases List.mem_append.mp hm with hold | hnew
  · obtain ⟨o, ho, hmo⟩ := h m hold
    exact ⟨o, List.mem_cons_of_mem _ ho, hmo⟩
  · exact ⟨_, List.mem_cons_self, hnew⟩

end World

namespace System

variable (S : System ι σ α μ)

/-- The world in which no party has moved. -/
def start : World ι σ α μ := ⟨S.init, [], []⟩

section Steps

variable [DecidableEq ι]

/-- The addressee of `m` handles it; a message to nobody is discarded. -/
def receive (w : World ι σ α μ) (m : μ) : Option (World ι σ α μ) :=
  if S.dst m ∈ S.members then
    (S.recv (S.dst m) (w.nodes (S.dst m)) m).map fun r =>
      w.record (S.dst m) (.recv m) r.1 r.2
  else some w

/-- One event.  `none` when it is not possible, or when the addressee fails on the message. -/
def step (w : World ι σ α μ) : Event ι α → Option (World ι σ α μ)
  | .call i a =>
      if i ∈ S.members then
        some (w.record i (.call a) (S.act i (w.nodes i) a).1 (S.act i (w.nodes i) a).2)
      else none
  | .deliver k =>
      match w.inFlight[k]? with
      | none => none
      | some m => (S.carry m).foldlM S.receive (w.lose k)
  | .lose k => if k < w.inFlight.length then some (w.lose k) else none

/-- The world after a list of events. -/
def run (w : World ι σ α μ) : List (Event ι α) → Option (World ι σ α μ)
  | [] => some w
  | e :: es => (S.step w e).bind fun w' => run w' es

/-- What event `e` makes a party process, and which party. -/
def intake (w : World ι σ α μ) : Event ι α → Option (ι × Cause α μ)
  | .call i a => some (i, .call a)
  | .deliver k => (w.inFlight[k]?).bind fun m => (S.carry m).head?.bind fun m' =>
      if S.dst m' ∈ S.members then some (S.dst m', .recv m') else none
  | .lose _ => none

/-- Only a call makes a party process a call. -/
theorem intake_eq_call {w : World ι σ α μ} {e : Event ι α} {i : ι} {a : α}
    (h : S.intake w e = some (i, .call a)) : e = .call i a := by
  cases e with
  | call j b =>
    cases h
    rfl
  | deliver k =>
    obtain ⟨m, _, h⟩ := Option.bind_eq_some_iff.mp h
    obtain ⟨m', _, h⟩ := Option.bind_eq_some_iff.mp h
    split at h
    · cases h
    · cases h
  | lose k => cases h

/-- A condition on steps: the world before, the party, and what it is about to process. -/
abbrev Guard (ι σ α μ : Type) := World ι σ α μ → ι → Cause α μ → Prop

/-- The guard that lets every step pass. -/
def anyStep : Guard ι σ α μ := fun _ _ _ => True

/-- The guard that looks at the state of the party and what it is about to process. -/
def locally (P : σ → Cause α μ → Prop) : Guard ι σ α μ := fun w i c => P (w.nodes i) c

/-- `w'` is reached from `w` by events whose steps all meet `ok`. -/
inductive Steps (ok : Guard ι σ α μ) : World ι σ α μ → World ι σ α μ → Prop
  | refl (w : World ι σ α μ) : Steps ok w w
  | tail {w w' w'' : World ι σ α μ} (e : Event ι α) (hs : Steps ok w w')
      (hok : ∀ i c, S.intake w' e = some (i, c) → ok w' i c)
      (he : S.step w' e = some w'') : Steps ok w w''

/-- The worlds reachable from the start by steps that all meet `ok`. -/
def Reach (ok : Guard ι σ α μ) (w : World ι σ α μ) : Prop := S.Steps ok S.start w

end Steps

/-- Occurrence `o` is a step some party of `S` can take in world `w`. -/
inductive Fires (w : World ι σ α μ) : Occurrence ι σ α μ → Prop
  | call (i : ι) (a : α) (hi : i ∈ S.members) :
      Fires w ⟨i, .call a, w.nodes i, (S.act i (w.nodes i) a).1, (S.act i (w.nodes i) a).2⟩
  | recv (m m' : μ) (s : σ) (out : List μ) (hm : m ∈ w.inFlight) (hsent : w.Sent m)
      (hcarry : S.carry m = [m']) (hmem : S.dst m' ∈ S.members)
      (hrecv : S.recv (S.dst m') (w.nodes (S.dst m')) m' = some (s, out)) :
      Fires w ⟨S.dst m', .recv m', w.nodes (S.dst m'), s, out⟩

variable {S} {ok ok' : Guard ι σ α μ} {w w' : World ι σ α μ}

/-- A step starts from the state the party is in. -/
theorem Fires.before_eq {o : Occurrence ι σ α μ} (h : S.Fires w o) :
    o.before = w.nodes o.node := by
  cases h <;> rfl

/-- Only members take steps. -/
theorem Fires.node_mem {o : Occurrence ι σ α μ} (h : S.Fires w o) : o.node ∈ S.members := by
  cases h <;> assumption

/-- A received message was addressed to the party, and is what the medium made of a message
    that some step sent. -/
theorem Fires.recv_inv {o : Occurrence ι σ α μ} (h : S.Fires w o) {m' : μ}
    (hc : o.cause = .recv m') :
    S.dst m' = o.node ∧ ∃ o₀ ∈ w.history, ∃ m ∈ o₀.sent, S.carry m = [m'] := by
  cases h with
  | call i a hi => exact absurd hc (by simp)
  | recv m m₁ s out hm hsent hcarry hmem hrecv =>
    cases hc
    obtain ⟨o₀, ho₀, hmo⟩ := hsent
    exact ⟨rfl, o₀, ho₀, m, hmo, hcarry⟩

/-- A party becomes what it makes of the message it receives. -/
theorem Fires.recv_eq {o : Occurrence ι σ α μ} (h : S.Fires w o) {m : μ} (hc : o.cause = .recv m) :
    S.recv o.node o.before m = some (o.after, o.sent) := by
  cases h with
  | call i a hi => exact absurd hc (by simp)
  | recv m₀ m₁ s out hm hsent hcarry hmem hrecv =>
    cases hc
    exact hrecv

/-! ### Reachability -/

section Reachability

variable [DecidableEq ι]

/-- Runs one after the other make one run. -/
theorem Steps.trans {w'' : World ι σ α μ} (h : S.Steps ok w w') (h' : S.Steps ok w' w'') :
    S.Steps ok w w'' := by
  induction h' with
  | refl => exact h
  | tail e _ hok he ih => exact .tail e ih hok he

/-- What a guard allows, a weaker one does. -/
theorem Steps.mono (hok : ∀ w i c, ok w i c → ok' w i c) (h : S.Steps ok w w') :
    S.Steps ok' w w' := by
  induction h with
  | refl => exact .refl _
  | tail e _ hg he ih => exact .tail e ih (fun i c hi => hok _ i c (hg i c hi)) he

/-- What can be reached under a guard can be under a weaker one. -/
theorem Reach.mono (hok : ∀ w i c, ok w i c → ok' w i c) (h : S.Reach ok w) :
    S.Reach ok' w :=
  Steps.mono hok h

/-- What can be reached under a guard can be reached. -/
theorem Reach.any (h : S.Reach ok w) : S.Reach anyStep w :=
  h.mono fun _ _ _ _ => trivial

/-- What an executed list of events reaches is reachable. -/
theorem Steps.of_run (es : List (Event ι α)) (h : S.run w es = some w') :
    S.Steps anyStep w w' := by
  induction es generalizing w with
  | nil =>
    rw [run, Option.some.injEq] at h
    exact h ▸ .refl w
  | cons e es ih =>
    rw [run, Option.bind_eq_some_iff] at h
    obtain ⟨w₁, he, hes⟩ := h
    have hfirst : S.Steps anyStep w w₁ := .tail e (.refl w) (fun _ _ _ => trivial) he
    exact hfirst.trans (ih hes)

/-- What a list of events leads to can be reached. -/
theorem Reach.of_run (es : List (Event ι α)) (h : S.run S.start es = some w) :
    S.Reach anyStep w :=
  Steps.of_run es h

/-- A run that ends in a world satisfying `P` shows such a world reachable. -/
theorem Reach.exists_of_run (es : List (Event ι α)) {P : World ι σ α μ → Prop}
    [DecidablePred P] (h : (S.run S.start es).any (fun w => P w) = true) :
    ∃ w, S.Reach anyStep w ∧ P w := by
  rw [Option.any_eq_true] at h
  obtain ⟨w, hw, hP⟩ := h
  exact ⟨w, Reach.of_run es hw, of_decide_eq_true hP⟩

/-- A list of length at most one is empty or a singleton. -/
theorem eq_nil_or_singleton {l : List μ} (h : l.length ≤ 1) :
    l = [] ∨ ∃ a, l = [a] := by
  match l, h with
  | [], _ => exact .inl rfl
  | [a], _ => exact .inr ⟨a, rfl⟩

/-- What becomes of a message taken up by the medium: it reaches nobody, or its addressee
    handles what arrives. -/
theorem carried_cases {m : μ} (h : (S.carry m).foldlM S.receive w = some w') :
    ((∀ m', S.carry m = [m'] → S.dst m' ∉ S.members) ∧ w' = w) ∨
    (∃ m' s out, S.carry m = [m'] ∧ S.dst m' ∈ S.members ∧
      S.recv (S.dst m') (w.nodes (S.dst m')) m' = some (s, out) ∧
      w' = w.record (S.dst m') (.recv m') s out) := by
  rcases eq_nil_or_singleton (S.carry_le_one m) with hc | ⟨m', hc⟩
  · rw [hc] at h
    simp only [List.foldlM_nil, Option.pure_def, Option.some.injEq] at h
    exact .inl ⟨fun m' h' => absurd (hc.symm.trans h') (by simp), h.symm⟩
  · rw [hc] at h
    simp only [List.foldlM_cons, List.foldlM_nil, Option.bind_eq_bind, Option.pure_def,
      receive] at h
    by_cases hd : S.dst m' ∈ S.members
    · rw [if_pos hd] at h
      simp only [Option.bind_fun_some, Option.map_eq_some_iff] at h
      obtain ⟨⟨s, out⟩, hr, rfl⟩ := h
      exact .inr ⟨m', s, out, hc, hd, hr, rfl⟩
    · rw [if_neg hd] at h
      simp only [Option.bind_some, Option.some.injEq] at h
      refine .inl ⟨fun m₁ h₁ => ?_, h.symm⟩
      rw [hc, List.singleton_inj] at h₁
      rwa [← h₁]

/-- One event either only takes a message out of flight, or does so (or nothing, for a
    call) and then books one step of one party. -/
theorem step_cases {e : Event ι α} (h : S.step w e = some w') :
    (∃ k, S.intake w e = none ∧ w' = w.lose k) ∨
    (∃ i a, i ∈ S.members ∧ S.intake w e = some (i, .call a) ∧
      w' = w.record i (.call a) (S.act i (w.nodes i) a).1 (S.act i (w.nodes i) a).2) ∨
    (∃ k m m' s out, w.inFlight[k]? = some m ∧ S.carry m = [m'] ∧ S.dst m' ∈ S.members ∧
      S.intake w e = some (S.dst m', .recv m') ∧
      S.recv (S.dst m') (w.nodes (S.dst m')) m' = some (s, out) ∧
      w' = (w.lose k).record (S.dst m') (.recv m') s out) := by
  cases e with
  | call i a =>
    simp only [step] at h
    split at h
    · rename_i hi
      rw [Option.some.injEq] at h
      exact .inr (.inl ⟨i, a, hi, rfl, h.symm⟩)
    · exact absurd h (by simp)
  | lose k =>
    simp only [step] at h
    split at h
    · rw [Option.some.injEq] at h
      exact .inl ⟨k, rfl, h.symm⟩
    · exact absurd h (by simp)
  | deliver k =>
    simp only [step] at h
    cases hk : w.inFlight[k]? with
    | none => rw [hk] at h; exact absurd h (by simp)
    | some m =>
      simp only [hk] at h
      -- the medium drops it, it is for nobody, or a party handles it
      rcases carried_cases h with ⟨hnobody, rfl⟩ | ⟨m', s, out, hc, hd, hr, rfl⟩
      · refine .inl ⟨k, ?_, rfl⟩
        rcases eq_nil_or_singleton (S.carry_le_one m) with hc | ⟨m', hc⟩
        · simp [intake, hk, hc]
        · simp [intake, hk, hc, hnobody m' hc]
      · exact .inr (.inr ⟨k, m, m', s, out, hk, hc, hd, by simp [intake, hk, hc, hd], hr, rfl⟩)

/-- Whatever is in flight was sent by a step of the history. -/
theorem Reach.sent_of_mem (h : S.Reach ok w) : ∀ m ∈ w.inFlight, w.Sent m := by
  induction h with
  | refl => intro m hm; exact absurd hm (by simp [start])
  | tail e hs _ he ih =>
    have hlose : ∀ k, ∀ m ∈ (World.lose _ k).inFlight, World.Sent (World.lose _ k) m :=
      fun k m hm => ih m (List.mem_of_mem_eraseIdx hm)
    rcases step_cases he with
      ⟨k, _, rfl⟩ | ⟨i, a, _, _, rfl⟩ | ⟨k, m, m', s, out, _, _, _, _, _, rfl⟩
    · exact hlose k
    · exact World.sent_record ih
    · exact World.sent_record (hlose k)

/-- **Invariant rule.**  A property of the states and the history that holds at the start
    and survives every step a party can take, holds in every reachable world. -/
theorem Reach.induct {N : (ι → σ) → List (Occurrence ι σ α μ) → Prop}
    (h0 : N S.init [])
    (hstep : ∀ (w : World ι σ α μ) (o : Occurrence ι σ α μ), S.Reach ok w →
      N w.nodes w.history → ok w o.node o.cause → S.Fires w o →
      N (Function.update w.nodes o.node o.after) (o :: w.history))
    (h : S.Reach ok w) : N w.nodes w.history := by
  unfold Reach at h
  induction h with
  | refl => exact h0
  | tail e hs hok he ih =>
    rcases step_cases he with ⟨k, _, rfl⟩ | ⟨i, a, hi, hin, rfl⟩ |
      ⟨k, m, m', s, out, hk, hc, hd, hin, hr, rfl⟩
    · exact ih
    · exact hstep _ _ hs ih (hok _ _ hin) (.call i a hi)
    · have hm : m ∈ _ := List.mem_of_getElem? hk
      exact hstep _ _ hs ih (hok _ _ hin)
        (.recv m m' s out hm (Reach.sent_of_mem hs m hm) hc hd hr)

/-- **Invariant rule for single parties.**  What holds of every party at the start, survives the
    steps of the party it is about, and is not undone as others take steps, holds of all. -/
theorem Reach.induct_party {I : ι → σ → List (Occurrence ι σ α μ) → Prop}
    (h0 : ∀ i, I i (S.init i) [])
    (hstep : ∀ (w : World ι σ α μ) (o : Occurrence ι σ α μ), S.Reach ok w →
      I o.node o.before w.history → ok w o.node o.cause → S.Fires w o →
      I o.node o.after (o :: w.history))
    (hframe : ∀ i s o hist, o.node ≠ i → I i s hist → I i s (o :: hist))
    (h : S.Reach ok w) : ∀ i, I i (w.nodes i) w.history := by
  refine Reach.induct (N := fun nodes hist => ∀ i, I i (nodes i) hist) h0 ?_ h
  intro w o hr ih hok hf i
  by_cases hi : o.node = i
  · subst hi
    rw [Function.update_self]
    have hbefore : I o.node o.before w.history := by
      rw [hf.before_eq]
      exact ih o.node
    exact hstep w o hr hbefore hok hf
  · rw [Function.update_of_ne (Ne.symm hi)]
    exact hframe i _ o _ hi (ih i)

/-- The invariant rule for single parties, without the history. -/
theorem Reach.everywhere {I : ι → σ → Prop} (h0 : ∀ i, I i (S.init i))
    (hstep : ∀ (w : World ι σ α μ) (o : Occurrence ι σ α μ), S.Reach ok w → I o.node o.before →
      ok w o.node o.cause → S.Fires w o → I o.node o.after)
    (h : S.Reach ok w) : ∀ i, I i (w.nodes i) :=
  Reach.induct_party (I := fun i s _ => I i s) h0 hstep (fun _ _ _ _ _ hold => hold) h

/-- **Rule for what a step leaves behind.**  What a step makes true of its party, and no later step
    of the party takes back, is still true of it. -/
theorem Reach.since {R : Occurrence ι σ α μ → σ → Prop}
    (hnew : ∀ (w : World ι σ α μ) (o : Occurrence ι σ α μ), S.Reach ok w → S.Fires w o →
      R o o.after)
    (hkeep : ∀ (w : World ι σ α μ) (o o' : Occurrence ι σ α μ), S.Reach ok w → o ∈ w.history →
      R o o'.before → ok w o'.node o'.cause → S.Fires w o' → o'.node = o.node → R o o'.after)
    (h : S.Reach ok w) : ∀ o ∈ w.history, R o (w.nodes o.node) := by
  refine Reach.induct (N := fun nodes hist => ∀ o ∈ hist, R o (nodes o.node)) ?_ ?_ h
  · intro o ho
    exact absurd ho (by simp)
  · intro w o' hr ih hok hf o ho
    rcases List.mem_cons.mp ho with rfl | hold
    · rw [Function.update_self]
      exact hnew w o hr hf
    · by_cases hnode : o'.node = o.node
      · have hbefore : R o o'.before := by
          rw [hf.before_eq, hnode]
          exact ih o hold
        rw [← hnode, Function.update_self]
        exact hkeep w o o' hr hold hbefore hok hf hnode
      · rw [Function.update_of_ne (Ne.symm hnode)]
        exact ih o hold

/-- What no step takes back is now at least what it was behind any step. -/
theorem Reach.le_now {A : Type} [Preorder A] {f : σ → A}
    (hmono : ∀ (w : World ι σ α μ) (o : Occurrence ι σ α μ), S.Reach ok w → S.Fires w o →
      f o.before ≤ f o.after)
    (h : S.Reach ok w) : ∀ o ∈ w.history, f o.after ≤ f (w.nodes o.node) := by
  refine Reach.since (R := fun o s => f o.after ≤ f s) ?_ ?_ h
  · intro w o _ _
    exact le_refl _
  · intro w o o' hr _ hle _ hf _
    exact hle.trans (hmono w o' hr hf)

/-- A run whose every step turns out to meet `ok'` is a run under `ok'`. -/
theorem Reach.strengthen (h : S.Reach ok w) (hok' : ∀ w₀ o, S.Reach ok w₀ → S.Fires w₀ o →
    (o :: w₀.history) <:+ w.history → ok' w₀ o.node o.cause) : S.Reach ok' w := by
  unfold Reach at h
  induction h with
  | refl => exact .refl _
  | @tail w₁ w₂ e hs hok he ih =>
    -- the steps of the run so far are steps of the whole run
    have hold : (w₁.history <:+ w₂.history) → S.Reach ok' w₁ := fun hsuf =>
      ih fun w₀ o hr hf hs₀ => hok' w₀ o hr hf (hs₀.trans hsuf)
    rcases step_cases he with ⟨k, hin, rfl⟩ | ⟨i, a, hi, hin, rfl⟩ |
      ⟨k, m, m', s, out, hk, hc, hd, hin, hr, rfl⟩
    · exact .tail e (hold List.suffix_rfl) (fun i c h => absurd (hin.symm.trans h) (by simp)) he
    · refine .tail e (hold (List.suffix_cons _ _)) (fun j c h => ?_) he
      rw [hin, Option.some.injEq, Prod.mk.injEq] at h
      obtain ⟨rfl, rfl⟩ := h
      exact hok' w₁ _ hs (.call i a hi) List.suffix_rfl
    · refine .tail e (hold (List.suffix_cons _ _)) (fun j c h => ?_) he
      rw [hin, Option.some.injEq, Prod.mk.injEq] at h
      obtain ⟨rfl, rfl⟩ := h
      have hm : m ∈ w₁.inFlight := List.mem_of_getElem? hk
      exact hok' w₁ _ hs (.recv m m' s out hm (Reach.sent_of_mem hs m hm) hc hd hr)
        List.suffix_rfl

/-- A run whose every step meets a local condition is a run under it. -/
theorem Reach.locally {P : σ → Cause α μ → Prop} (h : S.Reach ok w)
    (hP : ∀ o ∈ w.history, P o.before o.cause) : S.Reach (System.locally P) w := by
  refine h.strengthen fun w₀ o _ hf hsuf => ?_
  have hlocal := hP o (hsuf.subset List.mem_cons_self)
  rw [hf.before_eq] at hlocal
  exact hlocal

/-- The condition holds of every step of a history, in the light of the steps before it. -/
def Along (P : List (Occurrence ι σ α μ) → Occurrence ι σ α μ → Prop) :
    List (Occurrence ι σ α μ) → Prop
  | [] => True
  | o :: hist => P hist o ∧ Along P hist

instance Along.decidable {P : List (Occurrence ι σ α μ) → Occurrence ι σ α μ → Prop}
    [∀ hist o, Decidable (P hist o)] : DecidablePred (Along P)
  | [] => inferInstanceAs (Decidable True)
  | o :: hist =>
    letI := Along.decidable (P := P) hist
    inferInstanceAs (Decidable (P hist o ∧ Along P hist))

omit [DecidableEq ι] in
/-- What holds along a history holds of each of its steps. -/
theorem Along.of_suffix {P : List (Occurrence ι σ α μ) → Occurrence ι σ α μ → Prop}
    {o : Occurrence ι σ α μ} {hist all : List (Occurrence ι σ α μ)} (h : Along P all)
    (hs : (o :: hist) <:+ all) : P hist o := by
  induction all with
  | nil => exact absurd (List.suffix_nil.mp hs) (by simp)
  | cons o' all ih =>
    rcases List.suffix_cons_iff.mp hs with heq | hs
    · rw [List.cons.injEq] at heq
      rw [heq.1, heq.2]
      exact h.1
    · exact ih h.2 hs

omit [DecidableEq ι] in
/-- What holds of each step, in the light of the steps before it, holds along a history. -/
theorem Along.of_forall_suffix {P : List (Occurrence ι σ α μ) → Occurrence ι σ α μ → Prop}
    {all : List (Occurrence ι σ α μ)} (h : ∀ o hist, (o :: hist) <:+ all → P hist o) :
    Along P all := by
  induction all with
  | nil => trivial
  | cons o all ih =>
    refine ⟨h o all List.suffix_rfl, ih fun o' hist hs => ?_⟩
    exact h o' hist (hs.trans (List.suffix_cons o all))

/-- What the guard of a run makes true of each step is true along its history. -/
theorem Reach.along {P : List (Occurrence ι σ α μ) → Occurrence ι σ α μ → Prop}
    (hP : ∀ w o, S.Reach ok w → ok w o.node o.cause → S.Fires w o → P w.history o)
    (h : S.Reach ok w) : Along P w.history :=
  Reach.induct (N := fun _ hist => Along P hist) trivial
    (fun w o hr hold hok hf => ⟨hP w o hr hok hf, hold⟩) h

/-- A run along which a condition holds that implies the guard is a run under it. -/
theorem Reach.of_along {P : List (Occurrence ι σ α μ) → Occurrence ι σ α μ → Prop}
    (h : S.Reach ok w) (halong : Along P w.history)
    (hP : ∀ w₀ o, S.Reach ok w₀ → S.Fires w₀ o → P w₀.history o → ok' w₀ o.node o.cause) :
    S.Reach ok' w :=
  h.strengthen fun w₀ o hr hf hsuf => hP w₀ o hr hf (halong.of_suffix hsuf)

/-- Every step of the history was taken in an earlier reachable world, whose history is
    what comes before the step. -/
theorem Reach.fired_suffix (h : S.Reach ok w) : ∀ o hist, (o :: hist) <:+ w.history →
    ∃ w₀, S.Reach ok w₀ ∧ ok w₀ o.node o.cause ∧ S.Fires w₀ o ∧ w₀.history = hist := by
  refine Reach.induct (N := fun _ all => ∀ o hist, (o :: hist) <:+ all →
    ∃ w₀, S.Reach ok w₀ ∧ ok w₀ o.node o.cause ∧ S.Fires w₀ o ∧ w₀.history = hist) ?_ ?_ h
  · intro o hist hs
    exact absurd (List.suffix_nil.mp hs) (by simp)
  · intro w o hr ih hok hf o' hist hs
    rcases List.suffix_cons_iff.mp hs with heq | hs
    · rw [List.cons.injEq] at heq
      obtain ⟨rfl, rfl⟩ := heq
      exact ⟨w, hr, hok, hf, rfl⟩
    · exact ih o' hist hs

/-- Every step of a run was taken in a world that can be reached. -/
theorem Reach.fired (h : S.Reach ok w) : ∀ o ∈ w.history, ∃ w₀, S.Reach ok w₀ ∧
    ok w₀ o.node o.cause ∧ S.Fires w₀ o ∧ (o :: w₀.history) <:+ w.history := by
  intro o ho
  -- the history is newest first, so what comes behind a step came before it
  obtain ⟨newer, older, heq⟩ := List.append_of_mem ho
  have hsuf : (o :: older) <:+ w.history := ⟨newer, heq.symm⟩
  obtain ⟨w₀, hr, hok, hf, rfl⟩ := h.fired_suffix o older hsuf
  exact ⟨w₀, hr, hok, hf, hsuf⟩

/-- Properties of steps that agree on the steps parties take agree on whole runs. -/
theorem Reach.forall_iff {P Q : Occurrence ι σ α μ → Prop} (h : S.Reach ok w)
    (hiff : ∀ w₀ o, S.Reach ok w₀ → S.Fires w₀ o → (P o ↔ Q o)) :
    (∀ o ∈ w.history, P o) ↔ ∀ o ∈ w.history, Q o := by
  apply forall₂_congr
  intro o ho
  obtain ⟨w₀, hr, _, hf, _⟩ := h.fired o ho
  exact hiff w₀ o hr hf

/-- A step that some party can take leads to a reachable world. -/
theorem Reach.next {o : Occurrence ι σ α μ} (h : S.Reach ok w) (hok : ok w o.node o.cause)
    (hf : S.Fires w o) : ∃ w', S.Reach ok w' ∧
      w'.nodes = Function.update w.nodes o.node o.after ∧ w'.history = o :: w.history := by
  cases hf with
  | call i a hi =>
    refine ⟨w.record i (.call a) (S.act i (w.nodes i) a).1 (S.act i (w.nodes i) a).2,
      .tail (.call i a) h (fun j c hin => ?_) ?_, rfl, rfl⟩
    · cases hin
      exact hok
    · simp only [step, if_pos hi]
  | recv m m' s out hm hsent hcarry hmem hrecv =>
    obtain ⟨k, hk⟩ := List.mem_iff_getElem?.mp hm
    refine ⟨(w.lose k).record (S.dst m') (.recv m') s out,
      .tail (.deliver k) h (fun j c hin => ?_) ?_, rfl, rfl⟩
    · simp only [intake, hk, hcarry, List.head?_cons, Option.bind_some, if_pos hmem,
        Option.some.injEq, Prod.mk.injEq] at hin
      obtain ⟨rfl, rfl⟩ := hin
      exact hok
    · simp only [step, hk, hcarry, List.foldlM_cons, List.foldlM_nil, receive,
        World.lose_nodes, hmem, if_true, hrecv, Option.map_some, Option.bind_eq_bind,
        Option.bind_some, Option.pure_def]

/-- Behind every step of the history lay a reachable world, with no more history. -/
theorem Reach.reached (h : S.Reach ok w) : ∀ o ∈ w.history, ∃ w', S.Reach ok w' ∧
    w'.nodes o.node = o.after ∧ w'.history <:+ w.history := by
  intro o ho
  obtain ⟨w₀, hr, hok, hf, hsuf⟩ := h.fired o ho
  obtain ⟨w', hr', hnodes, hhist⟩ := hr.next hok hf
  refine ⟨w', hr', ?_, ?_⟩
  · rw [hnodes]
    exact Function.update_self ..
  · rw [hhist]
    exact hsuf

end Reachability

/-! ### At-most-once delivery -/

variable (p : μ → Bool)

/-- How often a message satisfying `p` arrived, over a history. -/
def receivedCount (h : List (Occurrence ι σ α μ)) : ℕ :=
  h.countP fun o => match o.cause with
    | .recv m => p m
    | .call _ => false

/-- How many messages satisfying `p` were sent, over a history. -/
def sentCount (h : List (Occurrence ι σ α μ)) : ℕ :=
  (h.map fun o => o.sent.countP p).sum

/-- What a step sends counts. -/
@[simp] theorem sentCount_cons (o : Occurrence ι σ α μ) (h : List (Occurrence ι σ α μ)) :
    sentCount p (o :: h) = o.sent.countP p + sentCount p h := rfl

/-- A call receives nothing. -/
@[simp] theorem receivedCount_call (i : ι) (a : α) (s s' : σ) (out : List μ)
    (h : List (Occurrence ι σ α μ)) :
    receivedCount p (⟨i, .call a, s, s', out⟩ :: h) = receivedCount p h := by
  simp [receivedCount]

/-- What a step receives counts. -/
@[simp] theorem receivedCount_recv (i : ι) (m : μ) (s s' : σ) (out : List μ)
    (h : List (Occurrence ι σ α μ)) :
    receivedCount p (⟨i, .recv m, s, s', out⟩ :: h)
      = receivedCount p h + (if p m then 1 else 0) := by
  simp [receivedCount, List.countP_cons]

/-- Removing the `k`-th element lowers the count by that element. -/
private theorem countP_eraseIdx {l : List μ} {k : ℕ} {m : μ} (hk : l[k]? = some m) :
    (l.eraseIdx k).countP p + (if p m then 1 else 0) = l.countP p := by
  induction l generalizing k with
  | nil => simp at hk
  | cons a l ih =>
    cases k with
    | zero =>
      rw [List.getElem?_cons_zero, Option.some.injEq] at hk
      subst hk
      rw [List.eraseIdx_cons_zero, List.countP_cons]
    | succ k =>
      have := ih (k := k) (by simpa using hk)
      rw [List.eraseIdx_cons_succ, List.countP_cons, List.countP_cons]
      omega

/-- Taking an element away adds none. -/
private theorem countP_eraseIdx_le (l : List μ) (k : ℕ) :
    (l.eraseIdx k).countP p ≤ l.countP p :=
  (List.eraseIdx_sublist l k).countP_le

/-- **At-most-once delivery.**  For a property of messages that the medium cannot make
    true, the messages that arrived and those still in flight are at most those sent. -/
theorem Reach.received_add_inFlight_le [DecidableEq ι] (hp : ∀ m m', m' ∈ S.carry m → p m' → p m)
    (h : S.Reach ok w) :
    receivedCount p w.history + w.inFlight.countP p ≤ sentCount p w.history := by
  induction h with
  | refl => simp [start, receivedCount, sentCount]
  | @tail w₁ _ e hs _ he ih =>
    rcases step_cases he with ⟨k, _, rfl⟩ | ⟨i, a, _, _, rfl⟩ |
      ⟨k, m, m', s, out, hk, hc, _, _, _, rfl⟩
    · have hle := countP_eraseIdx_le p w₁.inFlight k
      simp only [World.lose_history]
      exact le_trans (Nat.add_le_add_left hle _) ih
    · simp only [receivedCount_call, sentCount_cons, World.record,
        List.countP_append]
      omega
    · -- a delivery moves one message from those in flight to those that arrived
      have herase := countP_eraseIdx p hk
      have hpm : (if p m' then 1 else 0) ≤ (if p m then 1 else 0) := by
        by_cases h' : p m'
        · simp [h', hp m m' (by simp [hc]) h']
        · simp [h']
      simp only [receivedCount_recv, sentCount_cons, World.record,
        World.lose, List.countP_append]
      omega

/-- A message sent at most once arrives at most once. -/
theorem Reach.receivedCount_le [DecidableEq ι] (hp : ∀ m m', m' ∈ S.carry m → p m' → p m)
    (h : S.Reach ok w) : receivedCount p w.history ≤ sentCount p w.history :=
  le_trans (Nat.le_add_right _ _) (h.received_add_inFlight_le p hp)

/-- Sending and receiving never happen to messages no step accounts for: a bound on each
    step's sending bounds all sending by the number of steps that send. -/
theorem sentCount_le_countP {q : Occurrence ι σ α μ → Bool}
    {h : List (Occurrence ι σ α μ)}
    (hq : ∀ o ∈ h, o.sent.countP p ≤ if q o then 1 else 0) :
    sentCount p h ≤ h.countP q := by
  induction h with
  | nil => simp [sentCount]
  | cons o h ih =>
    have ho := hq o List.mem_cons_self
    have hrest := ih fun o' ho' => hq o' (List.mem_cons_of_mem _ ho')
    rw [sentCount_cons, List.countP_cons]
    omega

/-- A history with at most one step satisfying `q` has at most one such member. -/
theorem eq_of_countP_le_one {A : Type} {q : A → Bool} {l : List A} (h : l.countP q ≤ 1)
    {a b : A} (ha : a ∈ l) (hb : b ∈ l) (hqa : q a) (hqb : q b) : a = b := by
  rw [List.countP_eq_length_filter] at h
  have ha' : a ∈ l.filter q := List.mem_filter.mpr ⟨ha, hqa⟩
  have hb' : b ∈ l.filter q := List.mem_filter.mpr ⟨hb, hqb⟩
  match hl : l.filter q, h with
  | [], _ => rw [hl] at ha'; exact absurd ha' (by simp)
  | [c], _ =>
    rw [hl, List.mem_singleton] at ha' hb'
    rw [ha', hb']

end System

end AsyncNet
