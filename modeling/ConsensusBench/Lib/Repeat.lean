import ConsensusBench.Lib.AsyncNet

namespace AsyncNet

/-!
# Repeated delivery

A medium that may deliver a message any number of times: a delivered message stays in flight
until it is lost.  The parties take the same steps (`System.Fires`) as under at-most-once
delivery, so the invariant rule is the same, and a run with at-most-once delivery is one of
these runs (`System.Reach.repeats`).
-/

variable {ι σ α μ : Type}

namespace System

variable [DecidableEq ι] (S : System ι σ α μ)

/-- One event of a medium that keeps what it delivers. -/
def stepRepeating (w : World ι σ α μ) : Event ι α → Option (World ι σ α μ)
  | .deliver k =>
      match w.inFlight[k]? with
      | none => none
      | some m => (S.carry m).foldlM S.receive w
  | e => S.step w e

/-- The world after a list of events of that medium. -/
def runRepeating (w : World ι σ α μ) : List (Event ι α) → Option (World ι σ α μ)
  | [] => some w
  | e :: es => (S.stepRepeating w e).bind fun w' => runRepeating w' es

/-- The worlds reachable when messages may be delivered repeatedly. -/
inductive Repeats : World ι σ α μ → Prop
  | start : Repeats S.start
  | tail {w w' : World ι σ α μ} (e : Event ι α) (hs : Repeats w)
      (he : S.stepRepeating w e = some w') : Repeats w'

variable {S} {ok : Guard ι σ α μ} {w w' : World ι σ α μ}

/-- One event takes a message out of flight, or changes nothing, or books one step. -/
theorem stepRepeating_cases {e : Event ι α} (h : S.stepRepeating w e = some w') :
    (∃ k, w' = w.lose k) ∨ w' = w ∨
    (∃ i a, i ∈ S.members ∧
      w' = w.record i (.call a) (S.act i (w.nodes i) a).1 (S.act i (w.nodes i) a).2) ∨
    (∃ m ∈ w.inFlight, ∃ m' s out, S.carry m = [m'] ∧ S.dst m' ∈ S.members ∧
      S.recv (S.dst m') (w.nodes (S.dst m')) m' = some (s, out) ∧
      w' = w.record (S.dst m') (.recv m') s out) := by
  cases e with
  | call i a =>
    rcases step_cases (show S.step w (.call i a) = some w' from h) with
      ⟨k, _, rfl⟩ | ⟨j, b, hj, _, rfl⟩ | ⟨_, _, _, _, _, _, _, _, hin, _⟩
    · exact .inl ⟨k, rfl⟩
    · exact .inr (.inr (.inl ⟨j, b, hj, rfl⟩))
    · exact absurd hin (by simp [intake])
  | lose k =>
    rcases step_cases (show S.step w (.lose k) = some w' from h) with
      ⟨k, _, rfl⟩ | ⟨_, _, _, hin, _⟩ | ⟨_, _, _, _, _, _, _, _, hin, _⟩
    · exact .inl ⟨k, rfl⟩
    · exact absurd hin (by simp [intake])
    · exact absurd hin (by simp [intake])
  | deliver k =>
    simp only [stepRepeating] at h
    cases hk : w.inFlight[k]? with
    | none => rw [hk] at h; exact absurd h (by simp)
    | some m =>
      simp only [hk] at h
      rcases carried_cases h with ⟨_, rfl⟩ | ⟨m', s, out, hc, hd, hr, rfl⟩
      · exact .inr (.inl rfl)
      · exact .inr (.inr (.inr
          ⟨m, List.mem_of_getElem? hk, m', s, out, hc, hd, hr, rfl⟩))

/-- Whatever is in flight was sent by a step of the history. -/
theorem Repeats.sent_of_mem (h : S.Repeats w) : ∀ m ∈ w.inFlight, w.Sent m := by
  induction h with
  | start => intro m hm; exact absurd hm (by simp [System.start])
  | tail e hs he ih =>
    rcases stepRepeating_cases he with
      ⟨k, rfl⟩ | rfl | ⟨i, a, _, rfl⟩ | ⟨_, _, m', s, out, _, _, _, rfl⟩
    · exact fun m hm => ih m (List.mem_of_mem_eraseIdx hm)
    · exact ih
    · exact World.sent_record ih
    · exact World.sent_record ih

/-- **Invariant rule** for repeated delivery.  A property of the states and the history that
    holds at the start and survives every step a party can take holds in every such world. -/
theorem Repeats.induct {N : (ι → σ) → List (Occurrence ι σ α μ) → Prop} (h0 : N S.init [])
    (hstep : ∀ (w : World ι σ α μ) (o : Occurrence ι σ α μ), S.Repeats w →
      N w.nodes w.history → S.Fires w o →
      N (Function.update w.nodes o.node o.after) (o :: w.history))
    (h : S.Repeats w) : N w.nodes w.history := by
  induction h with
  | start => exact h0
  | tail e hs he ih =>
    rcases stepRepeating_cases he with
      ⟨k, rfl⟩ | rfl | ⟨i, a, hi, rfl⟩ | ⟨m, hm, m', s, out, hc, hd, hr, rfl⟩
    · exact ih
    · exact ih
    · exact hstep _ _ hs ih (.call i a hi)
    · exact hstep _ _ hs ih (.recv m m' s out hm (hs.sent_of_mem m hm) hc hd hr)

/-- Every step of the history was taken in an earlier world of the run. -/
theorem Repeats.fired (h : S.Repeats w) : ∀ o ∈ w.history, ∃ w₀, S.Repeats w₀ ∧
    S.Fires w₀ o ∧ (o :: w₀.history) <:+ w.history := by
  refine Repeats.induct (N := fun _ hist => ∀ o ∈ hist, ∃ w₀, S.Repeats w₀ ∧ S.Fires w₀ o ∧
    (o :: w₀.history) <:+ hist) ?_ ?_ h
  · intro o ho
    exact absurd ho (by simp)
  · intro w o hr ih hf o' ho'
    rcases List.mem_cons.mp ho' with rfl | hold
    · exact ⟨w, hr, hf, List.suffix_rfl⟩
    · obtain ⟨w₀, hr₀, hf₀, hsuf⟩ := ih o' hold
      exact ⟨w₀, hr₀, hf₀, hsuf.trans (List.suffix_cons _ _)⟩

/-- Losing what was just delivered is delivering it once. -/
private theorem lose_record {k : ℕ} (hk : k < w.inFlight.length) (i : ι) (c : Cause α μ) (s : σ)
    (out : List μ) : (w.record i c s out).lose k = (w.lose k).record i c s out := by
  simp only [World.lose, World.record, List.eraseIdx_append_of_lt_length hk]

/-- **At-most-once delivery is a special case**: each message is lost once it is delivered. -/
theorem Reach.repeats (h : S.Reach ok w) : S.Repeats w := by
  unfold Reach at h
  induction h with
  | refl => exact .start
  | @tail w₁ w₂ e hs _ he ih =>
    cases e with
    | call i a => exact .tail (.call i a) ih he
    | lose k => exact .tail (.lose k) ih he
    | deliver k =>
      have hlost : k < w₁.inFlight.length → S.Repeats (w₁.lose k) := fun hk =>
        .tail (.lose k) ih (if_pos hk)
      simp only [step] at he
      cases hk : w₁.inFlight[k]? with
      | none => rw [hk] at he; exact absurd he (by simp)
      | some m =>
        have hlt := (List.getElem?_eq_some_iff.mp hk).1
        simp only [hk] at he
        rcases carried_cases he with ⟨_, rfl⟩ | ⟨m', s, out, hc, hd, hr, rfl⟩
        · exact hlost hlt
        · have hdelivered : S.Repeats (w₁.record (S.dst m') (.recv m') s out) := by
            refine .tail (.deliver k) ih ?_
            rw [World.lose_nodes] at hr
            simp only [stepRepeating, hk, hc, List.foldlM_cons, List.foldlM_nil, receive, hd,
              if_true, hr, Option.map_some, Option.bind_eq_bind, Option.bind_some,
              Option.pure_def]
          refine .tail (.lose k) hdelivered ?_
          rw [← lose_record hlt]
          exact if_pos (by rw [World.record, List.length_append]; omega)

/-- What an executed list of events reaches is reachable. -/
theorem Repeats.of_run (es : List (Event ι α)) (hw : S.Repeats w)
    (h : S.runRepeating w es = some w') : S.Repeats w' := by
  induction es generalizing w with
  | nil =>
    rw [runRepeating, Option.some.injEq] at h
    exact h ▸ hw
  | cons e es ih =>
    rw [runRepeating, Option.bind_eq_some_iff] at h
    obtain ⟨w₁, he, hes⟩ := h
    exact ih (.tail e hw he) hes

/-- A run that ends in a world satisfying `P` shows such a world reachable. -/
theorem Repeats.exists_of_run (es : List (Event ι α)) {P : World ι σ α μ → Prop}
    [DecidablePred P] (h : (S.runRepeating S.start es).any (fun w => P w) = true) :
    ∃ w, S.Repeats w ∧ P w := by
  rw [Option.any_eq_true] at h
  obtain ⟨w, hw, hP⟩ := h
  exact ⟨w, Repeats.of_run es .start hw, of_decide_eq_true hP⟩

end System

end AsyncNet
