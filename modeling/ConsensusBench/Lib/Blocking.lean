import ConsensusBench.Lib.AsyncNet

namespace AsyncNet

/-!
# Media that block some messages and lose no other

`S.blocking b` is the system `S` over a medium that stops the messages `b` selects.  With the
events of a run restricted (`Via`), one can say that nothing else is lost.

* `Reach.of_blocking` — a run over the blocking medium is a run of `S`, in which losses are free.
* `Via.received` — if no event loses a message, a message that gets through is in flight until it
  is received.
* `Via.call`, `Via.expire`, `Via.deliver` — how to extend a run.
-/

variable {ι σ α μ : Type}

namespace System

/-- The system `S` over a medium that stops the messages selected by `b`. -/
def blocking (S : System ι σ α μ) (b : μ → Bool) : System ι σ α μ :=
  { S with
    carry := fun m => if b m then [] else S.carry m
    carry_le_one := fun m => by
      split
      · exact Nat.zero_le 1
      · exact S.carry_le_one m }

section Carry

variable {S : System ι σ α μ} {b : μ → Bool} {m m' : μ}

theorem blocking_carry_of_not (h : b m = false) : (S.blocking b).carry m = S.carry m := by
  show (if b m then [] else S.carry m) = S.carry m
  rw [h]
  rfl

/-- What arrives was not blocked. -/
theorem blocking_carry_inv (h : (S.blocking b).carry m = [m']) :
    b m = false ∧ S.carry m = [m'] := by
  cases hb : b m with
  | false => exact ⟨rfl, by rwa [blocking_carry_of_not hb] at h⟩
  | true =>
    have hnil : (S.blocking b).carry m = [] := by
      show (if b m then [] else S.carry m) = []
      rw [hb]
      rfl
    rw [hnil] at h
    exact absurd h (by simp)

/-- A step over the blocking medium is a step of the system. -/
theorem Fires.of_blocking {w : World ι σ α μ} {o : Occurrence ι σ α μ}
    (h : (S.blocking b).Fires w o) : S.Fires w o := by
  cases h with
  | call i a hi => exact .call i a hi
  | recv m m' s out hm hsent hcarry hmem hrecv =>
    exact .recv m m' s out hm hsent (blocking_carry_inv hcarry).2 hmem hrecv

end Carry

variable [DecidableEq ι] (S : System ι σ α μ)

/-- `w'` is reached from `w` by events that satisfy `P`. -/
inductive Via (P : Event ι α → Prop) : World ι σ α μ → World ι σ α μ → Prop
  | refl (w : World ι σ α μ) : Via P w w
  | tail {w w' w'' : World ι σ α μ} (e : Event ι α) (hs : Via P w w') (hP : P e)
      (he : S.step w' e = some w'') : Via P w w''

variable {S} {P Q : Event ι α → Prop} {w w' w'' : World ι σ α μ} {b : μ → Bool}

theorem Via.trans (h : S.Via P w w') (h' : S.Via P w' w'') : S.Via P w w'' := by
  induction h' with
  | refl => exact h
  | tail e _ hP he ih => exact .tail e ih hP he

theorem Via.mono (hPQ : ∀ e, P e → Q e) (h : S.Via P w w') : S.Via Q w w' := by
  induction h with
  | refl => exact .refl _
  | tail e _ hP he ih => exact .tail e ih (hPQ e hP) he

theorem Via.steps (h : S.Via P w w') : S.Steps anyStep w w' := by
  induction h with
  | refl => exact .refl _
  | tail e _ _ he ih => exact .tail e ih (fun _ _ _ => trivial) he

/-- Blocking a message is losing it. -/
theorem step_of_blocking {e : Event ι α} (h : (S.blocking b).step w e = some w') :
    ∃ e', S.step w e' = some w' := by
  cases e with
  | call i a => exact ⟨.call i a, h⟩
  | lose k => exact ⟨.lose k, h⟩
  | deliver k =>
    simp only [step] at h
    cases hk : w.inFlight[k]? with
    | none =>
      rw [hk] at h
      exact absurd h (by simp)
    | some m =>
      rw [hk] at h
      cases hb : b m with
      | false =>
        refine ⟨.deliver k, ?_⟩
        simp only [step, hk]
        rw [← blocking_carry_of_not (S := S) hb]
        exact h
      | true =>
        have hnil : (S.blocking b).carry m = [] := by
          show (if b m then [] else S.carry m) = []
          rw [hb]
          rfl
        dsimp only at h
        rw [hnil] at h
        refine ⟨.lose k, ?_⟩
        obtain ⟨hlt, _⟩ := List.getElem?_eq_some_iff.mp hk
        rw [step, if_pos hlt]
        exact h

/-- **A run over a blocking medium is a run of the system.** -/
theorem Reach.of_blocking {ok : Guard ι σ α μ} (h : (S.blocking b).Reach ok w) :
    S.Reach anyStep w := by
  unfold Reach at h ⊢
  induction h with
  | refl => exact .refl _
  | tail e _ _ he ih =>
    obtain ⟨e', he'⟩ := step_of_blocking he
    exact .tail e' ih (fun _ _ _ => trivial) he'

/-- A delivery takes one message out of flight; what it makes of it is received. -/
theorem step_deliver {k : ℕ} {x : μ} (hk : w.inFlight[k]? = some x)
    (h : S.step w (.deliver k) = some w') :
    S.carry x = [] ∧ w' = w.lose k ∨
      ∃ x', S.carry x = [x'] ∧ S.receive (w.lose k) x' = some w' := by
  simp only [step, hk] at h
  rcases eq_nil_or_singleton (S.carry_le_one x) with hc | ⟨x', hc⟩
  · rw [hc, List.foldlM_nil, Option.pure_def, Option.some.injEq] at h
    exact .inl ⟨hc, h.symm⟩
  · simp only [hc, List.foldlM_cons, List.foldlM_nil, bind_pure] at h
    exact .inr ⟨x', hc, h⟩

/-- Receiving a message takes nothing out of flight and nothing out of the history. -/
theorem receive_kept {m : μ} (h : S.receive w m = some w') :
    (∀ x ∈ w.inFlight, x ∈ w'.inFlight) ∧ ∀ o ∈ w.history, o ∈ w'.history := by
  unfold receive at h
  split at h
  · obtain ⟨r, _, rfl⟩ := Option.map_eq_some_iff.mp h
    exact ⟨fun x hx => List.mem_append_left _ hx, fun o ho => List.mem_cons_of_mem _ ho⟩
  · rw [Option.some.injEq] at h
    subst h
    exact ⟨fun x hx => hx, fun o ho => ho⟩

/-- A delivery leaves the other messages in flight. -/
theorem deliver_kept {k : ℕ} {x : μ} (hk : w.inFlight[k]? = some x)
    (h : S.step w (.deliver k) = some w') :
    (∀ m ∈ w.inFlight, m ≠ x → m ∈ w'.inFlight) ∧ ∀ o ∈ w.history, o ∈ w'.history := by
  have hlose : ∀ m ∈ w.inFlight, m ≠ x → m ∈ (w.lose k).inFlight := by
    intro m hm hne
    obtain ⟨j, hj⟩ := List.mem_iff_getElem?.mp hm
    refine List.mem_eraseIdx_iff_getElem?.mpr ⟨j, ?_, hj⟩
    rintro rfl
    rw [hj, Option.some.injEq] at hk
    exact hne hk
  rcases step_deliver hk h with ⟨_, rfl⟩ | ⟨x', _, hr⟩
  · exact ⟨hlose, fun o ho => ho⟩
  · obtain ⟨hflight, hhist⟩ := receive_kept hr
    exact ⟨fun m hm hne => hflight m (hlose m hm hne), hhist⟩

/-- A message that was sent before an event, or by the step it makes, in which case it is in
    flight. -/
theorem sent_of_step {e : Event ι α} (he : S.step w e = some w') {m : μ} (hm : w'.Sent m) :
    w.Sent m ∨ m ∈ w'.inFlight := by
  obtain ⟨o, ho, hmo⟩ := hm
  rcases step_cases he with ⟨k, _, rfl⟩ | ⟨i, a, _, _, rfl⟩ | ⟨k, x, x', s, out, _, _, _, _, _, rfl⟩
  · exact .inl ⟨o, ho, hmo⟩
  · rcases List.mem_cons.mp ho with rfl | ho
    · exact .inr (List.mem_append_right _ hmo)
    · exact .inl ⟨o, ho, hmo⟩
  · rcases List.mem_cons.mp ho with rfl | ho
    · exact .inr (List.mem_append_right _ hmo)
    · exact .inl ⟨o, ho, hmo⟩

/-- **In flight until received.**  A message that the medium carries to a party is in flight until
    the party receives it, if no event loses a message. -/
theorem Via.received (hP : ∀ k, ¬ P (.lose k)) (h : S.Via P S.start w) {m m' : μ}
    (hc : S.carry m = [m']) (hd : S.dst m' ∈ S.members) (hm : w.Sent m) :
    m ∈ w.inFlight ∨ ∃ o ∈ w.history, o.cause = .recv m' := by
  induction h with
  | refl =>
    obtain ⟨o, ho, _⟩ := hm
    exact absurd ho (by simp [start])
  | @tail w₁ w₂ e hs hPe he ih =>
    -- what this event sends is in flight behind it
    rcases sent_of_step he hm with hold | hnew
    · have hbefore := ih hold
      cases e with
      | lose k => exact absurd hPe (hP k)
      | call i a =>
        simp only [step] at he
        split at he
        · rw [Option.some.injEq] at he
          subst he
          rcases hbefore with hm | ⟨o, ho, hco⟩
          · exact .inl (List.mem_append_left _ hm)
          · exact .inr ⟨o, List.mem_cons_of_mem _ ho, hco⟩
        · exact absurd he (by simp)
      | deliver k =>
        obtain ⟨x, hk⟩ : ∃ x, w₁.inFlight[k]? = some x := by
          cases hk : w₁.inFlight[k]? with
          | none =>
            simp only [step, hk] at he
            exact absurd he (by simp)
          | some x => exact ⟨x, rfl⟩
        obtain ⟨hflight, hhist⟩ := deliver_kept hk he
        rcases hbefore with hm | ⟨o, ho, hco⟩
        · by_cases hx : m = x
          · -- it is `m` that arrives
            subst hx
            rcases step_deliver hk he with ⟨hnil, _⟩ | ⟨x', hx', hr⟩
            · exact absurd (hnil.symm.trans hc) (by simp)
            · obtain rfl : x' = m' := by
                rw [hc, List.cons.injEq] at hx'
                exact hx'.1.symm
              rw [receive, if_pos hd] at hr
              obtain ⟨r, _, rfl⟩ := Option.map_eq_some_iff.mp hr
              exact .inr ⟨_, List.mem_cons_self, rfl⟩
          · exact .inl (hflight m hm hx)
        · exact .inr ⟨o, hhist o ho, hco⟩
    · exact .inl hnew

/-- Make one call. -/
theorem Via.call {i : ι} {a : α} (hP : P (.call i a)) (hi : i ∈ S.members) {s : σ} {out : List μ}
    (h : S.act i (w.nodes i) a = (s, out)) : S.Via P w (w.record i (.call a) s out) := by
  refine .tail (.call i a) (.refl w) hP ?_
  rw [step, if_pos hi, h]

/-- Repeat a call that counts a timer of the party down, and does nothing else that matters. -/
theorem Via.countdown {i : ι} {a : α} (hP : P (.call i a)) (hi : i ∈ S.members) (timer : σ → ℕ)
    {Q : σ → Prop} (hdown : ∀ s, Q s → 0 < timer s →
      ∃ s', S.act i s a = (s', []) ∧ timer s' + 1 = timer s ∧ Q s')
    (hQ : Q (w.nodes i)) : ∃ w' s, S.Via P w w' ∧ w'.nodes = Function.update w.nodes i s ∧
      w'.inFlight = w.inFlight ∧ Q s ∧ timer s = 0 := by
  -- by induction on what is left on the timer
  generalize ht : timer (w.nodes i) = t
  induction t generalizing w with
  | zero => exact ⟨w, _, .refl w, (Function.update_eq_self i w.nodes).symm, rfl, hQ, ht⟩
  | succ t ih =>
    obtain ⟨s, hact, htimer, hQs⟩ := hdown _ hQ (by rw [ht]; exact Nat.succ_pos t)
    have hcall : S.Via P w (w.record i (.call a) s []) := Via.call hP hi hact
    have hnode : (w.record i (.call a) s []).nodes i = s := Function.update_self _ _ _
    obtain ⟨w', s', hs', hn', hf', hQ', ht'⟩ := ih (w := w.record i (.call a) s [])
      (by rw [hnode]; exact hQs) (by rw [hnode]; omega)
    refine ⟨w', s', hcall.trans hs', ?_, ?_, hQ', ht'⟩
    · rw [hn', World.record_nodes, Function.update_idem]
    · rw [hf']
      exact List.append_nil _

/-- Count the timer of a party down, and make the call that finds it at zero. -/
theorem Via.expire {i : ι} {a : α} (hP : P (.call i a)) (hi : i ∈ S.members) (timer : σ → ℕ)
    {Q : σ → Prop} (hdown : ∀ s, Q s → 0 < timer s →
      ∃ s', S.act i s a = (s', []) ∧ timer s' + 1 = timer s ∧ Q s')
    (hQ : Q (w.nodes i)) : ∃ w' s, S.Via P w w' ∧ Q s ∧ timer s = 0 ∧
      w'.nodes = Function.update w.nodes i (S.act i s a).1 ∧
      ∀ m ∈ (S.act i s a).2, m ∈ w'.inFlight := by
  obtain ⟨w₁, s, hs, hnodes, _, hQs, ht⟩ := Via.countdown hP hi timer hdown hQ
  have hnode : w₁.nodes i = s := by rw [hnodes, Function.update_self]
  have hcall : S.Via P w₁ (w₁.record i (.call a) (S.act i s a).1 (S.act i s a).2) :=
    Via.call hP hi (by rw [hnode])
  refine ⟨_, s, hs.trans hcall, hQs, ht, ?_, fun m hm => List.mem_append_right _ hm⟩
  rw [World.record_nodes, hnodes, Function.update_idem]

/-- Deliver one message that is in flight. -/
theorem Via.deliver (hP : ∀ k, P (.deliver k)) {m m' : μ} (hm : m ∈ w.inFlight)
    (hc : S.carry m = [m']) (hd : S.dst m' ∈ S.members) {s : σ} {out : List μ}
    (hr : S.recv (S.dst m') (w.nodes (S.dst m')) m' = some (s, out)) :
    ∃ w', S.Via P w w' ∧ w'.nodes = Function.update w.nodes (S.dst m') s := by
  obtain ⟨k, hk⟩ := List.mem_iff_getElem?.mp hm
  refine ⟨(w.lose k).record (S.dst m') (.recv m') s out, ?_, rfl⟩
  refine .tail (.deliver k) (.refl w) (hP k) ?_
  simp only [step, hk, hc, List.foldlM_cons, List.foldlM_nil, receive, World.lose_nodes, hd,
    if_true, hr, Option.map_some, bind_pure]

end System

end AsyncNet
