import ConsensusBench.Cluster

namespace ConsensusBench

/-!
# The orchestrator as a schedule

A cluster that is driven by `propose`, `step` and `tick` makes its nodes take steps of the
message-passing system, in one of the many orders the system allows: `step` takes the messages
out of flight in order, and either loses them or delivers them.  So what holds in all reachable
worlds of the system holds of every cluster (`run_scheduled`).

`run_to_completion` and `wait_for_leader` are loops of these calls, and keep what each of them
keeps (`runToCompletion_rule`, `waitForLeader_rule`).
-/

open AsyncNet

namespace Cluster

variable {σ : Type} (code : NodeId → ConsensusNode σ) [Sha256]

/-- `Cluster::run_to_completion`: the number of steps, and the cluster after them. -/
def runToCompletion (c : Cluster σ) : ℕ → Option (ℕ × Cluster σ)
  | 0 => some (0, c)
  | maxSteps + 1 =>
    if c.pending.isEmpty then some (0, c)
    else (c.step code).bind fun c =>
      (runToCompletion c maxSteps).map fun (steps, c) => (steps + 1, c)

/-- `Cluster::wait_for_leader`, for the node type's `is_leader`. -/
def waitForLeader (isLeader : NodeId → σ → Bool) (c : Cluster σ) :
    ℕ → Option (Option NodeId × Cluster σ)
  | 0 => some (none, c)
  | maxTicks + 1 =>
    (runToCompletion code (c.tick code) 100).bind fun (_, c) =>
      match (List.range c.size).find? fun i =>
          isLeader i (c.nodes i) && !c.faults.isIsolated i with
      | some i => some (some i, c)
      | none => waitForLeader isLeader c maxTicks

variable {code}

/-- What a step keeps, running to completion keeps. -/
theorem runToCompletion_rule {P : Cluster σ → Prop}
    (hstep : ∀ c c', P c → c.step code = some c' → P c') (maxSteps : ℕ) :
    ∀ {c c' : Cluster σ} {steps : ℕ}, P c → runToCompletion code c maxSteps = some (steps, c') →
      P c' := by
  induction maxSteps with
  | zero =>
    intro c c' steps h hrun
    cases hrun
    exact h
  | succ maxSteps ih =>
    intro c c' steps h hrun
    rw [runToCompletion] at hrun
    split at hrun
    · cases hrun
      exact h
    · obtain ⟨c₁, hone, hrest⟩ := Option.bind_eq_some_iff.mp hrun
      obtain ⟨⟨steps', c₂⟩, hrun', heq⟩ := Option.map_eq_some_iff.mp hrest
      cases heq
      exact ih (hstep c c₁ h hone) hrun'

/-- What a tick and a step keep, waiting for a leader keeps. -/
theorem waitForLeader_rule {P : Cluster σ → Prop} (htick : ∀ c, P c → P (c.tick code))
    (hstep : ∀ c c', P c → c.step code = some c' → P c') {isLeader : NodeId → σ → Bool}
    (maxTicks : ℕ) : ∀ {c c' : Cluster σ} {found : Option NodeId}, P c →
      waitForLeader code isLeader c maxTicks = some (found, c') → P c' := by
  induction maxTicks with
  | zero =>
    intro c c' found h hwait
    cases hwait
    exact h
  | succ maxTicks ih =>
    intro c c' found h hwait
    rw [waitForLeader, Option.bind_eq_some_iff] at hwait
    obtain ⟨⟨steps, c₁⟩, hrun, hrest⟩ := hwait
    have h₁ : P c₁ := runToCompletion_rule hstep 100 (htick c h) hrun
    dsimp only at hrest
    split at hrest
    · cases hrest
      exact h₁
    · exact ih h₁ hrest

/-- Whoever is waited for is a node that is not isolated and takes itself for the leader. -/
theorem waitForLeader_inv {isLeader : NodeId → σ → Bool} {maxTicks : ℕ} {c c' : Cluster σ}
    {i : NodeId} (h : waitForLeader code isLeader c maxTicks = some (some i, c')) :
    i < c'.size ∧ isLeader i (c'.nodes i) = true ∧ c'.faults.isIsolated i = false := by
  induction maxTicks generalizing c with
  | zero => exact absurd h (by simp [waitForLeader])
  | succ maxTicks ih =>
    rw [waitForLeader, Option.bind_eq_some_iff] at h
    obtain ⟨⟨_, c₁⟩, _, h⟩ := h
    dsimp only at h
    split at h
    · rename_i j hfind
      cases h
      have hlt := List.mem_range.mp (List.mem_of_find?_eq_some hfind)
      have hsome := List.find?_some hfind
      simp only [Bool.and_eq_true, Bool.not_eq_true'] at hsome
      exact ⟨hlt, hsome.1, hsome.2⟩
    · exact ih h

/-! ### Nodes and parties -/

variable (code) in
/-- The nodes run by `code` are the parties of `S`, and what they send is tampered with as `cfg`
    says. -/
structure Parties (S : System NodeId σ Call NetworkMessage) (n : ℕ) (cfg : FaultConfig) :
    Prop where
  members : S.members = Finset.range n
  propose : ∀ i s p, S.act i s (.propose p) = ((code i).propose s p).2
  tick : ∀ i s, S.act i s .tick = (code i).tick s
  recv : ∀ i s m, S.recv i s m = (code i).handleMessage s m
  dst : ∀ m, S.dst m = m.target
  carry : ∀ m, S.carry m = cfg.tamper m
  -- a node that rejects a proposal sends nothing
  quiet : ∀ i s p r, ((code i).propose s p).1 = .notLeader r → ((code i).propose s p).2.2 = []

/-- The cluster `c`, with the messages `flight` on the way, is the world `w`. -/
structure Shows (n : ℕ) (cfg : FaultConfig) (c : Cluster σ) (flight : List NetworkMessage)
    (w : World NodeId σ Call NetworkMessage) : Prop where
  size : c.size = n
  faults : c.faults.toFaultConfig = cfg
  nodes : w.nodes = c.nodes
  inFlight : w.inFlight = flight

/-- A step that calls a node is one of the calls `A`. -/
def calling (A : Call → Prop) : System.Guard NodeId σ Call NetworkMessage :=
  fun _ _ c => ∀ a, c = .call a → A a

omit [Sha256] in
theorem calling_mono {A B : Call → Prop} (h : ∀ a, A a → B a)
    (w : World NodeId σ Call NetworkMessage) (i : NodeId) (c : Cause Call NetworkMessage)
    (hc : calling A w i c) : calling B w i c :=
  fun a ha => h a (hc a ha)

section Steps

variable {S : System NodeId σ Call NetworkMessage} {n : ℕ} {cfg : FaultConfig}
variable {w : World NodeId σ Call NetworkMessage} {c c' : Cluster σ}
variable {flight sent sent' : List NetworkMessage}

omit [Sha256] in
/-- Deciding about a delivery uses up the generator only. -/
theorem shouldDeliver_cfg (faults : NetworkFaults) (msg : NetworkMessage) :
    (faults.shouldDeliver msg).2.toFaultConfig = faults.toFaultConfig := by
  unfold NetworkFaults.shouldDeliver
  split
  · rfl
  · split
    · rfl
    · split <;> rfl

omit [Sha256] in
/-- One event of a run. -/
theorem steps_single {w' : World NodeId σ Call NetworkMessage} {A : Call → Prop}
    (e : Event NodeId Call) (h : S.step w e = some w')
    (he : ∀ i a, e = .call i a → A a := by simp) : S.Steps (calling A) w w' := by
  refine .tail e (.refl w) (fun i c hin a hc => ?_) h
  subst hc
  exact he i a (S.intake_eq_call hin)

/-- A call on a node is an event. -/
theorem call_scheduled (hS : Parties code S n cfg) (hw : Shows n cfg c flight w) {i : NodeId}
    (hi : i < n) {a : Call} {s : σ} {out : List NetworkMessage}
    (ha : S.act i (c.nodes i) a = (s, out)) :
    ∃ w', S.Steps (calling (· = a)) w w' ∧
      Shows n cfg (c.setNode i s) (flight ++ out) w' := by
  refine ⟨w.record i (.call a) s out, steps_single (.call i a) ?_ (by simp), hw.size,
    hw.faults, ?_, ?_⟩
  · have hmem : i ∈ S.members := by rw [hS.members]; exact Finset.mem_range.mpr hi
    rw [System.step, if_pos hmem, hw.nodes, ha]
  · show Function.update w.nodes i s = Function.update c.nodes i s
    rw [hw.nodes]
  · show w.inFlight ++ out = flight ++ out
    rw [hw.inFlight]

/-- Handing over a message that was taken out of flight is what its delivery does. -/
theorem handOver_scheduled (hS : Parties code S n cfg) {msg tmsg : NetworkMessage}
    (hw : Shows n cfg c (msg :: flight ++ sent) w) (hcarry : cfg.tamper msg = [tmsg])
    (h : handOver code (c, sent) tmsg = some (c', sent')) :
    ∃ w', S.Steps (calling fun _ => False) w w' ∧ Shows n cfg c' (flight ++ sent') w' ∧
      c'.pending = c.pending := by
  have hfirst : w.inFlight[0]? = some msg := by rw [hw.inFlight]; rfl
  have hrest : (w.lose 0).inFlight = flight ++ sent := by
    show w.inFlight.eraseIdx 0 = flight ++ sent
    rw [hw.inFlight]
    rfl
  -- the message is the first one in flight
  have hevent : S.step w (.deliver 0) = S.receive (w.lose 0) tmsg := by
    simp only [System.step, hfirst, hS.carry, hcarry, List.foldlM_cons, List.foldlM_nil,
      Option.bind_eq_bind, Option.pure_def, Option.bind_fun_some]
  unfold handOver at h
  by_cases ht : tmsg.target < c.size
  · have hmem : S.dst tmsg ∈ S.members := by
      rw [hS.members, hS.dst, ← hw.size]
      exact Finset.mem_range.mpr ht
    simp only [ht, if_true, Option.map_eq_some_iff] at h
    obtain ⟨⟨s, out⟩, hhandle, heq⟩ := h
    cases heq
    have hrecv : S.receive (w.lose 0) tmsg =
        some ((w.lose 0).record tmsg.target (.recv tmsg) s out) := by
      rw [System.receive, if_pos hmem, hS.recv, hS.dst, World.lose_nodes, hw.nodes]
      show ((code tmsg.target).handleMessage (c.countDelivered.nodes tmsg.target) tmsg).map _ = _
      rw [hhandle]
      rfl
    refine ⟨_, steps_single (.deliver 0) (hevent.trans hrecv), ⟨hw.size, hw.faults, ?_, ?_⟩, rfl⟩
    · show Function.update w.nodes tmsg.target s = Function.update c.nodes tmsg.target s
      rw [hw.nodes]
    · show (w.lose 0).inFlight ++ out = flight ++ (sent ++ out)
      rw [hrest, List.append_assoc]
  · have hmem : S.dst tmsg ∉ S.members := by
      rw [hS.members, hS.dst, ← hw.size]
      exact fun hin => ht (Finset.mem_range.mp hin)
    simp only [ht, if_false, Option.some.injEq, Prod.mk.injEq] at h
    obtain ⟨rfl, rfl⟩ := h
    have hrecv : S.receive (w.lose 0) tmsg = some (w.lose 0) := by
      rw [System.receive, if_neg hmem]
    exact ⟨_, steps_single (.deliver 0) (hevent.trans hrecv),
      ⟨hw.size, hw.faults, hw.nodes, hrest⟩, rfl⟩

/-- **One message of the batch** is lost or delivered. -/
theorem deliverOne_scheduled (hS : Parties code S n cfg) {msg : NetworkMessage}
    (hw : Shows n cfg c (msg :: flight ++ sent) w)
    (h : deliverOne code (c, sent) msg = some (c', sent')) :
    ∃ w', S.Steps (calling fun _ => False) w w' ∧ Shows n cfg c' (flight ++ sent') w' ∧
      c'.pending = c.pending := by
  have hcfg : (c.countSent.faults.shouldDeliver msg).2.toFaultConfig = cfg :=
    (shouldDeliver_cfg c.faults msg).trans hw.faults
  -- what the network or the sender drops is lost
  have hlost : ∀ c₁ : Cluster σ, c₁.size = c.size → c₁.faults.toFaultConfig = cfg →
      c₁.nodes = c.nodes → c₁.pending = c.pending →
      ∃ w', S.Steps (calling fun _ => False) w w' ∧ Shows n cfg c₁ (flight ++ sent) w' ∧
        c₁.pending = c.pending := by
    intro c₁ hsize hf hn hp
    refine ⟨w.lose 0, steps_single (.lose 0) ?_, ⟨hsize.trans hw.size, hf, ?_, ?_⟩, hp⟩
    · rw [System.step, if_pos (by rw [hw.inFlight]; simp)]
    · rw [World.lose_nodes, hw.nodes, hn]
    · show w.inFlight.eraseIdx 0 = flight ++ sent
      rw [hw.inFlight]
      rfl
  unfold deliverOne at h
  dsimp only at h
  split at h
  · cases h
    exact hlost _ rfl hcfg rfl rfl
  · split at h
    · cases h
      exact hlost _ rfl hcfg rfl rfl
    · rename_i hkept
      rw [hcfg] at h hkept
      rcases System.eq_nil_or_singleton (cfg.tamper_length_le msg) with hnil | ⟨tmsg, hone⟩
      · exact absurd (by rw [hnil]; rfl) hkept
      · simp only [hone, List.foldlM_cons, List.foldlM_nil, Option.bind_eq_bind, Option.pure_def,
          Option.bind_fun_some] at h
        have hhanded : ∀ c₁ : Cluster σ, c₁.size = c.size → c₁.faults.toFaultConfig = cfg →
            c₁.nodes = c.nodes → c₁.pending = c.pending →
            handOver code (c₁, sent) tmsg = some (c', sent') →
            ∃ w', S.Steps (calling fun _ => False) w w' ∧ Shows n cfg c' (flight ++ sent') w' ∧
              c'.pending = c.pending := by
          intro c₁ hsize hf hn hp hhand
          obtain ⟨w', hsteps, hshow, hp'⟩ := handOver_scheduled hS
            ⟨hsize.trans hw.size, hf, hw.nodes.trans hn.symm, hw.inFlight⟩ hone hhand
          exact ⟨w', hsteps, hshow, hp'.trans hp⟩
        -- counting the message as tampered changes the statistics only
        split at h
        · apply hhanded _ _ _ _ _ h
          · rfl
          · exact hcfg
          · rfl
          · rfl
        · apply hhanded _ _ _ _ _ h
          · rfl
          · exact hcfg
          · rfl
          · rfl

/-- **A step of the cluster** is a schedule of the messages that were pending. -/
theorem step_scheduled (hS : Parties code S n cfg) (hw : Shows n cfg c c.pending w)
    (h : c.step code = some c') :
    ∃ w', S.Steps (calling fun _ => False) w w' ∧ Shows n cfg c' c'.pending w' := by
  have hloop : ∀ (batch sent : List NetworkMessage) (c₁ c₂ : Cluster σ)
      (sent' : List NetworkMessage) (w₁ : World NodeId σ Call NetworkMessage),
      batch.foldlM (deliverOne code) (c₁, sent) = some (c₂, sent') →
      Shows n cfg c₁ (batch ++ sent) w₁ → ∃ w₂, S.Steps (calling fun _ => False) w₁ w₂ ∧
        Shows n cfg c₂ sent' w₂ ∧ c₂.pending = c₁.pending := by
    -- what is left of the batch is in flight before what was sent in this step
    intro batch
    induction batch with
    | nil =>
      intro sent c₁ c₂ sent' w₁ hfold hshow
      simp only [List.foldlM_nil, Option.pure_def, Option.some.injEq, Prod.mk.injEq] at hfold
      obtain ⟨rfl, rfl⟩ := hfold
      exact ⟨w₁, .refl w₁, hshow, rfl⟩
    | cons msg batch ih =>
      intro sent c₁ c₂ sent' w₁ hfold hshow
      rw [List.foldlM_cons, Option.bind_eq_bind, Option.bind_eq_some_iff] at hfold
      obtain ⟨⟨c₃, sent₃⟩, hone, hrest⟩ := hfold
      obtain ⟨w₃, hsteps, hshow₃, hp₃⟩ := deliverOne_scheduled hS hshow hone
      obtain ⟨w₂, hsteps', hshow₂, hp₂⟩ := ih sent₃ c₃ c₂ sent' w₃ hrest hshow₃
      exact ⟨w₂, hsteps.trans hsteps', hshow₂, hp₂.trans hp₃⟩
  rw [step, Option.map_eq_some_iff] at h
  obtain ⟨⟨c₂, sent'⟩, hfold, rfl⟩ := h
  obtain ⟨w', hsteps, hshow, hp⟩ := hloop c.pending [] { c with pending := [] } c₂ sent' w hfold
    ⟨hw.size, hw.faults, hw.nodes, by rw [hw.inFlight, List.append_nil]⟩
  refine ⟨w', hsteps, hshow.size, hshow.faults, hshow.nodes, ?_⟩
  show w'.inFlight = c₂.pending ++ sent'
  rw [hp, hshow.inFlight]
  rfl

/-- **A tick of the cluster** ticks the nodes in order. -/
theorem tick_scheduled (hS : Parties code S n cfg) (hw : Shows n cfg c c.pending w) :
    ∃ w', S.Steps (calling (· = .tick)) w w' ∧
      Shows n cfg (c.tick code) (c.tick code).pending w' := by
  have hloop : ∀ (ids : List NodeId) (c₁ : Cluster σ) (w₁ : World NodeId σ Call NetworkMessage),
      (∀ i ∈ ids, i < n) → Shows n cfg c₁ c₁.pending w₁ →
      ∃ w₂, S.Steps (calling (· = .tick)) w₁ w₂ ∧
        Shows n cfg (ids.foldl (fun c i => (c.setNode i ((code i).tick (c.nodes i)).1).enqueue
          ((code i).tick (c.nodes i)).2) c₁) (ids.foldl (fun c i =>
            (c.setNode i ((code i).tick (c.nodes i)).1).enqueue
              ((code i).tick (c.nodes i)).2) c₁).pending w₂ := by
    intro ids
    induction ids with
    | nil => exact fun c₁ w₁ _ hshow => ⟨w₁, .refl w₁, hshow⟩
    | cons i ids ih =>
      intro c₁ w₁ hids hshow
      obtain ⟨w₃, hsteps, hshow₃⟩ := call_scheduled hS hshow (hids i List.mem_cons_self)
        (hS.tick i (c₁.nodes i))
      obtain ⟨w₂, hsteps', hshow₂⟩ := ih ((c₁.setNode i ((code i).tick (c₁.nodes i)).1).enqueue
        ((code i).tick (c₁.nodes i)).2) w₃ (fun j hj => hids j (List.mem_cons_of_mem _ hj))
        ⟨hshow₃.size, hshow₃.faults, hshow₃.nodes, hshow₃.inFlight⟩
      exact ⟨w₂, hsteps.trans hsteps', hshow₂⟩
  refine hloop (List.range c.size) c w (fun i hi => ?_) hw
  rw [← hw.size]
  exact List.mem_range.mp hi

/-- **A proposal** is one to each node that is asked. -/
theorem propose_scheduled (hS : Parties code S n cfg) (hw : Shows n cfg c c.pending w)
    (p : Payload) : ∃ w', S.Steps (calling (· = .propose p)) w w' ∧
      Shows n cfg (c.propose code p).2 (c.propose code p).2.pending w' := by
  -- the node in turn and the one it names as the leader are asked alike
  have hask : ∀ {c₁ : Cluster σ} {w₁ : World NodeId σ Call NetworkMessage} (i : NodeId),
      Shows n cfg c₁ c₁.pending w₁ → i < n → ∃ w₂, S.Steps (calling (· = .propose p)) w₁ w₂ ∧
        Shows n cfg ((c₁.setNode i ((code i).propose (c₁.nodes i) p).2.1).enqueue
            ((code i).propose (c₁.nodes i) p).2.2)
          (c₁.pending ++ ((code i).propose (c₁.nodes i) p).2.2) w₂ := by
    intro c₁ w₁ i hshow hi
    obtain ⟨w₂, hsteps, hshow₂⟩ := call_scheduled hS hshow hi (hS.propose i (c₁.nodes i) p)
    exact ⟨w₂, hsteps, hshow₂.size, hshow₂.faults, hshow₂.nodes, hshow₂.inFlight⟩
  have hloop : ∀ (ids : List NodeId) (c₁ : Cluster σ) (w₁ : World NodeId σ Call NetworkMessage),
      (∀ i ∈ ids, i < n) → Shows n cfg c₁ c₁.pending w₁ →
      ∃ w₂, S.Steps (calling (· = .propose p)) w₁ w₂ ∧ Shows n cfg (tryPropose code p c₁ ids).2
        (tryPropose code p c₁ ids).2.pending w₂ := by
    intro ids
    induction ids with
    | nil => exact fun c₁ w₁ _ hshow => ⟨w₁, .refl w₁, hshow⟩
    | cons i ids ih =>
      intro c₁ w₁ hids hshow
      have hrest : ∀ j ∈ ids, j < n := fun j hj => hids j (List.mem_cons_of_mem _ hj)
      rw [tryPropose]
      split
      · exact ih c₁ w₁ hrest hshow
      · obtain ⟨w₂, hsteps, hshow₂⟩ := hask i hshow (hids i List.mem_cons_self)
        -- a node that rejects the proposal has sent nothing
        have hquiet : ∀ r, ((code i).propose (c₁.nodes i) p).1 = .notLeader r →
            Shows n cfg (c₁.setNode i ((code i).propose (c₁.nodes i) p).2.1) c₁.pending w₂ := by
          intro r hr
          refine ⟨hshow₂.size, hshow₂.faults, hshow₂.nodes, ?_⟩
          rw [hshow₂.inFlight, hS.quiet i _ p r hr, List.append_nil]
        dsimp only
        split
        · exact ⟨w₂, hsteps, hshow₂⟩
        · rename_i leader hr
          split
          · rename_i hlt
            have hleader : leader < n := by
              rw [← hshow.size]
              exact hlt
            obtain ⟨w₃, hsteps', hshow₃⟩ := hask leader (hquiet _ hr) hleader
            exact ⟨w₃, hsteps.trans hsteps', hshow₃⟩
          · obtain ⟨w₃, hsteps', hshow₃⟩ := ih _ w₂ hrest (hquiet _ hr)
            exact ⟨w₃, hsteps.trans hsteps', hshow₃⟩
        · rename_i hr
          obtain ⟨w₃, hsteps', hshow₃⟩ := ih _ w₂ hrest (hquiet _ hr)
          exact ⟨w₃, hsteps.trans hsteps', hshow₃⟩
  refine hloop (List.range c.size) _ w (fun i hi => ?_)
    ⟨hw.size, hw.faults, hw.nodes, hw.inFlight⟩
  rw [← hw.size]
  exact List.mem_range.mp hi

/-- **Every run of the cluster is one of the system**, from a world that shows it. -/
theorem run_scheduled (hS : Parties code S n cfg) (calls : List ClusterCall) :
    ∀ {c c' : Cluster σ} {w : World NodeId σ Call NetworkMessage} {results : List ProposeResult},
      Shows n cfg c c.pending w → c.run code calls = some (results, c') →
      ∃ w', S.Steps (calling (· ≠ .pollCommitted)) w w' ∧ Shows n cfg c' c'.pending w' := by
  induction calls with
  | nil =>
    intro c c' w results hw h
    cases h
    exact ⟨w, .refl w, hw⟩
  | cons call calls ih =>
    intro c c' w results hw h
    cases call with
    | propose p =>
      obtain ⟨w₁, hsteps, hshow⟩ := propose_scheduled hS hw p
      replace hsteps := hsteps.mono (calling_mono (B := (· ≠ .pollCommitted)) (by simp))
      simp only [run, Option.map_eq_some_iff] at h
      obtain ⟨⟨results', c₁⟩, hrun, heq⟩ := h
      cases heq
      obtain ⟨w₂, hsteps', hshow'⟩ := ih hshow hrun
      exact ⟨w₂, hsteps.trans hsteps', hshow'⟩
    | step =>
      rw [run, Option.bind_eq_some_iff] at h
      obtain ⟨c₁, hstep, hrun⟩ := h
      obtain ⟨w₁, hsteps, hshow⟩ := step_scheduled hS hw hstep
      replace hsteps := hsteps.mono (calling_mono (B := (· ≠ .pollCommitted)) (by simp))
      obtain ⟨w₂, hsteps', hshow'⟩ := ih hshow hrun
      exact ⟨w₂, hsteps.trans hsteps', hshow'⟩
    | tick =>
      obtain ⟨w₁, hsteps, hshow⟩ := tick_scheduled hS hw
      replace hsteps := hsteps.mono (calling_mono (B := (· ≠ .pollCommitted)) (by simp))
      obtain ⟨w₂, hsteps', hshow'⟩ := ih hshow h
      exact ⟨w₂, hsteps.trans hsteps', hshow'⟩

theorem runToCompletion_scheduled (hS : Parties code S n cfg) (maxSteps : ℕ) :
    ∀ {c c' : Cluster σ} {w : World NodeId σ Call NetworkMessage} {steps : ℕ},
      Shows n cfg c c.pending w → runToCompletion code c maxSteps = some (steps, c') →
      ∃ w', S.Steps (calling fun _ => False) w w' ∧ Shows n cfg c' c'.pending w' := by
  intro c c' w steps hw h
  refine runToCompletion_rule (P := fun c₁ => ∃ w₁, S.Steps (calling fun _ => False) w w₁ ∧
    Shows n cfg c₁ c₁.pending w₁) ?_ maxSteps ⟨w, .refl w, hw⟩ h
  rintro c₁ c₂ ⟨w₁, hsteps, hshow⟩ hstep
  obtain ⟨w₂, hsteps', hshow'⟩ := step_scheduled hS hshow hstep
  exact ⟨w₂, hsteps.trans hsteps', hshow'⟩

theorem waitForLeader_calling (hS : Parties code S n cfg) {isLeader : NodeId → σ → Bool}
    (maxTicks : ℕ) :
    ∀ {c c' : Cluster σ} {w : World NodeId σ Call NetworkMessage} {found : Option NodeId},
      Shows n cfg c c.pending w → waitForLeader code isLeader c maxTicks = some (found, c') →
      ∃ w', S.Steps (calling (· = .tick)) w w' ∧ Shows n cfg c' c'.pending w' := by
  intro c c' w found hw h
  refine waitForLeader_rule (P := fun c₁ => ∃ w₁, S.Steps (calling (· = .tick)) w w₁ ∧
    Shows n cfg c₁ c₁.pending w₁) ?_ ?_ maxTicks ⟨w, .refl w, hw⟩ h
  · rintro c₁ ⟨w₁, hsteps, hshow⟩
    obtain ⟨w₂, hsteps', hshow'⟩ := tick_scheduled hS hshow
    exact ⟨w₂, hsteps.trans hsteps', hshow'⟩
  · rintro c₁ c₂ ⟨w₁, hsteps, hshow⟩ hstep
    obtain ⟨w₂, hsteps', hshow'⟩ := step_scheduled hS hshow hstep
    replace hsteps' := hsteps'.mono (calling_mono (B := (· = .tick)) (by simp))
    exact ⟨w₂, hsteps.trans hsteps', hshow'⟩

/-- **Waiting for a leader** is a run of the system, too. -/
theorem waitForLeader_scheduled (hS : Parties code S n cfg) {isLeader : NodeId → σ → Bool}
    (maxTicks : ℕ) {c c' : Cluster σ} {found : Option NodeId} (hw : Shows n cfg c c.pending w)
    (h : waitForLeader code isLeader c maxTicks = some (found, c')) :
    ∃ w', S.Steps System.anyStep w w' ∧ Shows n cfg c' c'.pending w' := by
  obtain ⟨w', hsteps, hshow⟩ := waitForLeader_calling hS maxTicks hw h
  exact ⟨w', hsteps.mono fun _ _ _ _ => trivial, hshow⟩

end Steps

end Cluster

end ConsensusBench
