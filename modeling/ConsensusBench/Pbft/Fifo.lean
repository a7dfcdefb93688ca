import ConsensusBench.Pbft.Certificate
import ConsensusBench.Pbft.Round

namespace ConsensusBench

/-!
# PBFT under the orchestrator

A cluster that is driven by `propose` and `step` stays in view `0`, and what its nodes hold is the
rounds of the sequences proposed so far, on the queue of the cluster.

* `Content`, `Holds` — what a message and the state of a node are in terms of the rounds.
* `Holds.handle` — the handlers do to one sequence what the slot program does, and commit the
  sequences in order.
* `normalCase` — so PBFT follows its slot program.
* `backups_commit_all` — all proposals are accepted, and when nothing is pending the nodes
  outside a faulty set of `f` have committed them.
-/

open Pipeline PbftNode

namespace Pbft

variable [Sha256]

/-- The methods of PBFT node `i` of `n`. -/
def code (n : ℕ) (i : NodeId) : ConsensusNode PbftState where
  propose := (node n i).propose
  handleMessage state msg := some ((node n i).handleMessage state msg)
  tick := (node n i).tick

/-- `Cluster::new_pbft`. -/
def newCluster (n : ℕ) (rng : ℕ → ℚ) : Cluster PbftState :=
  Cluster.new n (fun i => (PbftNode.new i n).2) rng

/-! ### Messages -/

/-- What a letter of sequence `s` says, up to its digest. -/
def Content (ps : List Payload) (s : SequenceNumber) (l : Letter Wave) (m : ProtocolMessage) :
    Prop :=
  match l.wave with
  | .prePrepare => l.sender = 0 ∧ ∃ d p, ps[s - 1]? = some p ∧ m = .pbft (.prePrepare 0 s d p)
  | .prepare => ∃ d, m = .pbft (.prepare 0 s d l.sender)
  | .commit => ∃ d, m = .pbft (.commit 0 s d l.sender)

variable {n : ℕ} {ps : List Payload} {faults : NetworkFaults} {F : Finset NodeId}
variable {s : SequenceNumber} {l : Letter Wave}

omit [Sha256] in
theorem Content.phase {m : ProtocolMessage} (h : Content ps s l m) :
    messagePhase m = some l.wave.messagePhase := by
  unfold Content at h
  cases hw : l.wave with
  | prePrepare =>
    rw [hw] at h
    obtain ⟨_, d, p, _, rfl⟩ := h
    rfl
  | prepare =>
    rw [hw] at h
    obtain ⟨d, rfl⟩ := h
    rfl
  | commit =>
    rw [hw] at h
    obtain ⟨d, rfl⟩ := h
    rfl

omit [Sha256] in
/-- Votes say the same if their digests are altered. -/
theorem Content.of_skeleton {m m' : ProtocolMessage} (h : Content ps s l m)
    (hl : l.wave ≠ .prePrepare) (hskel : FaultConfig.skeleton m' = FaultConfig.skeleton m) :
    Content ps s l m' := by
  unfold Content at h ⊢
  cases hw : l.wave with
  | prePrepare => exact absurd hw hl
  | prepare =>
    rw [hw] at h
    obtain ⟨d, rfl⟩ := h
    cases m' with
    | pbft x =>
      obtain ⟨d', rfl⟩ := prepare_of_skeleton hskel.symm
      exact ⟨d', rfl⟩
    | raft x => cases x <;> exact absurd hskel (by simp [FaultConfig.skeleton])
    | hotStuff x => cases x <;> exact absurd hskel (by simp [FaultConfig.skeleton])
  | commit =>
    rw [hw] at h
    obtain ⟨d, rfl⟩ := h
    cases m' with
    | pbft x =>
      obtain ⟨d', rfl⟩ := commit_of_skeleton hskel.symm
      exact ⟨d', rfl⟩
    | raft x => cases x <;> exact absurd hskel (by simp [FaultConfig.skeleton])
    | hotStuff x => cases x <;> exact absurd hskel (by simp [FaultConfig.skeleton])

/-- Messages say the same on the way, if node `0` is honest. -/
theorem Content.alter (cfg : FaultConfig) (h0 : cfg.isByzantine 0 = false) {m : NetworkMessage}
    (hs : m.sender = l.sender) (h : Content ps s l m.payload) :
    Content ps s l (cfg.alter m).payload := by
  by_cases hl : l.wave = .prePrepare
  · have hzero : l.sender = 0 := by
      unfold Content at h
      rw [hl] at h
      exact h.1
    rw [cfg.alter_of_honest (by rw [hs, hzero]; exact h0)]
    exact h
  · exact h.of_skeleton hl (cfg.alter_skeleton m)

omit [Sha256] in
/-- More proposals do not change what messages say. -/
theorem Content.concat {m : ProtocolMessage} (p : Payload) (h : Content ps s l m) :
    Content (ps ++ [p]) s l m := by
  unfold Content at h ⊢
  cases hw : l.wave with
  | prePrepare =>
    rw [hw] at h
    obtain ⟨hzero, d, p', hp, hm⟩ := h
    exact ⟨hzero, d, p', List.getElem?_append_left (List.getElem?_eq_some_iff.mp hp).1 ▸ hp, hm⟩
  | prepare =>
    rw [hw] at h
    exact h
  | commit =>
    rw [hw] at h
    exact h

/-! ### Nodes -/

/-- The state of a node, in terms of its slots `x` by sequence. -/
structure Holds (ps : List Payload) (x : SequenceNumber → Option SlotState) (st : PbftState) :
    Prop where
  view : st.view = 0
  progress : st.viewChangeInProgress = false
  keeps : Keeps SlotState.number (fun slot => slot.phase = .committed) ps x st.slots
    st.pendingPayloads st.committed

variable {x : SequenceNumber → Option SlotState} {st : PbftState}

/-- What a handler makes of a state is what the slot program `a` makes of sequence `s`. -/
structure Obeys (n : ℕ) (ps : List Payload) (x : SequenceNumber → Option SlotState)
    (s : SequenceNumber) (st : PbftState) (r : PbftState × List NetworkMessage)
    (a : Option SlotState × List (Letter Wave)) : Prop where
  holds : Holds ps (Function.update x s a.1) r.1
  sent : List.Forall₂ (Shows n (Content ps s)) r.2 a.2
  next : r.1.nextSequence = st.nextSequence

omit [Sha256] in
/-- A message that is ignored. -/
theorem Holds.ignore (h : Holds ps x st) {o : Option SlotState} (ho : x s = o) :
    Obeys n ps x s st (st, []) (o, []) where
  holds := by
    rw [← ho, Function.update_eq_self]
    exact h
  sent := .nil
  next := rfl

omit [Sha256] in
theorem Holds.handlePrePrepare (h : Holds ps x st) (hnone : x s = none) {p : Payload}
    (hp : ps[s - 1]? = some p) (i : NodeId) (d : Digest) :
    Obeys n ps x s st ((node n i).handlePrePrepare st 0 s d p)
      (some (openSlot 0 0), spread n .prepare i) := by
  have haccept : ¬ ((0 : ℕ) ≠ st.view ∨ st.viewChangeInProgress = true) := by
    rw [h.view, h.progress]
    simp
  rw [PbftNode.handlePrePrepare, if_neg haccept]
  refine ⟨⟨h.view, h.progress, ?_⟩, shows_spread Wave.prepare fun j => ⟨d, rfl⟩, rfl⟩
  refine h.keeps.write _ (not_ended_of_none hnone) (by simp [openSlot]) ?_
    fun a ha => AList.lookup_insert_ne ha
  rw [AList.lookup_insert, hp]

omit [Sha256] in
theorem Holds.handlePrepare (h : Holds ps x st) (i r : NodeId) (d : Digest) :
    Obeys n ps x s st ((node n i).handlePrepare st 0 s d r)
      (Pbft.handle n i (x s) .prepare r) := by
  have hview : ¬ (0 : ℕ) ≠ st.view := by
    rw [h.view]
    simp
  have hslot := h.keeps.slots s
  rw [PbftNode.handlePrepare, if_neg hview]
  cases hs : x s with
  | none =>
    rw [hs, Option.map_none] at hslot
    simp only [hslot, handle_none (show Wave.prepare ≠ .prePrepare by simp)]
    exact h.ignore hs
  | some slot =>
    rw [hs, Option.map_some] at hslot
    -- only a slot that is not prepared yet counts `Prepare`s
    by_cases hph : slot.phase = .prePrepared
    · have hopen : slot.phase ≠ .committed := by rw [hph]; simp
      have hnot : ¬ Finished (x s) := not_ended_of_some hs hopen
      have hself := h.keeps.payloads s slot hs hopen
      by_cases hq : (node n i).prepareThreshold ≤ (slot.addPrepare r).prepareVoters.card
      · have hq' := hq
        simp only [SlotState.addPrepare] at hq'
        simp only [hslot, SlotState.number, hph, if_true, hq', Pbft.handle, hq]
        refine ⟨⟨h.view, h.progress, ?_⟩, shows_spread Wave.commit fun j => ⟨d, rfl⟩, rfl⟩
        exact h.keeps.write _ hnot (by simp [SlotState.toPrepared]) hself fun _ _ => rfl
      · have hq' := hq
        simp only [SlotState.addPrepare] at hq'
        simp only [hslot, SlotState.number, hph, if_true, hq', Pbft.handle, hq, if_false]
        refine ⟨⟨h.view, h.progress, ?_⟩, .nil, rfl⟩
        have hkeeps := h.keeps.write (slot.addPrepare r) hnot hopen hself fun _ _ => rfl
        rw [SlotState.addPrepare, SlotState.number, hph] at hkeeps
        rw [SlotState.addPrepare, hph]
        exact hkeeps
    · simp only [hslot, SlotState.number, hph, if_false, Pbft.handle]
      exact h.ignore hs

omit [Sha256] in
theorem Holds.handleCommit (h : Holds ps x st) (hpos : 1 ≤ s) (hle : s ≤ ps.length) (i r : NodeId)
    (hnext : ¬ Finished (x s) → Finished (Pbft.handle n i (x s) .commit r).1 →
      InTurn Finished ps x s) :
    Obeys n ps x s st ((node n i).handleCommit st 0 s r)
      (Pbft.handle n i (x s) .commit r) := by
  have hview : ¬ (0 : ℕ) ≠ st.view := by
    rw [h.view]
    simp
  have hslot := h.keeps.slots s
  rw [PbftNode.handleCommit, if_neg hview]
  cases hs : x s with
  | none =>
    rw [hs, Option.map_none] at hslot
    simp only [hslot, handle_none (show Wave.commit ≠ .prePrepare by simp)]
    exact h.ignore hs
  | some slot =>
    rw [hs, Option.map_some] at hslot
    by_cases hph : slot.phase = .prepared ∨ slot.phase = .prePrepared
    · have hopen : slot.phase ≠ .committed := by
        rcases hph with hph | hph
        · rw [hph]
          simp
        · rw [hph]
          simp
      have hnot : ¬ Finished (x s) := not_ended_of_some hs hopen
      have hself := h.keeps.payloads s slot hs hopen
      -- the quorum is complete: the payload of the slot is committed
      by_cases hq : (node n i).quorum ≤ (slot.addCommit r).commitVoters.card
      · have hlt : s - 1 < ps.length := Nat.sub_one_lt_of_le hpos hle
        have hp : ps[s - 1]? = some (ps[s - 1]) := List.getElem?_eq_getElem hlt
        have hfinish := hnext hnot
        rw [hs] at hfinish
        have hq' := hq
        simp only [SlotState.addCommit] at hq'
        simp only [hslot, SlotState.number, hph, if_true, hq', Pbft.handle, hq, hopen, ne_eq,
          not_false_eq_true, and_self, hself, hp] at hfinish ⊢
        refine ⟨⟨h.view, h.progress, ?_⟩, .nil, rfl⟩
        exact h.keeps.commit { slot.addCommit r with phase := .committed } rfl hp
          (hfinish ⟨_, rfl, rfl⟩) fun a ha => AList.lookup_erase_ne ha
      · have hq' := hq
        simp only [SlotState.addCommit] at hq'
        simp only [hslot, SlotState.number, hph, if_true, hq', Pbft.handle, hq, if_false, false_and]
        refine ⟨⟨h.view, h.progress, ?_⟩, .nil, rfl⟩
        exact h.keeps.write (slot.addCommit r) hnot hopen hself fun _ _ => rfl
    · simp only [hslot, SlotState.number, hph, if_false, Pbft.handle]
      exact h.ignore hs

omit [Sha256] in
/-- **The handlers follow the slot program.** -/
theorem Holds.handle {i : NodeId} (h : Holds ps x st) (hpos : 1 ≤ s) (hle : s ≤ ps.length)
    (hfresh : l.wave = .prePrepare → x s = none)
    (hnext : ¬ Finished (x s) → Finished (Pbft.handle n i (x s) l.wave l.sender).1 →
      InTurn Finished ps x s)
    {m : NetworkMessage} (hm : Shows n (Content ps s) m l) :
    Obeys n ps x s st ((node n i).handleMessage st m)
      (Pbft.handle n i (x s) l.wave l.sender) := by
  have hc := hm.content
  unfold Content at hc
  cases hw : l.wave with
  | prePrepare =>
    rw [hw] at hc
    obtain ⟨_, d, p, hp, hpay⟩ := hc
    rw [handleMessage, hpay]
    exact h.handlePrePrepare (hfresh hw) hp i d
  | prepare =>
    rw [hw] at hc
    obtain ⟨d, hpay⟩ := hc
    rw [handleMessage, hpay]
    exact h.handlePrepare i l.sender d
  | commit =>
    rw [hw] at hc hnext
    obtain ⟨d, hpay⟩ := hc
    rw [handleMessage, hpay]
    exact h.handleCommit hpos hle i l.sender hnext

omit [Sha256] in
/-- A node at the start. -/
theorem holds_init (n : ℕ) (i : NodeId) : Holds [] (fun _ => none) (PbftNode.new i n).2 :=
  ⟨rfl, rfl, keeps_init⟩

theorem propose_of_canPropose {self : PbftNode} {st : PbftState} (h : canPropose self st)
    (p : Payload) : self.propose st p = (.accepted,
      { st with
        nextSequence := st.nextSequence + 1
        slots := st.slots.insert st.nextSequence (openSlot st.view st.nextSequence)
        pendingPayloads := st.pendingPayloads.insert st.nextSequence p },
      self.broadcastPbft (.prePrepare st.view st.nextSequence p.digest p) ++
        self.broadcastPbft (.prepare st.view st.nextSequence p.digest self.id)) := by
  unfold PbftNode.propose
  rw [if_neg (not_not.mpr h.1), if_neg (by rw [h.2]; simp)]
  rfl

/-- The primary opens the slot of the next sequence. -/
theorem Holds.propose (p : Payload) (h : Holds ps x st) (hnext : st.nextSequence = ps.length + 1)
    (hidle : ∀ a, a = 0 ∨ ps.length < a → x a = none) :
    ∃ st' out, (code n 0).propose st p = (.accepted, st', out) ∧
      Holds (ps ++ [p]) (Function.update x (ps.length + 1) (some (openSlot 0 0))) st' ∧
      List.Forall₂ (Shows n (Content (ps ++ [p]) (ps.length + 1))) out (program n).opening ∧
      st'.nextSequence = ps.length + 1 + 1 := by
  have hcan : canPropose (node n 0) st := ⟨by rw [h.view]; exact Nat.zero_mod n, h.progress⟩
  have hlast : (ps ++ [p])[ps.length + 1 - 1]? = some p := by simp
  refine ⟨_, _, propose_of_canPropose hcan p, ⟨h.view, h.progress, ?_⟩, ?_, by rw [hnext]⟩
  · have hkeeps := h.keeps.launch (openSlot 0 0) hidle p (by simp [openSlot])
    show Keeps _ _ _ _ (st.slots.insert st.nextSequence (openSlot st.view st.nextSequence))
      (st.pendingPayloads.insert st.nextSequence p) st.committed
    rw [hnext, h.view]
    exact hkeeps
  · rw [hnext, h.view]
    exact List.rel_append (shows_spread Wave.prePrepare fun j => ⟨rfl, p.digest, p, hlast, rfl⟩)
      (shows_spread Wave.prepare fun j => ⟨p.digest, rfl⟩)

/-! ### The cluster -/

/-- **PBFT follows its slot program** as long as node `0` leads. -/
def normalCase (n : ℕ) : NormalCase PbftState SlotState Wave n where
  program := program n
  code := code n
  init i := (PbftNode.new i n).2
  phase := Wave.messagePhase
  Content := Content
  Holds := Holds
  Ready slot wave := wave = .prePrepare → slot = none
  Finished := Finished
  next := PbftState.nextSequence
  content_phase := Content.phase
  content_alter cfg h0 hs h := h.alter cfg h0 hs
  content_concat p h := h.concat p
  next_init := rfl
  holds_init := holds_init n
  holds_concat p h hidle := ⟨h.view, h.progress, h.keeps.concat hidle p⟩
  holds_committed h := h.keeps.committed
  propose p h hnext hidle := h.propose p hnext hidle
  handle h hpos hle hready hnext hm := by
    have hobeys := h.handle hpos hle hready hnext hm
    exact ⟨_, _, rfl, hobeys.holds, hobeys.sent, hobeys.next⟩

/-- **PBFT commits everything** under up to `f` faulty backups. -/
theorem backups_commit_all (n : ℕ) (hn : 2 ≤ n) (rng : ℕ → ℚ) (F : Finset NodeId)
    (hcard : F.card ≤ (n - 1) / 3) (h0 : 0 ∉ F) (faults : NetworkFaults)
    (hF : faults.ConfinedTo F) (calls : List ClusterCall) (hcalls : .tick ∉ calls) :
    ∃ results c, ((newCluster n rng).setFaults faults).run (code n) calls = some (results, c) ∧
      (∀ r ∈ results, r = .accepted) ∧
      (c.pending = [] → ∀ i < n, i ∉ F →
        (c.nodes i).committed = numbered (Cluster.proposals calls)) := by
  have hlive := enough hn hcard h0 hF Wave.messagePhase
  have horderly : (normalCase n).Orderly faults :=
    ⟨fun t => (inWaves hlive t).fresh, finished_mono hlive⟩
  obtain ⟨results, c, hrun, hres, hall⟩ :=
    NormalCase.commits_all horderly (by omega) hF h0 rng calls hcalls
  refine ⟨results, c, hrun, hres, fun hempty i hi hiF => hall hempty i fun t hnil => ?_⟩
  exact finished_of_drained hlive hnil i (Finset.mem_sdiff.mpr ⟨Finset.mem_range.mpr hi, hiF⟩)

/-- Node `3` of four drops its `Commit`s and corrupts what else it sends. -/
def droppingBackup : NetworkFaults where
  byzantineNodes := (∅ : HashMap NodeId (List ByzantineBehavior)).insert 3
    [.selectiveDrop [.pbftCommit], .corruptDigest]
  rng _ := 0

/-- Two proposals, the second of which is made while the first is under way. -/
def overlapping : List ClusterCall :=
  [.propose ⟨[0x70]⟩, .step, .propose ⟨[0x71]⟩, .step, .step, .step]

omit [Sha256] in
/-- Four nodes with a faulty backup commit two proposals, and nothing is left to deliver. -/
theorem backups_commit_all_four : ∃ results c,
    @Cluster.run _ (@code Sha256.sample 4) Sha256.sample
      ((newCluster 4 fun _ => 0).setFaults droppingBackup) overlapping = some (results, c) ∧
      (∀ r ∈ results, r = .accepted) ∧ c.pending = [] ∧
      ∀ i < 4, i ∉ ({3} : Finset NodeId) →
        (c.nodes i).committed = [⟨1, ⟨[0x70]⟩⟩, ⟨2, ⟨[0x71]⟩⟩] := by
  have hF : droppingBackup.ConfinedTo {3} := {
    dropRate := rfl
    partitions := rfl
    isolated := fun i hi => absurd hi (by simp [NetworkFaults.isIsolated, droppingBackup])
    byzantine := fun i hi => by
      by_contra hne
      rw [Finset.mem_singleton] at hne
      have hnone : droppingBackup.byzantineNodes.lookup i = none :=
        (AList.lookup_insert_ne hne).trans (AList.lookup_empty i)
      rw [FaultConfig.isByzantine, hnone] at hi
      exact absurd hi (by simp) }
  obtain ⟨results, c, hrun, hres, hall⟩ := @backups_commit_all Sha256.sample 4 (by decide)
    (fun _ => 0) {3} (by decide) (by decide) droppingBackup hF overlapping (by decide)
  have hpending : (@Cluster.run _ (@code Sha256.sample 4) Sha256.sample
      ((newCluster 4 fun _ => 0).setFaults droppingBackup) overlapping).map
        (fun r => r.2.pending) = some [] := by
    decide +kernel
  rw [hrun, Option.map_some, Option.some.injEq] at hpending
  exact ⟨results, c, hrun, hres, hpending, hall hpending⟩

end Pbft

end ConsensusBench
