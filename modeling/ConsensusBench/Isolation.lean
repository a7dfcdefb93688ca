import ConsensusBench.HotStuff.Fifo
import ConsensusBench.Lib.Noninterference
import ConsensusBench.Pbft.Fifo
import ConsensusBench.Raft.Fifo

namespace ConsensusBench

/-!
# Isolation

Isolated nodes neither hear nor are heard: no other node can tell what they do.

* `Cluster.SameOutside` — clusters that the nodes outside a set cannot tell apart.
* `Cluster.SameOutside.step` — the messages of a batch that are for or from an isolated node are
  hidden in the sense of `Noninterference.Unwinding`.
* `Cluster.SameOutside.run` — so calls on such clusters keep them so.
-/

open Noninterference

/-- Whether neither end of a message is in `I`. -/
def outside (I : Finset NodeId) (msg : NetworkMessage) : Bool :=
  decide (msg.sender ∉ I ∧ msg.target ∉ I)

/-- A message of an isolated node is not outside. -/
theorem outside_of_sender {I : Finset NodeId} {msg : NetworkMessage} (h : msg.sender ∈ I) :
    outside I msg = false :=
  decide_eq_false fun hboth => hboth.1 h

namespace NetworkFaults

variable {faults : NetworkFaults} {msg : NetworkMessage}

/-- A message of or for an isolated node is dropped without a roll. -/
theorem shouldDeliver_isolated (h : outside faults.isolatedNodes msg = false) :
    faults.shouldDeliver msg = (false, faults) := by
  have hends : msg.sender ∈ faults.isolatedNodes ∨ msg.target ∈ faults.isolatedNodes := by
    by_contra hno
    rw [not_or] at hno
    exact of_decide_eq_false h hno
  rw [shouldDeliver, if_pos hends]

/-- Deciding on a delivery leaves the isolated nodes as they are. -/
theorem shouldDeliver_isolatedNodes (faults : NetworkFaults) (msg : NetworkMessage) :
    (faults.shouldDeliver msg).2.isolatedNodes = faults.isolatedNodes := by
  unfold shouldDeliver
  split_ifs <;> rfl

end NetworkFaults

namespace Cluster

variable {σ : Type} {I : Finset NodeId} {c c' c'' : Cluster σ}

/-- Clusters in which the nodes of `I` are isolated, and that differ only in these nodes, in
    messages of or for them, and in what was counted and recorded. -/
structure SameOutside (I : Finset NodeId) (c c' : Cluster σ) : Prop where
  isolated : c.faults.isolatedNodes = I
  faults : c.faults = c'.faults
  size : c.size = c'.size
  nodes : ∀ i ∉ I, c.nodes i = c'.nodes i
  pending : c.pending.filter (outside I) = c'.pending.filter (outside I)

namespace SameOutside

/-- The relation is symmetric. -/
theorem symm (h : SameOutside I c c') : SameOutside I c' c where
  isolated := by rw [← h.faults, h.isolated]
  faults := h.faults.symm
  size := h.size.symm
  nodes i hi := (h.nodes i hi).symm
  pending := h.pending.symm

/-- The relation is transitive. -/
theorem trans (h : SameOutside I c c') (h' : SameOutside I c' c'') : SameOutside I c c'' where
  isolated := h.isolated
  faults := h.faults.trans h'.faults
  size := h.size.trans h'.size
  nodes i hi := (h.nodes i hi).trans (h'.nodes i hi)
  pending := h.pending.trans h'.pending

/-- A node of `I` may be set to anything, the others to the same state. -/
theorem setNode (h : SameOutside I c c') {i : NodeId} {s s' : σ} (hs : i ∉ I → s = s') :
    SameOutside I (c.setNode i s) (c'.setNode i s') where
  isolated := h.isolated
  faults := h.faults
  size := h.size
  nodes j hj := by
    show Function.update c.nodes i s j = Function.update c'.nodes i s' j
    by_cases hji : j = i
    · subst hji
      rw [Function.update_self, Function.update_self]
      exact hs hj
    · rw [Function.update_of_ne hji, Function.update_of_ne hji]
      exact h.nodes j hj
  pending := h.pending

/-- The messages sent may differ in those of or for nodes of `I`. -/
theorem enqueue (h : SameOutside I c c') {out out' : List NetworkMessage}
    (hout : out.filter (outside I) = out'.filter (outside I)) :
    SameOutside I (c.enqueue out) (c'.enqueue out') where
  isolated := h.isolated
  faults := h.faults
  size := h.size
  nodes := h.nodes
  pending := by
    show (c.pending ++ out).filter _ = (c'.pending ++ out').filter _
    rw [List.filter_append, List.filter_append, h.pending, hout]

/-- What is counted and recorded makes no difference. -/
theorem counted (h : SameOutside I c c') (stats stats' : ClusterStats) (log log' : CommitLog) :
    SameOutside I { c with stats := stats, commitLog := log }
      { c' with stats := stats', commitLog := log' } :=
  ⟨h.isolated, h.faults, h.size, h.nodes, h.pending⟩

/-- The same nodes are isolated in both clusters. -/
theorem isIsolated_eq (h : SameOutside I c c') (i : NodeId) :
    c'.faults.isIsolated i = c.faults.isIsolated i := by
  rw [h.faults]

/-- A node acts: if it is in `I`, so is the sender of what it sends. -/
theorem act (h : SameOutside I c c') (i : NodeId) (f : σ → σ × List NetworkMessage)
    (hsigned : ∀ s, ∀ msg ∈ (f s).2, msg.sender = i) :
    SameOutside I ((c.setNode i (f (c.nodes i)).1).enqueue (f (c.nodes i)).2)
      ((c'.setNode i (f (c'.nodes i)).1).enqueue (f (c'.nodes i)).2) := by
  by_cases hi : i ∈ I
  · -- an isolated node signs what it sends, which is then out of sight
    have hhidden : ∀ s, (f s).2.filter (outside I) = [] := by
      intro s
      apply List.filter_eq_nil_iff.mpr
      intro msg hmsg
      have hsender : msg.sender ∈ I := by
        rw [hsigned s msg hmsg]
        exact hi
      rw [outside_of_sender hsender]
      exact Bool.false_ne_true
    have hset : SameOutside I (c.setNode i (f (c.nodes i)).1) (c'.setNode i (f (c'.nodes i)).1) :=
      h.setNode fun hno => absurd hi hno
    exact hset.enqueue ((hhidden _).trans (hhidden _).symm)
  · rw [← h.nodes i hi]
    exact (h.setNode fun _ => rfl).enqueue rfl

end SameOutside

/-! ### Proposing and ticking -/

/-- Node `i` is the sender of all that it sends of its own accord. -/
structure Signs (code : ConsensusNode σ) (i : NodeId) : Prop where
  propose : ∀ s payload, ∀ msg ∈ (code.propose s payload).2.2, msg.sender = i
  tick : ∀ s, ∀ msg ∈ (code.tick s).2, msg.sender = i

variable {code : NodeId → ConsensusNode σ}

/-- The proposal goes to the same nodes; only an isolated one that is named as the leader may
    answer it differently. -/
theorem SameOutside.tryPropose (hsigned : ∀ i, Signs (code i) i) (payload : Payload)
    (l : List NodeId) (h : SameOutside I c c') :
    SameOutside I (tryPropose code payload c l).2 (tryPropose code payload c' l).2 := by
  induction l generalizing c c' with
  | nil => exact h
  | cons i rest ih =>
    by_cases hi : c.faults.isIsolated i = true
    · have hi' : c'.faults.isIsolated i = true := (h.isIsolated_eq i).trans hi
      rw [Cluster.tryPropose, if_pos hi, Cluster.tryPropose, if_pos hi']
      exact ih h
    · have hi' : ¬ c'.faults.isIsolated i = true := by
        rw [h.isIsolated_eq i]
        exact hi
      have hout : i ∉ I := by
        rw [← h.isolated]
        exact fun hin => hi (decide_eq_true hin)
      rw [Cluster.tryPropose, if_neg hi, Cluster.tryPropose, if_neg hi', ← h.nodes i hout]
      -- a node that is not isolated answers the same in both clusters
      obtain ⟨result, state, outgoing⟩ := (code i).propose (c.nodes i) payload
      have hset : SameOutside I (c.setNode i state) (c'.setNode i state) :=
        h.setNode fun _ => rfl
      cases result with
      | accepted => exact hset.enqueue rfl
      | notLeader named =>
        cases named with
        | none => exact ih hset
        | some leader =>
          by_cases hlt : leader < (c.setNode i state).size
          · have hlt' : leader < (c'.setNode i state).size := by
              rw [← hset.size]
              exact hlt
            dsimp only
            rw [if_pos hlt, if_pos hlt']
            -- the named leader may be isolated, so that the two answer differently
            exact hset.act leader (fun s => ((code leader).propose s payload).2)
              fun s => (hsigned leader).propose s payload
          · have hlt' : ¬ leader < (c'.setNode i state).size := by
              rw [← hset.size]
              exact hlt
            dsimp only
            rw [if_neg hlt, if_neg hlt']
            exact ih hset

/-- **Proposing** keeps two clusters the same outside `I`. -/
theorem SameOutside.propose (hsigned : ∀ i, Signs (code i) i) (h : SameOutside I c c')
    (payload : Payload) :
    SameOutside I (c.propose code payload).2 (c'.propose code payload).2 := by
  have hrecord := h.counted c.stats c'.stats (c.commitLog.recordProposal payload)
    (c'.commitLog.recordProposal payload)
  have hrange : List.range c'.size = List.range c.size := by
    rw [h.size]
  unfold Cluster.propose
  rw [hrange]
  exact hrecord.tryPropose hsigned payload _

/-- **Ticking** keeps two clusters the same outside `I`. -/
theorem SameOutside.tick (hsigned : ∀ i, Signs (code i) i) (h : SameOutside I c c') :
    SameOutside I (c.tick code) (c'.tick code) := by
  unfold Cluster.tick
  rw [← h.size]
  generalize List.range c.size = l
  induction l generalizing c c' with
  | nil => exact h
  | cons i l ih => exact ih (h.act i (code i).tick (hsigned i).tick)

/-! ### Stepping -/

/-- The same in the middle of a batch: for the clusters and for what was sent so far. -/
def SameBatch (I : Finset NodeId) (acc acc' : Cluster σ × List NetworkMessage) : Prop :=
  SameOutside I acc.1 acc'.1 ∧ acc.2.filter (outside I) = acc'.2.filter (outside I)

/-- A message for a node outside `I` is handled the same, or fails in both clusters. -/
theorem SameBatch.handOver {acc acc' : Cluster σ × List NetworkMessage}
    (h : SameBatch I acc acc') {tmsg : NetworkMessage} (ht : tmsg.target ∉ I) :
    Option.Rel (SameBatch I) (handOver code acc tmsg) (handOver code acc' tmsg) := by
  obtain ⟨c, sent⟩ := acc
  obtain ⟨c', sent'⟩ := acc'
  obtain ⟨h, hsent⟩ := h
  unfold Cluster.handOver
  dsimp only at h hsent ⊢
  by_cases hlt : tmsg.target < c.size
  · have hlt' : tmsg.target < c'.size := by
      rw [← h.size]
      exact hlt
    rw [if_pos hlt, if_pos hlt']
    have hnode : c.countDelivered.nodes tmsg.target = c'.countDelivered.nodes tmsg.target :=
      h.nodes _ ht
    rw [← hnode]
    cases (code tmsg.target).handleMessage (c.countDelivered.nodes tmsg.target) tmsg with
    | none => exact .none
    | some r =>
      have hcount : SameOutside I c.countDelivered c'.countDelivered := h.counted _ _ _ _
      refine .some ⟨hcount.setNode fun _ => rfl, ?_⟩
      dsimp only
      rw [List.filter_append, List.filter_append, hsent]
  · have hlt' : ¬ tmsg.target < c'.size := by
      rw [← h.size]
      exact hlt
    rw [if_neg hlt, if_neg hlt']
    exact .some ⟨h, hsent⟩

variable [Sha256]

/-- A message of or for an isolated node is only counted. -/
theorem SameBatch.deliverOne_hidden {acc acc' : Cluster σ × List NetworkMessage}
    (h : SameBatch I acc acc') {msg : NetworkMessage} (hmsg : outside I msg = false) :
    ∃ t, deliverOne code acc msg = some t ∧ SameBatch I t acc' := by
  obtain ⟨c, sent⟩ := acc
  obtain ⟨h, hsent⟩ := h
  -- isolation is checked before any roll, so the generator does not move
  have hdrop : c.countSent.faults.shouldDeliver msg = (false, c.countSent.faults) := by
    apply NetworkFaults.shouldDeliver_isolated
    rw [show c.countSent.faults.isolatedNodes = I from h.isolated]
    exact hmsg
  refine ⟨(c.countSent.countDropped, sent), ?_, ?_, hsent⟩
  · unfold deliverOne
    dsimp only
    rw [hdrop]
    rfl
  · exact h.counted _ acc'.1.stats _ acc'.1.commitLog

/-- A message between other nodes meets the same rolls, the same tampering and the same node. -/
theorem SameBatch.deliverOne_shown {acc acc' : Cluster σ × List NetworkMessage}
    (h : SameBatch I acc acc') {msg : NetworkMessage} (hmsg : outside I msg = true) :
    Option.Rel (SameBatch I) (deliverOne code acc msg) (deliverOne code acc' msg) := by
  obtain ⟨c, sent⟩ := acc
  obtain ⟨c', sent'⟩ := acc'
  obtain ⟨h, hsent⟩ := h
  dsimp only at h hsent
  have hfaults : c'.countSent.faults = c.countSent.faults := h.faults.symm
  have hisolated : (c.countSent.faults.shouldDeliver msg).2.isolatedNodes = I :=
    (NetworkFaults.shouldDeliver_isolatedNodes _ _).trans h.isolated
  unfold deliverOne
  dsimp only
  -- the same roll is made in both clusters
  rw [hfaults]
  generalize c.countSent.faults.shouldDeliver msg = roll at hisolated ⊢
  obtain ⟨deliver, faults⟩ := roll
  have hrolled : SameBatch I ({ c.countSent with faults := faults }, sent)
      ({ c'.countSent with faults := faults }, sent') :=
    ⟨⟨hisolated, rfl, h.size, h.nodes, h.pending⟩, hsent⟩
  have hdropped : SameBatch I (countDropped { c.countSent with faults := faults }, sent)
      (countDropped { c'.countSent with faults := faults }, sent') :=
    ⟨hrolled.1.counted _ _ _ _, hsent⟩
  cases deliver with
  | false => exact .some hdropped
  | true =>
    dsimp only
    have hkept : ¬ (!true) = true := by decide
    rw [if_neg hkept, if_neg hkept]
    by_cases hempty : (faults.tamper msg).isEmpty = true
    · rw [if_pos hempty, if_pos hempty]
      exact .some hdropped
    · rw [if_neg hempty, if_neg hempty]
      apply foldlM_agree _ _ hrolled
      intro tmsg htmsg acc acc' hacc
      have ht : tmsg.target ∉ I := by
        rw [faults.eq_alter_of_mem htmsg, FaultConfig.alter_target]
        exact (of_decide_eq_true hmsg).2
      by_cases hbyz : faults.isByzantine msg.sender = true
      · rw [if_pos hbyz, if_pos hbyz]
        have hcount : SameBatch I (acc.1.countTampered, acc.2) (acc'.1.countTampered, acc'.2) :=
          ⟨hacc.1.counted _ _ _ _, hacc.2⟩
        exact hcount.handOver ht
      · rw [if_neg hbyz, if_neg hbyz]
        exact hacc.handOver ht

/-- A batch, for an observer of the messages between nodes that are not isolated. -/
theorem deliverOne_unwinding (code : NodeId → ConsensusNode σ) (I : Finset NodeId) :
    Unwinding (deliverOne code) (outside I) (SameBatch I) where
  symm _ _ h := ⟨h.1.symm, h.2.symm⟩
  trans _ _ _ h h' := ⟨h.1.trans h'.1, h.2.trans h'.2⟩
  hidden hmsg h := h.deliverOne_hidden hmsg
  consistent hmsg h := h.deliverOne_shown hmsg

/-- **A step** keeps two clusters the same outside `I`, or fails in both. -/
theorem SameOutside.step (h : SameOutside I c c') :
    Option.Rel (SameOutside I) (c.step code) (c'.step code) := by
  have hbatch : SameBatch I ({ c with pending := [] }, []) ({ c' with pending := [] }, []) :=
    ⟨⟨h.isolated, h.faults, h.size, h.nodes, rfl⟩, rfl⟩
  apply rel_map ((deliverOne_unwinding code I).noninterference h.pending hbatch)
  rintro ⟨d, sent⟩ ⟨d', sent'⟩ ⟨hd, hsent⟩
  exact (hd.enqueue hsent).counted _ _ _ _

/-! ### Runs -/

/-- **Calls** on clusters that are the same outside `I` keep them so: both runs panic, or none. -/
theorem SameOutside.run (hsigned : ∀ i, Signs (code i) i) (h : SameOutside I c c')
    (calls : List ClusterCall) :
    Option.Rel (fun r r' => SameOutside I r.2 r'.2) (c.run code calls) (c'.run code calls) := by
  induction calls generalizing c c' with
  | nil => exact .some h
  | cons call calls ih =>
    cases call with
    | propose payload => exact rel_map (ih (h.propose hsigned payload)) fun hr => hr
    | step => exact rel_bind h.step fun hs => ih hs
    | tick => exact ih (h.tick hsigned)

end Cluster

/-! ### The protocols -/

variable [Sha256] (n : ℕ) (i : NodeId)

/-- PBFT nodes put their own name on what they send. -/
theorem Pbft.signs : Cluster.Signs (Pbft.code n i) i where
  propose s payload msg hmsg := by
    simp only [Pbft.code, PbftNode.propose] at hmsg
    split_ifs at hmsg
    · exact absurd hmsg (by simp)
    · exact absurd hmsg (by simp)
    · rcases List.mem_append.mp hmsg with h | h
      · obtain ⟨_, _, _, rfl⟩ := Pbft.mem_broadcastPbft.mp h
        rfl
      · obtain ⟨_, _, _, rfl⟩ := Pbft.mem_broadcastPbft.mp h
        rfl
  tick s msg hmsg := by
    simp only [Pbft.code, PbftNode.tick] at hmsg
    split_ifs at hmsg
    · exact absurd hmsg (by simp)
    · exact absurd hmsg (by simp)
    · obtain ⟨_, _, _, rfl⟩ := Pbft.mem_broadcastPbft.mp hmsg
      rfl
    · exact absurd hmsg (by simp)

omit [Sha256] in
/-- Raft nodes put their own name on what they send. -/
theorem Raft.signs : Cluster.Signs (Raft.code n i) i where
  propose s payload msg hmsg := by
    simp only [Raft.code, RaftNode.propose] at hmsg
    split_ifs at hmsg
    · exact absurd hmsg (by simp)
    · obtain ⟨_, _, rfl⟩ := List.mem_map.mp hmsg
      rfl
  tick s msg hmsg := by
    simp only [Raft.code, RaftNode.tick] at hmsg
    split at hmsg <;> split_ifs at hmsg
    · obtain ⟨_, _, rfl⟩ := List.mem_map.mp hmsg
      rfl
    · exact absurd hmsg (by simp)
    · obtain ⟨_, _, rfl⟩ := List.mem_map.mp hmsg
      rfl
    · exact absurd hmsg (by simp)
    · obtain ⟨_, _, rfl⟩ := List.mem_map.mp hmsg
      rfl
    · exact absurd hmsg (by simp)

/-- HotStuff nodes put their own name on what they send. -/
theorem HotStuff.signs : Cluster.Signs (HotStuff.code n i) i where
  propose s payload msg hmsg := by
    simp only [HotStuff.code, HotStuffNode.propose] at hmsg
    split_ifs at hmsg
    · exact absurd hmsg (by simp)
    · obtain ⟨_, _, _, rfl⟩ := HotStuff.mem_broadcastHotstuff.mp hmsg
      rfl
  tick s msg hmsg := by
    simp only [HotStuff.code, HotStuffNode.tick] at hmsg
    split_ifs at hmsg
    · exact absurd hmsg (by simp)
    · rw [List.mem_singleton.mp hmsg]
      rfl
    · exact absurd hmsg (by simp)

/-- Calls never let the nodes outside a set of isolated ones find out what these are up to. -/
def Noninterfering {σ : Type} (code : NodeId → ConsensusNode σ) : Prop :=
  ∀ (I : Finset NodeId) (c c' : Cluster σ), c.SameOutside I c' → ∀ calls : List ClusterCall,
    Option.Rel (fun r r' => r.2.SameOutside I r'.2) (c.run code calls) (c'.run code calls)

/-- **Isolation is noninterference**, in clusters of each protocol. -/
theorem isolation_noninterference : Noninterfering (Pbft.code n) ∧
    Noninterfering (Raft.code n) ∧ Noninterfering (HotStuff.code n) := by
  refine ⟨?_, ?_, ?_⟩
  · exact fun I c c' h calls => h.run (Pbft.signs n) calls
  · exact fun I c c' h calls => h.run (Raft.signs n) calls
  · exact fun I c c' h calls => h.run (HotStuff.signs n) calls

/-- Node `3` is isolated, and some messages are dropped at random. -/
def withoutThree : NetworkFaults where
  isolatedNodes := {3}
  dropRate := 1 / 10
  rng _ := 1 / 2

/-- Four nodes before any call. -/
def quietFour : Cluster PbftState := (Pbft.newCluster 4 fun _ => 0).setFaults withoutThree

/-- Four nodes, the last of which is in another view and calls for a third. -/
def loudFour : Cluster PbftState :=
  (quietFour.setNode 3 { (PbftNode.new 3 4).2 with view := 5 }).enqueue
    [⟨3, 0, .pbft (.viewChange 7 3 0)⟩, ⟨0, 3, .pbft (.viewChange 7 0 0)⟩]

omit [Sha256] in
/-- The other three commit in both clusters. -/
theorem isolation_noninterference_four : ∃ r r',
    @Cluster.run _ (@Pbft.code Sha256.sample 4) Sha256.sample quietFour
      [.propose ⟨[0x70]⟩, .step, .tick, .step, .step] = some r ∧
    @Cluster.run _ (@Pbft.code Sha256.sample 4) Sha256.sample loudFour
      [.propose ⟨[0x70]⟩, .step, .tick, .step, .step] = some r' ∧
    r.2.SameOutside {3} r'.2 ∧ (r.2.nodes 0).committed = [⟨1, ⟨[0x70]⟩⟩] := by
  have hsame : quietFour.SameOutside {3} loudFour := {
    isolated := rfl
    faults := rfl
    size := rfl
    nodes := fun i hi => by
      have hne : i ≠ 3 := fun h => hi (Finset.mem_singleton.mpr h)
      exact (Function.update_of_ne hne _ _).symm
    pending := by decide }
  have hrel := (@isolation_noninterference Sha256.sample 4).1 {3} quietFour loudFour hsame
    [.propose ⟨[0x70]⟩, .step, .tick, .step, .step]
  have hcommit : (@Cluster.run _ (@Pbft.code Sha256.sample 4) Sha256.sample quietFour
      [.propose ⟨[0x70]⟩, .step, .tick, .step, .step]).map
        (fun r => (r.2.nodes 0).committed) = some [⟨1, ⟨[0x70]⟩⟩] := by
    decide +kernel
  obtain ⟨r, hr, hnode⟩ := Option.map_eq_some_iff.mp hcommit
  cases hother : @Cluster.run _ (@Pbft.code Sha256.sample 4) Sha256.sample loudFour
      [.propose ⟨[0x70]⟩, .step, .tick, .step, .step] with
  | none =>
    rw [hr, hother] at hrel
    exact absurd hrel (by simp)
  | some r' =>
    rw [hr, hother] at hrel
    cases hrel with
    | some hafter => exact ⟨r, r', hr, rfl, hafter, hnode⟩

end ConsensusBench
