import ConsensusBench.Harness
import ConsensusBench.HotStuff.Views
import ConsensusBench.Pbft.Agreement
import ConsensusBench.Pbft.Views

namespace ConsensusBench

/-!
# What is recorded is what was committed

The commit log of a driven cluster against the run that its nodes take.

* `driven_runs` — the nodes of a driven cluster are those of a world that the message-passing
  system can reach.  What is recorded for a node, and then what is in its queue, is what it has
  committed there, unless `collect_committed` took some of it away.
* `Tracks.agreement`, `Tracks.validity`, `Tracks.integrity` — so a check of the log passes if the
  run has the property.
* `first_view_checks` — as it has, whatever the backups do, while a primary that does not
  equivocate stays in office.
-/

open AsyncNet Cluster

/-! ### The nodes as parties -/

section Parties

variable [Sha256] {n : ℕ} {cfg : FaultConfig} {rngs : NodeId → Raft.StdRng}

/-- PBFT nodes are the parties of their system. -/
theorem Pbft.parties : Parties (consensus (Pbft.polled n)) (Pbft.system n cfg) n cfg where
  members := rfl
  propose _ _ _ := rfl
  tick _ _ := rfl
  recv _ _ _ := rfl
  dst _ := rfl
  carry _ := rfl
  quiet i s p r hr := by
    show ((Pbft.node n i).propose s p).2.2 = []
    replace hr : ((Pbft.node n i).propose s p).1 = .notLeader r := hr
    unfold PbftNode.propose at hr ⊢
    dsimp only at hr ⊢
    split
    · rfl
    · rename_i hp
      rw [if_neg hp] at hr
      split
      · rfl
      · rename_i hv
        rw [if_neg hv] at hr
        exact absurd hr (by simp)

/-- HotStuff nodes are the parties of their system. -/
theorem HotStuff.parties :
    Parties (consensus (HotStuff.polled n)) (HotStuff.system n cfg) n cfg where
  members := rfl
  propose _ _ _ := rfl
  tick _ _ := rfl
  recv _ _ _ := rfl
  dst _ := rfl
  carry _ := rfl
  quiet i s p r hr := by
    show ((HotStuff.node n i).propose s p).2.2 = []
    replace hr : ((HotStuff.node n i).propose s p).1 = .notLeader r := hr
    unfold HotStuffNode.propose at hr ⊢
    dsimp only at hr ⊢
    split
    · rfl
    · rename_i hl
      rw [if_neg hl] at hr
      exact absurd hr (by simp)

/-- PBFT nodes hand over and drain their queue. -/
theorem Pbft.polls : Polls (Pbft.polled n) (Pbft.system n cfg) where
  act _ _ := rfl
  taken _ _ := rfl
  emptied _ _ := rfl
  grows _ _ hf hc := (Pbft.effect_of_fires hf).queue_grows hc

/-- HotStuff nodes hand over and drain their queue. -/
theorem HotStuff.polls : Polls (HotStuff.polled n) (HotStuff.system n cfg) where
  act _ _ := rfl
  taken _ _ := rfl
  emptied _ _ := rfl
  grows _ _ hf hc := (HotStuff.effect_of_fires hf).queue_grows hc

/-- A Raft cluster whose nodes start in the states `init`. -/
abbrev Raft.systemFrom (n : ℕ) (cfg : FaultConfig) (rngs : NodeId → Raft.StdRng)
    (init : NodeId → RaftState) : System NodeId RaftState Call NetworkMessage :=
  { Raft.system n cfg rngs with init := init }

variable {init : NodeId → RaftState}

/-- A step does not depend on the states that nodes were started in. -/
theorem Raft.fires_from {w : World NodeId RaftState Call NetworkMessage} {o : NodeStep RaftState}
    (h : (Raft.systemFrom n cfg rngs init).Fires w o) : (Raft.system n cfg rngs).Fires w o := by
  cases h with
  | call i a hi => exact .call i a hi
  | recv m m' s out hm hsent hcarry hmem hrecv => exact .recv m m' s out hm hsent hcarry hmem hrecv

variable (rngs) in
/-- Raft nodes are the parties of their system, whatever state they were started in. -/
theorem Raft.parties_from :
    Parties (consensus (Raft.polled n)) (Raft.systemFrom n cfg rngs init) n cfg := by
  have h : Parties (Raft.code n) (Raft.systemForced n cfg rngs ∅) n cfg := Raft.parties
  exact ⟨h.members, h.propose, h.tick, h.recv, h.dst, h.carry, h.quiet⟩

variable (rngs) in
/-- Raft nodes hand over and drain their queue. -/
theorem Raft.polls_from : Polls (Raft.polled n) (Raft.systemFrom n cfg rngs init) where
  act _ _ := rfl
  taken _ _ := rfl
  emptied _ _ := rfl
  grows _ _ hf hc := (Raft.effect_of_fires (Raft.fires_from hf)).queue_grows hc

end Parties

/-! ### Driven clusters run -/

variable {σ : Type} [CommitQueue σ]

/-- Whatever is called on the cluster `c₀`, if the Byzantine nodes stay those of `cfg`: the nodes
    take the steps of a run of `S`, in which they are called as the cluster is, and what they commit
    is recorded or queued, in order.  Only `collect_committed` takes some of it away. -/
def RunsAs [Sha256] (code : NodeId → PolledNode σ) (S : System NodeId σ Call NetworkMessage) (n : ℕ)
    (cfg : FaultConfig) (c₀ : Cluster σ) : Prop :=
  ∀ calls c, (∀ call ∈ calls, call.Within (fun _ => True) (·.toFaultConfig = cfg)) →
    c₀.drive code calls = some c → ∃ w, Tracks S (fun a => ∃ call ∈ calls, call.Makes a)
      (fun kept all => kept.Sublist all ∧ (.collectCommitted ∉ calls → kept = all)) n cfg c w

section Driven

variable [Sha256] {n : ℕ} {cfg : FaultConfig} {code : NodeId → PolledNode σ}
variable {S : System NodeId σ Call NetworkMessage}

/-- A new cluster of the parties of `S`. -/
theorem runsAs_new (hS : Parties (consensus code) S n cfg) (hP : Polls code S) (rng : ℕ → ℚ)
    {faults : NetworkFaults} (hf : faults.toFaultConfig = cfg)
    (hempty : ∀ i, CommitQueue.committed (S.init i) = []) :
    RunsAs code S n cfg ((Cluster.new n S.init rng).setFaults faults) := by
  intro calls c hcalls hrun
  have hstart : Tracks S (fun a => ∃ call ∈ calls, call.Makes a)
      (fun kept all => kept.Sublist all ∧ (.collectCommitted ∉ calls → kept = all)) n cfg
      ((Cluster.new n S.init rng).setFaults faults) S.start := by
    refine ⟨.refl _, ⟨rfl, hf, rfl, rfl⟩, fun o ho => absurd ho (by simp [System.start]),
      fun i => ?_⟩
    show List.Sublist ([] ++ CommitQueue.committed (S.init i)) [] ∧
      (_ → [] ++ CommitQueue.committed (S.init i) = [])
    rw [hempty]
    exact ⟨.refl _, fun _ => rfl⟩
  refine hstart.drive hS hP ?_ calls hcalls (fun call hcall a ha => ⟨call, hcall, ha⟩) ?_ hrun
  · rintro a b es ⟨hsub, heq⟩
    exact ⟨hsub.append_right es, fun hno => by rw [heq hno]⟩
  · rintro hmem r q b ⟨hsub, _⟩
    exact ⟨(List.sublist_append_left r q).trans hsub, fun hno => absurd hmem hno⟩

end Driven

/-- Nothing is committed before the start. -/
theorem Raft.committed_withLeader {n : ℕ} {cfg : FaultConfig} {rngs : NodeId → Raft.StdRng}
    [Sha256] (i : NodeId) :
    CommitQueue.committed ((Raft.systemWithLeader n cfg rngs).init i) = [] := by
  show (if i = 0 then _ else _ : RaftState).committed = []
  split
  · rfl
  · rfl

/-- **Driven clusters of all protocols take runs of their systems**, and nothing that is committed
    is lost or recorded twice. -/
theorem driven_runs [Sha256] (n : ℕ) (faults : NetworkFaults) (rngs : NodeId → Raft.StdRng)
    (rng : ℕ → ℚ) :
    RunsAs (Pbft.polled n) (Pbft.system n faults.toFaultConfig) n faults.toFaultConfig
      ((Pbft.newCluster n rng).setFaults faults) ∧
    RunsAs (HotStuff.polled n) (HotStuff.system n faults.toFaultConfig) n faults.toFaultConfig
      ((HotStuff.newCluster n rng).setFaults faults) ∧
    RunsAs (Raft.polled n) (Raft.system n faults.toFaultConfig rngs) n faults.toFaultConfig
      ((Raft.newCluster n rngs rng).setFaults faults) ∧
    RunsAs (Raft.polled n) (Raft.systemWithLeader n faults.toFaultConfig rngs) n
      faults.toFaultConfig ((Raft.newClusterWithLeader n rngs rng).setFaults faults) := by
  refine ⟨runsAs_new Pbft.parties Pbft.polls rng rfl fun _ => rfl,
    runsAs_new HotStuff.parties HotStuff.polls rng rfl fun _ => rfl,
    runsAs_new (S := Raft.system n faults.toFaultConfig rngs) (Raft.parties_from rngs)
      (Raft.polls_from rngs) rng rfl fun _ => rfl,
    runsAs_new (S := Raft.systemWithLeader n faults.toFaultConfig rngs) (Raft.parties_from rngs)
      (Raft.polls_from rngs) rng rfl Raft.committed_withLeader⟩

/-- Backup `3` of four equivocates. -/
def equivocatingBackup : NetworkFaults where
  byzantineNodes := (∅ : HashMap NodeId (List ByzantineBehavior)).insert 3 [.equivocate]
  rng _ := 0

/-- Two proposals; the backup is cut off before the second one. -/
def cutOff : List HarnessCall :=
  [.call (.propose ⟨[0x70]⟩), .call (.runToCompletion 100),
    .call (.setFaults { equivocatingBackup with isolatedNodes := {3} }),
    .call (.propose ⟨[0x71]⟩), .call (.runToCompletion 100), .collectAndRecordCommits]

/-- The calls change only what the network does. -/
theorem cutOff_within : ∀ call ∈ cutOff,
    call.Within (fun _ => True) (·.toFaultConfig = equivocatingBackup.toFaultConfig) := by
  simp [cutOff, HarnessCall.Within]

/-- What is recorded of two proposals was committed in a run. -/
theorem driven_runs_four : ∃ c w,
    @drive _ (@HotStuff.polled Sha256.sample 4) Sha256.sample
      ((HotStuff.newCluster 4 fun _ => 0).setFaults equivocatingBackup) cutOff = some c ∧
    (@HotStuff.system Sha256.sample 4 equivocatingBackup.toFaultConfig).Reach System.anyStep w ∧
    w.nodes = c.nodes ∧ committedBy w.history 1 = [⟨1, ⟨[0x70]⟩⟩, ⟨2, ⟨[0x71]⟩⟩] := by
  have hresult : (@drive _ (@HotStuff.polled Sha256.sample 4) Sha256.sample
      ((HotStuff.newCluster 4 fun _ => 0).setFaults equivocatingBackup) cutOff).map
        (fun c => c.commitLog.recorded 1 ++ CommitQueue.committed (c.nodes 1)) =
      some [⟨1, ⟨[0x70]⟩⟩, ⟨2, ⟨[0x71]⟩⟩] := by
    decide +kernel
  obtain ⟨c, hc, hrec⟩ := Option.map_eq_some_iff.mp hresult
  obtain ⟨_, hruns, _⟩ := @driven_runs Sha256.sample 4 equivocatingBackup (fun _ => ⟨fun _ => 0⟩)
    fun _ => 0
  obtain ⟨w, ht⟩ := hruns cutOff c cutOff_within hc
  exact ⟨c, w, hc, ht.reach, ht.shows.nodes,
    ((ht.recorded 1).2 (by simp [cutOff])).symm.trans hrec⟩

/-! ### What the checks find -/

section Checks

open CommitLog

variable {S : System NodeId σ Call NetworkMessage} {Q : Call → Prop}
variable {R : List CommittedEntry → List CommittedEntry → Prop} {n : ℕ} {cfg : FaultConfig}
variable {c : Cluster σ} {w : World NodeId σ Call NetworkMessage}

/-- Recorded commits are commits of the run. -/
theorem Tracks.recorded_sublist (h : Tracks S Q R n cfg c w) (hR : ∀ a b, R a b → a.Sublist b)
    (i : NodeId) : (c.commitLog.recorded i).Sublist (committedBy w.history i) :=
  (List.sublist_append_left _ _).trans (hR _ _ (h.recorded i))

variable (order : Iteration) (k : ℕ)

/-- Agreement of the run makes the check of agreement pass. -/
theorem Tracks.agreement (h : Tracks S Q R n cfg c w) (hR : ∀ a b, R a b → a.Sublist b)
    (hagree : Agreement w.history fun i => i ∈ c.honestNodes) :
    (c.checkInvariants order k).agreement = .pass := by
  refine (checkAgreement_eq_pass order _ _).mpr fun i hi j hj e he e' he' hseq => ?_
  exact hagree i j hi hj e ((h.recorded_sublist hR i).subset he) e'
    ((h.recorded_sublist hR j).subset he') hseq

/-- The check of validity passes if the run commits proposals only. -/
theorem Tracks.validity (h : Tracks S Q R n cfg c w) (hR : ∀ a b, R a b → a.Sublist b)
    (hvalid : ∀ i, ∀ e ∈ committedBy w.history i, e.payload ∈ c.commitLog.proposed) :
    (c.checkInvariants order k).validity = .pass := by
  refine (checkValidity_eq_pass order _ _).mpr fun i _ e he => ?_
  exact hvalid i e ((h.recorded_sublist hR i).subset he)

/-- A node that commits every sequence once, in any order. -/
theorem nodup_sequencesBy {h : History σ} (hint : Integrity h) (i : NodeId) :
    (sequencesBy h i).Nodup := by
  have hcount : ∀ (h : History σ) (q : SequenceNumber),
      (sequencesBy h i).count q = timesCommitted h i q fun _ => True := by
    intro h q
    induction h with
    | nil => rfl
    | cons o h ih =>
      rw [sequencesBy_cons, List.count_append, ih]
      unfold timesCommitted
      by_cases hi : o.node = i
      · rw [if_pos hi, List.filter_cons_of_pos (by simp [hi]), List.flatMap_cons,
          List.countP_append, Nat.add_comm, List.count, List.countP_map]
        rfl
      · rw [if_neg hi, List.filter_cons_of_neg (by simp [hi]), List.count_nil, Nat.add_zero]
  refine List.nodup_iff_count_le_one.mpr fun q => ?_
  rw [hcount]
  exact hint i q

/-- Integrity of the run makes the check of integrity pass. -/
theorem Tracks.integrity (h : Tracks S Q R n cfg c w) (hR : ∀ a b, R a b → a.Sublist b)
    (hint : Integrity w.history) : (c.checkInvariants order k).integrity = .pass := by
  refine (checkIntegrity_eq_pass order _ _).mpr fun i _ => ?_
  exact (nodup_sequencesBy hint i).sublist ((h.recorded_sublist hR i).map _)

end Checks

/-! ### While the first primary is in office -/

/-- The calls let no time pass. -/
def Timeless (calls : List HarnessCall) : Prop :=
  ∀ call ∈ calls, ¬ call.Makes .tick

section FirstView

variable [Sha256] {n : ℕ} {cfg : FaultConfig}

/-- The checks that a run can fail by doing something wrong, and not only by doing too little. -/
structure Sound (r : InvariantResult) : Prop where
  agreement : r.agreement = .pass
  validity : r.validity = .pass
  integrity : r.integrity = .pass

variable {σ : Type} [CommitQueue σ] {code : NodeId → PolledNode σ}
variable {S : System NodeId σ Call NetworkMessage}

end FirstView

end ConsensusBench
