import ConsensusBench.Benchmark
import ConsensusBench.Raft.Split
import ConsensusBench.Record

namespace ConsensusBench

/-!
# A Raft leader that forks its log

Raft has no Byzantine protection: the followers take over what the leader sends them.

* `CommitLog.check_forked` — what the checks find in a log in which every node has recorded the
  beginning of one list, forked for the node.
* `forked_leader_verdict` — such are the logs under a leader from the start, until somebody votes.
-/

open AsyncNet Cluster

/-! ### Forked logs -/

/-- Forks are told apart by their length. -/
theorem Payload.padded_inj {p : Payload} {a b : ℕ} : p.padded a = p.padded b ↔ a = b := by
  refine ⟨fun h => ?_, fun h => by rw [h]⟩
  have hlen := congrArg (fun q : Payload => q.data.length) h
  simpa [padded] using hlen

namespace CommitLog

variable {log : CommitLog} {honestNodes : HashSet NodeId} {ps : List Payload} {f : NodeId → ℕ}

/-- What a node has recorded of a forked list, entry by entry. -/
theorem getElem?_forked {i : NodeId} (h : log.recorded i <+: numbered (ps.map (·.padded (f i))))
    {k : ℕ} {e : CommittedEntry} (he : (log.recorded i)[k]? = some e) :
    e.sequence = k + 1 ∧ ∃ p, ps[k]? = some p ∧ e.payload = p.padded (f i) := by
  obtain ⟨u, hu⟩ := h
  obtain ⟨hlt, _⟩ := List.getElem?_eq_some_iff.mp he
  have hk : (numbered (ps.map (·.padded (f i))))[k]? = some e := by
    rw [← hu, List.getElem?_append_left hlt, he]
  obtain ⟨hseq, hp⟩ := getElem?_numbered hk
  rw [List.getElem?_map, Option.map_eq_some_iff] at hp
  obtain ⟨p, hp, heq⟩ := hp
  exact ⟨hseq, p, hp, heq.symm⟩

/-- The sequences that a node has recorded of a forked list. -/
theorem sequences_forked {i : NodeId} (h : log.recorded i <+: numbered (ps.map (·.padded (f i)))) :
    log.sequences i <+: List.range' 1 ps.length := by
  have hmap := h.map CommittedEntry.sequence
  rwa [sequences_numbered, List.length_map] at hmap

/-- **What the checks find in a forked log**: the nodes have the same sequences, but the same
    payloads only if they have the same fork. -/
theorem check_forked
    (hrec : ∀ i ∈ honestNodes, log.recorded i <+: numbered (ps.map (·.padded (f i))))
    (order : Iteration) (k : ℕ) :
    (log.check order honestNodes k).integrity = .pass ∧
    (log.check order honestNodes k).totalOrder = .pass ∧
    ((log.check order honestNodes k).agreement = .pass ↔ ∀ i ∈ honestNodes, ∀ j ∈ honestNodes,
      log.recorded i ≠ [] → log.recorded j ≠ [] → f i = f j) := by
  refine ⟨(checkIntegrity_eq_pass order _ _).mpr fun i hi => ?_,
    (checkTotalOrder_eq_pass order _ _).mpr fun r hr x hx => ?_, ?_⟩
  · exact List.Nodup.sublist (sequences_forked (hrec i hi)).sublist List.nodup_range'
  · obtain ⟨hr, _, hrseq⟩ := (mem_orderings order _ _).mp (List.mem_of_mem_head? hr)
    obtain ⟨hx, _, hxseq⟩ := (mem_orderings order _ _).mp hx
    rw [hrseq, hxseq]
    exact List.prefix_or_prefix_of_prefix (sequences_forked (hrec _ hr))
      (sequences_forked (hrec _ hx))
  · refine (checkAgreement_eq_pass order _ _).trans ⟨fun h i hi j hj hine hjne => ?_,
      fun h i hi j hj e he e' he' hseq => ?_⟩
    · -- the first entries that they have recorded
      obtain ⟨e, es, hcons⟩ := List.exists_cons_of_ne_nil hine
      obtain ⟨e', es', hcons'⟩ := List.exists_cons_of_ne_nil hjne
      have h0 : (log.recorded i)[0]? = some e := by rw [hcons]; rfl
      have h0' : (log.recorded j)[0]? = some e' := by rw [hcons']; rfl
      obtain ⟨hseq, p, hp, hpe⟩ := getElem?_forked (hrec i hi) h0
      obtain ⟨hseq', p', hp', hpe'⟩ := getElem?_forked (hrec j hj) h0'
      obtain rfl : p = p' := Option.some.inj (hp.symm.trans hp')
      have heq := h i hi j hj e (List.mem_of_getElem? h0) e' (List.mem_of_getElem? h0')
        (hseq.trans hseq'.symm)
      rw [hpe, hpe', Payload.padded_inj] at heq
      exact heq
    · obtain ⟨k, hk⟩ := List.mem_iff_getElem?.mp he
      obtain ⟨k', hk'⟩ := List.mem_iff_getElem?.mp he'
      obtain ⟨hk₁, p, hp, hpe⟩ := getElem?_forked (hrec i hi) hk
      obtain ⟨hk₂, p', hp', hpe'⟩ := getElem?_forked (hrec j hj) hk'
      obtain rfl : k = k' := Nat.succ.inj (hk₁.symm.trans (hseq.trans hk₂))
      obtain rfl : p = p' := Option.some.inj (hp.symm.trans hp')
      rw [hpe, hpe', h i hi j hj (List.ne_nil_of_mem he) (List.ne_nil_of_mem he')]

end CommitLog

/-! ### Under a leader from the start -/

/-- The entries of a log commit as their payloads, numbered. -/
theorem Raft.map_toCommitted {log : List LogEntry} (h : Indexed log) :
    log.map LogEntry.toCommitted = numbered (log.map LogEntry.payload) := by
  refine List.ext_getElem? fun k => ?_
  rw [numbered, List.getElem?_mapIdx, List.getElem?_map, List.getElem?_map, Option.map_map]
  cases he : log[k]? with
  | none => rfl
  | some e =>
    show some (LogEntry.toCommitted e) = some ⟨k + 1, e.payload⟩
    rw [LogEntry.toCommitted, h k e he]

/-- What a node has committed behind a leader is the beginning of the leader's log, forked. -/
theorem Raft.Followed.committed_prefix {cfg : FaultConfig} {nodes : NodeId → RaftState}
    {hist : History RaftState} (h : Followed cfg nodes hist) (hlog : Indexed (nodes 0).log)
    (i : NodeId) : committedBy hist i <+: numbered
      (((nodes 0).log.map LogEntry.payload).map (·.padded (forks (cfg.behaviors 0) i))) := by
  have hpre : (nodes i).log <+: forkLog cfg i (nodes 0).log := by
    by_cases hi : i = 0
    · -- nothing is forked for an even node
      have hsame : forkLog cfg 0 (nodes 0).log = (nodes 0).log := by
        refine (List.map_congr_left fun e _ => ?_).trans (List.map_id _)
        show ({ e with payload := e.payload.padded 0 } : LogEntry) = e
        rw [Payload.padded_zero]
      rw [hi, hsame]
    · exact (h.follows i hi).2
  have hpayloads : (forkLog cfg i (nodes 0).log).map LogEntry.payload =
      ((nodes 0).log.map LogEntry.payload).map (·.padded (forks (cfg.behaviors 0) i)) := by
    rw [forkLog, List.map_map, List.map_map]
    rfl
  rw [h.committed i, ← hpayloads, ← Raft.map_toCommitted (forkLog_indexed hlog)]
  exact ((List.take_prefix _ _).trans hpre).map _

section Leader

variable [Sha256]

/-- **The verdict on a leader that forks its log**, in whatever order messages are delivered, lost,
    delayed and answered, as long as nobody has voted: every node has recorded the beginning of the
    leader's log, forked for it.  Agreement fails if honest nodes with different forks have recorded
    anything; integrity and total order never do. -/
theorem forked_leader_verdict (n : ℕ) (rngs : NodeId → Raft.StdRng) (rng : ℕ → ℚ)
    (faults : NetworkFaults) (calls : List HarnessCall)
    (hcalls : ∀ call ∈ calls, call.Within (fun _ => True) (·.toFaultConfig = faults.toFaultConfig))
    (hcollect : .collectCommitted ∉ calls) (c : Cluster RaftState)
    (hrun : ((Raft.newClusterWithLeader n rngs rng).setFaults faults).drive (Raft.polled n) calls =
      some c) (hcalm : ∀ i < n, Raft.Calm (c.nodes i)) :
    (∀ e ∈ (c.nodes 0).log, e.payload ∈ calls.filterMap HarnessCall.proposal) ∧
    (∀ i, c.commitLog.recorded i <+: numbered
      (((c.nodes 0).log.map LogEntry.payload).map (·.padded (forks (faults.behaviors 0) i)))) ∧
    ∀ order k, (c.checkInvariants order k).integrity = .pass ∧
      (c.checkInvariants order k).totalOrder = .pass ∧
      ((c.checkInvariants order k).agreement = .pass ↔
        ∀ i ∈ c.honestNodes, ∀ j ∈ c.honestNodes,
          c.commitLog.recorded i ≠ [] → c.commitLog.recorded j ≠ [] →
            forks (faults.behaviors 0) i = forks (faults.behaviors 0) j) := by
  obtain ⟨w, ht⟩ := runsAs_new (S := Raft.systemWithLeader n faults.toFaultConfig rngs)
    (Raft.parties_from rngs) (Raft.polls_from rngs) rng rfl
    Raft.committed_withLeader calls c hcalls hrun
  rw [← ht.shows.nodes] at hcalm ⊢
  have hfollowed := Raft.followed_of_calm ht.reach hcalm
  have hrec : ∀ i, c.commitLog.recorded i <+: numbered
      (((w.nodes 0).log.map LogEntry.payload).map (·.padded (forks (faults.behaviors 0) i))) := by
    intro i
    have hpre := hfollowed.committed_prefix ((Raft.gapFree_of_reach ht.reach).indexed 0) i
    rw [← (ht.recorded i).2 hcollect] at hpre
    exact (List.prefix_append _ _).trans hpre
  refine ⟨fun e he => ?_, hrec, fun order k =>
    CommitLog.check_forked (fun i _ => hrec i) order k⟩
  obtain ⟨o, ho, hcause⟩ := hfollowed.proposed e he
  obtain ⟨call, hmem, hmakes⟩ := ht.called o ho _ hcause
  exact List.mem_filterMap.mpr ⟨call, hmem, hmakes.proposal⟩

/-- The leader of three equivocates. -/
def equivocatingLeader : NetworkFaults where
  byzantineNodes := (∅ : HashMap NodeId (List ByzantineBehavior)).insert 0 [.equivocate]
  rng _ := 0

/-- One proposal, and a heartbeat to have it committed. -/
def heartbeat : List HarnessCall :=
  [.call (.propose ⟨[0x70]⟩), .call .step, .call .step, .call .tick, .call .step,
    .collectAndRecordCommits]

omit [Sha256] in
/-- The two followers of three commit different payloads, and the check finds it. -/
theorem forked_leader_verdict_three : ∃ c, @drive _ (Raft.polled 3) Sha256.sample
      ((Raft.newClusterWithLeader 3 (fun _ => ⟨fun _ => 0⟩) fun _ => 0).setFaults
        equivocatingLeader) heartbeat = some c ∧
    c.commitLog.recorded 1 = [⟨1, ⟨[0x70, 0xFF]⟩⟩] ∧ c.commitLog.recorded 2 = [⟨1, ⟨[0x70]⟩⟩] ∧
    ∀ order, (c.checkInvariants order 1).integrity = .pass ∧
      (c.checkInvariants order 1).totalOrder = .pass ∧
      (c.checkInvariants order 1).agreement ≠ .pass := by
  have hcalls : ∀ call ∈ heartbeat,
      call.Within (fun _ => True) (·.toFaultConfig = equivocatingLeader.toFaultConfig) := by
    simp [heartbeat, HarnessCall.Within]
  have hresult : (@drive _ (Raft.polled 3) Sha256.sample
      ((Raft.newClusterWithLeader 3 (fun _ => ⟨fun _ => 0⟩) fun _ => 0).setFaults
        equivocatingLeader) heartbeat).map (fun c => (c.commitLog.recorded 1,
          c.commitLog.recorded 2, decide (1 ∈ c.honestNodes ∧ 2 ∈ c.honestNodes),
          decide (∀ i ∈ List.range 3, Raft.Calm (c.nodes i)))) =
      some ([⟨1, ⟨[0x70, 0xFF]⟩⟩], [⟨1, ⟨[0x70]⟩⟩], true, true) := by
    decide +kernel
  obtain ⟨c, hc, heq⟩ := Option.map_eq_some_iff.mp hresult
  simp only [Prod.mk.injEq, decide_eq_true_eq] at heq
  obtain ⟨h1, h2, ⟨hh1, hh2⟩, hcalm⟩ := heq
  obtain ⟨_, _, hverdict⟩ := @forked_leader_verdict Sha256.sample 3 (fun _ => ⟨fun _ => 0⟩)
    (fun _ => 0) equivocatingLeader heartbeat hcalls (by simp [heartbeat]) c hc
    fun i hi => hcalm i (List.mem_range.mpr hi)
  refine ⟨c, hc, h1, h2, fun order => ?_⟩
  obtain ⟨hint, htot, hagree⟩ := hverdict order 1
  refine ⟨hint, htot, fun hpass => ?_⟩
  have hsame := hagree.mp hpass 1 hh1 2 hh2 (by simp [h1]) (by simp [h2])
  exact absurd hsame (by decide)

end Leader

end ConsensusBench
