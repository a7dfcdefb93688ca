import ConsensusBench.Leaders
import ConsensusBench.Raft.Campaign
import ConsensusBench.Raft.LeaderView

namespace ConsensusBench

/-!
# When a Raft leader crashes

The live nodes wait, until the first of them times out and asks for votes.  It wins if the others
have its log and their timers run longer, and goes on where the old leader stopped.

* `Waits` — the live nodes before the first timeout.
* `waits_in_vain`, `waits_wins` — waiting for a leader finds nobody before the first timeout, and
  then the node that timed out.
* `serves` — a leader commits whatever is proposed to its cluster.
* `failover` — both.
-/

open AsyncNet Cluster RaftNode

namespace Raft

/-- The live nodes of a cluster with the log `M`, which have seen no term after that of `l`.  The
    timer of `l` runs out in `τ` ticks, and that of the others later. -/
structure Waits (n : ℕ) (I : Finset NodeId) (l : NodeId) (T : ℕ) (M : List LogEntry) (τ : ℕ)
    (nodes : NodeId → RaftState) : Prop where
  member : ∀ i < n, i ∉ I → Member T M M (nodes i)
  quiet : ∀ i < n, i ∉ I → (nodes i).leaderIdAtomic ≠ i
  term : (nodes l).currentTerm = T
  counts : ∀ j x, (nodes l).matchIndex.lookup j = some x → j ∈ peerIds l n
  timer : (nodes l).electionTicksRemaining = τ
  later : ∀ i < n, i ∉ I → i ≠ l → τ < (nodes i).electionTicksRemaining

section Ticks

variable {n : ℕ} {I : Finset NodeId} {l i : NodeId} {T t τ : ℕ} {M : List LogEntry}
variable {s : RaftState} {nodes init : NodeId → RaftState}

theorem Member.log_eq (h : Member t M M s) : s.log = M :=
  h.upto.eq_of_length (le_antisymm h.upto.length_le h.base.length_le)

/-- The tick at the timeout. -/
theorem Member.stand (h : Member T M M s) (hn : 2 ≤ n) (hterm : s.currentTerm = T)
    (hcounts : ∀ j x, s.matchIndex.lookup j = some x → j ∈ peerIds l n)
    (hzero : s.electionTicksRemaining = 0) : ∃ s', (node n l).tick s =
      (s', (peerIds l n).map (voteRequest l (T + 1) M)) ∧ Stands n l (T + 1) M s' ∧
      s'.votesReceived = 1 ∧ s'.log = s.log := by
  have hlog := h.log_eq
  have hcommit : s.commitIndex ≤ M.length := hlog ▸ h.commit
  have hform : ∃ s', s' = resetElectionTimeout { s with
      currentTerm := s.currentTerm + 1
      role := .candidate
      votedFor := some l
      votesReceived := 1
      leaderId := none } := ⟨_, rfl⟩
  obtain ⟨s', hs'⟩ := hform
  refine ⟨s', ?_, ⟨by rw [hs']; rfl, by rw [← hterm, hs']; rfl, by rw [← hlog, hs']; rfl,
    by rw [hs']; exact hcommit, by rw [hs']; exact hcounts, by rw [hs']; show 1 < n / 2 + 1; omega⟩,
    by rw [hs']; rfl, by rw [hs']; rfl⟩
  unfold RaftNode.tick
  split
  · rename_i hrole
    exact absurd hrole h.role
  · rw [if_pos hzero, hs', ← hlog, ← hterm]
    rfl
  · rw [if_pos hzero, hs', ← hlog, ← hterm]
    rfl

/-- **A tick before the first timeout.** -/
theorem Waits.tick (h : Waits n I l T M (τ + 1) nodes) (hl : l < n) (hlI : l ∉ I) :
    Waits n I l T M τ (fun i => if i < n then ((node n i).tick (nodes i)).1 else nodes i) ∧
      ∀ i < n, i ∉ I → ((node n i).tick (nodes i)).2 = [] ∧
        ∀ s₀, Queued s₀ (nodes i) → Queued s₀ ((node n i).tick (nodes i)).1 := by
  have hpos : ∀ i < n, i ∉ I → τ + 1 ≤ (nodes i).electionTicksRemaining := by
    intro i hi hiI
    by_cases hil : i = l
    · rw [hil, h.timer]
    · exact le_of_lt (h.later i hi hiI hil)
  have htick : ∀ i < n, i ∉ I → (node n i).tick (nodes i) = ({ nodes i with
      electionTicksRemaining := (nodes i).electionTicksRemaining - 1 }, []) := fun i hi hiI =>
    (h.member i hi hiI).tick (lt_of_lt_of_le (Nat.succ_pos τ) (hpos i hi hiI))
  refine ⟨⟨fun i hi hiI => ?_, fun i hi hiI => ?_, ?_, ?_, ?_, fun i hi hiI hil => ?_⟩,
    fun i hi hiI => ⟨by rw [htick i hi hiI], fun s₀ hq => ?_⟩⟩
  · rw [if_pos hi, htick i hi hiI]
    have hm := h.member i hi hiI
    exact ⟨hm.role, hm.term, hm.base, hm.upto, hm.commit⟩
  · rw [if_pos hi, htick i hi hiI]
    exact h.quiet i hi hiI
  · rw [if_pos hl, htick l hl hlI]
    exact h.term
  · rw [if_pos hl, htick l hl hlI]
    exact h.counts
  · rw [if_pos hl, htick l hl hlI]
    show (nodes l).electionTicksRemaining - 1 = τ
    rw [h.timer, Nat.add_sub_cancel]
  · rw [if_pos hi, htick i hi hiI]
    exact Nat.lt_sub_of_add_lt (h.later i hi hiI hil)
  · refine hq.step (tick_effect (node n i) (nodes i)) (by simp) ?_
    rw [htick i hi hiI]

/-- The peers of `l` that are live. -/
theorem countP_peerIds (hl : l < n) (hlI : l ∉ I) :
    (peerIds l n).countP (fun j => j ∉ I) + 1 = (Finset.range n \ I).card := by
  have hset : ((peerIds l n).filter fun j => j ∉ I).toFinset = (Finset.range n \ I).erase l := by
    ext j
    rw [List.mem_toFinset, List.mem_filter, mem_peerIds, Finset.mem_erase, Finset.mem_sdiff,
      Finset.mem_range, decide_eq_true_eq]
    tauto
  have hmem : l ∈ Finset.range n \ I := Finset.mem_sdiff.mpr ⟨Finset.mem_range.mpr hl, hlI⟩
  rw [List.countP_eq_length_filter,
    ← List.toFinset_card_of_nodup ((nodup_peerIds l n).filter _), hset,
    Finset.card_erase_add_one hmem]

/-- What nodes send when they tick, if only `l` has anything to say to live nodes. -/
theorem countP_flatMap_eq {f : NodeId → List NetworkMessage} {p : NetworkMessage → Bool}
    (hl : l < n) (h : ∀ i < n, i ≠ l → (f i).countP p = 0) :
    ((List.range n).flatMap f).countP p = (f l).countP p := by
  have hset : (List.range n).toFinset = Finset.range n := by
    ext i
    rw [List.mem_toFinset, List.mem_range, Finset.mem_range]
  rw [List.countP_flatMap, ← List.sum_toFinset _ List.nodup_range, hset]
  refine Finset.sum_eq_single_of_mem l (Finset.mem_range.mpr hl) fun i hi hil => ?_
  exact h i (Finset.mem_range.mp hi) hil

/-- **The first timeout**: `l` stands. -/
theorem Waits.stand (h : Waits n I l T M 0 nodes) (hn : 2 ≤ n) (hl : l < n) (hlI : l ∉ I)
    (hqueue : ∀ i < n, i ∉ I → Queued (init i) (nodes i)) :
    Campaign init n I l (T + 1) M
      (fun i => if i < n then ((node n i).tick (nodes i)).1 else nodes i)
      ((List.range n).flatMap fun i => ((node n i).tick (nodes i)).2) := by
  obtain ⟨s', htick, hstands, hvotes, hlog⟩ :=
    (h.member l hl hlI).stand hn h.term h.counts h.timer
  have hother : ∀ i < n, i ∉ I → i ≠ l → (node n i).tick (nodes i) = ({ nodes i with
      electionTicksRemaining := (nodes i).electionTicksRemaining - 1 }, []) := fun i hi hiI hil =>
    (h.member i hi hiI).tick (h.later i hi hiI hil)
  have hsends : ∀ i < n, i ≠ l → ∀ m ∈ ((node n i).tick (nodes i)).2, m.sender ∈ I := by
    intro i hi hil m hm
    by_contra hsender
    have hs : m.sender = i := (Raft.signs n i).tick _ m hm
    rw [hother i hi (hs ▸ hsender) hil] at hm
    exact absurd hm List.not_mem_nil
  refine ⟨?_, fun i hi hiI hil => ?_, fun m hm hb => ?_, ?_, fun i hi hiI => ?_⟩
  · rw [if_pos hl, htick]
    exact hstands
  · rw [if_pos hi, hother i hi hiI hil]
    have hm := h.member i hi hiI
    exact ⟨⟨hm.role, Nat.le_succ_of_le hm.term, hm.base, hm.upto, hm.commit⟩,
      .inl (Nat.lt_succ_of_le hm.term)⟩
  · obtain ⟨i, hi, hmi⟩ := List.mem_flatMap.mp hm
    obtain rfl : i = l := by
      by_contra hil
      exact hb.1 (hsends i (List.mem_range.mp hi) hil m hmi)
    rw [htick] at hmi
    obtain ⟨j, hj, rfl⟩ := List.mem_map.mp hmi
    obtain ⟨hjn, hjl⟩ := mem_peerIds.mp hj
    exact ⟨hjn, .request j hjl⟩
  · have hasked : ((peerIds l n).map (voteRequest l (T + 1) M)).countP (fun m => Between I m) =
        (peerIds l n).countP fun j => j ∉ I := by
      rw [List.countP_map]
      refine List.countP_congr fun j _ => ?_
      show (decide (l ∉ I ∧ j ∉ I) = true ↔ decide (j ∉ I) = true)
      simp [hlI]
    have hnone : ∀ i < n, i ≠ l →
        ((node n i).tick (nodes i)).2.countP (fun m => Between I m) = 0 := by
      intro i hi hil
      refine List.countP_eq_zero.mpr fun m hm hb => ?_
      exact (of_decide_eq_true hb).1 (hsends i hi hil m hm)
    rw [if_pos hl, htick, hvotes, countP_flatMap_eq hl hnone, htick, hasked, Nat.add_comm,
      countP_peerIds hl hlI]
  · rw [if_pos hi]
    refine (hqueue i hi hiI).step (tick_effect (node n i) (nodes i)) (by simp) ?_
    by_cases hil : i = l
    · subst hil
      rw [htick, hlog]
    · rw [hother i hi hiI hil]

end Ticks

/-! ### Runs -/

section Runs

variable [Sha256] {n : ℕ} {l : NodeId} {T t τ : ℕ} {M F : List LogEntry}
variable {init : NodeId → RaftState} {faults : NetworkFaults} {K : NodeId → List LogEntry}
variable {C : Prop}

/-- A cluster in which all that is on the way comes from nodes that have crashed. -/
theorem receive_of_crashed (hhonest : ∀ i, faults.isByzantine i = false)
    {nodes : NodeId → RaftState} {m : NetworkMessage} (hm : m.sender ∈ faults.isolatedNodes) :
    Cluster.receive (code n) n faults nodes m = some (nodes, []) := by
  rcases NetworkFaults.carried_cases (hhonest m.sender) with ⟨_, hcarried⟩ | ⟨hno, _⟩
  · exact Cluster.receive_of_lost hcarried nodes
  · exact absurd hm hno

omit [Sha256] in
/-- Whoever takes itself for the leader names itself. -/
theorem atomic_of_isLeader {i : NodeId} {s : RaftState} (h : (node n i).isLeader s = true) :
    s.leaderIdAtomic = i := by
  have hleader := of_decide_eq_true h
  unfold leader at hleader
  split at hleader
  · exact absurd hleader (by simp)
  · exact Option.some.inj hleader

omit [Sha256] in
/-- Nobody is found if no live node names itself. -/
theorem find_leader_none {c : Cluster RaftState} (h : ∀ i < c.size,
    c.faults.isIsolated i = false → (c.nodes i).leaderIdAtomic ≠ i) :
    ((List.range c.size).find? fun i =>
      (node n i).isLeader (c.nodes i) && !c.faults.isIsolated i) = none := by
  refine List.find?_eq_none.mpr fun i hi hfound => ?_
  obtain ⟨hleads, hlive⟩ := Bool.and_eq_true_iff.mp hfound
  exact h i (List.mem_range.mp hi) (by simpa using hlive) (atomic_of_isLeader hleads)

omit [Sha256] in
/-- The node that all live nodes name is found. -/
theorem find_leader {c : Cluster RaftState} (hn : n < 2 ^ 64) (hl : l < c.size) (hsize : c.size = n)
    (hlive : c.faults.isIsolated l = false) (hself : (c.nodes l).leaderIdAtomic = l)
    (h : ∀ i < n, c.faults.isIsolated i = false → i ≠ l → (c.nodes i).leaderIdAtomic = l) :
    ((List.range c.size).find? fun i =>
      (node n i).isLeader (c.nodes i) && !c.faults.isIsolated i) = some l := by
  have hfits : ((node n l).isLeader (c.nodes l) && !c.faults.isIsolated l) = true := by
    rw [(isLeader_iff (id_ne_noLeader hn (hsize ▸ hl))).mpr hself, hlive]
    rfl
  cases hfind : (List.range c.size).find? fun i =>
      (node n i).isLeader (c.nodes i) && !c.faults.isIsolated i with
  | none => exact absurd hfits (List.find?_eq_none.mp hfind l (List.mem_range.mpr hl))
  | some i =>
    have hi := List.mem_range.mp (List.mem_of_find?_eq_some hfind)
    have hfound := List.find?_some hfind
    obtain ⟨hleads, hlive⟩ := Bool.and_eq_true_iff.mp hfound
    by_contra hil
    have hne : i ≠ l := fun heq => hil (congrArg some heq)
    have hother := h i (hsize ▸ hi) (by simpa using hlive) hne
    rw [atomic_of_isLeader hleads] at hother
    exact hne hother

/-- **A round before the first timeout**: nobody stands, and nobody is found. -/
theorem Waits.round (hl : l < n) (hlI : l ∉ faults.isolatedNodes)
    (hhonest : ∀ i, faults.isByzantine i = false) (hlossless : faults.Lossless)
    {c : Cluster RaftState} (hsize : c.size = n) (hf : c.faults = faults)
    (hpending : c.pending = []) (h : Waits n faults.isolatedNodes l T M (τ + 1) c.nodes)
    (hqueue : ∀ i < n, i ∉ faults.isolatedNodes → Queued (init i) (c.nodes i)) : ∃ steps c',
      runToCompletion (code n) (c.tick (code n)) 100 = some (steps, c') ∧ Alike c c' ∧
        c'.pending = [] ∧ Waits n faults.isolatedNodes l T M τ c'.nodes ∧
        (∀ i < n, i ∉ faults.isolatedNodes → Queued (init i) (c'.nodes i)) ∧
        ((List.range c'.size).find? fun i =>
          (node n i).isLeader (c'.nodes i) && !c'.faults.isIsolated i) = none := by
  obtain ⟨halike, hnodes, hsent⟩ := tick_eq (code n) c
  obtain ⟨hwaits, htick⟩ := h.tick hl hlI
  have hcrashed : ∀ m ∈ (c.tick (code n)).pending, m.sender ∈ faults.isolatedNodes := by
    rw [hsent, hpending, List.nil_append, hsize]
    exact sender_of_silent (fun i => Raft.signs n i) fun i hi hiI => (htick i hi hiI).1
  -- what crashed nodes have sent is lost, so the nodes stay as they are after the tick
  obtain ⟨steps, c', hrun, halike', hpending', hsame, _⟩ := runToCompletion_of_fading (code n)
    (I := fun nodes q => nodes = (c.tick (code n)).nodes ∧
      ∀ m ∈ q, m.sender ∈ faults.isolatedNodes) (fun _ => 0) hlossless
    (fun nodes m q h => ⟨nodes, [], receive_of_crashed hhonest (h.2 m List.mem_cons_self),
      ⟨h.1, fun m' hm' => h.2 m' (List.mem_cons_of_mem _ (by simpa using hm'))⟩, by simp⟩) 100
    (halike.size.trans hsize) (halike.faults.trans hf) ⟨rfl, hcrashed⟩
    (fun m _ => by decide)
  have hsize' : c'.size = n := (halike.trans halike').size.trans hsize
  have hf' : c'.faults = faults := (halike.trans halike').faults.trans hf
  have hnodes' : c'.nodes =
      fun i => if i < n then ((node n i).tick (c.nodes i)).1 else c.nodes i := by
    rw [hsame, funext hnodes, hsize]
    rfl
  have hwaits' : Waits n faults.isolatedNodes l T M τ c'.nodes := hnodes' ▸ hwaits
  refine ⟨steps, c', hrun, halike.trans halike', hpending', hwaits', fun i hi hiI => ?_,
    find_leader_none fun i hi hlive => ?_⟩
  · rw [hnodes']
    dsimp only
    rw [if_pos hi]
    exact (htick i hi hiI).2 _ (hqueue i hi hiI)
  · rw [hf'] at hlive
    exact hwaits'.quiet i (hsize' ▸ hi) (of_decide_eq_false hlive)

/-- **Waiting for a leader is in vain** until the first timer has run out. -/
theorem waits_in_vain (hl : l < n) (hlI : l ∉ faults.isolatedNodes)
    (hhonest : ∀ i, faults.isByzantine i = false) (hlossless : faults.Lossless) (j : ℕ) :
    ∀ {τ : ℕ} {c : Cluster RaftState}, j ≤ τ → c.size = n → c.faults = faults → c.pending = [] →
      Waits n faults.isolatedNodes l T M τ c.nodes →
      (∀ i < n, i ∉ faults.isolatedNodes → Queued (init i) (c.nodes i)) → ∃ c',
        c.waitForLeader (code n) (fun i => (node n i).isLeader) j = some (none, c') := by
  induction j with
  | zero => exact fun {τ c} _ _ _ _ _ _ => ⟨c, rfl⟩
  | succ j ih =>
    intro τ c hj hsize hf hpending hwaits hqueue
    obtain ⟨τ, rfl⟩ := Nat.exists_eq_succ_of_ne_zero (Nat.ne_of_gt (Nat.zero_lt_of_lt hj))
    obtain ⟨steps, c₁, hrun, halike, hpending₁, hwaits₁, hqueue₁, hnone⟩ :=
      hwaits.round hl hlI hhonest hlossless hsize hf hpending hqueue
    obtain ⟨c', hvain⟩ := ih (Nat.le_of_succ_le_succ hj) (halike.size.trans hsize)
      (halike.faults.trans hf) hpending₁ hwaits₁ hqueue₁
    refine ⟨c', ?_⟩
    rw [waitForLeader, hrun, Option.bind_some]
    dsimp only
    rw [hnone]
    exact hvain

/-- **Waiting for a leader finds the node that times out first.** -/
theorem waits_wins (hn : 2 ≤ n) (hn' : n < 2 ^ 64) (hl : l < n) (hlI : l ∉ faults.isolatedNodes)
    (hhonest : ∀ i, faults.isByzantine i = false) (hlossless : faults.Lossless)
    (hmajority : n / 2 + 1 ≤ (Finset.range n \ faults.isolatedNodes).card) (hM : Indexed M)
    (hterms : ∀ e ∈ M, e.term ≤ T) (k : ℕ) :
    ∀ {τ : ℕ} {c : Cluster RaftState}, c.size = n → c.faults = faults → c.pending = [] →
      Waits n faults.isolatedNodes l T M τ c.nodes →
      (∀ i < n, i ∉ faults.isolatedNodes → Queued (init i) (c.nodes i)) → ∃ c',
        c.waitForLeader (code n) (fun i => (node n i).isLeader) (τ + 1 + k) = some (some l, c') ∧
          Alike c c' ∧ c'.pending = [] ∧
          Reign init n faults.isolatedNodes l (T + 1) (fun _ => M) M False c'.nodes [] := by
  intro τ
  induction τ with
  | zero =>
    intro c hsize hf hpending hwaits hqueue
    obtain ⟨halike, hnodes, hsent⟩ := tick_eq (code n) c
    have hstart : Campaign init n faults.isolatedNodes l (T + 1) M (c.tick (code n)).nodes
        (c.tick (code n)).pending := by
      rw [hsent, hpending, List.nil_append, funext hnodes, hsize]
      exact hwaits.stand hn hl hlI hqueue
    obtain ⟨steps, c₁, hrun, halike₁, hpending₁, hend⟩ := runToCompletion_of_fading (code n)
      (I := fun nodes q => Campaign init n faults.isolatedNodes l (T + 1) M nodes q ∨
        Reign init n faults.isolatedNodes l (T + 1) (fun _ => M) M False nodes q)
      (fun m => followUps m.payload) hlossless (fun nodes m q h => by
        rcases h with h | h
        · exact h.receive hhonest hl fun e he => Nat.lt_succ_of_le (hterms e he)
        · obtain ⟨nodes', out, hr, hnext, hlife⟩ := h.receive hhonest hl hlI hM
          exact ⟨nodes', out, hr, .inr hnext, hlife⟩) 100
      (halike.size.trans hsize) (halike.faults.trans hf) (.inl hstart)
      (fun m _ => lt_of_le_of_lt (followUps_le m.payload) (by decide))
    have hreign := hend.resolve_left (Campaign.won hmajority)
    have hsize₁ : c₁.size = n := (halike.trans halike₁).size.trans hsize
    have hf₁ : c₁.faults = faults := (halike.trans halike₁).faults.trans hf
    refine ⟨c₁, ?_, halike.trans halike₁, hpending₁, hreign⟩
    rw [Nat.zero_add, Nat.add_comm 1 k, waitForLeader, hrun, Option.bind_some]
    dsimp only
    rw [find_leader hn' (hsize₁ ▸ hl) hsize₁ (by rw [hf₁]; exact decide_eq_false hlI)
      hreign.leads.atomic fun i hi hlive hil => (hreign.told hi (by
        rw [hf₁] at hlive
        exact of_decide_eq_false hlive) hil).1.atomic]
  | succ τ ih =>
    intro c hsize hf hpending hwaits hqueue
    obtain ⟨steps, c₁, hrun, halike, hpending₁, hwaits₁, hqueue₁, hnone⟩ :=
      hwaits.round hl hlI hhonest hlossless hsize hf hpending hqueue
    obtain ⟨c', hwin, halike', hpending', hreign⟩ := ih (halike.size.trans hsize)
      (halike.faults.trans hf) hpending₁ hwaits₁ hqueue₁
    refine ⟨c', ?_, halike.trans halike', hpending', hreign⟩
    rw [show τ + 1 + 1 + k = (τ + 1 + k) + 1 by omega, waitForLeader, hrun, Option.bind_some]
    dsimp only
    rw [hnone]
    exact hwin

/-- Payloads are proposed one after the other, and the cluster runs to completion after each. -/
def served (k : ℕ) (ps : List Payload) : List HarnessCall :=
  ps.flatMap fun p => [.call (.propose p), .call (.runToCompletion k)]

/-- A proposal to the cluster is one to the leader. -/
theorem Reign.offer {c : Cluster RaftState}
    (h : Reign init n c.faults.isolatedNodes l t K F C c.nodes []) (hsize : c.size = n)
    (hpending : c.pending = []) (hn : 2 ≤ n) (hl : l < n) (hlI : l ∉ c.faults.isolatedNodes)
    (p : Payload) : ∃ c', c.harness (Raft.polled n) (.call (.propose p)) = some c' ∧ Alike c c' ∧
      Reign init n c.faults.isolatedNodes l t (fun _ => F) (extended t F p) False c'.nodes
        c'.pending ∧
      ∀ m ∈ c'.pending, followUps m.payload = 1 := by
  obtain ⟨s', out, hcall, hnext, hlife⟩ := h.propose hn hl hlI p
  have hcode : (Raft.code n l).propose (c.nodes l) p = (.accepted, s', out) := hcall
  have hasked : c.asked Raft.leads Raft.hint = some l :=
    asked_of_told hsize hl hlI h.leads.role fun i hi hiI hil =>
      ⟨(h.member i hi hiI hil).role, (h.told hi hiI hil).1.leader⟩
  have hcluster : (c.propose (Raft.code n) p).2 =
      ({ c with commitLog := c.commitLog.recordProposal p }.setNode l s').enqueue out := by
    rw [propose_eq p (Raft.answers n), hasked]
    unfold ask
    simp only [hcode]
  have hsent : (c.propose (Raft.code n) p).2.pending = out := by
    rw [hcluster]
    show c.pending ++ out = out
    rw [hpending, List.nil_append]
  refine ⟨(c.propose (Raft.code n) p).2, rfl, ?_, ?_, ?_⟩
  · rw [hcluster]
    exact ⟨rfl, rfl⟩
  · rw [hsent, hcluster]
    exact hnext
  · rw [hsent]
    exact hlife

/-- **A leader commits what is proposed.** -/
theorem serves (hn : 2 ≤ n) (hl : l < n) (hlI : l ∉ faults.isolatedNodes)
    (hhonest : ∀ i, faults.isByzantine i = false) (hlossless : faults.Lossless) {k : ℕ}
    (hk : 2 ≤ k) (ps : List Payload) :
    ∀ {K : NodeId → List LogEntry} {F : List LogEntry} {C : Prop} {c : Cluster RaftState},
      Indexed F → c.size = n → c.faults = faults → c.pending = [] →
      Reign init n faults.isolatedNodes l t K F C c.nodes [] → ∃ c' K' C',
        c.drive (Raft.polled n) (served k ps) = some c' ∧
          Reign init n faults.isolatedNodes l t K' (ps.foldl (extended t) F) C' c'.nodes [] := by
  induction ps with
  | nil => exact fun {K F C c} _ _ _ _ h => ⟨c, K, C, rfl, h⟩
  | cons p ps ih =>
    intro K F C c hF hsize hf hpending h
    have hindexed : Indexed (extended t F p) := hF.concat rfl
    obtain ⟨c₁, hc₁, halike, h₁, hlife⟩ :=
      Reign.offer (hf ▸ h) hsize hpending hn hl (hf ▸ hlI) p
    rw [hf] at h₁
    obtain ⟨steps, c₂, hrun, halike₂, hpending₂, h₂⟩ := runToCompletion_of_fading (code n)
      (I := Reign init n faults.isolatedNodes l t (fun _ => F) (extended t F p) False)
      (fun m => followUps m.payload) hlossless
      (fun nodes m q h => h.receive hhonest hl hlI hindexed) k (halike.size.trans hsize)
      (halike.faults.trans hf) h₁ (fun m hm => by rw [hlife m hm]; exact hk)
    have hcomplete : c₁.harness (Raft.polled n) (.call (.runToCompletion k)) = some c₂ := by
      show (runToCompletion (code n) c₁ k).map Prod.snd = some c₂
      rw [hrun, Option.map_some]
    obtain ⟨c₃, K', C', hdrive, h₃⟩ := ih hindexed ((halike.trans halike₂).size.trans hsize)
      ((halike.trans halike₂).faults.trans hf) hpending₂ h₂
    refine ⟨c₃, K', C', ?_, h₃⟩
    show c.drive (Raft.polled n) (_ :: _ :: served k ps) = some c₃
    rw [drive_of_cons hc₁, drive_of_cons hcomplete, hdrive]

end Runs

/-- A log that was extended ends in the term. -/
theorem extended_last {t : ℕ} {M : List LogEntry} {ps : List Payload} (hps : ps ≠ []) :
    ((ps.foldl (extended t) M)[(ps.foldl (extended t) M).length - 1]?.all fun e => e.term = t) =
      true := by
  obtain ⟨qs, p, rfl⟩ := List.eq_nil_or_concat ps |>.resolve_left hps
  rw [List.concat_eq_append, List.foldl_append, List.foldl_cons, List.foldl_nil, extended,
    List.length_append, List.length_singleton, Nat.add_sub_cancel, List.getElem?_concat_length,
    Option.all_some, decide_eq_true_eq]

end Raft

/-- **A crash of the leader is survived**: if the live nodes of a cluster are a majority, have one
    log and no leader, and nothing is pending, the one that times out first is found by
    `wait_for_leader` as soon as its timer has run out, and nobody before; it commits what is then
    proposed, payload by payload, behind what it had committed before, and all live nodes have its
    log. -/
theorem failover [Sha256] (n : ℕ) (hn : 2 ≤ n) (hn' : n < 2 ^ 64) (c : Cluster RaftState)
    (hsize : c.size = n) (hpending : c.pending = []) (hlossless : c.faults.Lossless)
    (hhonest : ∀ i, c.faults.isByzantine i = false)
    (hmajority : n / 2 + 1 ≤ (Finset.range n \ c.faults.isolatedNodes).card) (l : NodeId)
    (hl : l < n) (hlive : l ∉ c.faults.isolatedNodes) (T : ℕ) (M : List LogEntry)
    (hM : Raft.Indexed M) (hterms : ∀ e ∈ M, e.term ≤ T) (τ : ℕ)
    (hwaits : Raft.Waits n c.faults.isolatedNodes l T M τ c.nodes) (m k : ℕ) (hk : 2 ≤ k)
    (ps : List Payload) :
    (∀ j ≤ τ, ∃ c', c.waitForLeader (Raft.code n) (fun i => (Raft.node n i).isLeader) j =
      some (none, c')) ∧
    ∃ c₁ c₂,
      c.waitForLeader (Raft.code n) (fun i => (Raft.node n i).isLeader) (τ + 1 + m) =
        some (some l, c₁) ∧
      c₁.drive (Raft.polled n) (Raft.served k ps) = some c₂ ∧
      (∀ i < n, i ∉ c.faults.isolatedNodes → (c₂.nodes i).log = ps.foldl (Raft.extended (T + 1)) M ∧
        (c₂.nodes i).leaderId = some l ∧ Raft.Queued (c.nodes i) (c₂.nodes i)) ∧
      (ps ≠ [] → (c₂.nodes l).commitIndex = (ps.foldl (Raft.extended (T + 1)) M).length) := by
  have hqueue : ∀ i < n, i ∉ c.faults.isolatedNodes → Raft.Queued (c.nodes i) (c.nodes i) :=
    fun i hi hiI => .refl (hwaits.member i hi hiI).commit
  obtain ⟨c₁, hwin, halike, hpending₁, hreign⟩ := Raft.waits_wins hn hn' hl hlive hhonest hlossless
    hmajority hM hterms m hsize rfl hpending hwaits hqueue
  obtain ⟨c₂, K', C', hdrive, hend⟩ := Raft.serves hn hl hlive hhonest hlossless hk ps hM
    (halike.size.trans hsize) halike.faults hpending₁ hreign
  refine ⟨fun j hj => Raft.waits_in_vain hl hlive hhonest hlossless j hj hsize rfl hpending hwaits
    hqueue, c₁, c₂, hwin, hdrive, fun i hi hiI => ?_, fun hps => ?_⟩
  · by_cases hil : i = l
    · subst hil
      exact ⟨hend.leads.log, hend.leads.leader, hend.queue i hi hiI⟩
    · obtain ⟨hfollows, _⟩ := hend.told hi hiI hil
      exact ⟨hfollows.log, hfollows.leader, hend.queue i hi hiI⟩
  · exact hend.leads.committed hl hlive (fun i hi hiI hil => (hend.told hi hiI hil).2) hmajority
      (Raft.extended_last hps)

/-- Node `0` of five leads, commits a payload and crashes, and node `1` takes over. -/
theorem failover_five : ∃ c c₁ c₂,
    @drive _ (Raft.polled 5) Sha256.sample (Raft.newClusterWithLeader 5 staggered fun _ => 0)
      (Raft.served 30 [⟨[0x70]⟩]) = some c ∧
    (∃ c', @waitForLeader _ (Raft.code 5) Sha256.sample (fun i => (Raft.node 5 i).isLeader)
      (c.setFaults { isolatedNodes := {0}, rng := fun _ => 0 }) 15 = some (none, c')) ∧
    @waitForLeader _ (Raft.code 5) Sha256.sample (fun i => (Raft.node 5 i).isLeader)
      (c.setFaults { isolatedNodes := {0}, rng := fun _ => 0 }) 16 = some (some 1, c₁) ∧
    @drive _ (Raft.polled 5) Sha256.sample c₁ (Raft.served 30 [⟨[0x71]⟩]) = some c₂ ∧
    (c₂.nodes 1).log = [⟨1, 1, ⟨[0x70]⟩⟩, ⟨2, 2, ⟨[0x71]⟩⟩] ∧ (c₂.nodes 1).commitIndex = 2 ∧
    (c₂.nodes 4).log = [⟨1, 1, ⟨[0x70]⟩⟩, ⟨2, 2, ⟨[0x71]⟩⟩] := by
  have hrun : ((@drive _ (Raft.polled 5) Sha256.sample
      (Raft.newClusterWithLeader 5 staggered fun _ => 0) (Raft.served 30 [⟨[0x70]⟩])).any fun c =>
        c.size = 5 ∧ c.pending = [] ∧ (c.nodes 1).currentTerm = 1 ∧
        (c.nodes 1).matchIndex.entries = [] ∧ (c.nodes 1).electionTicksRemaining = 15 ∧
        ∀ i < 5, i ≠ 0 → (c.nodes i).role ≠ .leader ∧ (c.nodes i).currentTerm ≤ 1 ∧
          (c.nodes i).log = [⟨1, 1, ⟨[0x70]⟩⟩] ∧ (c.nodes i).commitIndex ≤ 1 ∧
          (c.nodes i).leaderIdAtomic ≠ i ∧
          (i ≠ 1 → 15 < (c.nodes i).electionTicksRemaining)) = true := by decide +kernel
  obtain ⟨c, hc, hfacts⟩ := (Option.any_eq_true _ _).mp hrun
  obtain ⟨hsize, hpending, hterm, hcounts, htimer, hlive⟩ := of_decide_eq_true hfacts
  have hwaits : Raft.Waits 5 {0} 1 1 [⟨1, 1, ⟨[0x70]⟩⟩] 15 c.nodes := by
    have hmem : ∀ {i : NodeId}, i ∉ ({0} : Finset NodeId) → i ≠ 0 := Finset.mem_singleton.not.mp
    refine ⟨fun i hi hiI => ?_, fun i hi hiI => ?_, hterm, fun j x hj => ?_, htimer,
      fun i hi hiI => ?_⟩
    · obtain ⟨hrole, hle, hlog, hcommit, _⟩ := hlive i hi (hmem hiI)
      exact ⟨hrole, hle, hlog ▸ List.prefix_refl _, hlog ▸ List.prefix_refl _, hlog ▸ hcommit⟩
    · obtain ⟨_, _, _, _, hatomic, _⟩ := hlive i hi (hmem hiI)
      exact hatomic
    · rw [show (c.nodes 1).matchIndex = ∅ from AList.ext hcounts] at hj
      exact absurd hj (by simp)
    · obtain ⟨_, _, _, _, _, hlater⟩ := hlive i hi (hmem hiI)
      exact hlater
  have hstays : ∀ i ∈ ({1, 4} : Finset NodeId), i ∉ ({0} : Finset NodeId) := by decide
  obtain ⟨hvain, c₁, c₂, hwin, hdrive, hsame, hcommit⟩ := @failover Sha256.sample 5 (by decide)
    (by decide) (c.setFaults { isolatedNodes := {0}, rng := fun _ => 0 }) hsize hpending
    ⟨rfl, rfl⟩ (fun _ => rfl) (show 5 / 2 + 1 ≤ (Finset.range 5 \ {0}).card by decide)
    1 (by decide) (hstays 1 (by decide)) 1 [⟨1, 1, ⟨[0x70]⟩⟩] (by decide) (by decide) 15 hwaits
    0 30 (by decide) [⟨[0x71]⟩]
  exact ⟨c, c₁, c₂, hc, hvain 15 le_rfl, hwin, hdrive,
    (hsame 1 (by decide) (hstays 1 (by decide))).1, hcommit (by decide),
    (hsame 4 (by decide) (hstays 4 (by decide))).1⟩

end ConsensusBench
