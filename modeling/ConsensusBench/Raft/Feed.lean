import ConsensusBench.Cluster
import ConsensusBench.Raft.Log

namespace ConsensusBench

/-!
# Raft under one leader: the nodes

What the nodes make of proposals, entries and acknowledgements as long as node `0` leads in term
`1` and nothing else was ever appended.  The log of the leader is that of the proposals, and the
log of a follower is a part of it.

* `FollowerHolds`, `LeaderHolds` — the states.
* `FollowerHolds.append` — entries that reach a follower take its log as far as the leader's was.
* `LeaderHolds.hear` — the leader commits as soon as a majority acknowledges.
* `LeaderHolds.committed_all` — so it has committed everything that enough followers have.
-/

open RaftNode

namespace Raft

/-! ### Logs and messages -/

/-- The log of the proposals `ps`. -/
def logOf (ps : List Payload) : List LogEntry := ps.mapIdx fun k p => ⟨1, k + 1, p⟩

section Log

variable (ps : List Payload)

@[simp] theorem length_logOf : (logOf ps).length = ps.length := List.length_mapIdx

/-- The entry at a position has the payload there, and the next index. -/
theorem getElem?_logOf (k : ℕ) : (logOf ps)[k]? = ps[k]?.map fun p => ⟨1, k + 1, p⟩ :=
  List.getElem?_mapIdx

/-- A proposal is appended as the next entry. -/
theorem logOf_concat (p : Payload) : logOf (ps ++ [p]) = logOf ps ++ [⟨1, ps.length + 1, p⟩] :=
  List.mapIdx_concat

/-- The first entries are those of the first payloads. -/
theorem take_logOf (m : ℕ) : (logOf ps).take m = logOf (ps.take m) := by
  apply List.ext_getElem?
  intro k
  rw [List.getElem?_take, getElem?_logOf, getElem?_logOf, List.getElem?_take]
  split
  · rfl
  · rfl

/-- Every entry knows its place. -/
theorem indexed_logOf : Indexed (logOf ps) := by
  intro k e he
  rw [getElem?_logOf] at he
  obtain ⟨p, _, rfl⟩ := Option.map_eq_some_iff.mp he
  rfl

/-- The payloads of the log are those that were proposed. -/
theorem map_payload_logOf : (logOf ps).map LogEntry.payload = ps := by
  apply List.ext_getElem?
  intro k
  rw [List.getElem?_map, getElem?_logOf, Option.map_map]
  exact Option.map_id'

/-- What commits is numbered from `1`. -/
theorem map_commit_logOf :
    (logOf ps).map (fun e => (⟨e.index, e.payload⟩ : CommittedEntry)) = numbered ps := by
  apply List.ext_getElem?
  intro k
  rw [List.getElem?_map, getElem?_logOf, Option.map_map, numbered, List.getElem?_mapIdx]
  rfl

variable {ps} {b m : ℕ}

/-- Committing the entries up to `m` behind those up to `b`. -/
theorem commit_concat (ps : List Payload) (h : b ≤ m) : numbered (ps.take b) ++
    (((logOf ps).take m).drop b).map (fun e => (⟨e.index, e.payload⟩ : CommittedEntry)) =
      numbered (ps.take m) := by
  have hfirst : numbered (ps.take b) = (numbered (ps.take m)).take b := by
    rw [← map_commit_logOf, ← map_commit_logOf, ← List.map_take, take_logOf, List.take_take,
      Nat.min_eq_left h]
  rw [hfirst, List.map_drop, take_logOf, map_commit_logOf, List.take_append_drop]

/-- A log of fewer payloads is a prefix. -/
theorem logOf_le (h : b ≤ m) : logOf (ps.take b) <+: logOf (ps.take m) := by
  have hsame : logOf (ps.take b) = (logOf (ps.take m)).take b := by
    rw [take_logOf, List.take_take, Nat.min_eq_left h]
  rw [hsame]
  exact List.take_prefix _ _

/-- Appending the entries of a longer log, from a position in the shorter one, gives the longer. -/
theorem foldlM_appendEntry_logOf {prev : ℕ} (hprev : prev ≤ b) (hb : b ≤ m) (hm : m ≤ ps.length) :
    ((logOf (ps.take m)).drop prev).foldlM appendEntry (logOf (ps.take b)) =
      some (logOf (ps.take m)) := by
  have hpre : logOf (ps.take b) <+: logOf (ps.take m) := logOf_le hb
  have hmatch : LogMatching (logOf (ps.take b)) (logOf (ps.take m)) := by
    intro k x y hx hy _
    have hlt : k < (logOf (ps.take b)).length := (List.getElem?_eq_some_iff.mp hx).1
    obtain ⟨u, hu⟩ := hpre
    rw [← hu, List.take_append_of_le_length hlt]
  have hle : prev ≤ (logOf (ps.take m)).length := by
    rw [length_logOf, List.length_take]
    omega
  have htake : (logOf (ps.take b)).take prev = (logOf (ps.take m)).take prev := by
    rw [take_logOf, take_logOf, List.take_take, List.take_take, Nat.min_eq_left hprev,
      Nat.min_eq_left (hprev.trans hb)]
  rw [foldlM_appendEntry (indexed_logOf _) hmatch hle htake]
  split
  · rename_i hpre'
    rw [List.IsPrefix.eq_of_length_le hpre hpre'.length_le]
  · rfl

end Log

/-- The entries of a leader whose log is that of `ps`, from position `prev` on. -/
def feed (ps : List Payload) (prev leaderCommit : ℕ) (j : NodeId) : NetworkMessage :=
  ⟨0, j, .raft (.appendEntries 1 0 prev (if prev > 0 then 1 else 0) ((logOf ps).drop prev)
    leaderCommit)⟩

/-- The acknowledgement of node `i` that it has `m` entries. -/
def report (m : ℕ) (i : NodeId) : NetworkMessage :=
  ⟨i, 0, .raft (.appendEntriesResponse 1 true m)⟩

section Ends

variable (ps : List Payload) (prev lc m : ℕ) (j : NodeId)

@[simp] theorem sender_feed : (feed ps prev lc j).sender = 0 := rfl

@[simp] theorem target_feed : (feed ps prev lc j).target = j := rfl

@[simp] theorem sender_report : (report m j).sender = j := rfl

@[simp] theorem target_report : (report m j).target = 0 := rfl

end Ends

/-! ### Followers -/

/-- A follower that has the first `b` entries of the log of `ps`. -/
structure FollowerHolds (ps : List Payload) (b : ℕ) (st : RaftState) : Prop where
  term_le : st.currentTerm ≤ 1
  role : st.role = .follower
  log : st.log = logOf (ps.take b)
  le : b ≤ ps.length
  commit_le : st.commitIndex ≤ b
  committed : st.committed = numbered (ps.take st.commitIndex)

variable {n : ℕ} {ps : List Payload} {b : ℕ} {st : RaftState}

/-- More proposals do not change what a follower has. -/
theorem FollowerHolds.concat (h : FollowerHolds ps b st) (p : Payload) :
    FollowerHolds (ps ++ [p]) b st where
  term_le := h.term_le
  role := h.role
  log := by rw [List.take_append_of_le_length h.le]; exact h.log
  le := by rw [List.length_append]; exact Nat.le_add_right_of_le h.le
  commit_le := h.commit_le
  committed := by
    rw [List.take_append_of_le_length (h.commit_le.trans h.le)]
    exact h.committed

/-- The state of a follower that has taken over `m` entries and commits as far as told. -/
def caughtUp (ps : List Payload) (m lc : ℕ) (s : RaftState) : RaftState :=
  { s with
    log := logOf (ps.take m)
    commitIndex := max s.commitIndex (min lc m)
    committed := numbered (ps.take (max s.commitIndex (min lc m))) }

/-- What is left of an `AppendEntries` after the check of the entry before. -/
theorem FollowerHolds.acceptEntries (h : FollowerHolds ps b st) (i : NodeId) {prev m : ℕ} (lc : ℕ)
    (hprev : prev ≤ b) (hb : b ≤ m) (hm : m ≤ ps.length) (hterm : st.currentTerm = 1) :
    (node n i).acceptEntries st 0 ((logOf (ps.take m)).drop prev) lc =
      some (caughtUp ps m lc st, [report m i]) := by
  have hfold : ((logOf (ps.take m)).drop prev).foldlM appendEntry st.log =
      some (logOf (ps.take m)) := by
    rw [h.log]
    exact foldlM_appendEntry_logOf hprev hb hm
  have hlen : (logOf (ps.take m)).length = m := by
    rw [length_logOf, List.length_take, Nat.min_eq_left hm]
  -- `leader_commit` is cut to what the follower has, and never taken back
  have hcommit : (if lc > st.commitIndex then
      commitUpTo { st with log := logOf (ps.take m) } (min lc m)
      else some { st with log := logOf (ps.take m) }) = some (caughtUp ps m lc st) := by
    have hcb := h.commit_le
    by_cases hlc : lc > st.commitIndex
    · have hmax : max st.commitIndex (min lc m) = min lc m := by omega
      have hle : st.commitIndex ≤ min lc m := by omega
      rw [if_pos hlc]
      refine commitUpTo_eq_some.mpr ⟨hle, by rw [hlen]; exact Nat.min_le_right _ _, ?_⟩
      have hconcat := commit_concat ps hle
      rw [caughtUp, hmax, ← hconcat, ← h.committed]
      simp only [take_logOf, List.take_take, Nat.min_eq_left (Nat.min_le_right lc m)]
    · have hmax : max st.commitIndex (min lc m) = st.commitIndex := by omega
      rw [if_neg hlc, caughtUp, hmax, ← h.committed]
  rw [RaftNode.acceptEntries, hfold, Option.bind_some]
  dsimp only
  rw [hlen, hcommit, Option.map_some]
  simp only [caughtUp, hterm]
  rfl

/-- **Entries reach a follower**: it has them all, and what the leader has committed of them is
    committed. -/
theorem FollowerHolds.append (h : FollowerHolds ps b st) (i : NodeId) {prev m : ℕ} (lc : ℕ)
    (hprev : prev ≤ b) (hb : b ≤ m) (hm : m ≤ ps.length) :
    ∃ st', (node n i).handleMessage st (feed (ps.take m) prev lc i) = some (st', [report m i]) ∧
      FollowerHolds ps m st' ∧ st'.commitIndex = max st.commitIndex (min lc m) ∧
      ELECTION_TIMEOUT_MIN ≤ st'.electionTicksRemaining := by
  have hterm : ¬ 1 < st.currentTerm := not_lt.mpr h.term_le
  -- the leader is known and the timer is reset
  obtain ⟨s, hs⟩ : ∃ s, s = resetElectionTimeout { st with
      currentTerm := 1
      role := .follower
      leaderId := some 0
      leaderIdAtomic := 0 } := ⟨_, rfl⟩
  have hholds : FollowerHolds ps b s := by
    rw [hs]
    exact ⟨le_rfl, rfl, h.log, h.le, h.commit_le, h.committed⟩
  have hindex : s.commitIndex = st.commitIndex := by rw [hs]; rfl
  have htime : ELECTION_TIMEOUT_MIN ≤ s.electionTicksRemaining := by
    rw [hs]
    exact Nat.le_add_right _ _
  have haccept : (node n i).acceptEntries s 0 ((logOf (ps.take m)).drop prev) lc =
      some (caughtUp ps m lc s, [report m i]) :=
    hholds.acceptEntries i lc hprev hb hm (by rw [hs]; rfl)
  have hbound : max s.commitIndex (min lc m) ≤ m := by
    have hcb := hholds.commit_le
    omega
  refine ⟨caughtUp ps m lc s, ?_, ⟨hholds.term_le, hholds.role, rfl, hm, hbound, rfl⟩, ?_, htime⟩
  · show (node n i).handleAppendEntries st 0 1 0 prev _ _ lc = _
    rw [handleAppendEntries, if_neg hterm]
    dsimp only
    rw [← hs]
    by_cases hpos : prev > 0
    · have hlt : prev - 1 < (ps.take b).length := by
        rw [List.length_take]
        have hle := h.le
        omega
      have hentry : s.log[prev - 1]? = some ⟨1, prev - 1 + 1, (ps.take b)[prev - 1]⟩ := by
        rw [hholds.log, getElem?_logOf, List.getElem?_eq_getElem hlt]
        rfl
      rw [if_pos hpos, hentry]
      simp only [ne_eq, hpos, if_true, not_true_eq_false, if_false]
      exact haccept
    · rw [if_neg hpos]
      exact haccept
  · rw [← hindex]
    rfl

/-- A follower that has not waited long enough goes on waiting. -/
theorem FollowerHolds.tick (h : FollowerHolds ps b st) (i : NodeId)
    (ht : 0 < st.electionTicksRemaining) :
    ∃ st', (node n i).tick st = (st', []) ∧ FollowerHolds ps b st' := by
  unfold RaftNode.tick
  split
  · rename_i hrole
    exact absurd (h.role.symm.trans hrole) (by simp)
  all_goals
    rw [if_neg (Nat.ne_of_gt ht)]
    exact ⟨_, rfl, h.term_le, h.role, h.log, h.le, h.commit_le, h.committed⟩

/-! ### The leader -/

/-- The leader of the proposals `ps`, to whom node `j` has acknowledged `a j` entries. -/
structure LeaderHolds (n : ℕ) (ps : List Payload) (a : NodeId → ℕ) (st : RaftState) : Prop where
  term : st.currentTerm = 1
  role : st.role = .leader
  log : st.log = logOf ps
  commit_le : st.commitIndex ≤ ps.length
  committed : st.committed = numbered (ps.take st.commitIndex)
  le : ∀ j, a j ≤ ps.length
  nexts : ∀ j ∈ peerIds 0 n, st.nextIndex.lookup j = some (a j + 1)
  acks : ∀ j, st.matchIndex.lookup j = if j ∈ peerIds 0 n then some (a j) else none
  /-- What is not committed is not acknowledged by enough followers. -/
  waits : ∀ m, st.commitIndex < m → m ≤ ps.length → replicatedOn st m < n / 2 + 1

variable {a : NodeId → ℕ}

/-- What the leader sends to its peers. -/
theorem LeaderHolds.broadcast (h : LeaderHolds n ps a st) :
    (node n 0).broadcastAppendEntries st =
      (peerIds 0 n).map fun j => feed ps (a j) st.commitIndex j := by
  refine List.map_congr_left fun j hj => ?_
  have hnext : (st.nextIndex.lookup j).getD 1 - 1 = a j := by rw [h.nexts j hj]; rfl
  have hprevTerm : (if a j > 0 then (st.log[a j - 1]?.map LogEntry.term).getD 0 else 0) =
      if a j > 0 then 1 else 0 := by
    by_cases hpos : a j > 0
    · have hlt : a j - 1 < ps.length := by
        have hle := h.le j
        omega
      rw [if_pos hpos, if_pos hpos, h.log, getElem?_logOf, List.getElem?_eq_getElem hlt]
      rfl
    · rw [if_neg hpos, if_neg hpos]
  unfold buildAppendEntries feed
  dsimp only
  rw [hnext, hprevTerm, h.log, h.term]
  rfl

/-- Only acknowledged entries are counted. -/
theorem LeaderHolds.replicatedOn_of_gt (h : LeaderHolds n ps a st) {m : ℕ} (hm : ps.length < m) :
    replicatedOn st m = 1 := by
  obtain ⟨V, hcard, hV⟩ := exists_replicas st m
  have hempty : V = ∅ := by
    refine Finset.eq_empty_of_forall_notMem fun j hj => ?_
    obtain ⟨x, hx, hle⟩ := hV j hj
    rw [h.acks] at hx
    split at hx
    · rw [← Option.some.inj hx] at hle
      have hbound := h.le j
      omega
    · exact absurd hx (by simp)
  rw [← hcard, hempty, Finset.card_empty]

/-- **A proposal** is accepted, and sent to all peers. -/
theorem LeaderHolds.propose (h : LeaderHolds n ps a st) (hn : 2 ≤ n) (p : Payload) :
    ∃ st', (node n 0).propose st p = (.accepted, st',
        (peerIds 0 n).map fun j => feed (ps ++ [p]) (a j) st'.commitIndex j) ∧
      LeaderHolds n (ps ++ [p]) a st' ∧
      st'.heartbeatTicksRemaining = st.heartbeatTicksRemaining := by
  have hlen : st.log.length = ps.length := by rw [h.log, length_logOf]
  have hgrow : (ps ++ [p]).length = ps.length + 1 := by rw [List.length_append]; rfl
  obtain ⟨st', hst'⟩ : ∃ st', st' =
      { st with log := st.log ++ [(⟨st.currentTerm, st.log.length + 1, p⟩ : LogEntry)] } := ⟨_, rfl⟩
  have hholds : LeaderHolds n (ps ++ [p]) a st' := by
    rw [hst']
    refine ⟨h.term, h.role, ?_, ?_, ?_, fun j => ?_, h.nexts, h.acks, fun m hlt hle => ?_⟩
    · show st.log ++ [(⟨st.currentTerm, st.log.length + 1, p⟩ : LogEntry)] = logOf (ps ++ [p])
      rw [hlen, h.log, h.term, logOf_concat]
    · rw [hgrow]
      exact Nat.le_succ_of_le h.commit_le
    · rw [List.take_append_of_le_length h.commit_le]
      exact h.committed
    · rw [hgrow]
      exact Nat.le_succ_of_le (h.le j)
    · rcases Nat.lt_or_ge ps.length m with hm | hm
      · -- nobody has the new entry
        have hone : replicatedOn st m = 1 := h.replicatedOn_of_gt hm
        show replicatedOn st m < n / 2 + 1
        omega
      · exact h.waits m hlt hm
  refine ⟨st', ?_, hholds, by rw [hst']⟩
  rw [RaftNode.propose, if_neg (not_not.mpr h.role)]
  dsimp only
  rw [← hst', ← hholds.broadcast]

/-- What the leader does not commit: there is nothing to commit, or nothing above the index. -/
theorem nextCommit_lt (self : RaftNode) {s : RaftState} {m : ℕ} (hlt : s.commitIndex < m)
    (hle : m ≤ s.log.length) (hterm : (s.log[m - 1]?.all fun e => e.term = s.currentTerm) = true)
    (hmax : ∀ k, self.nextCommit s = some k → k < m) : replicatedOn s m < self.majority := by
  by_contra hq
  rw [not_lt] at hq
  have hmem : m ∈ List.range' (s.commitIndex + 1) (s.log.length - s.commitIndex) := by
    rw [List.mem_range'_1]
    omega
  have hholds : ((s.log[m - 1]?.all fun e => e.term = s.currentTerm) &&
      decide (self.majority ≤ replicatedOn s m)) = true := by
    rw [hterm, decide_eq_true hq]
    rfl
  cases hnext : self.nextCommit s with
  | none =>
    have hnone := List.find?_eq_none.mp hnext m (List.mem_reverse.mpr hmem)
    exact hnone hholds
  | some k =>
    have hk := hmax k hnext
    -- the indices are tried downwards, so those above the one that was found fail the test
    obtain ⟨_, before, behind, heq, hbefore⟩ := List.find?_eq_some_iff_append.mp hnext
    have hsorted : (List.range' (s.commitIndex + 1) (s.log.length - s.commitIndex)).reverse.Pairwise
        fun x y => y < x := List.pairwise_reverse.mpr List.pairwise_lt_range'
    have hm := List.mem_reverse.mpr hmem
    rw [heq] at hm hsorted
    rcases List.mem_append.mp hm with hm | hm
    · have hfalse := hbefore m hm
      rw [hholds] at hfalse
      exact absurd hfalse (by simp)
    · rcases List.mem_cons.mp hm with rfl | hm
      · exact absurd hk (lt_irrefl m)
      · have hgt := (List.pairwise_cons.mp (List.pairwise_append.mp hsorted).2.1).1 m hm
        omega

/-- The state of a leader that has noted an acknowledgement. -/
theorem LeaderHolds.record (h : LeaderHolds n ps a st) {i : NodeId} {m : ℕ} (hi : i ∈ peerIds 0 n)
    (hm : m ≤ ps.length) {st' : RaftState} (hterm : st'.currentTerm = st.currentTerm)
    (hrole : st'.role = st.role) (hlog : st'.log = st.log)
    (hcommit : st'.commitIndex ≤ ps.length)
    (hcommitted : st'.committed = numbered (ps.take st'.commitIndex))
    (hnexts : st'.nextIndex = st.nextIndex.insert i (m + 1))
    (hacks : st'.matchIndex = st.matchIndex.insert i m)
    (hwaits : ∀ k, st'.commitIndex < k → k ≤ ps.length → replicatedOn st' k < n / 2 + 1) :
    LeaderHolds n ps (Function.update a i m) st' where
  term := hterm.trans h.term
  role := hrole.trans h.role
  log := hlog.trans h.log
  commit_le := hcommit
  committed := hcommitted
  le j := by
    rw [Function.update_apply]
    split
    · exact hm
    · exact h.le j
  nexts j hj := by
    rw [hnexts, HashMap.lookup_insert_ite, Function.update_apply]
    split
    · rfl
    · exact h.nexts j hj
  acks j := by
    rw [hacks, HashMap.lookup_insert_ite, Function.update_apply]
    split
    · rename_i hji
      rw [hji, if_pos hi]
    · exact h.acks j
  waits := hwaits

/-- **An acknowledgement reaches the leader**, which commits what a majority has now. -/
theorem LeaderHolds.hear (h : LeaderHolds n ps a st) {i : NodeId} {m : ℕ} (hi : i ∈ peerIds 0 n)
    (hm : m ≤ ps.length) :
    ∃ st', (node n 0).handleMessage st (report m i) = some (st', []) ∧
      LeaderHolds n ps (Function.update a i m) st' ∧ st.commitIndex ≤ st'.commitIndex ∧
      st'.heartbeatTicksRemaining = st.heartbeatTicksRemaining := by
  have hnew : ¬ 1 > st.currentTerm := by rw [h.term]; exact lt_irrefl 1
  obtain ⟨s, hs⟩ : ∃ s, s = { st with
      matchIndex := st.matchIndex.insert i m
      nextIndex := st.nextIndex.insert i (m + 1) } := ⟨_, rfl⟩
  have hlen : s.log.length = ps.length := by rw [hs, h.log, length_logOf]
  have hcommit : s.commitIndex = st.commitIndex := by rw [hs]
  have hcommitted : s.committed = numbered (ps.take s.commitIndex) := by
    rw [hs]
    exact h.committed
  -- every entry is of the term of the leader
  have hown : ∀ k : ℕ, (s.log[k]?.all fun e => decide (e.term = s.currentTerm)) = true := by
    intro k
    have hterm : s.currentTerm = 1 := by rw [hs]; exact h.term
    have hlog : s.log = logOf ps := by rw [hs]; exact h.log
    rw [hlog, getElem?_logOf, hterm]
    cases ps[k]? with
    | none => rfl
    | some p => rfl
  have hcall : (node n 0).handleMessage st (report m i) =
      (node n 0).handleAppendEntriesResponse st i 1 true m := rfl
  rw [hcall, handleAppendEntriesResponse, if_neg hnew, if_neg (not_not.mpr h.role), if_pos rfl]
  dsimp only
  rw [← hs]
  cases hnext : (node n 0).nextCommit s with
  | none =>
    refine ⟨s, rfl, ?_, hcommit.ge, by rw [hs]⟩
    refine h.record hi hm (by rw [hs]) (by rw [hs]) (by rw [hs]) (hcommit ▸ h.commit_le) hcommitted
      (by rw [hs]) (by rw [hs]) fun k hlt hle => ?_
    exact nextCommit_lt (node n 0) hlt (hle.trans hlen.ge) (hown _) fun k' hk' =>
      absurd (hnext.symm.trans hk') (by simp)
  | some k =>
    obtain ⟨hlt, hle, _⟩ := nextCommit_eq_some hnext
    rw [hlen] at hle
    obtain ⟨s', hs'⟩ : ∃ s', commitUpTo s k = some s' :=
      ⟨_, commitUpTo_eq_some.mpr ⟨hlt.le, hlen ▸ hle, rfl⟩⟩
    have heq := (commitUpTo_eq_some.mp hs').2.2
    have hindex : s'.commitIndex = k := by rw [heq]
    refine ⟨s', by dsimp only; rw [hs']; rfl, ?_, ?_, by rw [heq, hs]⟩
    · refine h.record hi hm (by rw [heq, hs]) (by rw [heq, hs]) (by rw [heq, hs]) (hindex ▸ hle) ?_
        (by rw [heq, hs]) (by rw [heq, hs]) fun k' hlt' hle' => ?_
      · have hlog : s.log = logOf ps := by rw [hs]; exact h.log
        rw [hindex, heq, hcommitted, hlog]
        exact commit_concat ps hlt.le
      · rw [hindex] at hlt'
        have hfew := nextCommit_lt (node n 0) (hlt.trans hlt') (hle'.trans hlen.ge)
          (hown _) fun k'' hk'' => by
            rw [← Option.some.inj (hnext.symm.trans hk'')]
            exact hlt'
        rw [heq]
        exact hfew
    · rw [hindex, ← hcommit]
      exact hlt.le

/-- A heartbeat is due. -/
theorem LeaderHolds.tick (h : LeaderHolds n ps a st) (hbeat : st.heartbeatTicksRemaining = 0) :
    ∃ st', (node n 0).tick st =
        (st', (peerIds 0 n).map fun j => feed ps (a j) st.commitIndex j) ∧
      LeaderHolds n ps a st' ∧ st'.commitIndex = st.commitIndex := by
  have hholds : LeaderHolds n ps a { st with heartbeatTicksRemaining := HEARTBEAT_INTERVAL } :=
    ⟨h.term, h.role, h.log, h.commit_le, h.committed, h.le, h.nexts, h.acks, h.waits⟩
  refine ⟨_, ?_, hholds, rfl⟩
  unfold RaftNode.tick
  split
  · rw [if_pos hbeat]
    exact congrArg (Prod.mk _) hholds.broadcast
  all_goals
    rename_i hrole
    exact absurd (h.role.symm.trans hrole) (by simp)

/-- **What enough followers have acknowledged is committed.** -/
theorem LeaderHolds.committed_all (h : LeaderHolds n ps a st) {I : Finset NodeId} (h0 : 0 ∉ I)
    (hI : n / 2 + 1 ≤ n - I.card)
    (hall : ∀ j < n, j ∉ I → j ≠ 0 → a j = ps.length) : st.commitIndex = ps.length := by
  by_contra hne
  have hlt : st.commitIndex < ps.length := lt_of_le_of_ne h.commit_le hne
  have hfew := h.waits _ hlt le_rfl
  -- the live followers, and the leader itself, are a majority
  let S := (Finset.range n \ I).erase 0
  have hcount : S.card ≤ (st.matchIndex.values.filter fun mi => ps.length ≤ mi).length := by
    refine HashMap.card_le_values st.matchIndex (fun mi => ps.length ≤ mi) S fun j hj => ?_
    obtain ⟨hj0, hmem⟩ := Finset.mem_erase.mp hj
    obtain ⟨hjn, hjI⟩ := Finset.mem_sdiff.mp hmem
    have hjn := Finset.mem_range.mp hjn
    refine ⟨a j, ?_, by simp [hall j hjn hjI hj0]⟩
    rw [h.acks, if_pos (mem_peerIds.mpr ⟨hjn, hj0⟩)]
  have hzero : 0 ∈ Finset.range n \ I := by
    refine Finset.mem_sdiff.mpr ⟨Finset.mem_range.mpr ?_, h0⟩
    omega
  have hcard : S.card + 1 = (Finset.range n \ I).card := Finset.card_erase_add_one hzero
  have hlive : n - I.card ≤ (Finset.range n \ I).card := by
    have hle := Finset.le_card_sdiff I (Finset.range n)
    rwa [Finset.card_range] at hle
  unfold replicatedOn at hfew
  omega

end Raft

end ConsensusBench
