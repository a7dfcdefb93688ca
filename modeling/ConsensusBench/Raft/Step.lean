import ConsensusBench.Raft.State

namespace ConsensusBench

/-!
# Raft: what one step can do

`Effect` lists everything a Raft node does in one step, each case with its guards, the new
state and the messages sent; `Raft.effect_of_fires` is the inversion.  A response to a
`RequestVote` or an `AppendEntries` goes to the sender of the message.

* `countVote`, `win` — any granted vote is counted that is not of a later term.
* `record`, `commit` — any success is recorded that is not of a later term.
* `accept` — the index reported back is the length of the log, whatever its tail is.
-/

open AsyncNet RaftNode

namespace Raft

/-! ### The pieces of a step -/

/-- The state after seeing the term of a `RequestVote`. -/
def observe (s : RaftState) (term : ℕ) : RaftState :=
  if term > s.currentTerm then
    { s with currentTerm := term, role := .follower, votedFor := none, leaderId := none }
  else s

/-- The state after seeing the higher term of a response. -/
def stepDown (s : RaftState) (term : ℕ) : RaftState :=
  { s with currentTerm := term, role := .follower }

/-- The state after hearing of the leader of a term. -/
def follow (s : RaftState) (term : ℕ) (leaderId : NodeId) : RaftState :=
  resetElectionTimeout { s with
    currentTerm := term
    role := .follower
    leaderId := some leaderId
    leaderIdAtomic := leaderId }

/-- The state of a node that stands for election. -/
def stand (self : RaftNode) (s : RaftState) : RaftState :=
  resetElectionTimeout { s with
    currentTerm := s.currentTerm + 1
    role := .candidate
    votedFor := some self.id
    votesReceived := 1
    leaderId := none }

/-- The state of a candidate that has won. -/
def lead (self : RaftNode) (s : RaftState) : RaftState :=
  self.initIndices { s with
    votesReceived := s.votesReceived + 1
    role := .leader
    leaderId := some self.id
    leaderIdAtomic := self.id }

/-- The state of a leader that has recorded a success of `peer`. -/
def recordMatch (s : RaftState) (peer : NodeId) (matchIndex : ℕ) : RaftState :=
  { s with
    matchIndex := s.matchIndex.insert peer matchIndex
    nextIndex := s.nextIndex.insert peer (matchIndex + 1) }

/-- The state of a leader that will send `peer` one entry more. -/
def backOff (s : RaftState) (peer : NodeId) : RaftState :=
  if (s.nextIndex.lookup peer).getD 1 > 1 then
    { s with nextIndex := s.nextIndex.insert peer ((s.nextIndex.lookup peer).getD 1 - 1) }
  else s

/-- Whether a log whose last entry has term `lastLogTerm` and index `lastLogIndex` is at
    least as up-to-date as `log`. -/
def UpToDate (log : List LogEntry) (lastLogIndex lastLogTerm : ℕ) : Prop :=
  lastTerm log < lastLogTerm ∨ (lastLogTerm = lastTerm log ∧ log.length ≤ lastLogIndex)

instance (log : List LogEntry) (i t : ℕ) : Decidable (UpToDate log i t) :=
  inferInstanceAs (Decidable (_ ∨ _))

/-- Whether a node grants its vote on a `RequestVote`. -/
def canGrant (s : RaftState) (term : ℕ) (candidateId : NodeId)
    (lastLogIndex lastLogTerm : ℕ) : Prop :=
  s.currentTerm ≤ term ∧
    ((observe s term).votedFor = none ∨ (observe s term).votedFor = some candidateId) ∧
    UpToDate s.log lastLogIndex lastLogTerm

instance (s : RaftState) (t : ℕ) (c : NodeId) (li lt : ℕ) : Decidable (canGrant s t c li lt) :=
  inferInstanceAs (Decidable (_ ∧ _ ∧ _))

/-- Whether the entry before the new ones is the one that the leader has there. -/
def prevMatches (log : List LogEntry) (prevLogIndex prevLogTerm : ℕ) : Prop :=
  prevLogIndex = 0 ∨ ∃ e, log[prevLogIndex - 1]? = some e ∧ e.term = prevLogTerm

section Frame

variable (self : RaftNode) (s : RaftState) (t : ℕ) (c : NodeId)

/-- Observing a term touches the term, the role and the vote only. -/
@[simp] theorem observe_log : (observe s t).log = s.log := by unfold observe; split <;> rfl

@[simp] theorem observe_commitIndex : (observe s t).commitIndex = s.commitIndex := by
  unfold observe; split <;> rfl

@[simp] theorem observe_matchIndex : (observe s t).matchIndex = s.matchIndex := by
  unfold observe; split <;> rfl

@[simp] theorem observe_committed : (observe s t).committed = s.committed := by
  unfold observe; split <;> rfl

/-- The term that a node is in once it has observed another. -/
@[simp] theorem observe_currentTerm : (observe s t).currentTerm = max s.currentTerm t := by
  unfold observe
  split
  · rename_i h
    exact (max_eq_right_of_lt h).symm
  · rename_i h
    exact (max_eq_left (not_lt.mp h)).symm

/-- A node that sees a later term is a follower; otherwise nothing changes. -/
theorem observe_eq_of_role (h : (observe s t).role ≠ .follower) : observe s t = s := by
  unfold observe at *
  split
  · rename_i hlt
    rw [if_pos hlt] at h
    exact absurd rfl h
  · rfl

variable (x : ℕ)

/-- Moving an index back touches nothing else. -/
@[simp] theorem backOff_currentTerm : (backOff s c).currentTerm = s.currentTerm := by
  unfold backOff; split <;> rfl

@[simp] theorem backOff_votedFor : (backOff s c).votedFor = s.votedFor := by
  unfold backOff; split <;> rfl

@[simp] theorem backOff_role : (backOff s c).role = s.role := by unfold backOff; split <;> rfl

@[simp] theorem backOff_log : (backOff s c).log = s.log := by unfold backOff; split <;> rfl

@[simp] theorem backOff_commitIndex : (backOff s c).commitIndex = s.commitIndex := by
  unfold backOff; split <;> rfl

@[simp] theorem backOff_matchIndex : (backOff s c).matchIndex = s.matchIndex := by
  unfold backOff; split <;> rfl

@[simp] theorem backOff_committed : (backOff s c).committed = s.committed := by
  unfold backOff; split <;> rfl

@[simp] theorem backOff_leaderIdAtomic :
    (backOff s c).leaderIdAtomic = s.leaderIdAtomic := by
  unfold backOff; split <;> rfl

@[simp] theorem backOff_votesReceived : (backOff s c).votesReceived = s.votesReceived := by
  unfold backOff; split <;> rfl

end Frame

/-- What committing up to `n` does, if it does not panic. -/
theorem commitUpTo_eq_some {s s' : RaftState} {n : ℕ} : commitUpTo s n = some s' ↔
    s.commitIndex ≤ n ∧ n ≤ s.log.length ∧ s' = { s with
      commitIndex := n
      committed := s.committed ++
        ((s.log.take n).drop s.commitIndex).map fun e => ⟨e.index, e.payload⟩ } := by
  unfold commitUpTo slice
  split
  · rename_i h
    simp only [Option.map_some, Option.some.injEq, h.1, h.2, true_and]
    exact eq_comm
  · rename_i h
    simp only [Option.map_none, reduceCtorEq, false_iff, not_and]
    exact fun h1 h2 => absurd ⟨h1, h2⟩ h

/-! ### The steps -/

/-- The steps of a Raft node in state `s`: what it processes, its new state, what it sends. -/
inductive Effect (self : RaftNode) (s : RaftState) :
    Cause Call NetworkMessage → RaftState → List NetworkMessage → Prop
  | refuse (p : Payload) (hr : s.role ≠ .leader) : Effect self s (.call (.propose p)) s []
  | append (p : Payload) (hr : s.role = .leader) :
      Effect self s (.call (.propose p))
        { s with log := s.log ++ [⟨s.currentTerm, s.log.length + 1, p⟩] }
        (self.broadcastAppendEntries
          { s with log := s.log ++ [⟨s.currentTerm, s.log.length + 1, p⟩] })
  | poll : Effect self s (.call .pollCommitted) { s with committed := [] } []
  | heartbeatDown (hr : s.role = .leader) (h0 : s.heartbeatTicksRemaining ≠ 0) :
      Effect self s (.call .tick)
        { s with heartbeatTicksRemaining := s.heartbeatTicksRemaining - 1 } []
  | electionDown (hr : s.role ≠ .leader) (h0 : s.electionTicksRemaining ≠ 0) :
      Effect self s (.call .tick)
        { s with electionTicksRemaining := s.electionTicksRemaining - 1 } []
  | heartbeat (hr : s.role = .leader) (h0 : s.heartbeatTicksRemaining = 0) :
      Effect self s (.call .tick) { s with heartbeatTicksRemaining := HEARTBEAT_INTERVAL }
        (self.broadcastAppendEntries { s with heartbeatTicksRemaining := HEARTBEAT_INTERVAL })
  | stand (hr : s.role ≠ .leader) (h0 : s.electionTicksRemaining = 0) :
      Effect self s (.call .tick) (stand self s)
        (self.peerIds.map fun peer => self.msgTo peer
          (.raft (.requestVote (s.currentTerm + 1) self.id s.log.length (lastTerm s.log))))
  | deny (m : NetworkMessage) (t : ℕ) (c : NodeId) (li lt : ℕ)
      (hm : m.payload = .raft (.requestVote t c li lt)) (hno : ¬ canGrant s t c li lt) :
      Effect self s (.recv m) (observe s t)
        [self.msgTo m.sender (.raft (.requestVoteResponse (observe s t).currentTerm false))]
  | grant (m : NetworkMessage) (t : ℕ) (c : NodeId) (li lt : ℕ)
      (hm : m.payload = .raft (.requestVote t c li lt)) (hg : canGrant s t c li lt) :
      Effect self s (.recv m) (resetElectionTimeout { observe s t with votedFor := some c })
        [self.msgTo m.sender (.raft (.requestVoteResponse t true))]
  | stepDown (m : NetworkMessage) (t : ℕ)
      (hm : (∃ g, m.payload = .raft (.requestVoteResponse t g)) ∨
        ∃ b mi, m.payload = .raft (.appendEntriesResponse t b mi)) (ht : s.currentTerm < t) :
      Effect self s (.recv m) (stepDown s t) []
  | discard (m : NetworkMessage) (hm : ∀ t c li lt, m.payload ≠ .raft (.requestVote t c li lt)) :
      Effect self s (.recv m) s []
  | countVote (m : NetworkMessage) (t : ℕ) (hm : m.payload = .raft (.requestVoteResponse t true))
      (ht : t ≤ s.currentTerm) (hr : s.role = .candidate)
      (hq : s.votesReceived + 1 < self.majority) :
      Effect self s (.recv m) { s with votesReceived := s.votesReceived + 1 } []
  | win (m : NetworkMessage) (t : ℕ) (hm : m.payload = .raft (.requestVoteResponse t true))
      (ht : t ≤ s.currentTerm) (hr : s.role = .candidate)
      (hq : self.majority ≤ s.votesReceived + 1) :
      Effect self s (.recv m) (lead self s) (self.broadcastAppendEntries (lead self s))
  | reject (m : NetworkMessage) (t : ℕ) (l : NodeId) (pi pt : ℕ) (es : List LogEntry) (lc : ℕ)
      (hm : m.payload = .raft (.appendEntries t l pi pt es lc)) (ht : t < s.currentTerm) :
      Effect self s (.recv m) s
        [self.msgTo m.sender (.raft (.appendEntriesResponse s.currentTerm false 0))]
  | miss (m : NetworkMessage) (t : ℕ) (l : NodeId) (pi pt : ℕ) (es : List LogEntry) (lc : ℕ)
      (hm : m.payload = .raft (.appendEntries t l pi pt es lc)) (ht : s.currentTerm ≤ t)
      (hpi : 0 < pi) (hnone : s.log[pi - 1]? = none) :
      Effect self s (.recv m) (follow s t l)
        [self.msgTo m.sender (.raft (.appendEntriesResponse t false s.log.length))]
  | conflict (m : NetworkMessage) (t : ℕ) (l : NodeId) (pi pt : ℕ) (es : List LogEntry) (lc : ℕ)
      (e : LogEntry) (hm : m.payload = .raft (.appendEntries t l pi pt es lc))
      (ht : s.currentTerm ≤ t) (hpi : 0 < pi) (he : s.log[pi - 1]? = some e)
      (hne : e.term ≠ pt) :
      Effect self s (.recv m) { follow s t l with log := s.log.take (pi - 1) }
        [self.msgTo m.sender
          (.raft (.appendEntriesResponse t false (s.log.take (pi - 1)).length))]
  | accept (m : NetworkMessage) (t : ℕ) (l : NodeId) (pi pt : ℕ) (es : List LogEntry) (lc : ℕ)
      (log : List LogEntry) (s' : RaftState)
      (hm : m.payload = .raft (.appendEntries t l pi pt es lc)) (ht : s.currentTerm ≤ t)
      (hprev : prevMatches s.log pi pt) (hlog : es.foldlM appendEntry s.log = some log)
      (hs : (if lc > s.commitIndex then
          commitUpTo { follow s t l with log := log } (min lc log.length)
        else some { follow s t l with log := log }) = some s') :
      Effect self s (.recv m) s'
        [self.msgTo m.sender (.raft (.appendEntriesResponse t true log.length))]
  | record (m : NetworkMessage) (t mi : ℕ)
      (hm : m.payload = .raft (.appendEntriesResponse t true mi)) (ht : t ≤ s.currentTerm)
      (hr : s.role = .leader) (hk : self.nextCommit (recordMatch s m.sender mi) = none) :
      Effect self s (.recv m) (recordMatch s m.sender mi) []
  | commit (m : NetworkMessage) (t mi k : ℕ) (s' : RaftState)
      (hm : m.payload = .raft (.appendEntriesResponse t true mi)) (ht : t ≤ s.currentTerm)
      (hr : s.role = .leader) (hk : self.nextCommit (recordMatch s m.sender mi) = some k)
      (hs : commitUpTo (recordMatch s m.sender mi) k = some s') : Effect self s (.recv m) s' []
  | retry (m : NetworkMessage) (t mi : ℕ)
      (hm : m.payload = .raft (.appendEntriesResponse t false mi)) (ht : t ≤ s.currentTerm)
      (hr : s.role = .leader) :
      Effect self s (.recv m) (backOff s m.sender)
        [self.buildAppendEntries (backOff s m.sender) m.sender]

variable (self : RaftNode) (s : RaftState)

/-- A proposal is turned down, or the leader appends it and sends it on. -/
theorem propose_effect (p : Payload) :
    Effect self s (.call (.propose p)) (self.propose s p).2.1 (self.propose s p).2.2 := by
  unfold propose
  split
  · rename_i hr
    exact .refuse p hr
  · rename_i hr
    exact .append p (not_not.mp hr)

/-- A tick counts a timeout down, or runs it out with a heartbeat or an election. -/
theorem tick_effect : Effect self s (.call .tick) (self.tick s).1 (self.tick s).2 := by
  have hother : s.role ≠ .leader → Effect self s (.call .tick)
      (if s.electionTicksRemaining = 0 then (stand self s, self.peerIds.map fun peer =>
          self.msgTo peer (.raft (.requestVote (s.currentTerm + 1) self.id s.log.length
            (lastTerm s.log))))
        else ({ s with electionTicksRemaining := s.electionTicksRemaining - 1 }, [])).1
      (if s.electionTicksRemaining = 0 then (stand self s, self.peerIds.map fun peer =>
          self.msgTo peer (.raft (.requestVote (s.currentTerm + 1) self.id s.log.length
            (lastTerm s.log))))
        else ({ s with electionTicksRemaining := s.electionTicksRemaining - 1 }, [])).2 := by
    intro hr
    split
    · rename_i h0
      exact .stand hr h0
    · rename_i h0
      exact .electionDown hr h0
  unfold tick
  split
  · rename_i hr
    split
    · rename_i h0
      exact .heartbeat hr h0
    · rename_i h0
      exact .heartbeatDown hr h0
  · rename_i hr
    exact hother (by rw [hr]; decide)
  · rename_i hr
    exact hother (by rw [hr]; decide)

variable {m : NetworkMessage}

/-- The decision of the `RequestVote` arm, in a state that has seen the term. -/
def voteGranted (s : RaftState) (t : ℕ) (c : NodeId) (li lt : ℕ) : Bool :=
  if t < s.currentTerm ∨ (s.votedFor.isSome ∧ s.votedFor ≠ some c) then false
  else if lt > lastTerm s.log then true
  else if lt = lastTerm s.log then decide (s.log.length ≤ li)
  else false

/-- The check for a vote is `canGrant`, once the term of the request has been observed. -/
theorem voteGranted_iff (t : ℕ) (c : NodeId) (li lt : ℕ) :
    voteGranted (observe s t) t c li lt = true ↔ canGrant s t c li lt := by
  have hvoted : ((observe s t).votedFor = none ∨ (observe s t).votedFor = some c) ↔
      ¬ ((observe s t).votedFor.isSome ∧ (observe s t).votedFor ≠ some c) := by
    cases (observe s t).votedFor with
    | none => simp
    | some v => simp
  have hterm : t < (observe s t).currentTerm ↔ ¬ s.currentTerm ≤ t := by
    rw [observe_currentTerm]
    omega
  unfold voteGranted canGrant UpToDate
  simp only [hvoted, hterm, observe_log]
  by_cases ht : s.currentTerm ≤ t
  · by_cases hv : (observe s t).votedFor.isSome ∧ (observe s t).votedFor ≠ some c
    · simp [hv]
    · simp only [hv, ht, not_true_eq_false, or_self, if_false, not_false_eq_true, true_and]
      split
      · rename_i hlt
        simp [hlt]
      · rename_i hlt
        split
        · rename_i heq
          simp [heq]
        · rename_i heq
          simp [heq, hlt]
  · simp [ht]

/-- A request for a vote is granted or denied. -/
theorem handleRequestVote_effect {t : ℕ} {c : NodeId} {li lt : ℕ}
    (hm : m.payload = .raft (.requestVote t c li lt)) :
    Effect self s (.recv m) (self.handleRequestVote s m.sender t c li lt).1
      (self.handleRequestVote s m.sender t c li lt).2 := by
  let after : RaftState := if voteGranted (observe s t) t c li lt then
      resetElectionTimeout { observe s t with votedFor := some c } else observe s t
  have hform : self.handleRequestVote s m.sender t c li lt = (after, [self.msgTo m.sender
      (.raft (.requestVoteResponse after.currentTerm
        (voteGranted (observe s t) t c li lt)))]) := rfl
  rw [hform]
  by_cases hg : canGrant s t c li lt
  · have hyes : voteGranted (observe s t) t c li lt = true :=
      (voteGranted_iff s t c li lt).mpr hg
    have hafter : after = resetElectionTimeout { observe s t with votedFor := some c } :=
      if_pos hyes
    have hterm : after.currentTerm = t := by
      rw [hafter]
      show (observe s t).currentTerm = t
      rw [observe_currentTerm]
      exact max_eq_right hg.1
    rw [hyes, hterm, hafter]
    exact .grant m t c li lt hm hg
  · have hno : voteGranted (observe s t) t c li lt = false :=
      Bool.eq_false_iff.mpr fun h => hg ((voteGranted_iff s t c li lt).mp h)
    have hafter : after = observe s t := if_neg (by rw [hno]; decide)
    rw [hno, hafter]
    exact .deny m t c li lt hm hg

/-- A vote makes a node step down, or counts for a candidate, and may win the election. -/
theorem handleRequestVoteResponse_effect {t : ℕ} {g : Bool}
    (hm : m.payload = .raft (.requestVoteResponse t g)) :
    Effect self s (.recv m) (self.handleRequestVoteResponse s t g).1
      (self.handleRequestVoteResponse s t g).2 := by
  unfold handleRequestVoteResponse
  split
  · rename_i ht
    exact .stepDown m t (.inl ⟨g, hm⟩) ht
  · rename_i ht
    rw [not_lt] at ht
    split
    · rename_i hr
      obtain ⟨rfl, hr⟩ := hr
      dsimp only
      split
      · rename_i hq
        exact .win m t hm ht hr hq
      · rename_i hq
        exact .countVote m t hm ht hr (not_le.mp hq)
    · exact .discard m (by simp [hm])

/-- Entries that fit the log are accepted. -/
theorem acceptEntries_effect {t : ℕ} {l : NodeId} {pi pt : ℕ} {es : List LogEntry} {lc : ℕ}
    {r : RaftState × List NetworkMessage}
    (hm : m.payload = .raft (.appendEntries t l pi pt es lc)) (ht : s.currentTerm ≤ t)
    (hprev : prevMatches s.log pi pt)
    (h : self.acceptEntries (follow s t l) m.sender es lc = some r) :
    Effect self s (.recv m) r.1 r.2 := by
  unfold acceptEntries at h
  rw [Option.bind_eq_some_iff] at h
  obtain ⟨log, hlog, h⟩ := h
  rw [Option.map_eq_some_iff] at h
  obtain ⟨s', hs, rfl⟩ := h
  have hterm : s'.currentTerm = t := by
    split at hs
    · obtain ⟨_, _, rfl⟩ := commitUpTo_eq_some.mp hs
      rfl
    · cases hs
      rfl
  rw [hterm]
  exact .accept m t l pi pt es lc log s' hm ht hprev hlog hs

/-- Entries are rejected as outdated, missed or in conflict, or they are accepted. -/
theorem handleAppendEntries_effect {t : ℕ} {l : NodeId} {pi pt : ℕ} {es : List LogEntry}
    {lc : ℕ} {r : RaftState × List NetworkMessage}
    (hm : m.payload = .raft (.appendEntries t l pi pt es lc))
    (h : self.handleAppendEntries s m.sender t l pi pt es lc = some r) :
    Effect self s (.recv m) r.1 r.2 := by
  unfold handleAppendEntries at h
  split at h
  · rename_i ht
    cases h
    exact .reject m t l pi pt es lc hm ht
  · rename_i ht
    rw [not_lt] at ht
    dsimp only at h
    split at h
    · rename_i hpi
      split at h
      · rename_i hnone
        cases h
        exact .miss m t l pi pt es lc hm ht hpi hnone
      · rename_i e he
        split at h
        · rename_i hne
          cases h
          exact .conflict m t l pi pt es lc e hm ht hpi he hne
        · rename_i heq
          rw [not_not] at heq
          exact acceptEntries_effect self s hm ht (.inr ⟨e, he, heq⟩) h
    · rename_i hpi
      exact acceptEntries_effect self s hm ht (.inl (Nat.eq_zero_of_not_pos hpi)) h

/-- An answer to entries makes a node step down, is recorded, lets the leader commit, or makes it
    retry. -/
theorem handleAppendEntriesResponse_effect {t : ℕ} {b : Bool} {mi : ℕ}
    {r : RaftState × List NetworkMessage}
    (hm : m.payload = .raft (.appendEntriesResponse t b mi))
    (h : self.handleAppendEntriesResponse s m.sender t b mi = some r) :
    Effect self s (.recv m) r.1 r.2 := by
  unfold handleAppendEntriesResponse at h
  split at h
  · rename_i ht
    cases h
    exact .stepDown m t (.inr ⟨b, mi, hm⟩) ht
  · rename_i ht
    rw [not_lt] at ht
    split at h
    · cases h
      exact .discard m (by simp [hm])
    · rename_i hr
      rw [not_not] at hr
      cases b with
      | true =>
        simp only [if_true] at h
        split at h
        · rename_i hk
          cases h
          exact .record m t mi hm ht hr hk
        · rename_i k hk
          rw [Option.map_eq_some_iff] at h
          obtain ⟨s', hs, rfl⟩ := h
          exact .commit m t mi k s' hm ht hr hk hs
      | false =>
        simp only [Bool.false_eq_true, if_false] at h
        cases h
        exact .retry m t mi hm ht hr

/-- **Handling a message** has one of the effects, if it does not fail. -/
theorem handleMessage_effect {r : RaftState × List NetworkMessage}
    (h : self.handleMessage s m = some r) : Effect self s (.recv m) r.1 r.2 := by
  unfold handleMessage at h
  split at h
  · rename_i hm
    cases h
    exact handleRequestVote_effect self s hm
  · rename_i hm
    cases h
    exact handleRequestVoteResponse_effect self s hm
  · rename_i hm
    exact handleAppendEntries_effect self s hm h
  · rename_i hm
    exact handleAppendEntriesResponse_effect self s hm h
  · rename_i hm _ _ _
    cases h
    exact .discard m hm

variable [Sha256] {n : ℕ} {cfg : FaultConfig} {rngs : NodeId → StdRng}

/-- **Inversion.**  Every step of the system is one of the listed effects. -/
theorem effect_of_fires {w : World NodeId RaftState Call NetworkMessage} {o : NodeStep RaftState}
    (h : (system n cfg rngs).Fires w o) :
    Effect (node n o.node) o.before o.cause o.after o.sent := by
  cases h with
  | call i a hi =>
    cases a with
    | propose p => exact propose_effect _ _ p
    | tick => exact tick_effect _ _
    | pollCommitted => exact .poll
  | recv m m' s out hm hsent hcarry hmem hrecv =>
    exact handleMessage_effect (node n m'.target) (w.nodes m'.target) hrecv

omit [Sha256] in
/-- Only polling takes anything out of the queue of a Raft node. -/
theorem Effect.queue_grows {self : RaftNode} {s s' : RaftState}
    {c : Cause Call NetworkMessage} {out : List NetworkMessage} (h : Effect self s c s' out)
    (hc : c ≠ .call .pollCommitted) : ∃ es, s'.committed = s.committed ++ es := by
  have hsame : s'.committed = s.committed → ∃ es, s'.committed = s.committed ++ es :=
    fun h => ⟨[], by rw [h, List.append_nil]⟩
  have hcommit : ∀ {t : RaftState} {k : ℕ}, commitUpTo t k = some s' →
      t.committed = s.committed → ∃ es, s'.committed = s.committed ++ es := by
    intro t k hs ht
    obtain ⟨_, _, rfl⟩ := commitUpTo_eq_some.mp hs
    exact ⟨_, congrArg (· ++ _) ht⟩
  cases h with
  | poll => exact absurd rfl hc
  | deny m t => exact hsame (observe_committed s t)
  | grant m t => exact hsame (observe_committed s t)
  | accept m t l pi pt es lc log s' hm ht hprev hlog hs =>
    split at hs
    · exact hcommit hs rfl
    · cases hs
      exact hsame rfl
  | commit m t mi k s' hm ht hr hk hs => exact hcommit hs rfl
  | retry => exact hsame (backOff_committed s _)
  | _ => exact hsame rfl

/-! ### Messages a node sends -/

/-- What a node may say to node `j` in a step from `s` to `s'` caused by `c`. -/
inductive Says (self : RaftNode) (s s' : RaftState) (c : Cause Call NetworkMessage)
    (j : NodeId) : RaftMessage → Prop
  | requestVote (hc : c = .call .tick) (hr : s.role ≠ .leader)
      (h0 : s.electionTicksRemaining = 0) (hj : j ≠ self.id) : Says self s s' c j
        (.requestVote (s.currentTerm + 1) self.id s.log.length (lastTerm s.log))
  | grant (m : NetworkMessage) (t : ℕ) (cd : NodeId) (li lt : ℕ) (hc : c = .recv m)
      (hm : m.payload = .raft (.requestVote t cd li lt)) (hg : canGrant s t cd li lt)
      (hj : j = m.sender) : Says self s s' c j (.requestVoteResponse t true)
  | deny (t : ℕ) : Says self s s' c j (.requestVoteResponse t false)
  | appendEntries (x : RaftMessage) (hr : s'.role = .leader)
      (hx : self.buildAppendEntries s' j = ⟨self.id, j, .raft x⟩) : Says self s s' c j x
  | accepted (m : NetworkMessage) (t : ℕ) (l : NodeId) (pi pt : ℕ) (es : List LogEntry)
      (lc : ℕ) (log : List LogEntry) (hc : c = .recv m)
      (hm : m.payload = .raft (.appendEntries t l pi pt es lc)) (ht : s.currentTerm ≤ t)
      (hprev : prevMatches s.log pi pt) (hlog : es.foldlM appendEntry s.log = some log)
      (hj : j = m.sender) : Says self s s' c j (.appendEntriesResponse t true log.length)
  | refused (t mi : ℕ) : Says self s s' c j (.appendEntriesResponse t false mi)

omit [Sha256] in
/-- A broadcast of entries has a message for every other node. -/
theorem mem_broadcastAppendEntries {i : NodeId} {s : RaftState} {m : NetworkMessage} :
    m ∈ (node n i).broadcastAppendEntries s ↔
      ∃ j, j < n ∧ j ≠ i ∧ m = (node n i).buildAppendEntries s j :=
  mem_map_peerIds

omit [Sha256] in
/-- **What a node sends**: something it may say to the addressee, signed. -/
theorem Effect.sent_said {i : NodeId} {s s' : RaftState} {c : Cause Call NetworkMessage}
    {out : List NetworkMessage} (h : Effect (node n i) s c s' out) {m : NetworkMessage}
    (hm : m ∈ out) : ∃ j x, m = ⟨i, j, .raft x⟩ ∧ Says (node n i) s s' c j x := by
  have hbroadcast : s'.role = .leader → m ∈ (node n i).broadcastAppendEntries s' →
      ∃ j x, m = ⟨i, j, .raft x⟩ ∧ Says (node n i) s s' c j x := by
    intro hr hmem
    obtain ⟨j, _, _, rfl⟩ := mem_broadcastAppendEntries.mp hmem
    exact ⟨j, _, rfl, .appendEntries _ hr rfl⟩
  cases h with
  | append p hr => exact hbroadcast hr hm
  | heartbeat hr => exact hbroadcast hr hm
  | win => exact hbroadcast rfl hm
  | stand hr h0 =>
    obtain ⟨j, hj, rfl⟩ := List.mem_map.mp hm
    exact ⟨j, _, rfl, .requestVote rfl hr h0 (mem_peerIds.mp hj).2⟩
  | deny m' t c li lt hm' hno =>
    rw [List.mem_singleton] at hm
    exact ⟨_, _, hm, .deny _⟩
  | grant m' t c li lt hm' hg =>
    rw [List.mem_singleton] at hm
    exact ⟨_, _, hm, .grant m' t c li lt rfl hm' hg rfl⟩
  | reject m' t l pi pt es lc hm' ht =>
    rw [List.mem_singleton] at hm
    exact ⟨_, _, hm, .refused _ _⟩
  | miss m' t l pi pt es lc hm' ht =>
    rw [List.mem_singleton] at hm
    exact ⟨_, _, hm, .refused _ _⟩
  | conflict m' t l pi pt es lc e hm' ht =>
    rw [List.mem_singleton] at hm
    exact ⟨_, _, hm, .refused _ _⟩
  | accept m' t l pi pt es lc log s' hm' ht hprev hlog hs =>
    rw [List.mem_singleton] at hm
    exact ⟨_, _, hm, .accepted m' t l pi pt es lc log rfl hm' ht hprev hlog rfl⟩
  | retry m' t mi hm' ht hr =>
    rw [List.mem_singleton] at hm
    exact ⟨_, _, hm, .appendEntries _ ((backOff_role s _).trans hr) rfl⟩
  | _ => exact absurd hm (by simp)

/-- Where a received message comes from: a step of its sender sent it. -/
theorem recv_source {ok : System.Guard NodeId RaftState Call NetworkMessage}
    {w : World NodeId RaftState Call NetworkMessage} (hw : (system n {} rngs).Reach ok w)
    {o : NodeStep RaftState} (hf : (system n {} rngs).Fires w o) {m : NetworkMessage}
    (hc : o.cause = .recv m) : m.target = o.node ∧ ∃ o₀ ∈ w.history, m ∈ o₀.sent ∧
      m.sender = o₀.node ∧ o₀.node < n ∧ ∃ x, m.payload = .raft x ∧
        Says (node n o₀.node) o₀.before o₀.after o₀.cause m.target x := by
  obtain ⟨hdst, o₀, ho₀, m₀, hmo, hcarry⟩ := hf.recv_inv hc
  obtain rfl : m₀ = m :=
    List.singleton_inj.mp ((FaultConfig.tamper_none m₀).symm.trans hcarry)
  obtain ⟨w₀, _, _, hf₀, _⟩ := hw.fired o₀ ho₀
  obtain ⟨j, x, rfl, hsaid⟩ := (effect_of_fires hf₀).sent_said hmo
  exact ⟨hdst, o₀, ho₀, hmo, rfl, Finset.mem_range.mp hf₀.node_mem, x, rfl, hsaid⟩

/-- The steps of a run are effects, whatever state the nodes were started in. -/
theorem said_of_reach {S : System NodeId RaftState Call NetworkMessage}
    (hS : ∀ w o, S.Fires w o → (system n cfg rngs).Fires w o)
    {ok : System.Guard NodeId RaftState Call NetworkMessage}
    {w : World NodeId RaftState Call NetworkMessage} (hw : S.Reach ok w) : ∀ o ∈ w.history,
    Effect (node n o.node) o.before o.cause o.after o.sent := by
  intro o ho
  obtain ⟨w₀, _, _, hf, _⟩ := hw.fired o ho
  exact effect_of_fires (hS w₀ o hf)

/-- Where a received message comes from under tampering: a step of its sender sent it, up to
    the payloads of its entries. -/
theorem tampered_source {w : World NodeId RaftState Call NetworkMessage} {o : NodeStep RaftState}
    (hf : (system n cfg rngs).Fires w o) (hsaid : ∀ o₀ ∈ w.history,
      Effect (node n o₀.node) o₀.before o₀.cause o₀.after o₀.sent)
    {m : NetworkMessage} (hc : o.cause = .recv m) : m.target = o.node ∧ ∃ o₀ ∈ w.history,
      m.sender = o₀.node ∧ ∃ x, ⟨o₀.node, m.target, .raft x⟩ ∈ o₀.sent ∧
        FaultConfig.skeleton m.payload = FaultConfig.skeleton (.raft x) ∧
        Says (node n o₀.node) o₀.before o₀.after o₀.cause m.target x := by
  obtain ⟨hdst, o₀, ho₀, m₀, hmo, hcarry⟩ := hf.recv_inv hc
  have hmem : m ∈ cfg.tamper m₀ := by
    rw [show cfg.tamper m₀ = [m] from hcarry]
    exact List.mem_singleton_self m
  obtain ⟨hsender, htarget, hskel⟩ := cfg.frame_of_mem hmem
  obtain ⟨j, x, rfl, hsays⟩ := (hsaid o₀ ho₀).sent_said hmo
  refine ⟨hdst, o₀, ho₀, hsender, x, ?_, hskel, ?_⟩
  · rw [htarget]
    exact hmo
  · rw [htarget]
    exact hsays

/-- A received `RequestVote` names its sender as the candidate, and a term after the first. -/
theorem candidate_eq_sender {w : World NodeId RaftState Call NetworkMessage}
    {o : NodeStep RaftState} (hf : (system n cfg rngs).Fires w o) (hsaid : ∀ o₀ ∈ w.history,
      Effect (node n o₀.node) o₀.before o₀.cause o₀.after o₀.sent)
    {m : NetworkMessage} (hc : o.cause = .recv m) {t : ℕ} {c : NodeId} {li lt : ℕ}
    (hm : m.payload = .raft (.requestVote t c li lt)) : c = m.sender ∧ 0 < t := by
  obtain ⟨_, o₀, _, hsender, x, _, hskel, hsays⟩ := tampered_source hf hsaid hc
  rw [hm] at hskel
  cases hsays with
  | requestVote =>
    cases hskel
    exact ⟨hsender.symm, Nat.succ_pos _⟩
  | appendEntries x hr hx =>
    have hpl : ((node n o₀.node).buildAppendEntries o₀.after m.target).payload = .raft x :=
      congrArg NetworkMessage.payload hx
    rw [← hpl] at hskel
    exact absurd hskel (by simp [buildAppendEntries, msgTo, FaultConfig.skeleton])
  | _ => exact absurd hskel (by simp [FaultConfig.skeleton])

end Raft

end ConsensusBench
