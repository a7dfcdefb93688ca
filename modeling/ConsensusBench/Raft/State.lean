import ConsensusBench.Fault

namespace ConsensusBench

/-!
# Raft: the node

`RaftNode` holds the fields of the source's `RaftNode` that never change; `RaftState` is the
state behind its mutex, together with the atomic copy of the leader's id.

A handler is `none` where the source panics: when a slice of the log is out of order or out
of range, and when the index of an entry is `0` and is decremented.

The generator of the election timeouts comes from a third-party crate.  It is a stream of
arbitrary numbers, so a node has arbitrary timeouts within the range of the source.
-/

namespace Raft

/-- Raft node role. -/
inductive Role where
  | follower
  | candidate
  | leader
  deriving DecidableEq, Repr

/-- A generator: the numbers it will draw. -/
structure StdRng where
  draws : ℕ → ℕ

/-- `gen_range(lo..=hi)`, and the generator after it. -/
def StdRng.genRange (rng : StdRng) (lo hi : ℕ) : ℕ × StdRng :=
  (lo + rng.draws 0 % (hi - lo + 1), ⟨fun k => rng.draws (k + 1)⟩)

def HEARTBEAT_INTERVAL : ℕ := 5

def ELECTION_TIMEOUT_MIN : ℕ := 15

def ELECTION_TIMEOUT_MAX : ℕ := 30

/-- Sentinel value for "no leader". -/
def NO_LEADER : ℕ := 2 ^ 64 - 1

end Raft

open Raft

/-- The mutable part of a Raft node. -/
structure RaftState where
  currentTerm : ℕ
  votedFor : Option NodeId
  log : List LogEntry
  commitIndex : ℕ
  role : Role
  leaderId : Option NodeId
  nextIndex : HashMap NodeId ℕ
  matchIndex : HashMap NodeId ℕ
  votesReceived : ℕ
  electionTicksRemaining : ℕ
  heartbeatTicksRemaining : ℕ
  rng : StdRng
  committed : List CommittedEntry
  leaderIdAtomic : ℕ

instance : CommitQueue RaftState := ⟨RaftState.committed⟩

/-- The immutable part of a Raft node. -/
structure RaftNode where
  id : NodeId
  clusterSize : ℕ
  peerIds : List NodeId

namespace RaftNode

/-- `RaftNode::new_seeded`: the node and its initial state. -/
def newSeeded (id : NodeId) (clusterSize : ℕ) (rng : StdRng) : RaftNode × RaftState :=
  let (electionTimeout, rng) := rng.genRange ELECTION_TIMEOUT_MIN ELECTION_TIMEOUT_MAX
  ({ id := id, clusterSize := clusterSize, peerIds := ConsensusBench.peerIds id clusterSize },
   { currentTerm := 0
     votedFor := none
     log := []
     commitIndex := 0
     role := .follower
     leaderId := none
     nextIndex := ∅
     matchIndex := ∅
     votesReceived := 0
     electionTicksRemaining := electionTimeout
     heartbeatTicksRemaining := 0
     rng := rng
     committed := []
     leaderIdAtomic := NO_LEADER })

variable (self : RaftNode)

def majority : ℕ := self.clusterSize / 2 + 1

def faultTolerance : ℕ := (self.clusterSize - 1) / 2

def msgTo (target : NodeId) (payload : ProtocolMessage) : NetworkMessage :=
  { sender := self.id, target := target, payload := payload }

def resetElectionTimeout (state : RaftState) : RaftState :=
  let (ticks, rng) := state.rng.genRange ELECTION_TIMEOUT_MIN ELECTION_TIMEOUT_MAX
  { state with electionTicksRemaining := ticks, rng := rng }

/-- The term of the last entry, `0` for an empty log. -/
def lastTerm (log : List LogEntry) : ℕ := (log.getLast?.map LogEntry.term).getD 0

/-- Initialise `next_index` and `match_index` for all peers. -/
def initIndices (state : RaftState) : RaftState :=
  { state with
    nextIndex := self.peerIds.foldl (fun m peer => m.insert peer (state.log.length + 1))
      state.nextIndex
    matchIndex := self.peerIds.foldl (fun m peer => m.insert peer 0) state.matchIndex }

/-- `RaftNode::force_leader`. -/
def forceLeader (state : RaftState) : RaftState :=
  self.initIndices { state with
    role := .leader
    currentTerm := 1
    leaderId := some self.id
    leaderIdAtomic := self.id }

/-- Build `AppendEntries` for a specific follower. -/
def buildAppendEntries (state : RaftState) (peer : NodeId) : NetworkMessage :=
  let next := (state.nextIndex.lookup peer).getD 1
  let prevLogIndex := next - 1
  let prevLogTerm := if prevLogIndex > 0 then
      (state.log[prevLogIndex - 1]?.map LogEntry.term).getD 0
    else 0
  self.msgTo peer (.raft (.appendEntries state.currentTerm self.id prevLogIndex prevLogTerm
    (state.log.drop (next - 1)) state.commitIndex))

/-- `AppendEntries` for all peers. -/
def broadcastAppendEntries (state : RaftState) : List NetworkMessage :=
  self.peerIds.map fun peer => self.buildAppendEntries state peer

/-- `log[a..b]`; out of order or out of range it panics. -/
def slice (log : List LogEntry) (a b : ℕ) : Option (List LogEntry) :=
  if a ≤ b ∧ b ≤ log.length then some ((log.take b).drop a) else none

/-- Set the commit index to `n` and queue the entries this commits. -/
def commitUpTo (state : RaftState) (n : ℕ) : Option RaftState :=
  (slice state.log state.commitIndex n).map fun newEntries =>
    { state with
      commitIndex := n
      committed := state.committed ++ newEntries.map fun e => ⟨e.index, e.payload⟩ }

/-! ### Proposing -/

/-- `RaftNode::propose`. -/
def propose (state : RaftState) (payload : Payload) :
    ProposeResult × RaftState × List NetworkMessage :=
  if state.role ≠ .leader then
    (.notLeader state.leaderId, state, [])
  else
    let entry : LogEntry :=
      { term := state.currentTerm, index := state.log.length + 1, payload := payload }
    let state := { state with log := state.log ++ [entry] }
    (.accepted, state, self.broadcastAppendEntries state)

/-! ### Handling messages -/

/-- The `RequestVote` arm of `handle_message`. -/
def handleRequestVote (state : RaftState) (sender : NodeId) (term : ℕ) (candidateId : NodeId)
    (lastLogIndex lastLogTerm : ℕ) : RaftState × List NetworkMessage :=
  let state := if term > state.currentTerm then
      { state with currentTerm := term, role := .follower, votedFor := none, leaderId := none }
    else state
  let voteGranted : Bool :=
    if term < state.currentTerm ∨
        (state.votedFor.isSome ∧ state.votedFor ≠ some candidateId) then
      false
    else if lastLogTerm > lastTerm state.log then true
    else if lastLogTerm = lastTerm state.log then decide (state.log.length ≤ lastLogIndex)
    else false
  let state := if voteGranted then
      resetElectionTimeout { state with votedFor := some candidateId }
    else state
  (state,
   [self.msgTo sender (.raft (.requestVoteResponse state.currentTerm voteGranted))])

/-- The `RequestVoteResponse` arm of `handle_message`. -/
def handleRequestVoteResponse (state : RaftState) (term : ℕ) (voteGranted : Bool) :
    RaftState × List NetworkMessage :=
  if term > state.currentTerm then
    ({ state with currentTerm := term, role := .follower }, [])
  else if voteGranted ∧ state.role = .candidate then
    let state := { state with votesReceived := state.votesReceived + 1 }
    if self.majority ≤ state.votesReceived then
      -- won the election
      let state := self.initIndices { state with
        role := .leader
        leaderId := some self.id
        leaderIdAtomic := self.id }
      (state, self.broadcastAppendEntries state)
    else (state, [])
  else (state, [])

/-- Append one entry of a message: replace a conflicting entry and all that follow it. -/
def appendEntry (log : List LogEntry) (entry : LogEntry) : Option (List LogEntry) :=
  if entry.index = 0 then none
  else
    let idx := entry.index - 1
    match log[idx]? with
    | some existing =>
        if existing.term ≠ entry.term then some (log.take idx ++ [entry]) else some log
    | none => some (log ++ [entry])

/-- The part of the `AppendEntries` arm that follows the check of `prev_log`. -/
def acceptEntries (state : RaftState) (sender : NodeId) (entries : List LogEntry)
    (leaderCommit : ℕ) : Option (RaftState × List NetworkMessage) :=
  (entries.foldlM appendEntry state.log).bind fun log =>
    let state := { state with log := log }
    let matchIdx := log.length
    let committed := if leaderCommit > state.commitIndex then
        commitUpTo state (min leaderCommit log.length)
      else some state
    committed.map fun state =>
      (state,
       [self.msgTo sender (.raft (.appendEntriesResponse state.currentTerm true matchIdx))])

/-- The `AppendEntries` arm of `handle_message`. -/
def handleAppendEntries (state : RaftState) (sender : NodeId) (term : ℕ) (leaderId : NodeId)
    (prevLogIndex prevLogTerm : ℕ) (entries : List LogEntry) (leaderCommit : ℕ) :
    Option (RaftState × List NetworkMessage) :=
  if term < state.currentTerm then
    some (state,
      [self.msgTo sender (.raft (.appendEntriesResponse state.currentTerm false 0))])
  else
    -- a valid leader
    let state := resetElectionTimeout { state with
      currentTerm := term
      role := .follower
      leaderId := some leaderId
      leaderIdAtomic := leaderId }
    if prevLogIndex > 0 then
      match state.log[prevLogIndex - 1]? with
      | none =>
          some (state, [self.msgTo sender
            (.raft (.appendEntriesResponse state.currentTerm false state.log.length))])
      | some entry =>
          if entry.term ≠ prevLogTerm then
            let state := { state with log := state.log.take (prevLogIndex - 1) }
            some (state, [self.msgTo sender
              (.raft (.appendEntriesResponse state.currentTerm false state.log.length))])
          else self.acceptEntries state sender entries leaderCommit
    else self.acceptEntries state sender entries leaderCommit

/-- How many nodes the leader counts as holding its log up to `n`, itself included. -/
def replicatedOn (state : RaftState) (n : ℕ) : ℕ :=
  (state.matchIndex.values.filter fun mi => n ≤ mi).length + 1

/-- The index the leader may commit: the highest one of its own term, above the commit index,
    that a majority holds. -/
def nextCommit (state : RaftState) : Option ℕ :=
  (List.range' (state.commitIndex + 1) (state.log.length - state.commitIndex)).reverse.find?
    fun n => (state.log[n - 1]?.all fun e => e.term = state.currentTerm) &&
      self.majority ≤ replicatedOn state n

/-- The `AppendEntriesResponse` arm of `handle_message`. -/
def handleAppendEntriesResponse (state : RaftState) (sender : NodeId) (term : ℕ)
    (success : Bool) (matchIndex : ℕ) : Option (RaftState × List NetworkMessage) :=
  if term > state.currentTerm then
    some ({ state with currentTerm := term, role := .follower }, [])
  else if state.role ≠ .leader then some (state, [])
  else if success then
    let state := { state with
      matchIndex := state.matchIndex.insert sender matchIndex
      nextIndex := state.nextIndex.insert sender (matchIndex + 1) }
    match self.nextCommit state with
    | none => some (state, [])
    | some n => (commitUpTo state n).map fun state => (state, [])
  else
    -- retry one entry earlier
    let next := (state.nextIndex.lookup sender).getD 1
    let state := if next > 1 then
        { state with nextIndex := state.nextIndex.insert sender (next - 1) }
      else state
    some (state, [self.buildAppendEntries state sender])

/-- `RaftNode::handle_message`. -/
def handleMessage (state : RaftState) (msg : NetworkMessage) :
    Option (RaftState × List NetworkMessage) :=
  match msg.payload with
  | .raft (.requestVote term candidateId lastLogIndex lastLogTerm) =>
      some (self.handleRequestVote state msg.sender term candidateId lastLogIndex lastLogTerm)
  | .raft (.requestVoteResponse term voteGranted) =>
      some (self.handleRequestVoteResponse state term voteGranted)
  | .raft (.appendEntries term leaderId prevLogIndex prevLogTerm entries leaderCommit) =>
      self.handleAppendEntries state msg.sender term leaderId prevLogIndex prevLogTerm entries
        leaderCommit
  | .raft (.appendEntriesResponse term success matchIndex) =>
      self.handleAppendEntriesResponse state msg.sender term success matchIndex
  | _ => some (state, [])

/-! ### Ticking and polling -/

/-- `RaftNode::tick`. -/
def tick (state : RaftState) : RaftState × List NetworkMessage :=
  match state.role with
  | .leader =>
      if state.heartbeatTicksRemaining = 0 then
        let state := { state with heartbeatTicksRemaining := HEARTBEAT_INTERVAL }
        (state, self.broadcastAppendEntries state)
      else
        ({ state with heartbeatTicksRemaining := state.heartbeatTicksRemaining - 1 }, [])
  | .follower | .candidate =>
      if state.electionTicksRemaining = 0 then
        -- start an election, with a vote for itself
        let state := resetElectionTimeout { state with
          currentTerm := state.currentTerm + 1
          role := .candidate
          votedFor := some self.id
          votesReceived := 1
          leaderId := none }
        (state, self.peerIds.map fun peer => self.msgTo peer
          (.raft (.requestVote state.currentTerm self.id state.log.length (lastTerm state.log))))
      else
        ({ state with electionTicksRemaining := state.electionTicksRemaining - 1 }, [])

/-- `RaftNode::poll_committed`: drain the queue of committed entries. -/
def pollCommitted (state : RaftState) : List CommittedEntry × RaftState :=
  (state.committed, { state with committed := [] })

/-- `RaftNode::leader`. -/
def leader (state : RaftState) : Option NodeId :=
  if state.leaderIdAtomic = NO_LEADER then none else some state.leaderIdAtomic

end RaftNode

/-! ### The system -/

namespace Raft

open AsyncNet RaftNode

/-- Node `i` of a cluster of `n`. -/
abbrev node (n : ℕ) (i : NodeId) : RaftNode :=
  { id := i, clusterSize := n, peerIds := peerIds i n }

/-- The orchestrator's calls on a Raft node. -/
def act (n : ℕ) (i : NodeId) (state : RaftState) : Call → RaftState × List NetworkMessage
  | .propose payload => ((node n i).propose state payload).2
  | .tick => (node n i).tick state
  | .pollCommitted => (pollCommitted state |>.2, [])

variable [Sha256]

/-- A cluster of `n` Raft nodes started by `new_seeded` with generators `rngs`, under fault
    configuration `cfg`. -/
def system (n : ℕ) (cfg : FaultConfig) (rngs : NodeId → StdRng) :
    System NodeId RaftState Call NetworkMessage where
  members := Finset.range n
  init i := (RaftNode.newSeeded i n (rngs i)).2
  act := act n
  recv i state msg := (node n i).handleMessage state msg
  dst := NetworkMessage.target
  carry := cfg.tamper
  carry_le_one := cfg.tamper_length_le

/-- The same cluster after `Cluster::new_raft_with_leader`: node `0` was made the leader. -/
def systemWithLeader (n : ℕ) (cfg : FaultConfig) (rngs : NodeId → StdRng) :
    System NodeId RaftState Call NetworkMessage :=
  { system n cfg rngs with
    init := fun i =>
      let state := (RaftNode.newSeeded i n (rngs i)).2
      if i = 0 then (node n i).forceLeader state else state }

end Raft

end ConsensusBench
