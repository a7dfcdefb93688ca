import ConsensusBench.Types

namespace ConsensusBench

/-!
# The messages of the three protocols

One envelope for all protocols, as in the source: the network routes `NetworkMessage`
values without looking inside.
-/

/-! ### PBFT -/

inductive PbftMessage where
  | prePrepare (view : ViewNumber) (sequence : SequenceNumber) (digest : Digest)
      (payload : Payload)
  | prepare (view : ViewNumber) (sequence : SequenceNumber) (digest : Digest)
      (replica : NodeId)
  | commit (view : ViewNumber) (sequence : SequenceNumber) (digest : Digest)
      (replica : NodeId)
  | viewChange (newView : ViewNumber) (replica : NodeId) (lastCommittedSeq : SequenceNumber)
  | newView (view : ViewNumber) (nextSequence : SequenceNumber)
  deriving DecidableEq, Repr

/-! ### Raft -/

/-- One entry of a Raft log. -/
structure LogEntry where
  term : ℕ
  index : ℕ
  payload : Payload
  deriving DecidableEq, Repr

inductive RaftMessage where
  | requestVote (term : ℕ) (candidateId : NodeId) (lastLogIndex : ℕ) (lastLogTerm : ℕ)
  | requestVoteResponse (term : ℕ) (voteGranted : Bool)
  | appendEntries (term : ℕ) (leaderId : NodeId) (prevLogIndex : ℕ) (prevLogTerm : ℕ)
      (entries : List LogEntry) (leaderCommit : ℕ)
  | appendEntriesResponse (term : ℕ) (success : Bool) (matchIndex : ℕ)
  deriving DecidableEq, Repr

/-! ### HotStuff -/

inductive HotStuffPhaseTag where
  | prepare
  | preCommit
  | commit
  deriving DecidableEq, Repr

inductive HotStuffMessage where
  | propose (view : ViewNumber) (sequence : SequenceNumber) (digest : Digest)
      (payload : Payload) (justifyView : ViewNumber) (justifyPhase : HotStuffPhaseTag)
  | vote (view : ViewNumber) (sequence : SequenceNumber) (digest : Digest)
      (phase : HotStuffPhaseTag) (voter : NodeId)
  | quorumCertificate (view : ViewNumber) (sequence : SequenceNumber) (digest : Digest)
      (phase : HotStuffPhaseTag) (voteCount : ℕ)
  | newView (newView : ViewNumber) (highestQcView : ViewNumber)
      (highestQcPhase : HotStuffPhaseTag) (replica : NodeId)
  deriving DecidableEq, Repr

/-! ### The envelope -/

inductive ProtocolMessage where
  | pbft (m : PbftMessage)
  | raft (m : RaftMessage)
  | hotStuff (m : HotStuffMessage)
  deriving DecidableEq, Repr

/-- Envelope for all protocol messages sent between nodes.  `sender` and `target` are the
    fields `from` and `to`, which are keywords here. -/
@[ext]
structure NetworkMessage where
  sender : NodeId
  target : NodeId
  payload : ProtocolMessage
  deriving DecidableEq, Repr

end ConsensusBench
