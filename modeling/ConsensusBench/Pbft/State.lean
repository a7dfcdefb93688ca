import ConsensusBench.Fault

namespace ConsensusBench

/-!
# PBFT: the node

`PbftNode` holds the fields of the source's `PbftNode` that never change; `PbftState` is the
state behind its mutex, together with the atomic copy of the view.  Every method takes the
state and returns the new one.  `handle_message` is split along its `match`: one function per
message.
-/

namespace Pbft

/-! ### Slots and state -/

/-- PBFT phase for a given sequence number. -/
inductive Phase where
  | idle
  | prePrepared
  | prepared
  | committed
  deriving DecidableEq, Repr

/-- The state of a single consensus slot. -/
structure SlotState where
  view : ViewNumber
  sequence : SequenceNumber
  phase : Phase
  prepareVoters : Finset NodeId
  commitVoters : Finset NodeId
  deriving DecidableEq

/-- `SlotState::new`. -/
def SlotState.new (view : ViewNumber) (sequence : SequenceNumber) : SlotState where
  view := view
  sequence := sequence
  phase := .idle
  prepareVoters := ∅
  commitVoters := ∅

def VIEW_CHANGE_TIMEOUT : ℕ := 40

end Pbft

open Pbft

/-- The mutable part of a PBFT node. -/
structure PbftState where
  view : ViewNumber
  nextSequence : SequenceNumber
  slots : HashMap SequenceNumber Pbft.SlotState
  pendingPayloads : HashMap SequenceNumber Payload
  committed : List CommittedEntry
  viewChangeTimeout : ℕ
  viewChangeInProgress : Bool
  viewChangeVotes : HashMap ViewNumber (Finset NodeId)
  highestCommittedSeq : SequenceNumber
  primaryActive : Bool
  currentView : ViewNumber

instance : CommitQueue PbftState := ⟨PbftState.committed⟩

/-- The immutable part of a PBFT node. -/
structure PbftNode where
  id : NodeId
  clusterSize : ℕ
  peerIds : List NodeId

namespace PbftNode

/-- `PbftNode::new`: the node and its initial state. -/
def new (id : NodeId) (clusterSize : ℕ) : PbftNode × PbftState :=
  ({ id := id, clusterSize := clusterSize, peerIds := ConsensusBench.peerIds id clusterSize },
   { view := 0
     nextSequence := 1
     slots := ∅
     pendingPayloads := ∅
     committed := []
     viewChangeTimeout := VIEW_CHANGE_TIMEOUT
     viewChangeInProgress := false
     viewChangeVotes := ∅
     highestCommittedSeq := 0
     primaryActive := false
     currentView := 0 })

variable (self : PbftNode)

def primaryForView (view : ViewNumber) : NodeId := view % self.clusterSize

def quorum : ℕ := 2 * ((self.clusterSize - 1) / 3) + 1

def prepareThreshold : ℕ := 2 * ((self.clusterSize - 1) / 3)

def faultTolerance : ℕ := (self.clusterSize - 1) / 3

def msgTo (target : NodeId) (payload : ProtocolMessage) : NetworkMessage :=
  { sender := self.id, target := target, payload := payload }

def broadcastPbft (m : PbftMessage) : List NetworkMessage :=
  self.peerIds.map fun peer => self.msgTo peer (.pbft m)

/-- Committed slots are kept, pending consensus slots are cleared. -/
def enterNewView (state : PbftState) (newView : ViewNumber) : PbftState :=
  { state with
    view := newView
    viewChangeInProgress := false
    viewChangeTimeout := VIEW_CHANGE_TIMEOUT
    primaryActive := false
    slots := state.slots.retain fun _ slot => slot.phase = .committed
    pendingPayloads := ∅ }

/-! ### Proposing -/

variable [Sha256]

/-- `PbftNode::propose`. -/
def propose (state : PbftState) (payload : Payload) :
    ProposeResult × PbftState × List NetworkMessage :=
  let primary := self.primaryForView state.view
  if primary ≠ self.id then
    (.notLeader (some primary), state, [])
  else if state.viewChangeInProgress then
    (.notLeader none, state, [])
  else
    let seq := state.nextSequence
    let view := state.view
    let digest := payload.digest
    let slot := { SlotState.new view seq with phase := .prePrepared }
    (.accepted,
     { state with
       nextSequence := seq + 1
       slots := state.slots.insert seq slot
       pendingPayloads := state.pendingPayloads.insert seq payload },
     self.broadcastPbft (.prePrepare view seq digest payload) ++
       self.broadcastPbft (.prepare view seq digest self.id))

/-! ### Handling messages -/

omit [Sha256]

/-- The `PrePrepare` arm of `handle_message`. -/
def handlePrePrepare (state : PbftState) (view : ViewNumber) (sequence : SequenceNumber)
    (digest : Digest) (payload : Payload) : PbftState × List NetworkMessage :=
  if view ≠ state.view ∨ state.viewChangeInProgress then (state, [])
  else
    let slot := { SlotState.new view sequence with phase := .prePrepared }
    ({ state with
       primaryActive := true
       viewChangeTimeout := VIEW_CHANGE_TIMEOUT
       slots := state.slots.insert sequence slot
       pendingPayloads := state.pendingPayloads.insert sequence payload },
     self.broadcastPbft (.prepare view sequence digest self.id))

/-- The `Prepare` arm of `handle_message`. -/
def handlePrepare (state : PbftState) (view : ViewNumber) (sequence : SequenceNumber)
    (digest : Digest) (replica : NodeId) : PbftState × List NetworkMessage :=
  if view ≠ state.view then (state, [])
  else match state.slots.lookup sequence with
    | none => (state, [])
    | some slot =>
      if slot.phase = .prePrepared then
        let slot := { slot with prepareVoters := insert replica slot.prepareVoters }
        if self.prepareThreshold ≤ slot.prepareVoters.card then
          -- count own commit
          let slot := { slot with
            phase := .prepared
            commitVoters := insert self.id slot.commitVoters }
          ({ state with slots := state.slots.insert sequence slot },
           self.broadcastPbft (.commit view sequence digest self.id))
        else ({ state with slots := state.slots.insert sequence slot }, [])
      else (state, [])

/-- The `Commit` arm of `handle_message`. -/
def handleCommit (state : PbftState) (view : ViewNumber) (sequence : SequenceNumber)
    (replica : NodeId) : PbftState × List NetworkMessage :=
  if view ≠ state.view then (state, [])
  else match state.slots.lookup sequence with
    | none => (state, [])
    | some slot =>
      if slot.phase = .prepared ∨ slot.phase = .prePrepared then
        let slot := { slot with commitVoters := insert replica slot.commitVoters }
        if self.quorum ≤ slot.commitVoters.card ∧ slot.phase ≠ .committed then
          let slot := { slot with phase := .committed }
          let state := { state with
            slots := state.slots.insert sequence slot
            highestCommittedSeq :=
              if sequence > state.highestCommittedSeq then sequence
              else state.highestCommittedSeq }
          match state.pendingPayloads.lookup sequence with
          | none => (state, [])
          | some payload =>
            ({ state with
               pendingPayloads := state.pendingPayloads.erase sequence
               committed := state.committed ++ [⟨sequence, payload⟩] }, [])
        else ({ state with slots := state.slots.insert sequence slot }, [])
      else (state, [])

/-- Install `newView` as its primary: both places of the `ViewChange` arm that do so. -/
def installView (state : PbftState) (newView : ViewNumber) :
    PbftState × List NetworkMessage :=
  let nextSequence := state.highestCommittedSeq + 1
  ({ enterNewView state newView with
     currentView := newView
     nextSequence := nextSequence },
   self.broadcastPbft (.newView newView nextSequence))

/-- The `ViewChange` arm of `handle_message`. -/
def handleViewChange (state : PbftState) (newView : ViewNumber) (replica : NodeId) :
    PbftState × List NetworkMessage :=
  if newView ≤ state.view then (state, [])
  else
    let votes := insert replica ((state.viewChangeVotes.lookup newView).getD ∅)
    if self.id ∉ votes then
      -- join the view change, then re-check after adding our own vote
      let votes := insert self.id votes
      let state := { state with viewChangeVotes := state.viewChangeVotes.insert newView votes }
      let outgoing :=
        self.broadcastPbft (.viewChange newView self.id state.highestCommittedSeq)
      if self.quorum ≤ votes.card ∧ self.primaryForView newView = self.id then
        let (state, announcement) := self.installView state newView
        (state, outgoing ++ announcement)
      else (state, outgoing)
    else
      let state := { state with viewChangeVotes := state.viewChangeVotes.insert newView votes }
      if self.quorum ≤ votes.card ∧ self.primaryForView newView = self.id then
        self.installView state newView
      else (state, [])

/-- The `NewView` arm of `handle_message`. -/
def handleNewView (state : PbftState) (newView : ViewNumber)
    (nextSequence : SequenceNumber) : PbftState × List NetworkMessage :=
  if newView ≤ state.view then (state, [])
  else
    ({ enterNewView state newView with
       currentView := newView
       nextSequence := nextSequence }, [])

/-- `PbftNode::handle_message`. -/
def handleMessage (state : PbftState) (msg : NetworkMessage) :
    PbftState × List NetworkMessage :=
  match msg.payload with
  | .pbft (.prePrepare view sequence digest payload) =>
      self.handlePrePrepare state view sequence digest payload
  | .pbft (.prepare view sequence digest replica) =>
      self.handlePrepare state view sequence digest replica
  | .pbft (.commit view sequence _ replica) => self.handleCommit state view sequence replica
  | .pbft (.viewChange newView replica _) => self.handleViewChange state newView replica
  | .pbft (.newView newView nextSequence) => handleNewView state newView nextSequence
  | _ => (state, [])

/-! ### Ticking and polling -/

/-- `PbftNode::tick`. -/
def tick (state : PbftState) : PbftState × List NetworkMessage :=
  -- the primary does not need to monitor itself
  if self.primaryForView state.view = self.id then (state, [])
  else if state.viewChangeInProgress then (state, [])
  else if state.viewChangeTimeout = 0 then
    let newView := state.view + 1
    let votes := insert self.id ((state.viewChangeVotes.lookup newView).getD ∅)
    ({ state with
       viewChangeInProgress := true
       viewChangeVotes := state.viewChangeVotes.insert newView votes },
     self.broadcastPbft (.viewChange newView self.id state.highestCommittedSeq))
  else ({ state with viewChangeTimeout := state.viewChangeTimeout - 1 }, [])

/-- `PbftNode::poll_committed`: drain the queue of committed entries. -/
def pollCommitted (state : PbftState) : List CommittedEntry × PbftState :=
  (state.committed, { state with committed := [] })

/-- `PbftNode::leader`. -/
def leader (state : PbftState) : Option NodeId := some (self.primaryForView state.currentView)

end PbftNode

/-! ### The system -/

namespace Pbft

open AsyncNet PbftNode

/-- Node `i` of a cluster of `n`. -/
abbrev node (n : ℕ) (i : NodeId) : PbftNode := (PbftNode.new i n).1

variable [Sha256]

/-- The orchestrator's calls on a PBFT node. -/
def act (n : ℕ) (i : NodeId) (state : PbftState) : Call → PbftState × List NetworkMessage
  | .propose payload => ((node n i).propose state payload).2
  | .tick => (node n i).tick state
  | .pollCommitted => (pollCommitted state |>.2, [])

/-- A cluster of `n` PBFT nodes under fault configuration `cfg`. -/
def system (n : ℕ) (cfg : FaultConfig) : System NodeId PbftState Call NetworkMessage where
  members := Finset.range n
  init i := (PbftNode.new i n).2
  act := act n
  recv i state msg := some ((node n i).handleMessage state msg)
  dst := NetworkMessage.target
  carry := cfg.tamper
  carry_le_one := cfg.tamper_length_le

/-- A run of four nodes: node `0` proposes `p` and is the first to commit it. -/
def commitRun (p : Payload) : List (Event NodeId Call) :=
  .call 0 (.propose p) :: [0, 0, 4, 6, 1, 5, 1, 2, 7, 9].map .deliver

end Pbft

end ConsensusBench
