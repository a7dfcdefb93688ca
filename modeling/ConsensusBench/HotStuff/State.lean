import ConsensusBench.Fault

namespace ConsensusBench

/-!
# HotStuff: the node

`HotStuffNode` holds the fields of the source's `HotStuffNode` that never change;
`HotStuffState` is the state behind its mutex, together with the atomic copy of the view.
Votes go to the leader of the view only, which answers with quorum certificates.
-/

namespace HotStuff

/-! ### Slots and state -/

/-- HotStuff consensus phase for a given sequence number. -/
inductive Phase where
  | idle
  | prepare
  | preCommit
  | commit
  | decided
  deriving DecidableEq, Repr

/-- The state of a single consensus slot. -/
structure SlotState where
  view : ViewNumber
  sequence : SequenceNumber
  phase : Phase
  prepareVoters : Finset NodeId
  precommitVoters : Finset NodeId
  commitVoters : Finset NodeId
  deriving DecidableEq

/-- `SlotState::new`. -/
def SlotState.new (view : ViewNumber) (sequence : SequenceNumber) : SlotState where
  view := view
  sequence := sequence
  phase := .idle
  prepareVoters := ∅
  precommitVoters := ∅
  commitVoters := ∅

def VIEW_CHANGE_TIMEOUT : ℕ := 40

/-- Map phase tags to ordinals for comparison. -/
def phaseOrd : HotStuffPhaseTag → ℕ
  | .prepare => 0
  | .preCommit => 1
  | .commit => 2

end HotStuff

open HotStuff

/-- The mutable part of a HotStuff node. -/
structure HotStuffState where
  view : ViewNumber
  nextSequence : SequenceNumber
  slots : HashMap SequenceNumber HotStuff.SlotState
  pendingPayloads : HashMap SequenceNumber Payload
  committed : List CommittedEntry
  highestQcView : ViewNumber
  highestQcPhase : HotStuffPhaseTag
  viewChangeTimeout : ℕ
  newViewMessages : HashMap ViewNumber (Finset NodeId)
  leaderActive : Bool
  currentView : ViewNumber

instance : CommitQueue HotStuffState := ⟨HotStuffState.committed⟩

/-- The immutable part of a HotStuff node. -/
structure HotStuffNode where
  id : NodeId
  clusterSize : ℕ
  peerIds : List NodeId

namespace HotStuffNode

/-- `HotStuffNode::new`: the node and its initial state. -/
def new (id : NodeId) (clusterSize : ℕ) : HotStuffNode × HotStuffState :=
  ({ id := id, clusterSize := clusterSize, peerIds := ConsensusBench.peerIds id clusterSize },
   { view := 0
     nextSequence := 1
     slots := ∅
     pendingPayloads := ∅
     committed := []
     highestQcView := 0
     highestQcPhase := .prepare
     viewChangeTimeout := VIEW_CHANGE_TIMEOUT
     newViewMessages := ∅
     leaderActive := false
     currentView := 0 })

variable (self : HotStuffNode)

def leaderForView (view : ViewNumber) : NodeId := view % self.clusterSize

def quorum : ℕ := 2 * ((self.clusterSize - 1) / 3) + 1

def faultTolerance : ℕ := (self.clusterSize - 1) / 3

def msgTo (target : NodeId) (payload : ProtocolMessage) : NetworkMessage :=
  { sender := self.id, target := target, payload := payload }

def broadcastHotstuff (m : HotStuffMessage) : List NetworkMessage :=
  self.peerIds.map fun peer => self.msgTo peer (.hotStuff m)

/-- Decided slots are kept, pending consensus slots are cleared. -/
def enterNewView (state : HotStuffState) (newView : ViewNumber) : HotStuffState :=
  { state with
    view := newView
    viewChangeTimeout := VIEW_CHANGE_TIMEOUT
    leaderActive := false
    slots := state.slots.retain fun _ slot => slot.phase = .decided
    pendingPayloads := ∅ }

/-! ### Proposing -/

/-- `HotStuffNode::propose`. -/
def propose [Sha256] (state : HotStuffState) (payload : Payload) :
    ProposeResult × HotStuffState × List NetworkMessage :=
  let leader := self.leaderForView state.view
  if leader ≠ self.id then
    (.notLeader (some leader), state, [])
  else
    let seq := state.nextSequence
    let view := state.view
    let digest := payload.digest
    -- the leader votes for itself
    let slot := { SlotState.new view seq with
      phase := .prepare
      prepareVoters := {self.id} }
    (.accepted,
     { state with
       nextSequence := seq + 1
       slots := state.slots.insert seq slot
       pendingPayloads := state.pendingPayloads.insert seq payload },
     self.broadcastHotstuff
       (.propose view seq digest payload state.highestQcView state.highestQcPhase))

/-! ### Handling messages -/

/-- The `Propose` arm of `handle_message`. -/
def handlePropose (state : HotStuffState) (view : ViewNumber) (sequence : SequenceNumber)
    (digest : Digest) (payload : Payload) : HotStuffState × List NetworkMessage :=
  -- auto-advance on a higher view
  let state := if view > state.view then
      { enterNewView state view with currentView := view }
    else state
  if view ≠ state.view then (state, [])
  else
    let slot := { SlotState.new view sequence with phase := .prepare }
    ({ state with
       leaderActive := true
       viewChangeTimeout := VIEW_CHANGE_TIMEOUT
       slots := state.slots.insert sequence slot
       pendingPayloads := state.pendingPayloads.insert sequence payload },
     [self.msgTo (self.leaderForView view)
       (.hotStuff (.vote view sequence digest .prepare self.id))])

/-- The `action` block of the `Vote` arm: the slot with the vote counted, and the phase and
    vote count of the certificate it completes.  `none` if the slot is not in the phase of
    the vote. -/
def countVote (slot : SlotState) (phase : HotStuffPhaseTag) (voter : NodeId) :
    Option (SlotState × Option (HotStuffPhaseTag × ℕ)) :=
  match phase with
  | .prepare =>
    if slot.phase ≠ .prepare then none
    else
      let slot := { slot with prepareVoters := insert voter slot.prepareVoters }
      let vc := slot.prepareVoters.card
      if self.quorum ≤ vc then
        some ({ slot with
          phase := .preCommit
          precommitVoters := insert self.id slot.precommitVoters }, some (.prepare, vc))
      else some (slot, none)
  | .preCommit =>
    if slot.phase ≠ .preCommit then none
    else
      let slot := { slot with precommitVoters := insert voter slot.precommitVoters }
      let vc := slot.precommitVoters.card
      if self.quorum ≤ vc then
        some ({ slot with
          phase := .commit
          commitVoters := insert self.id slot.commitVoters }, some (.preCommit, vc))
      else some (slot, none)
  | .commit =>
    if slot.phase ≠ .commit then none
    else
      let slot := { slot with commitVoters := insert voter slot.commitVoters }
      let vc := slot.commitVoters.card
      if self.quorum ≤ vc then some ({ slot with phase := .decided }, some (.commit, vc))
      else some (slot, none)

/-- Take the pending payload of `sequence`, if there is one, and queue it as committed. -/
def commitPending (state : HotStuffState) (sequence : SequenceNumber) : HotStuffState :=
  match state.pendingPayloads.lookup sequence with
  | none => state
  | some payload =>
    { state with
      pendingPayloads := state.pendingPayloads.erase sequence
      committed := state.committed ++ [⟨sequence, payload⟩] }

/-- The `Vote` arm of `handle_message`. -/
def handleVote (state : HotStuffState) (view : ViewNumber) (sequence : SequenceNumber)
    (digest : Digest) (phase : HotStuffPhaseTag) (voter : NodeId) :
    HotStuffState × List NetworkMessage :=
  if self.leaderForView view ≠ self.id then (state, [])
  else if view ≠ state.view then (state, [])
  else match state.slots.lookup sequence with
    | none => (state, [])
    | some slot =>
      match self.countVote slot phase voter with
      | none => (state, [])
      | some (slot, action) =>
        let state := { state with slots := state.slots.insert sequence slot }
        match action with
        | none => (state, [])
        | some (qcPhase, voteCount) =>
          let state := { state with highestQcView := view, highestQcPhase := qcPhase }
          let state := if qcPhase = .commit then commitPending state sequence else state
          (state,
           self.broadcastHotstuff (.quorumCertificate view sequence digest qcPhase voteCount))

/-- Advance the slot of `sequence`, if there is one and it is in phase `expected`. -/
def advanceSlot (state : HotStuffState) (sequence : SequenceNumber) (expected next : Phase) :
    HotStuffState :=
  match state.slots.lookup sequence with
  | none => state
  | some slot =>
    if slot.phase = expected then
      { state with slots := state.slots.insert sequence { slot with phase := next } }
    else state

/-- The `QuorumCertificate` arm of `handle_message`. -/
def handleQuorumCertificate (state : HotStuffState) (view : ViewNumber)
    (sequence : SequenceNumber) (digest : Digest) (phase : HotStuffPhaseTag) (voteCount : ℕ) :
    HotStuffState × List NetworkMessage :=
  -- reject certificates that do not claim enough votes
  if voteCount < self.quorum then (state, [])
  else
    let state := if view > state.highestQcView ∨
        (view = state.highestQcView ∧ phaseOrd phase > phaseOrd state.highestQcPhase) then
        { state with highestQcView := view, highestQcPhase := phase }
      else state
    if view ≠ state.view then (state, [])
    else
      let leader := self.leaderForView view
      match phase with
      | .prepare =>
        (advanceSlot state sequence .prepare .preCommit,
         [self.msgTo leader (.hotStuff (.vote view sequence digest .preCommit self.id))])
      | .preCommit =>
        (advanceSlot state sequence .preCommit .commit,
         [self.msgTo leader (.hotStuff (.vote view sequence digest .commit self.id))])
      | .commit =>
        match state.slots.lookup sequence with
        | none => (state, [])
        | some slot =>
          if slot.phase ≠ .decided then
            let state := { state with
              slots := state.slots.insert sequence { slot with phase := .decided } }
            (commitPending state sequence, [])
          else (state, [])

/-- The `NewView` arm of `handle_message`. -/
def handleNewView (state : HotStuffState) (newView : ViewNumber) (replica : NodeId) :
    HotStuffState × List NetworkMessage :=
  if newView ≤ state.view then (state, [])
  else
    let votes := insert replica ((state.newViewMessages.lookup newView).getD ∅)
    let state := { state with newViewMessages := state.newViewMessages.insert newView votes }
    if self.quorum ≤ votes.card ∧ self.leaderForView newView = self.id then
      ({ enterNewView state newView with currentView := newView }, [])
    else (state, [])

/-- `HotStuffNode::handle_message`. -/
def handleMessage (state : HotStuffState) (msg : NetworkMessage) :
    HotStuffState × List NetworkMessage :=
  match msg.payload with
  | .hotStuff (.propose view sequence digest payload _ _) =>
      self.handlePropose state view sequence digest payload
  | .hotStuff (.vote view sequence digest phase voter) =>
      self.handleVote state view sequence digest phase voter
  | .hotStuff (.quorumCertificate view sequence digest phase voteCount) =>
      self.handleQuorumCertificate state view sequence digest phase voteCount
  | .hotStuff (.newView newView _ _ replica) => self.handleNewView state newView replica
  | _ => (state, [])

/-! ### Ticking and polling -/

/-- `HotStuffNode::tick`. -/
def tick (state : HotStuffState) : HotStuffState × List NetworkMessage :=
  -- the leader does not need to monitor itself
  if self.leaderForView state.view = self.id then (state, [])
  else if state.viewChangeTimeout = 0 then
    let newView := state.view + 1
    let votes := insert self.id ((state.newViewMessages.lookup newView).getD ∅)
    ({ state with
       newViewMessages := state.newViewMessages.insert newView votes
       viewChangeTimeout := VIEW_CHANGE_TIMEOUT },
     [self.msgTo (self.leaderForView newView)
       (.hotStuff (.newView newView state.highestQcView state.highestQcPhase self.id))])
  else ({ state with viewChangeTimeout := state.viewChangeTimeout - 1 }, [])

/-- `HotStuffNode::poll_committed`: drain the queue of committed entries. -/
def pollCommitted (state : HotStuffState) : List CommittedEntry × HotStuffState :=
  (state.committed, { state with committed := [] })

/-- `HotStuffNode::leader`. -/
def leader (state : HotStuffState) : Option NodeId := some (self.leaderForView state.currentView)

end HotStuffNode

/-! ### The system -/

namespace HotStuff

open AsyncNet HotStuffNode

/-- Node `i` of a cluster of `n`. -/
abbrev node (n : ℕ) (i : NodeId) : HotStuffNode := (HotStuffNode.new i n).1

variable [Sha256]

/-- The orchestrator's calls on a HotStuff node. -/
def act (n : ℕ) (i : NodeId) (state : HotStuffState) :
    Call → HotStuffState × List NetworkMessage
  | .propose payload => ((node n i).propose state payload).2
  | .tick => (node n i).tick state
  | .pollCommitted => (pollCommitted state |>.2, [])

/-- A cluster of `n` HotStuff nodes under fault configuration `cfg`. -/
def system (n : ℕ) (cfg : FaultConfig) : System NodeId HotStuffState Call NetworkMessage where
  members := Finset.range n
  init i := (HotStuffNode.new i n).2
  act := act n
  recv i state msg := some ((node n i).handleMessage state msg)
  dst := NetworkMessage.target
  carry := cfg.tamper
  carry_le_one := cfg.tamper_length_le

/-- A run of four nodes: node `0` proposes `p` and is the first to commit it. -/
def commitRun (p : Payload) : List (Event NodeId Call) :=
  .call 0 (.propose p) :: [0, 0, 1, 1, 1, 1, 2, 2, 2, 2, 3, 3].map .deliver

end HotStuff

end ConsensusBench
