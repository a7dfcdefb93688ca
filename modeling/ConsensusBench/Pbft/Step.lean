import ConsensusBench.Pbft.State

namespace ConsensusBench

/-!
# PBFT: what one step can do

`Effect` lists everything a PBFT node does in one step, each case with its guards, the new
state and the messages sent.  `Pbft.effect_of_fires` is the inversion: every step of the
system is one of these cases.  The invariants of PBFT are case analyses on `Effect`, and no
later proof unfolds a handler.
-/

open AsyncNet PbftNode

namespace Pbft

/-- A fresh slot for `sequence`, in phase `PrePrepared`. -/
def openSlot (view : ViewNumber) (sequence : SequenceNumber) : SlotState :=
  { SlotState.new view sequence with phase := .prePrepared }

/-- `slot` with one more prepare vote. -/
def SlotState.addPrepare (slot : SlotState) (replica : NodeId) : SlotState :=
  { slot with prepareVoters := insert replica slot.prepareVoters }

/-- `slot` moved to `Prepared` by node `id`, which counts its own commit. -/
def SlotState.toPrepared (slot : SlotState) (id : NodeId) : SlotState :=
  { slot with phase := .prepared, commitVoters := insert id slot.commitVoters }

/-- `slot` with one more commit vote. -/
def SlotState.addCommit (slot : SlotState) (replica : NodeId) : SlotState :=
  { slot with commitVoters := insert replica slot.commitVoters }

/-- The state after the slot of `sequence` became `slot`, committed. -/
def markCommitted (state : PbftState) (sequence : SequenceNumber) (slot : SlotState) :
    PbftState :=
  { state with
    slots := state.slots.insert sequence { slot with phase := .committed }
    highestCommittedSeq :=
      if sequence > state.highestCommittedSeq then sequence else state.highestCommittedSeq }

/-- Whether a `Commit` vote of `replica` completes the quorum of the slot of `sequence`. -/
def completesQuorum (self : PbftNode) (state : PbftState) (view : ViewNumber)
    (sequence : SequenceNumber) (replica : NodeId) : Prop :=
  view = state.view ∧ ∃ slot, state.slots.lookup sequence = some slot ∧
    (slot.phase = .prepared ∨ slot.phase = .prePrepared) ∧
    self.quorum ≤ (slot.addCommit replica).commitVoters.card

/-- Whether a call of `propose` is accepted. -/
def canPropose (self : PbftNode) (state : PbftState) : Prop :=
  self.primaryForView state.view = self.id ∧ state.viewChangeInProgress = false

instance (self : PbftNode) (state : PbftState) : Decidable (canPropose self state) :=
  inferInstanceAs (Decidable (_ ∧ _))

/-- Whether a `PrePrepare` of `view` is accepted. -/
def canAccept (state : PbftState) (view : ViewNumber) : Prop :=
  view = state.view ∧ state.viewChangeInProgress = false

instance (state : PbftState) (view : ViewNumber) : Decidable (canAccept state view) :=
  inferInstanceAs (Decidable (_ ∧ _))

/-- The steps of a PBFT node in state `s`: what it processes, its new state, what it sends. -/
inductive Effect [Sha256] (self : PbftNode) (s : PbftState) :
    Cause Call NetworkMessage → PbftState → List NetworkMessage → Prop
  | ignore (c : Cause Call NetworkMessage) (hc : ∀ p, c = .call (.propose p) →
      ¬ canPropose self s) (hm : ∀ m v q d p, c = .recv m →
      m.payload = .pbft (.prePrepare v q d p) → ¬ canAccept s v) : Effect self s c s []
  | poll : Effect self s (.call .pollCommitted) { s with committed := [] } []
  | tickDown :
      Effect self s (.call .tick) { s with viewChangeTimeout := s.viewChangeTimeout - 1 } []
  | timeout (hp : self.primaryForView s.view ≠ self.id) (hv : s.viewChangeInProgress = false)
      (h0 : s.viewChangeTimeout = 0) (votes : Finset NodeId)
      (hvotes : votes = insert self.id ((s.viewChangeVotes.lookup (s.view + 1)).getD ∅)) :
      Effect self s (.call .tick)
        { s with
          viewChangeInProgress := true
          viewChangeVotes := s.viewChangeVotes.insert (s.view + 1) votes }
        (self.broadcastPbft (.viewChange (s.view + 1) self.id s.highestCommittedSeq))
  | assign (p : Payload) (hp : canPropose self s) :
      Effect self s (.call (.propose p))
        { s with
          nextSequence := s.nextSequence + 1
          slots := s.slots.insert s.nextSequence (openSlot s.view s.nextSequence)
          pendingPayloads := s.pendingPayloads.insert s.nextSequence p }
        (self.broadcastPbft (.prePrepare s.view s.nextSequence p.digest p) ++
          self.broadcastPbft (.prepare s.view s.nextSequence p.digest self.id))
  | accept (m : NetworkMessage) (q : SequenceNumber) (d : Digest) (p : Payload)
      (hm : m.payload = .pbft (.prePrepare s.view q d p)) (ha : canAccept s s.view) :
      Effect self s (.recv m)
        { s with
          primaryActive := true
          viewChangeTimeout := VIEW_CHANGE_TIMEOUT
          slots := s.slots.insert q (openSlot s.view q)
          pendingPayloads := s.pendingPayloads.insert q p }
        (self.broadcastPbft (.prepare s.view q d self.id))
  | countPrepare (m : NetworkMessage) (q : SequenceNumber) (d : Digest) (r : NodeId)
      (slot : SlotState) (hm : m.payload = .pbft (.prepare s.view q d r))
      (hs : s.slots.lookup q = some slot) (hph : slot.phase = .prePrepared) :
      Effect self s (.recv m) { s with slots := s.slots.insert q (slot.addPrepare r) } []
  | prepare (m : NetworkMessage) (q : SequenceNumber) (d : Digest) (r : NodeId)
      (slot : SlotState) (hm : m.payload = .pbft (.prepare s.view q d r))
      (hs : s.slots.lookup q = some slot) (hph : slot.phase = .prePrepared)
      (hq : self.prepareThreshold ≤ (slot.addPrepare r).prepareVoters.card) :
      Effect self s (.recv m)
        { s with slots := s.slots.insert q ((slot.addPrepare r).toPrepared self.id) }
        (self.broadcastPbft (.commit s.view q d self.id))
  | countCommit (m : NetworkMessage) (q : SequenceNumber) (d : Digest) (r : NodeId)
      (slot : SlotState) (hm : m.payload = .pbft (.commit s.view q d r))
      (hs : s.slots.lookup q = some slot)
      (hph : slot.phase = .prepared ∨ slot.phase = .prePrepared) :
      Effect self s (.recv m) { s with slots := s.slots.insert q (slot.addCommit r) } []
  | commitNothing (m : NetworkMessage) (q : SequenceNumber) (d : Digest) (r : NodeId)
      (slot : SlotState) (hm : m.payload = .pbft (.commit s.view q d r))
      (hs : s.slots.lookup q = some slot)
      (hph : slot.phase = .prepared ∨ slot.phase = .prePrepared)
      (hq : self.quorum ≤ (slot.addCommit r).commitVoters.card)
      (hp : s.pendingPayloads.lookup q = none) :
      Effect self s (.recv m) (markCommitted s q (slot.addCommit r)) []
  | commit (m : NetworkMessage) (q : SequenceNumber) (d : Digest) (r : NodeId)
      (slot : SlotState) (p : Payload) (hm : m.payload = .pbft (.commit s.view q d r))
      (hs : s.slots.lookup q = some slot)
      (hph : slot.phase = .prepared ∨ slot.phase = .prePrepared)
      (hq : self.quorum ≤ (slot.addCommit r).commitVoters.card)
      (hp : s.pendingPayloads.lookup q = some p) :
      Effect self s (.recv m)
        { markCommitted s q (slot.addCommit r) with
          pendingPayloads := s.pendingPayloads.erase q
          committed := s.committed ++ [⟨q, p⟩] } []
  | vote (m : NetworkMessage) (v : ViewNumber) (r : NodeId) (l : SequenceNumber)
      (votes : Finset NodeId) (out : List NetworkMessage)
      (hm : m.payload = .pbft (.viewChange v r l)) (hv : s.view < v)
      (hvotes : votes = insert r ((s.viewChangeVotes.lookup v).getD ∅) ∧ self.id ∈ votes ∧
          out = [] ∨
        votes = insert self.id (insert r ((s.viewChangeVotes.lookup v).getD ∅)) ∧
          out = self.broadcastPbft (.viewChange v self.id s.highestCommittedSeq)) :
      Effect self s (.recv m)
        { s with viewChangeVotes := s.viewChangeVotes.insert v votes } out
  | install (m : NetworkMessage) (v : ViewNumber) (r : NodeId) (l : SequenceNumber)
      (votes : Finset NodeId) (out : List NetworkMessage)
      (hm : m.payload = .pbft (.viewChange v r l)) (hv : s.view < v)
      (hvotes : votes = insert r ((s.viewChangeVotes.lookup v).getD ∅) ∧ self.id ∈ votes ∧
          out = [] ∨
        votes = insert self.id (insert r ((s.viewChangeVotes.lookup v).getD ∅)) ∧
          out = self.broadcastPbft (.viewChange v self.id s.highestCommittedSeq))
      (hq : self.quorum ≤ votes.card) (hp : self.primaryForView v = self.id) :
      Effect self s (.recv m)
        { enterNewView { s with viewChangeVotes := s.viewChangeVotes.insert v votes } v with
          currentView := v
          nextSequence := s.highestCommittedSeq + 1 }
        (out ++ self.broadcastPbft (.newView v (s.highestCommittedSeq + 1)))
  | adopt (m : NetworkMessage) (v : ViewNumber) (ns : SequenceNumber)
      (hm : m.payload = .pbft (.newView v ns)) (hv : s.view < v) :
      Effect self s (.recv m)
        { enterNewView s v with currentView := v, nextSequence := ns } []

/-- What a node sends of its own when a vote for a view reaches it is its vote for that view. -/
theorem mem_of_joined {self : PbftNode} {m : NetworkMessage} {v : ViewNumber} {r : NodeId}
    {V votes : Finset NodeId} {l : SequenceNumber} {out : List NetworkMessage} (hm : m ∈ out)
    (h : votes = insert r V ∧ self.id ∈ votes ∧ out = [] ∨
      votes = insert self.id (insert r V) ∧
        out = self.broadcastPbft (.viewChange v self.id l)) :
    m ∈ self.broadcastPbft (.viewChange v self.id l) := by
  rcases h with ⟨_, _, rfl⟩ | ⟨_, rfl⟩
  · exact absurd hm (by simp)
  · exact hm

variable [Sha256] (self : PbftNode) (s : PbftState)

/-- Ignoring a message that is not a `PrePrepare`. -/
theorem Effect.ignore_recv {m : NetworkMessage}
    (h : ∀ v q d p, m.payload ≠ .pbft (.prePrepare v q d p)) :
    Effect self s (.recv m) s [] :=
  .ignore _ (fun p hc => absurd hc (by simp)) fun m' v q d p hc hm => by
    cases hc
    exact absurd hm (h v q d p)

/-- A proposal is turned down, or the primary assigns it. -/
theorem propose_effect (p : Payload) :
    Effect self s (.call (.propose p)) (self.propose s p).2.1 (self.propose s p).2.2 := by
  unfold propose
  dsimp only
  split
  · rename_i hp
    exact .ignore _ (fun p' _ hcan => hp hcan.1) fun m v q d p' hc => absurd hc (by simp)
  · rename_i hp
    rw [not_not] at hp
    split
    · rename_i hv
      refine .ignore _ (fun p' _ hcan => ?_) fun m v q d p' hc => absurd hc (by simp)
      exact absurd (hcan.2.symm.trans hv) (by simp)
    · rename_i hv
      exact .assign p ⟨hp, by simpa using hv⟩

/-- A tick counts the timeout down, runs it out with a vote, or does nothing. -/
theorem tick_effect : Effect self s (.call .tick) (self.tick s).1 (self.tick s).2 := by
  have hignore : Effect self s (.call .tick) s [] :=
    .ignore _ (fun p hc => absurd hc (by simp)) fun m v q d p hc => absurd hc (by simp)
  unfold tick
  split
  · exact hignore
  · rename_i hp
    split
    · exact hignore
    · rename_i hv
      split
      · rename_i h0
        exact .timeout hp (by simpa using hv) h0 _ rfl
      · exact .tickDown

variable {m : NetworkMessage}

/-- A `PrePrepare` of the current view is accepted, unless a view change is under way. -/
theorem prePrepare_effect {v : ViewNumber} {q : SequenceNumber} {d : Digest}
    {p : Payload} (hm : m.payload = .pbft (.prePrepare v q d p)) :
    Effect self s (.recv m) (self.handlePrePrepare s v q d p).1
      (self.handlePrePrepare s v q d p).2 := by
  unfold handlePrePrepare
  split
  · rename_i h
    refine .ignore _ (fun p hc => absurd hc (by simp)) fun m' v' q' d' p' hc hm' hcan => ?_
    cases hc
    rw [hm] at hm'
    cases hm'
    rcases h with h | h
    · exact h hcan.1
    · exact absurd (hcan.2.symm.trans h) (by simp)
  · rename_i h
    rw [not_or, not_not] at h
    obtain ⟨rfl, hv⟩ := h
    exact .accept m q d p hm ⟨rfl, by simpa using hv⟩

/-- A `Prepare` counts towards a slot that has not been prepared, and may complete it. -/
theorem prepare_effect {v : ViewNumber} {q : SequenceNumber} {d : Digest} {r : NodeId}
    (hm : m.payload = .pbft (.prepare v q d r)) :
    Effect self s (.recv m) (self.handlePrepare s v q d r).1
      (self.handlePrepare s v q d r).2 := by
  have hignore : Effect self s (.recv m) s [] :=
    .ignore_recv self s fun v q d p h => by rw [hm] at h; exact absurd h (by simp)
  unfold handlePrepare
  split
  · exact hignore
  · rename_i hv
    rw [not_not] at hv
    subst hv
    cases hs : s.slots.lookup q with
    | none => exact hignore
    | some slot =>
      by_cases hph : slot.phase = .prePrepared
      · by_cases hq : self.prepareThreshold ≤ (slot.addPrepare r).prepareVoters.card
        · simp only [SlotState.addPrepare] at hq
          simp only [hph, if_true, hq]
          exact .prepare m q d r slot hm hs hph hq
        · simp only [SlotState.addPrepare] at hq
          simp only [hph, if_true, hq, if_false]
          have h : Effect self s _ _ _ := .countPrepare m q d r slot hm hs hph
          simpa only [SlotState.addPrepare, hph] using h
      · simp only [hph, if_false]
        exact hignore

/-- A `Commit` counts towards a slot that is open, and may commit it. -/
theorem commit_effect {v : ViewNumber} {q : SequenceNumber} {d : Digest} {r : NodeId}
    (hm : m.payload = .pbft (.commit v q d r)) :
    Effect self s (.recv m) (self.handleCommit s v q r).1 (self.handleCommit s v q r).2 := by
  have hignore : Effect self s (.recv m) s [] :=
    .ignore_recv self s fun v q d p h => by rw [hm] at h; exact absurd h (by simp)
  unfold handleCommit
  split
  · exact hignore
  · rename_i hv
    rw [not_not] at hv
    subst hv
    cases hs : s.slots.lookup q with
    | none => exact hignore
    | some slot =>
      by_cases hph : slot.phase = .prepared ∨ slot.phase = .prePrepared
      · have hne : slot.phase ≠ .committed := by
          rcases hph with h | h <;> rw [h] <;> decide
        by_cases hq : self.quorum ≤ (slot.addCommit r).commitVoters.card
        · simp only [hph, if_true]
          rw [if_pos ⟨hq, hne⟩]
          cases hp : s.pendingPayloads.lookup q with
          | none => exact .commitNothing m q d r slot hm hs hph hq hp
          | some p => exact .commit m q d r slot p hm hs hph hq hp
        · simp only [hph, if_true]
          rw [if_neg fun h => hq h.1]
          exact .countCommit m q d r slot hm hs hph
      · simp only [hph, if_false]
        exact hignore

/-- A vote for a later view is counted, seconded, and may complete a quorum. -/
theorem viewChange_effect {v : ViewNumber} {r : NodeId} {l : SequenceNumber}
    (hm : m.payload = .pbft (.viewChange v r l)) :
    Effect self s (.recv m) (self.handleViewChange s v r).1 (self.handleViewChange s v r).2 := by
  unfold handleViewChange
  split
  · exact .ignore_recv self s fun v q d p h => by rw [hm] at h; exact absurd h (by simp)
  · rename_i hv
    rw [not_le] at hv
    by_cases hin : self.id ∈ insert r ((s.viewChangeVotes.lookup v).getD ∅)
    · simp only [hin, not_true_eq_false, if_false]
      split
      · rename_i hq
        exact .install m v r l _ [] hm hv (.inl ⟨rfl, hin, rfl⟩) hq.1 hq.2
      · exact .vote m v r l _ [] hm hv (.inl ⟨rfl, hin, rfl⟩)
    · simp only [hin, not_false_eq_true, if_true]
      split
      · rename_i hq
        exact .install m v r l _ _ hm hv (.inr ⟨rfl, rfl⟩) hq.1 hq.2
      · exact .vote m v r l _ _ hm hv (.inr ⟨rfl, rfl⟩)

/-- A later view is adopted as soon as it is announced. -/
theorem newView_effect {v : ViewNumber} {ns : SequenceNumber}
    (hm : m.payload = .pbft (.newView v ns)) :
    Effect self s (.recv m) (handleNewView s v ns).1 (handleNewView s v ns).2 := by
  unfold handleNewView
  split
  · exact .ignore_recv self s fun v q d p h => by rw [hm] at h; exact absurd h (by simp)
  · rename_i hv
    exact .adopt m v ns hm (not_le.mp hv)

/-- **Handling a message** has one of the effects, whatever the message is. -/
theorem handleMessage_effect (m : NetworkMessage) :
    Effect self s (.recv m) (self.handleMessage s m).1 (self.handleMessage s m).2 := by
  unfold handleMessage
  split
  · rename_i h; exact prePrepare_effect self s h
  · rename_i h; exact prepare_effect self s h
  · rename_i h; exact commit_effect self s h
  · rename_i h; exact viewChange_effect self s h
  · rename_i h; exact newView_effect self s h
  · rename_i h _ _ _ _
    exact .ignore_recv self s h

/-- **Inversion.**  Every step of the system is one of the listed effects. -/
theorem effect_of_fires {n : ℕ} {cfg : FaultConfig}
    {w : World NodeId PbftState Call NetworkMessage} {o : NodeStep PbftState}
    (h : (system n cfg).Fires w o) : Effect (node n o.node) o.before o.cause o.after o.sent := by
  cases h with
  | call i a hi =>
    cases a with
    | propose p => exact propose_effect _ _ p
    | tick => exact tick_effect _ _
    | pollCommitted => exact .poll
  | recv m m' s out hm hsent hcarry hmem hrecv =>
    have hout : ((node n m'.target).handleMessage (w.nodes m'.target) m') = (s, out) :=
      Option.some.inj hrecv
    have h := handleMessage_effect (node n m'.target) (w.nodes m'.target) m'
    rw [hout] at h
    exact h

/-- Only polling takes anything out of the queue of a PBFT node. -/
theorem Effect.queue_grows {self : PbftNode} {s s' : PbftState}
    {c : Cause Call NetworkMessage} {out : List NetworkMessage} (h : Effect self s c s' out)
    (hc : c ≠ .call .pollCommitted) : ∃ es, s'.committed = s.committed ++ es := by
  cases h with
  | poll => exact absurd rfl hc
  | commit m q d r slot p => exact ⟨[⟨q, p⟩], rfl⟩
  | _ => exact ⟨[], (List.append_nil _).symm⟩

/-- A node becomes what it makes of the message it receives. -/
theorem after_of_recv {n : ℕ} {cfg : FaultConfig}
    {w : World NodeId PbftState Call NetworkMessage} {o : NodeStep PbftState}
    (hf : (system n cfg).Fires w o) {m : NetworkMessage} (hc : o.cause = .recv m) :
    o.after = ((node n o.node).handleMessage o.before m).1 :=
  (congrArg Prod.fst (Option.some.inj (hf.recv_eq hc))).symm

end Pbft

end ConsensusBench
