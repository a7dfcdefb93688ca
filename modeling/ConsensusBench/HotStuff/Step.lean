import ConsensusBench.HotStuff.State

namespace ConsensusBench

/-!
# HotStuff: what one step can do

`Effect` lists everything a HotStuff node does in one step, each case with its guards, the
new state and the messages sent; `HotStuff.effect_of_fires` is the inversion.  The two ways
to commit are both there: `certify` is the leader's, on a quorum of `Commit` votes, `decide`
the replicas', on a `Commit` certificate.
-/

open AsyncNet HotStuffNode

namespace HotStuff

/-! ### The pieces of a step -/

/-- The state after seeing a view that may be higher. -/
def catchUp (s : HotStuffState) (view : ViewNumber) : HotStuffState :=
  if view > s.view then { enterNewView s view with currentView := view } else s

/-- The state after a proposal of its view was accepted. -/
def acceptProposal (s : HotStuffState) (view : ViewNumber) (q : SequenceNumber) (p : Payload) :
    HotStuffState :=
  { s with
    leaderActive := true
    viewChangeTimeout := VIEW_CHANGE_TIMEOUT
    slots := s.slots.insert q { SlotState.new view q with phase := .prepare }
    pendingPayloads := s.pendingPayloads.insert q p }

/-- The state after seeing a certificate of `view` and `phase`. -/
def seeQc (s : HotStuffState) (view : ViewNumber) (phase : HotStuffPhaseTag) : HotStuffState :=
  if view > s.highestQcView ∨
      (view = s.highestQcView ∧ phaseOrd phase > phaseOrd s.highestQcPhase) then
    { s with highestQcView := view, highestQcPhase := phase }
  else s

/-- What a `Commit` certificate does to the slot of its sequence. -/
def decideSlot (s : HotStuffState) (q : SequenceNumber) : HotStuffState × List NetworkMessage :=
  match s.slots.lookup q with
  | none => (s, [])
  | some slot =>
    if slot.phase ≠ .decided then
      (commitPending { s with slots := s.slots.insert q { slot with phase := .decided } } q, [])
    else (s, [])

/-- The state of a leader that has completed a certificate for its slot of `q`. -/
def completeQc (s : HotStuffState) (q : SequenceNumber) (slot : SlotState)
    (phase : HotStuffPhaseTag) : HotStuffState :=
  let s' := { s with
    slots := s.slots.insert q slot
    highestQcView := s.view
    highestQcPhase := phase }
  if phase = .commit then commitPending s' q else s'

/-- The phase of a slot that waits for votes of a tag. -/
def stage : HotStuffPhaseTag → Phase
  | .prepare => .prepare
  | .preCommit => .preCommit
  | .commit => .commit

/-- Each tag has a stage of its own. -/
theorem stage_injective {t t' : HotStuffPhaseTag} (h : stage t = stage t') : t = t' := by
  cases t <;> cases t' <;> simp_all [stage]

/-- A slot that waits for votes is open. -/
theorem stage_ne_decided (t : HotStuffPhaseTag) : stage t ≠ .decided := by
  cases t <;> simp [stage]

/-- The votes of a tag that a slot has counted. -/
def SlotState.voters (slot : SlotState) : HotStuffPhaseTag → Finset NodeId
  | .prepare => slot.prepareVoters
  | .preCommit => slot.precommitVoters
  | .commit => slot.commitVoters

/-- The slot with one more vote of a tag. -/
def SlotState.addVote (slot : SlotState) (r : NodeId) : HotStuffPhaseTag → SlotState
  | .prepare => { slot with prepareVoters := insert r slot.prepareVoters }
  | .preCommit => { slot with precommitVoters := insert r slot.precommitVoters }
  | .commit => { slot with commitVoters := insert r slot.commitVoters }

/-- The slot of leader `i` after the certificate of a tag: in the next phase, with the
    leader's own vote. -/
def SlotState.certify (slot : SlotState) (i : NodeId) : HotStuffPhaseTag → SlotState
  | .prepare =>
      { slot with phase := .preCommit, precommitVoters := insert i slot.precommitVoters }
  | .preCommit => { slot with phase := .commit, commitVoters := insert i slot.commitVoters }
  | .commit => { slot with phase := .decided }

/-- **Counting a vote**, the same for all tags. -/
theorem countVote_eq (self : HotStuffNode) (slot : SlotState) (t : HotStuffPhaseTag)
    (r : NodeId) : self.countVote slot t r =
      if slot.phase ≠ stage t then none
      else if self.quorum ≤ (insert r (slot.voters t)).card then
        some ((slot.addVote r t).certify self.id t, some (t, (insert r (slot.voters t)).card))
      else some (slot.addVote r t, none) := by
  cases t <;> rfl

/-- The tag of the votes that a certificate asks for. -/
def nextTag : HotStuffPhaseTag → Option HotStuffPhaseTag
  | .prepare => some .preCommit
  | .preCommit => some .commit
  | .commit => none

section Frame

variable (s : HotStuffState) (v : ViewNumber) (q : SequenceNumber) (ph : HotStuffPhaseTag)

/-- Seeing a certificate leaves all but the record of the highest one alone. -/
@[simp] theorem seeQc_view : (seeQc s v ph).view = s.view := by unfold seeQc; split <;> rfl

@[simp] theorem seeQc_pendingPayloads : (seeQc s v ph).pendingPayloads = s.pendingPayloads := by
  unfold seeQc; split <;> rfl

@[simp] theorem seeQc_committed : (seeQc s v ph).committed = s.committed := by
  unfold seeQc; split <;> rfl

@[simp] theorem seeQc_nextSequence : (seeQc s v ph).nextSequence = s.nextSequence := by
  unfold seeQc; split <;> rfl

@[simp] theorem seeQc_slots : (seeQc s v ph).slots = s.slots := by unfold seeQc; split <;> rfl

variable (e e' : Phase)

/-- Advancing a slot leaves all but the slots alone. -/
@[simp] theorem advanceSlot_view : (advanceSlot s q e e').view = s.view := by
  unfold advanceSlot; split <;> [rfl; split <;> rfl]

@[simp] theorem advanceSlot_pendingPayloads :
    (advanceSlot s q e e').pendingPayloads = s.pendingPayloads := by
  unfold advanceSlot; split <;> [rfl; split <;> rfl]

@[simp] theorem advanceSlot_committed : (advanceSlot s q e e').committed = s.committed := by
  unfold advanceSlot; split <;> [rfl; split <;> rfl]

@[simp] theorem advanceSlot_nextSequence :
    (advanceSlot s q e e').nextSequence = s.nextSequence := by
  unfold advanceSlot; split <;> [rfl; split <;> rfl]

end Frame

/-- Whether a call of `propose` is accepted. -/
def canPropose (self : HotStuffNode) (s : HotStuffState) : Prop :=
  self.leaderForView s.view = self.id

instance (self : HotStuffNode) (s : HotStuffState) : Decidable (canPropose self s) :=
  inferInstanceAs (Decidable (_ = _))

/-- Whether a `Propose` of `view` is accepted. -/
def canAccept (s : HotStuffState) (view : ViewNumber) : Prop := s.view ≤ view

instance (s : HotStuffState) (view : ViewNumber) : Decidable (canAccept s view) :=
  inferInstanceAs (Decidable (_ ≤ _))

/-! ### The steps -/

/-- The steps of a HotStuff node in state `s`: what it processes, its new state, what it
    sends. -/
inductive Effect [Sha256] (self : HotStuffNode) (s : HotStuffState) :
    Cause Call NetworkMessage → HotStuffState → List NetworkMessage → Prop
  | ignore (c : Cause Call NetworkMessage) (hc : ∀ p, c = .call (.propose p) →
      ¬ canPropose self s) (hm : ∀ m v q d p jv jp, c = .recv m →
      m.payload = .hotStuff (.propose v q d p jv jp) → ¬ canAccept s v) : Effect self s c s []
  | poll : Effect self s (.call .pollCommitted) { s with committed := [] } []
  | tickDown :
      Effect self s (.call .tick) { s with viewChangeTimeout := s.viewChangeTimeout - 1 } []
  | timeout (hl : self.leaderForView s.view ≠ self.id) (h0 : s.viewChangeTimeout = 0) :
      Effect self s (.call .tick)
        { s with
          newViewMessages := s.newViewMessages.insert (s.view + 1)
            (insert self.id ((s.newViewMessages.lookup (s.view + 1)).getD ∅))
          viewChangeTimeout := VIEW_CHANGE_TIMEOUT }
        [self.msgTo (self.leaderForView (s.view + 1))
          (.hotStuff (.newView (s.view + 1) s.highestQcView s.highestQcPhase self.id))]
  | assign (p : Payload) (hp : canPropose self s) :
      Effect self s (.call (.propose p))
        { s with
          nextSequence := s.nextSequence + 1
          slots := s.slots.insert s.nextSequence
            { SlotState.new s.view s.nextSequence with
              phase := .prepare
              prepareVoters := {self.id} }
          pendingPayloads := s.pendingPayloads.insert s.nextSequence p }
        (self.broadcastHotstuff (.propose s.view s.nextSequence p.digest p s.highestQcView
          s.highestQcPhase))
  | accept (m : NetworkMessage) (v : ViewNumber) (q : SequenceNumber) (d : Digest) (p : Payload)
      (jv : ViewNumber) (jp : HotStuffPhaseTag)
      (hm : m.payload = .hotStuff (.propose v q d p jv jp)) (hv : canAccept s v) :
      Effect self s (.recv m) (acceptProposal (catchUp s v) v q p)
        [self.msgTo (self.leaderForView v) (.hotStuff (.vote v q d .prepare self.id))]
  | count (m : NetworkMessage) (q : SequenceNumber) (d : Digest) (t : HotStuffPhaseTag)
      (r : NodeId) (slot slot' : SlotState) (hm : m.payload = .hotStuff (.vote s.view q d t r))
      (hl : self.leaderForView s.view = self.id) (hs : s.slots.lookup q = some slot)
      (hc : self.countVote slot t r = some (slot', none)) :
      Effect self s (.recv m) { s with slots := s.slots.insert q slot' } []
  | certify (m : NetworkMessage) (q : SequenceNumber) (d : Digest) (t : HotStuffPhaseTag)
      (r : NodeId) (slot slot' : SlotState) (vc : ℕ)
      (hm : m.payload = .hotStuff (.vote s.view q d t r))
      (hl : self.leaderForView s.view = self.id) (hs : s.slots.lookup q = some slot)
      (hc : self.countVote slot t r = some (slot', some (t, vc))) :
      Effect self s (.recv m) (completeQc s q slot' t)
        (self.broadcastHotstuff (.quorumCertificate s.view q d t vc))
  | learn (m : NetworkMessage) (v : ViewNumber) (q : SequenceNumber) (d : Digest)
      (t : HotStuffPhaseTag) (vc : ℕ)
      (hm : m.payload = .hotStuff (.quorumCertificate v q d t vc)) (hq : self.quorum ≤ vc)
      (hno : v ≠ s.view ∨
        t = .commit ∧ ∀ slot, s.slots.lookup q = some slot → slot.phase = .decided) :
      Effect self s (.recv m) (seeQc s v t) []
  | advance (m : NetworkMessage) (q : SequenceNumber) (d : Digest) (t t' : HotStuffPhaseTag)
      (vc : ℕ) (hm : m.payload = .hotStuff (.quorumCertificate s.view q d t vc))
      (hq : self.quorum ≤ vc) (ht : nextTag t = some t') :
      Effect self s (.recv m) (advanceSlot (seeQc s s.view t) q (stage t) (stage t'))
        [self.msgTo (self.leaderForView s.view) (.hotStuff (.vote s.view q d t' self.id))]
  | decide (m : NetworkMessage) (q : SequenceNumber) (d : Digest) (vc : ℕ) (slot : SlotState)
      (hm : m.payload = .hotStuff (.quorumCertificate s.view q d .commit vc))
      (hq : self.quorum ≤ vc) (hs : s.slots.lookup q = some slot) (hph : slot.phase ≠ .decided) :
      Effect self s (.recv m)
        (commitPending { seeQc s s.view .commit with
          slots := (seeQc s s.view .commit).slots.insert q { slot with phase := .decided } } q) []
  | vote (m : NetworkMessage) (v : ViewNumber) (hv : ViewNumber) (hp : HotStuffPhaseTag)
      (r : NodeId) (hm : m.payload = .hotStuff (.newView v hv hp r)) (hlt : s.view < v) :
      Effect self s (.recv m)
        { s with
          newViewMessages := s.newViewMessages.insert v
            (insert r ((s.newViewMessages.lookup v).getD ∅)) } []
  | install (m : NetworkMessage) (v : ViewNumber) (hv : ViewNumber) (hp : HotStuffPhaseTag)
      (r : NodeId) (hm : m.payload = .hotStuff (.newView v hv hp r)) (hlt : s.view < v)
      (hq : self.quorum ≤ (insert r ((s.newViewMessages.lookup v).getD ∅)).card)
      (hl : self.leaderForView v = self.id) :
      Effect self s (.recv m)
        { enterNewView { s with
            newViewMessages := s.newViewMessages.insert v
              (insert r ((s.newViewMessages.lookup v).getD ∅)) } v with currentView := v } []

variable [Sha256] (self : HotStuffNode) (s : HotStuffState)

/-- Ignoring a message that is not a `Propose`. -/
theorem Effect.ignore_recv {m : NetworkMessage}
    (h : ∀ v q d p jv jp, m.payload ≠ .hotStuff (.propose v q d p jv jp)) :
    Effect self s (.recv m) s [] :=
  .ignore _ (fun p hc => absurd hc (by simp)) fun m' v q d p jv jp hc hm => by
    cases hc
    exact absurd hm (h v q d p jv jp)

/-- A proposal is turned down, or the leader assigns it. -/
theorem propose_effect (p : Payload) :
    Effect self s (.call (.propose p)) (self.propose s p).2.1 (self.propose s p).2.2 := by
  unfold propose
  dsimp only
  split
  · rename_i hp
    exact .ignore _ (fun p' _ hcan => hp hcan) fun m v q d p' jv jp hc => absurd hc (by simp)
  · rename_i hp
    exact .assign p (not_not.mp hp)

/-- A tick counts the timeout down, runs it out with a request, or does nothing. -/
theorem tick_effect : Effect self s (.call .tick) (self.tick s).1 (self.tick s).2 := by
  unfold tick
  split
  · exact .ignore _ (fun p hc => absurd hc (by simp)) fun m v q d p jv jp hc => absurd hc (by simp)
  · rename_i hl
    split
    · rename_i h0
      exact .timeout hl h0
    · exact .tickDown

variable {m : NetworkMessage}

/-- A `Propose` of the current view or a later one is accepted. -/
theorem handlePropose_effect {v : ViewNumber} {q : SequenceNumber} {d : Digest} {p : Payload}
    {jv : ViewNumber} {jp : HotStuffPhaseTag}
    (hm : m.payload = .hotStuff (.propose v q d p jv jp)) :
    Effect self s (.recv m) (self.handlePropose s v q d p).1 (self.handlePropose s v q d p).2 := by
  by_cases hv : s.view ≤ v
  · have hcatch : (catchUp s v).view = v := by
      unfold catchUp
      split
      · rfl
      · rename_i h
        exact le_antisymm hv (not_lt.mp h)
    have h : Effect self s _ _ _ := .accept m v q d p jv jp hm hv
    unfold handlePropose
    change Effect self s (.recv m)
      (if v ≠ (catchUp s v).view then (catchUp s v, []) else _).1
      (if v ≠ (catchUp s v).view then (catchUp s v, []) else _).2
    rw [if_neg (by rw [hcatch]; exact not_not.mpr rfl)]
    exact h
  · have hstale : ¬ v > s.view := fun h => hv (le_of_lt h)
    have hne : v ≠ s.view := fun h => hv (le_of_eq h.symm)
    unfold handlePropose
    simp only [hstale, if_false, if_pos hne]
    refine .ignore _ (fun p hc => absurd hc (by simp)) fun m' v' q' d' p' jv' jp' hc hm' hcan => ?_
    cases hc
    rw [hm] at hm'
    cases hm'
    exact hv hcan

omit [Sha256] in
/-- A completed certificate has the tag of the vote that completes it. -/
theorem countVote_tag {slot slot' : SlotState} {t t' : HotStuffPhaseTag} {r : NodeId} {vc : ℕ}
    (h : self.countVote slot t r = some (slot', some (t', vc))) : t' = t := by
  rw [countVote_eq] at h
  split at h
  · exact absurd h (by simp)
  · split at h
    · simp only [Option.some.injEq, Prod.mk.injEq] at h
      exact h.2.1.symm
    · exact absurd h (by simp)

/-- A vote counts at the leader towards a slot in its stage, and may complete a certificate. -/
theorem handleVote_effect {v : ViewNumber} {q : SequenceNumber} {d : Digest}
    {t : HotStuffPhaseTag} {r : NodeId} (hm : m.payload = .hotStuff (.vote v q d t r)) :
    Effect self s (.recv m) (self.handleVote s v q d t r).1 (self.handleVote s v q d t r).2 := by
  have hignore : Effect self s (.recv m) s [] :=
    .ignore_recv self s fun v q d p jv jp h => by rw [hm] at h; exact absurd h (by simp)
  unfold handleVote
  split
  · exact hignore
  · rename_i hl
    split
    · exact hignore
    · rename_i hv
      rw [not_not] at hl hv
      subst hv
      cases hs : s.slots.lookup q with
      | none => exact hignore
      | some slot =>
        dsimp only
        cases hc : self.countVote slot t r with
        | none => exact hignore
        | some r' =>
          obtain ⟨slot', action⟩ := r'
          cases action with
          | none => exact .count m q d t r slot slot' hm hl hs hc
          | some a =>
            obtain ⟨t', vc⟩ := a
            have ht := countVote_tag self hc
            subst ht
            exact .certify m q d _ r slot slot' vc hm hl hs hc

omit [Sha256] in
/-- A certificate of the view that asks for votes moves the slot on, if there is one in the phase
    for it, and is answered with a vote in any case. -/
theorem handleQuorumCertificate_eq {q : SequenceNumber} {t t' : HotStuffPhaseTag} {vc : ℕ}
    (hq : self.quorum ≤ vc) (ht : nextTag t = some t') (d : Digest) :
    self.handleQuorumCertificate s s.view q d t vc =
      (advanceSlot (seeQc s s.view t) q (stage t) (stage t'),
        [self.msgTo (self.leaderForView s.view) (.hotStuff (.vote s.view q d t' self.id))]) := by
  unfold handleQuorumCertificate
  rw [if_neg (not_lt.mpr hq)]
  show (if s.view ≠ (seeQc s s.view t).view then (seeQc s s.view t, []) else _) = _
  rw [if_neg (by simp)]
  cases t <;> cases ht <;> rfl

omit [Sha256] in
/-- A `Commit` certificate of the view decides a slot that is not decided yet. -/
theorem handleQuorumCertificate_commit {q : SequenceNumber} {vc : ℕ} {slot : SlotState}
    (hq : self.quorum ≤ vc) (hs : s.slots.lookup q = some slot) (hph : slot.phase ≠ .decided)
    (d : Digest) : (self.handleQuorumCertificate s s.view q d .commit vc).1 =
      commitPending { seeQc s s.view .commit with
        slots := (seeQc s s.view .commit).slots.insert q { slot with phase := .decided } } q := by
  have hslot : (seeQc s s.view .commit).slots.lookup q = some slot := by rw [seeQc_slots, hs]
  unfold handleQuorumCertificate
  rw [if_neg (not_lt.mpr hq)]
  show (if s.view ≠ (seeQc s s.view .commit).view then (seeQc s s.view .commit, [])
    else decideSlot (seeQc s s.view .commit) q).1 = _
  rw [if_neg (by simp), decideSlot, hslot]
  dsimp only
  rw [if_pos hph]

/-- A certificate with enough votes is seen, and advances or decides its slot. -/
theorem handleQuorumCertificate_effect {v : ViewNumber} {q : SequenceNumber} {d : Digest}
    {t : HotStuffPhaseTag} {vc : ℕ}
    (hm : m.payload = .hotStuff (.quorumCertificate v q d t vc)) :
    Effect self s (.recv m) (self.handleQuorumCertificate s v q d t vc).1
      (self.handleQuorumCertificate s v q d t vc).2 := by
  unfold handleQuorumCertificate
  split
  · exact .ignore_recv self s fun v q d p jv jp h => by rw [hm] at h; exact absurd h (by simp)
  · rename_i hq
    rw [not_lt] at hq
    change Effect self s (.recv m)
      (if v ≠ (seeQc s v t).view then (seeQc s v t, []) else _).1
      (if v ≠ (seeQc s v t).view then (seeQc s v t, []) else _).2
    rw [seeQc_view]
    split
    · rename_i hv
      exact .learn m v q d t vc hm hq (.inl hv)
    · rename_i hv
      rw [not_not] at hv
      subst hv
      cases t with
      | prepare => exact .advance m q d .prepare .preCommit vc hm hq rfl
      | preCommit => exact .advance m q d .preCommit .commit vc hm hq rfl
      | commit =>
        change Effect self s (.recv m) (decideSlot (seeQc s s.view .commit) q).1
          (decideSlot (seeQc s s.view .commit) q).2
        have hslots := congrArg (fun m => AList.lookup q m) (seeQc_slots s s.view .commit)
        unfold decideSlot
        cases hs : s.slots.lookup q with
        | none =>
          rw [hslots.trans hs]
          exact .learn m _ q d .commit vc hm hq (.inr ⟨rfl, fun slot h => by
            rw [hs] at h; exact absurd h (by simp)⟩)
        | some slot =>
          rw [hslots.trans hs]
          dsimp only
          split
          · rename_i hph
            exact .decide m q d vc slot hm hq hs hph
          · rename_i hph
            refine .learn m _ q d .commit vc hm hq (.inr ⟨rfl, fun slot' h => ?_⟩)
            rw [hs, Option.some.injEq] at h
            subst h
            exact not_not.mp hph

/-- A request for a later view is counted, and makes its leader install the view with a quorum. -/
theorem handleNewView_effect {v hv : ViewNumber} {hp : HotStuffPhaseTag} {r : NodeId}
    (hm : m.payload = .hotStuff (.newView v hv hp r)) :
    Effect self s (.recv m) (self.handleNewView s v r).1 (self.handleNewView s v r).2 := by
  unfold handleNewView
  split
  · exact .ignore_recv self s fun v q d p jv jp h => by rw [hm] at h; exact absurd h (by simp)
  · rename_i hlt
    rw [not_le] at hlt
    dsimp only
    split
    · rename_i hq
      exact .install m v hv hp r hm hlt hq.1 hq.2
    · exact .vote m v hv hp r hm hlt

/-- **Handling a message** has one of the effects, whatever the message is. -/
theorem handleMessage_effect (m : NetworkMessage) :
    Effect self s (.recv m) (self.handleMessage s m).1 (self.handleMessage s m).2 := by
  unfold handleMessage
  split
  · rename_i h; exact handlePropose_effect self s h
  · rename_i h; exact handleVote_effect self s h
  · rename_i h; exact handleQuorumCertificate_effect self s h
  · rename_i h; exact handleNewView_effect self s h
  · rename_i h _ _ _
    exact .ignore_recv self s h

/-- **Inversion.**  Every step of the system is one of the listed effects. -/
theorem effect_of_fires {n : ℕ} {cfg : FaultConfig}
    {w : World NodeId HotStuffState Call NetworkMessage} {o : NodeStep HotStuffState}
    (h : (system n cfg).Fires w o) : Effect (node n o.node) o.before o.cause o.after o.sent := by
  cases h with
  | call i a hi =>
    cases a with
    | propose p => exact propose_effect _ _ p
    | tick => exact tick_effect _ _
    | pollCommitted => exact .poll
  | recv m m' s out hm hsent hcarry hmem hrecv =>
    have hout : ((node n m'.target).handleMessage (w.nodes m'.target) m') = (s, out) :=
      Option.some.inj hrecv
    have h := handleMessage_effect (node n m'.target) (w.nodes m'.target) m'
    rw [hout] at h
    exact h

/-- Only polling takes anything out of the queue of a HotStuff node. -/
theorem Effect.queue_grows {self : HotStuffNode} {s s' : HotStuffState}
    {c : Cause Call NetworkMessage} {out : List NetworkMessage}
    (h : Effect self s c s' out) (hc : c ≠ .call .pollCommitted) :
    ∃ es, s'.committed = s.committed ++ es := by
  have hsame : ∀ {t : HotStuffState}, t.committed = s.committed →
      ∃ es, t.committed = s.committed ++ es := fun h => ⟨[], by rw [h, List.append_nil]⟩
  have hpending : ∀ (t : HotStuffState) q, t.committed = s.committed →
      ∃ es, (commitPending t q).committed = s.committed ++ es := by
    intro t q ht
    unfold commitPending
    split
    · exact hsame ht
    · exact ⟨_, by rw [← ht]⟩
  cases h with
  | poll => exact absurd rfl hc
  | accept m v q d p jv jp hm hv =>
    apply hsame
    unfold acceptProposal catchUp
    split
    · rfl
    · rfl
  | certify m q d t r slot slot' vc =>
    unfold completeQc
    split
    · exact hpending _ _ rfl
    · exact hsame rfl
  | learn m v q d t => exact hsame (seeQc_committed _ _ _)
  | advance m q d t t' =>
    apply hsame
    rw [advanceSlot_committed, seeQc_committed]
  | decide m q d vc slot => exact hpending _ _ (seeQc_committed _ _ _)
  | _ => exact hsame rfl

/-- A node becomes what it makes of the message it receives. -/
theorem after_of_recv {n : ℕ} {cfg : FaultConfig}
    {w : World NodeId HotStuffState Call NetworkMessage} {o : NodeStep HotStuffState}
    (hf : (system n cfg).Fires w o) {m : NetworkMessage} (hc : o.cause = .recv m) :
    o.after = ((node n o.node).handleMessage o.before m).1 :=
  (congrArg Prod.fst (Option.some.inj (hf.recv_eq hc))).symm

end HotStuff

end ConsensusBench
