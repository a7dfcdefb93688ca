import ConsensusBench.Pbft.Order

namespace ConsensusBench

/-!
# PBFT: the digests that nodes vote for

A node copies the digest of its votes from the message it answers: that of a `Prepare` from the
`PrePrepare`, that of a `Commit` from the `Prepare` that completes the threshold.  Neither is
compared with the payload.

* `Effect.names_stored` — so its votes name the payload it holds if these messages do.
* `matches_of_names` — and only then.
-/

open AsyncNet PbftNode

namespace Pbft

/-- Whether a `Prepare` vote of `replica` completes the threshold of the slot of `sequence`. -/
def completesThreshold (self : PbftNode) (state : PbftState) (view : ViewNumber)
    (sequence : SequenceNumber) (replica : NodeId) : Prop :=
  view = state.view ∧ ∃ slot ∈ state.slots.lookup sequence, slot.phase = .prePrepared ∧
    self.prepareThreshold ≤ (slot.addPrepare replica).prepareVoters.card

instance (self : PbftNode) (state : PbftState) (view : ViewNumber) (sequence : SequenceNumber)
    (replica : NodeId) : Decidable (completesThreshold self state view sequence replica) :=
  inferInstanceAs (Decidable (_ ∧ _))

variable [Sha256]

/-- The digest of the payload that a node holds for `sequence`. -/
def storedDigest (state : PbftState) (sequence : SequenceNumber) : Option Digest :=
  (state.pendingPayloads.lookup sequence).map Payload.digest

/-- The `PrePrepare`s a node accepts carry the digest of their payload, and the `Prepare`s that
    complete a threshold the digest of the payload it holds. -/
def MatchesStored (self : PbftNode) (state : PbftState) : Cause Call NetworkMessage → Prop
  | .recv ⟨_, _, .pbft (.prePrepare view _ digest payload)⟩ =>
      canAccept state view → digest = payload.digest
  | .recv ⟨_, _, .pbft (.prepare view sequence digest replica)⟩ =>
      completesThreshold self state view sequence replica →
        storedDigest state sequence = some digest
  | _ => True

instance (self : PbftNode) (state : PbftState) : DecidablePred (MatchesStored self state)
  | .recv ⟨_, _, .pbft (.prePrepare ..)⟩ => inferInstanceAs (Decidable (_ → _))
  | .recv ⟨_, _, .pbft (.prepare ..)⟩ => inferInstanceAs (Decidable (_ → _))
  | .recv ⟨_, _, .pbft (.commit ..)⟩ => .isTrue trivial
  | .recv ⟨_, _, .pbft (.viewChange ..)⟩ => .isTrue trivial
  | .recv ⟨_, _, .pbft (.newView ..)⟩ => .isTrue trivial
  | .recv ⟨_, _, .raft _⟩ => .isTrue trivial
  | .recv ⟨_, _, .hotStuff _⟩ => .isTrue trivial
  | .call _ => .isTrue trivial

/-- The digest and the sequence of a `Prepare` or `Commit`. -/
def voteOf : ProtocolMessage → Option (SequenceNumber × Digest)
  | .pbft (.prepare _ sequence digest _) => some (sequence, digest)
  | .pbft (.commit _ sequence digest _) => some (sequence, digest)
  | _ => none

/-- The votes that a step sends name the payload its node then holds for the sequence. -/
def NamesStored (o : NodeStep PbftState) : Prop :=
  ∀ m ∈ o.sent, ∀ vote ∈ voteOf m.payload, storedDigest o.after vote.1 = some vote.2

instance (o : NodeStep PbftState) : Decidable (NamesStored o) :=
  inferInstanceAs (Decidable (∀ m ∈ o.sent, _))

section Steps

variable {n : ℕ} {cfg : FaultConfig} {i : NodeId} {s s' : PbftState}

omit [Sha256] in
/-- What a broadcast of one vote says. -/
theorem voteOf_broadcast {x : PbftMessage} {vote : SequenceNumber × Digest} {m : NetworkMessage}
    (hm : m ∈ (node n i).broadcastPbft x) (hv : vote ∈ voteOf m.payload) :
    vote ∈ voteOf (.pbft x) := by
  obtain ⟨_, _, _, rfl⟩ := mem_broadcastPbft.mp hm
  exact hv

/-- **Votes name what the messages they answer name.** -/
theorem Effect.names_stored {c : Cause Call NetworkMessage} {out : List NetworkMessage}
    (h : Effect (node n i) s c s' out) (hok : MatchesStored (node n i) s c) :
    NamesStored ⟨i, c, s, s', out⟩ := by
  intro m hm vote hv
  cases h with
  | assign p hp =>
    have hstored : vote ∈ some (s.nextSequence, p.digest) := by
      rcases List.mem_append.mp hm with hm | hm
      · exact absurd (voteOf_broadcast hm hv) (by simp [voteOf])
      · exact voteOf_broadcast hm hv
    cases hstored
    show ((s.pendingPayloads.insert s.nextSequence p).lookup s.nextSequence).map _ = _
    rw [AList.lookup_insert, Option.map_some]
  | accept m' q d p hm' ha =>
    obtain ⟨_, _, _⟩ := m'
    cases hm'
    have hd : d = p.digest := hok ha
    cases voteOf_broadcast hm hv
    show ((s.pendingPayloads.insert q p).lookup q).map _ = some d
    rw [AList.lookup_insert, Option.map_some, hd]
  | prepare m' q d r slot hm' hs hph hq =>
    obtain ⟨_, _, _⟩ := m'
    cases hm'
    cases voteOf_broadcast hm hv
    exact hok ⟨rfl, slot, hs, hph, hq⟩
  | timeout => exact absurd (voteOf_broadcast hm hv) (by simp [voteOf])
  | vote m' v r l votes out hm' hlt hvotes =>
    exact absurd (voteOf_broadcast (mem_of_joined hm hvotes) hv) (by simp [voteOf])
  | install m' v r l votes out hm' hlt hvotes hq hp =>
    rcases List.mem_append.mp hm with hm | hm
    · exact absurd (voteOf_broadcast (mem_of_joined hm hvotes) hv) (by simp [voteOf])
    · exact absurd (voteOf_broadcast hm hv) (by simp [voteOf])
  | _ => exact absurd hm (by simp)

/-- What a node sends for an accepted `PrePrepare`. -/
theorem handlePrePrepare_accepted (self : PbftNode) {v : ViewNumber} (ha : canAccept s v)
    (q : SequenceNumber) (d : Digest) (p : Payload) :
    storedDigest (self.handlePrePrepare s v q d p).1 q = some p.digest ∧
      (self.handlePrePrepare s v q d p).2 = self.broadcastPbft (.prepare v q d self.id) := by
  obtain ⟨rfl, hchange⟩ := ha
  have hguard : ¬ (s.view ≠ s.view ∨ s.viewChangeInProgress = true) := by simp [hchange]
  rw [handlePrePrepare, if_neg hguard]
  refine ⟨?_, rfl⟩
  show ((s.pendingPayloads.insert q p).lookup q).map _ = _
  rw [AList.lookup_insert, Option.map_some]

/-- What a node sends for a `Prepare` that completes a threshold. -/
theorem handlePrepare_completes {self : PbftNode} {v : ViewNumber} {q : SequenceNumber}
    {r : NodeId} (hc : completesThreshold self s v q r) (d : Digest) :
    storedDigest (self.handlePrepare s v q d r).1 q = storedDigest s q ∧
      (self.handlePrepare s v q d r).2 = self.broadcastPbft (.commit v q d self.id) := by
  obtain ⟨rfl, slot, hs, hph, hq⟩ := hc
  have hlookup : s.slots.lookup q = some slot := hs
  simp only [SlotState.addPrepare] at hq
  simp only [handlePrepare, ne_eq, not_true_eq_false, if_false, hlookup, hph, if_true, hq]
  exact ⟨rfl, trivial⟩

/-- **Only then**: a node with peers that is sent another digest passes it on. -/
theorem matches_of_names {w : World NodeId PbftState Call NetworkMessage}
    {ok : System.Guard NodeId PbftState Call NetworkMessage} (hw : (system n cfg).Reach ok w)
    {o : NodeStep PbftState} (hf : (system n cfg).Fires w o) (hnames : NamesStored o) :
    MatchesStored (node n o.node) o.before o.cause := by
  -- a broadcast reaches the sender of the message, so its digest is a vote of the step
  have hvote : ∀ {m : NetworkMessage} {x : PbftMessage} {vote : SequenceNumber × Digest},
      o.cause = .recv m → o.sent = (node n o.node).broadcastPbft x →
      voteOf (.pbft x) = some vote → storedDigest o.after vote.1 = some vote.2 := by
    intro m x vote hc hout hx
    obtain ⟨_, hne, o₀, _, _, _, _, hsender, hlt, _⟩ := recv_source hw hf hc
    refine hnames ⟨o.node, m.sender, .pbft x⟩ ?_ vote hx
    rw [hout]
    exact mem_broadcastPbft.mpr ⟨m.sender, by rw [hsender]; exact hlt, hne, rfl⟩
  cases hf with
  | call i a hi => trivial
  | recv m m' s out hm hsent hcarry hmem hrecv =>
    have hstep : (node n m'.target).handleMessage (w.nodes m'.target) m' = (s, out) :=
      Option.some.inj hrecv
    obtain ⟨src, dst, payload⟩ := m'
    dsimp only at hstep hvote ⊢
    unfold MatchesStored
    split
    · rename_i v q d p heq
      cases heq
      intro (ha : canAccept (w.nodes dst) v)
      obtain ⟨hstored, hout⟩ := handlePrePrepare_accepted (node n dst) ha q d p
      rw [show (node n dst).handlePrePrepare (w.nodes dst) v q d p = (s, out) from hstep]
        at hstored hout
      have hnamed := hvote rfl hout rfl
      rw [hstored, Option.some.injEq] at hnamed
      exact hnamed.symm
    · rename_i v q d r heq
      cases heq
      intro (hcomplete : completesThreshold (node n dst) (w.nodes dst) v q r)
      obtain ⟨hstored, hout⟩ := handlePrepare_completes hcomplete d
      rw [show (node n dst).handlePrepare (w.nodes dst) v q d r = (s, out) from hstep]
        at hstored hout
      exact hstored.symm.trans (hvote rfl hout rfl)
    · trivial

end Steps

/-! ### The votes of honest nodes -/

variable {n : ℕ} {cfg : FaultConfig} {w : World NodeId PbftState Call NetworkMessage}

/-- **The votes of the honest nodes name the payloads they hold**, in the runs in which what they
    accept, and what completes their thresholds, carries the digest of the payload. -/
theorem votes_name_payload (hw : (system n cfg).Reach System.anyStep w) :
    (∀ o ∈ w.history, cfg.isByzantine o.node = false → NamesStored o) ↔
      ∀ o ∈ w.history, cfg.isByzantine o.node = false →
        MatchesStored (node n o.node) o.before o.cause := by
  apply hw.forall_iff
  intro w₀ o hr hf
  apply imp_congr_right
  intro _
  constructor
  · exact matches_of_names hr hf
  · exact (effect_of_fires hf).names_stored

omit [Sha256] in
/-- Node `3` corrupts its digests, but the `Prepare`s of nodes `0` and `2` come first. -/
theorem votes_name_payload_four : ∃ w,
    (@system Sha256.sample 4 (FaultConfig.withByzantine {} 3 [.corruptDigest])).Reach
      System.anyStep w ∧
    (⟨1, 0, .pbft (.commit 0 1 (@Payload.digest Sha256.sample ⟨[0x70]⟩) 1)⟩ : NetworkMessage) ∈
      w.inFlight ∧
    ∀ o ∈ w.history, (FaultConfig.withByzantine {} 3 [.corruptDigest]).isByzantine o.node = false →
      @NamesStored Sha256.sample o := by
  obtain ⟨w, hw, hmatches, hcommit⟩ := System.Reach.exists_of_run
    (S := @system Sha256.sample 4 (FaultConfig.withByzantine {} 3 [.corruptDigest]))
    (P := fun w => (∀ o ∈ w.history,
        (FaultConfig.withByzantine {} 3 [.corruptDigest]).isByzantine o.node = false →
        @MatchesStored Sha256.sample (node 4 o.node) o.before o.cause) ∧
      (⟨1, 0, .pbft (.commit 0 1 (@Payload.digest Sha256.sample ⟨[0x70]⟩) 1)⟩ :
        NetworkMessage) ∈ w.inFlight)
    (.call 0 (.propose ⟨[0x70]⟩) :: [0, 0, 1, 7].map .deliver) (by decide +kernel)
  exact ⟨w, hw, hcommit, (@votes_name_payload Sha256.sample 4 _ w hw).mpr hmatches⟩

omit [Sha256] in
/-- The corrupted `Prepare` of node `3` completes the threshold of node `1`, which is not faulty
    and passes the digest on. -/
theorem corrupted_digest_passed_on :
    ((FaultConfig.withByzantine {} 3 [.corruptDigest]).byzantine 4).card ≤ (4 - 1) / 3 ∧ ∃ w,
      (@system Sha256.sample 4 (FaultConfig.withByzantine {} 3 [.corruptDigest])).Reach
        System.anyStep w ∧
      ¬ ∀ o ∈ w.history, (FaultConfig.withByzantine {} 3 [.corruptDigest]).isByzantine o.node =
        false → @NamesStored Sha256.sample o := by
  refine ⟨by decide, ?_⟩
  exact System.Reach.exists_of_run
    (S := @system Sha256.sample 4 (FaultConfig.withByzantine {} 3 [.corruptDigest]))
    (P := fun w => ¬ ∀ o ∈ w.history,
      (FaultConfig.withByzantine {} 3 [.corruptDigest]).isByzantine o.node = false →
        @NamesStored Sha256.sample o)
    (.call 0 (.propose ⟨[0x70]⟩) :: [0, 1, 1, 7].map .deliver) (by decide +kernel)

end Pbft

end ConsensusBench
