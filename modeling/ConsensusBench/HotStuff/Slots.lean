import ConsensusBench.HotStuff.Ledger
import ConsensusBench.HotStuff.Round

namespace ConsensusBench

/-!
# HotStuff: votes and the slots they are for

A replica answers a certificate of its view with a vote for the next phase, whether it has a slot
for the sequence or not, and whatever phase the slot is in.

* `holdsSlot_advance` — the slot fits the vote behind the certificate if it fits the certificate
  before it.
* `votes_match_slots` — so votes match the slots of their voters if, and only if, certificates do.
-/

open AsyncNet HotStuffNode

namespace HotStuff

/-- The node holds a slot for `sequence` that was created in `view` and is in `phase` or later. -/
def HoldsSlot (state : HotStuffState) (view : ViewNumber) (sequence : SequenceNumber)
    (phase : Phase) : Prop :=
  ∃ slot ∈ state.slots.lookup sequence, slot.view = view ∧ phase.level ≤ slot.phase.level

instance (state : HotStuffState) (view : ViewNumber) (sequence : SequenceNumber)
    (phase : Phase) : Decidable (HoldsSlot state view sequence phase) :=
  inferInstanceAs (Decidable (∃ slot ∈ state.slots.lookup sequence, _))

/-- The certificates that ask a node for a vote meet a slot of their view, in the phase that they
    are for or later. -/
def CertificateMeetsSlot (self : HotStuffNode) (state : HotStuffState) :
    Cause Call NetworkMessage → Prop
  | .recv ⟨_, _, .hotStuff (.quorumCertificate view sequence _ phase voteCount)⟩ =>
      self.quorum ≤ voteCount → view = state.view → nextTag phase ≠ none →
        HoldsSlot state view sequence (stage phase)
  | _ => True

instance (self : HotStuffNode) (state : HotStuffState) :
    DecidablePred (CertificateMeetsSlot self state)
  | .recv ⟨_, _, .hotStuff (.quorumCertificate ..)⟩ =>
      inferInstanceAs (Decidable (_ → _ → _ → _))
  | .recv ⟨_, _, .hotStuff (.propose ..)⟩ => .isTrue trivial
  | .recv ⟨_, _, .hotStuff (.vote ..)⟩ => .isTrue trivial
  | .recv ⟨_, _, .hotStuff (.newView ..)⟩ => .isTrue trivial
  | .recv ⟨_, _, .pbft _⟩ => .isTrue trivial
  | .recv ⟨_, _, .raft _⟩ => .isTrue trivial
  | .call _ => .isTrue trivial

/-- The view, sequence and phase of a `PreCommit` or `Commit` vote. -/
def laterVoteOf : ProtocolMessage → Option (ViewNumber × SequenceNumber × HotStuffPhaseTag)
  | .hotStuff (.vote view sequence _ .preCommit _) => some (view, sequence, .preCommit)
  | .hotStuff (.vote view sequence _ .commit _) => some (view, sequence, .commit)
  | _ => none

/-- Whoever sends a `PreCommit` or `Commit` vote then holds a slot of its view, in that phase or
    later. -/
def VotesMatchSlot (o : NodeStep HotStuffState) : Prop :=
  ∀ m ∈ o.sent, ∀ vote ∈ laterVoteOf m.payload,
    HoldsSlot o.after vote.1 vote.2.1 (stage vote.2.2)

instance (o : NodeStep HotStuffState) : Decidable (VotesMatchSlot o) :=
  inferInstanceAs (Decidable (∀ m ∈ o.sent, _))

theorem phase_level_injective {e e' : Phase} (h : e.level = e'.level) : e = e' := by
  cases e <;> cases e' <;> first | rfl | exact absurd h (by decide)

/-- **A certificate moves a slot on** that is in its phase, and no other: behind it, the slot is in
    the next phase or later if it was in the phase of the certificate or later. -/
theorem holdsSlot_advance {s : HotStuffState} {v : ViewNumber} {q : SequenceNumber}
    {t t' : HotStuffPhaseTag} (ht : nextTag t = some t') (u : ViewNumber) :
    HoldsSlot (advanceSlot (seeQc s u t) q (stage t) (stage t')) v q (stage t') ↔
      HoldsSlot s v q (stage t) := by
  have hnext : (stage t').level = (stage t).level + 1 := by
    rw [level_stage, level_stage, phaseOrd_of_nextTag ht]
  unfold HoldsSlot advanceSlot
  rw [seeQc_slots]
  cases hs : s.slots.lookup q with
  | none =>
    dsimp only
    rw [seeQc_slots, hs]
    simp
  | some slot =>
    dsimp only
    by_cases hph : slot.phase = stage t
    · rw [if_pos hph]
      dsimp only
      rw [AList.lookup_insert]
      simp [hph]
    · rw [if_neg hph, seeQc_slots, hs]
      -- the slot stays, and is not in the phase of the certificate
      have hlevel : slot.phase.level ≠ (stage t).level := fun h => hph (phase_level_injective h)
      simp only [Option.mem_def, Option.some.injEq, exists_eq_left']
      constructor
      · rintro ⟨hv, hle⟩
        exact ⟨hv, by omega⟩
      · rintro ⟨hv, hle⟩
        exact ⟨hv, by omega⟩

section Steps

variable [Sha256] {n : ℕ} {cfg : FaultConfig}
variable {w : World NodeId HotStuffState Call NetworkMessage} {o : NodeStep HotStuffState}

/-- What a node does about a certificate that asks it for a vote. -/
theorem step_of_certificate (hf : (system n cfg).Fires w o) {m : NetworkMessage}
    (hc : o.cause = .recv m) {q : SequenceNumber} {d : Digest} {t t' : HotStuffPhaseTag} {vc : ℕ}
    (hm : m.payload = .hotStuff (.quorumCertificate o.before.view q d t vc))
    (hq : (node n o.node).quorum ≤ vc) (ht : nextTag t = some t') :
    o.after = advanceSlot (seeQc o.before o.before.view t) q (stage t) (stage t') ∧
      o.sent = [(node n o.node).msgTo ((node n o.node).leaderForView o.before.view)
        (.hotStuff (.vote o.before.view q d t' o.node))] := by
  cases hf with
  | call i a hi => exact absurd hc (by simp)
  | recv m₀ m₁ s out hm₀ hsent hcarry hmem hrecv =>
    cases hc
    have hstep : (node n m.target).handleMessage (w.nodes m.target) m = (s, out) :=
      Option.some.inj hrecv
    have hm' : m.payload = .hotStuff (.quorumCertificate (w.nodes m.target).view q d t vc) := hm
    unfold handleMessage at hstep
    rw [hm'] at hstep
    have heq := handleQuorumCertificate_eq (node n m.target) (w.nodes m.target) hq ht d (q := q)
    exact Prod.mk.inj (hstep.symm.trans heq)

/-- **A step's votes match the slots** if, and only if, the certificate it processes does. -/
theorem votesMatchSlot_iff (hf : (system n cfg).Fires w o) :
    VotesMatchSlot o ↔ CertificateMeetsSlot (node n o.node) o.before o.cause := by
  constructor
  · intro hvotes
    unfold CertificateMeetsSlot
    split
    · rename_i src dst v q d t vc hc
      intro hq hv hask
      subst hv
      obtain ⟨t', ht⟩ := Option.ne_none_iff_exists'.mp hask
      obtain ⟨hafter, hsent⟩ := step_of_certificate hf hc rfl hq ht
      have hmem : (node n o.node).msgTo ((node n o.node).leaderForView o.before.view)
          (.hotStuff (.vote o.before.view q d t' o.node)) ∈ o.sent := by
        rw [hsent]
        exact List.mem_singleton_self _
      -- whatever phase asks for a vote, it is not `Prepare` that it asks for
      have hlater : laterVoteOf (.hotStuff (.vote o.before.view q d t' o.node)) =
          some (o.before.view, q, t') := by
        cases t <;> cases ht <;> rfl
      have hholds : HoldsSlot o.after o.before.view q (stage t') := hvotes _ hmem _ hlater
      rw [hafter] at hholds
      exact (holdsSlot_advance ht _).mp hholds
    · trivial
  · intro hmeets m hm vote hvote
    obtain ⟨j, x, rfl, hsaid⟩ := (effect_of_fires hf).sent_said hm
    cases hsaid with
    | vote m' q d t t' vc hc hm' hq ht hj =>
      obtain ⟨hafter, _⟩ := step_of_certificate hf hc hm' hq ht
      have hfits : HoldsSlot o.before o.before.view q (stage t) := by
        obtain ⟨src, dst, payload⟩ := m'
        cases hm'
        rw [hc] at hmeets
        exact hmeets hq rfl (by rw [ht]; simp)
      have hlater : vote = (o.before.view, q, t') := by
        cases t <;> cases ht <;> exact (Option.some.inj hvote).symm
      rw [hlater, hafter]
      exact (holdsSlot_advance ht _).mpr hfits
    | _ => exact absurd hvote (by simp [laterVoteOf])

/-- **Votes match the slots of their voters** in the runs in which the certificates do that ask for
    them. -/
theorem votes_match_slots (hw : (system n cfg).Reach System.anyStep w) :
    (∀ o ∈ w.history, VotesMatchSlot o) ↔
      ∀ o ∈ w.history, CertificateMeetsSlot (node n o.node) o.before o.cause :=
  hw.forall_iff fun _ _ _ hf => votesMatchSlot_iff hf

end Steps

/-- Node `1` gets the proposal and then the `Prepare` certificate. -/
theorem votes_match_slots_four : ∃ w, (@system Sha256.sample 4 {}).Reach System.anyStep w ∧
    (⟨1, 0, .hotStuff (.vote 0 1 (@Payload.digest Sha256.sample ⟨[0x70]⟩) .preCommit 1)⟩ :
      NetworkMessage) ∈ w.inFlight ∧ ∀ o ∈ w.history, VotesMatchSlot o := by
  obtain ⟨w, hw, hmeets, hvote⟩ := System.Reach.exists_of_run (S := @system Sha256.sample 4 {})
    (P := fun w => (∀ o ∈ w.history, CertificateMeetsSlot (node 4 o.node) o.before o.cause) ∧
      (⟨1, 0, .hotStuff (.vote 0 1 (@Payload.digest Sha256.sample ⟨[0x70]⟩) .preCommit 1)⟩ :
        NetworkMessage) ∈ w.inFlight)
    (.call 0 (.propose ⟨[0x70]⟩) :: [0, 0, 1, 1, 1].map .deliver) (by decide +kernel)
  exact ⟨w, hw, hvote, (@votes_match_slots Sha256.sample 4 {} w hw).mpr hmeets⟩

/-- The proposal is late at node `3`, which votes on the certificate without a slot. -/
theorem vote_without_slot : ∃ w, (@system Sha256.sample 4 {}).Reach System.anyStep w ∧
    ¬ ∀ o ∈ w.history, VotesMatchSlot o :=
  System.Reach.exists_of_run (S := @system Sha256.sample 4 {})
    (P := fun w => ¬ ∀ o ∈ w.history, VotesMatchSlot o)
    (.call 0 (.propose ⟨[0x70]⟩) :: [0, 0, 1, 1, 3].map .deliver) (by decide +kernel)

end HotStuff

end ConsensusBench
