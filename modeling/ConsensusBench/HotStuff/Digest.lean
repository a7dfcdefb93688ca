import ConsensusBench.HotStuff.Order

namespace ConsensusBench

/-!
# HotStuff: the digests that leaders certify

A leader copies the digest of a certificate from the vote that completes the quorum, and does not
compare it with what it proposed.

* `pending_assigned` — the payloads a leader holds are those it proposed in its view.
* `certificates_name_proposal` — so its certificates name its proposals if, and only if, the votes
  that complete its quorums do.
-/

open AsyncNet HotStuffNode

namespace HotStuff

/-- Whether a vote of `voter` completes a certificate of this leader. -/
def completesCertificate (self : HotStuffNode) (state : HotStuffState) (view : ViewNumber)
    (sequence : SequenceNumber) (phase : HotStuffPhaseTag) (voter : NodeId) : Prop :=
  self.leaderForView state.view = self.id ∧ view = state.view ∧
    ∃ slot ∈ state.slots.lookup sequence, slot.phase = stage phase ∧
      self.quorum ≤ (insert voter (slot.voters phase)).card

instance (self : HotStuffNode) (state : HotStuffState) (view : ViewNumber)
    (sequence : SequenceNumber) (phase : HotStuffPhaseTag) (voter : NodeId) :
    Decidable (completesCertificate self state view sequence phase voter) :=
  inferInstanceAs (Decidable (_ ∧ _ ∧ _))

/-- A vote completes a certificate as it is counted. -/
theorem completesCertificate_iff {self : HotStuffNode} {s : HotStuffState} {v : ViewNumber}
    {q : SequenceNumber} {t : HotStuffPhaseTag} {r : NodeId} :
    completesCertificate self s v q t r ↔ self.leaderForView s.view = self.id ∧ v = s.view ∧
      ∃ slot slot' vc, s.slots.lookup q = some slot ∧
        self.countVote slot t r = some (slot', some (t, vc)) := by
  constructor
  · rintro ⟨hl, hv, slot, hs, hph, hq⟩
    refine ⟨hl, hv, slot, (slot.addVote r t).certify self.id t, (insert r (slot.voters t)).card,
      hs, ?_⟩
    rw [countVote_eq, if_neg (not_not.mpr hph), if_pos hq]
  · rintro ⟨hl, hv, slot, slot', vc, hs, hc⟩
    obtain ⟨hph, ⟨hnone, _⟩ | ⟨hq, _, _⟩⟩ := countVote_inv hc
    · exact absurd hnone (by simp)
    · exact ⟨hl, hv, slot, hs, hph, hq⟩

variable [Sha256]

/-- The digest of the payload that a node holds for `sequence`. -/
def storedDigest (state : HotStuffState) (sequence : SequenceNumber) : Option Digest :=
  (state.pendingPayloads.lookup sequence).map Payload.digest

/-- The votes that complete a certificate carry the digest of the payload the leader holds. -/
def CertifiesStored (self : HotStuffNode) (state : HotStuffState) :
    Cause Call NetworkMessage → Prop
  | .recv ⟨_, _, .hotStuff (.vote view sequence digest phase voter)⟩ =>
      completesCertificate self state view sequence phase voter →
        storedDigest state sequence = some digest
  | _ => True

instance (self : HotStuffNode) (state : HotStuffState) : DecidablePred (CertifiesStored self state)
  | .recv ⟨_, _, .hotStuff (.vote ..)⟩ => inferInstanceAs (Decidable (_ → _))
  | .recv ⟨_, _, .hotStuff (.propose ..)⟩ => .isTrue trivial
  | .recv ⟨_, _, .hotStuff (.quorumCertificate ..)⟩ => .isTrue trivial
  | .recv ⟨_, _, .hotStuff (.newView ..)⟩ => .isTrue trivial
  | .recv ⟨_, _, .pbft _⟩ => .isTrue trivial
  | .recv ⟨_, _, .raft _⟩ => .isTrue trivial
  | .call _ => .isTrue trivial

/-- The view, sequence and digest of a certificate. -/
def certificateOf : ProtocolMessage → Option (ViewNumber × SequenceNumber × Digest)
  | .hotStuff (.quorumCertificate view sequence digest _ _) => some (view, sequence, digest)
  | _ => none

/-- The certificates that a step sends name what its node proposed, according to `h`, for their
    view and sequence. -/
def NamesProposal (n : ℕ) (h : History HotStuffState) (o : NodeStep HotStuffState) : Prop :=
  ∀ m ∈ o.sent, ∀ qc ∈ certificateOf m.payload,
    (∃ a ∈ h, a.node = o.node ∧ ∃ e ∈ assigns n a, e.1 = qc.1 ∧ e.2.1 = qc.2.1) ∧
    ∀ a ∈ h, ∀ e ∈ assigns n a, e.1 = qc.1 → e.2.1 = qc.2.1 → qc.2.2 = e.2.2.digest

instance (n : ℕ) (h : History HotStuffState) (o : NodeStep HotStuffState) :
    Decidable (NamesProposal n h o) :=
  inferInstanceAs (Decidable (∀ m ∈ o.sent, _))

variable {n : ℕ} {cfg : FaultConfig}
variable {ok : System.Guard NodeId HotStuffState Call NetworkMessage}
variable {w : World NodeId HotStuffState Call NetworkMessage}

/-- **What a leader holds it has proposed** in its view: no `Propose` of the view reaches it. -/
theorem pending_assigned (hw : (system n cfg).Reach ok w) {i : NodeId}
    (hl : (w.nodes i).view % n = i) {q : SequenceNumber} {p : Payload}
    (hp : (w.nodes i).pendingPayloads.lookup q = some p) :
    ∃ a ∈ w.history, a.node = i ∧ assigns n a = some ((w.nodes i).view, q, p) := by
  obtain ⟨a, ha, hnode, hbind⟩ := (kept ok).bound_of_reach hw i q p hp
  refine ⟨a, ha, hnode, ?_⟩
  rcases Option.or_eq_some_iff.mp hbind with hass | ⟨_, hacc⟩
  · exact hass
  · obtain ⟨hne, _⟩ := (led ok).accept_source (kept ok) hw ha hacc
    exact absurd (hnode.trans hl.symm) hne

/-- A vote that completes a certificate finds the payload of its slot pending. -/
theorem pending_of_completes (hw : (system n cfg).Reach ok w) {i : NodeId} {v : ViewNumber}
    {q : SequenceNumber} {t : HotStuffPhaseTag} {r : NodeId}
    (hc : completesCertificate (node n i) (w.nodes i) v q t r) :
    ∃ p, (w.nodes i).pendingPayloads.lookup q = some p := by
  obtain ⟨_, _, slot, hs, hph, _⟩ := hc
  refine slots_kept.backed hw i q slot hs fun hdec => ?_
  exact stage_ne_decided t (hph.symm.trans hdec)

/-- A certificate that a step sends carries the digest of the vote it processes. -/
theorem certificate_vote {o : NodeStep HotStuffState} (hf : (system n cfg).Fires w o)
    {m : NetworkMessage} (hm : m ∈ o.sent) {v : ViewNumber} {q : SequenceNumber} {d : Digest}
    (hqc : certificateOf m.payload = some (v, q, d)) :
    ∃ m' t r, o.cause = .recv m' ∧ m'.payload = .hotStuff (.vote v q d t r) ∧
      completesCertificate (node n o.node) o.before v q t r := by
  obtain ⟨j, x, rfl, hsaid⟩ := (effect_of_fires hf).sent_said hm
  cases hsaid with
  | certificate m' q' d' t r slot slot' vc hc hm' hl hs hvote =>
    cases hqc
    exact ⟨m', t, r, hc, hm', completesCertificate_iff.mpr
      ⟨hl, rfl, slot, slot', vc, hs, hvote⟩⟩
  | _ => exact absurd hqc (by simp [certificateOf])

/-- The step that completes a certificate holds the payload that the certificate names. -/
theorem stored_of_names (hw : (system n cfg).Reach ok w) {o : NodeStep HotStuffState}
    (hf : (system n cfg).Fires w o) {m : NetworkMessage} (hc : o.cause = .recv m)
    {v : ViewNumber} {q : SequenceNumber} {d : Digest} {t : HotStuffPhaseTag} {r : NodeId}
    (hm : m.payload = .hotStuff (.vote v q d t r))
    (hcomplete : completesCertificate (node n o.node) o.before v q t r)
    {h : History HotStuffState} (hsub : w.history ⊆ h) (hnames : NamesProposal n h o) :
    storedDigest o.before q = some d := by
  obtain ⟨hr, hne, _⟩ := cast_of_recv hw hf hc hm
  obtain ⟨hl, rfl, slot, slot', vc, hs, hvote⟩ := completesCertificate_iff.mp hcomplete
  have hlead : o.before.view % n = o.node := hl
  rw [hlead] at hne
  -- the voter is another node, to which the certificate goes
  have hsent : ⟨o.node, r, .hotStuff (.quorumCertificate o.before.view q d t vc)⟩ ∈ o.sent := by
    rw [sent_of_countVote hf hc hm hl hs hvote]
    exact mem_broadcastHotstuff.mpr ⟨r, hr, hne, rfl⟩
  rw [hf.before_eq] at hcomplete hlead
  obtain ⟨p, hp⟩ := pending_of_completes hw hcomplete
  obtain ⟨a, ha, _, hass⟩ := pending_assigned hw hlead hp
  rw [← hf.before_eq] at hass hp
  have hdigest : d = p.digest := (hnames _ hsent _ rfl).2 a (hsub ha) _ hass rfl rfl
  rw [storedDigest, hp, Option.map_some, hdigest]

/-- **The certificates of the honest leaders name their proposals** in the runs in which the votes
    that complete them do. -/
theorem certificates_name_proposal (hw : (system n cfg).Reach System.anyStep w) :
    (∀ o ∈ w.history, cfg.isByzantine o.node = false → NamesProposal n w.history o) ↔
      ∀ o ∈ w.history, cfg.isByzantine o.node = false →
        CertifiesStored (node n o.node) o.before o.cause := by
  constructor
  · intro hnames o ho hhonest
    obtain ⟨w₀, hr₀, _, hf₀, hsuf⟩ := hw.fired o ho
    have hsub : w₀.history ⊆ w.history := fun a ha => hsuf.subset (List.mem_cons_of_mem _ ha)
    unfold CertifiesStored
    split
    · rename_i src dst v q d t r hc
      intro hcomplete
      exact stored_of_names hr₀ hf₀ hc rfl hcomplete hsub (hnames o ho hhonest)
    · trivial
  · intro hstored o ho hhonest m hm qc hqc
    obtain ⟨w₀, hr₀, _, hf₀, hsuf⟩ := hw.fired o ho
    obtain ⟨v, q, d⟩ := qc
    obtain ⟨⟨src, dst, payload⟩, t, r, hc, hvote, hcomplete⟩ := certificate_vote hf₀ hm hqc
    cases hvote
    have hd := hstored o ho hhonest
    rw [hc] at hd
    obtain ⟨p, hp, hdigest⟩ := Option.map_eq_some_iff.mp (hd hcomplete)
    obtain ⟨hl, rfl, _⟩ := hcomplete
    rw [hf₀.before_eq] at hl hp
    obtain ⟨a, ha, hnode, hass⟩ := pending_assigned hr₀ hl hp
    rw [← hf₀.before_eq] at hass
    have haw : a ∈ w.history := hsuf.subset (List.mem_cons_of_mem _ ha)
    refine ⟨⟨a, haw, hnode, _, hass, rfl, rfl⟩, ?_⟩
    rintro a' ha' ⟨v', q', p'⟩ hass' hv hq
    dsimp only at hv hq ⊢
    subst hv hq
    -- a leader assigns each sequence of a view once
    have hsame : p' = p := (led _).assigned_unique (kept _) hw ha' haw hass' hass
    rw [← hdigest, hsame]

omit [Sha256] in
/-- Node `3` corrupts its digests, but the votes of nodes `1` and `2` come first. -/
theorem certificates_name_proposal_four : ∃ w,
    (@system Sha256.sample 4 (FaultConfig.withByzantine {} 3 [.corruptDigest])).Reach
      System.anyStep w ∧
    (⟨0, 1, .hotStuff (.quorumCertificate 0 1 (@Payload.digest Sha256.sample ⟨[0x70]⟩)
      .prepare 3)⟩ : NetworkMessage) ∈ w.inFlight ∧
    ∀ o ∈ w.history, (FaultConfig.withByzantine {} 3 [.corruptDigest]).isByzantine o.node = false →
      @NamesProposal Sha256.sample 4 w.history o := by
  obtain ⟨w, hw, hstored, hqc⟩ := System.Reach.exists_of_run
    (S := @system Sha256.sample 4 (FaultConfig.withByzantine {} 3 [.corruptDigest]))
    (P := fun w => (∀ o ∈ w.history,
        (FaultConfig.withByzantine {} 3 [.corruptDigest]).isByzantine o.node = false →
        @CertifiesStored Sha256.sample (node 4 o.node) o.before o.cause) ∧
      (⟨0, 1, .hotStuff (.quorumCertificate 0 1 (@Payload.digest Sha256.sample ⟨[0x70]⟩)
        .prepare 3)⟩ : NetworkMessage) ∈ w.inFlight)
    (.call 0 (.propose ⟨[0x70]⟩) :: [0, 0, 1, 1].map .deliver) (by decide +kernel)
  exact ⟨w, hw, hqc, (@certificates_name_proposal Sha256.sample 4 _ w hw).mpr hstored⟩

omit [Sha256] in
/-- The corrupted vote of node `3` completes the quorum of node `0`, which is not faulty and
    certifies a digest that it did not propose. -/
theorem corrupted_digest_certified :
    ((FaultConfig.withByzantine {} 3 [.corruptDigest]).byzantine 4).card ≤ (4 - 1) / 3 ∧ ∃ w,
      (@system Sha256.sample 4 (FaultConfig.withByzantine {} 3 [.corruptDigest])).Reach
        System.anyStep w ∧
      ¬ ∀ o ∈ w.history, (FaultConfig.withByzantine {} 3 [.corruptDigest]).isByzantine o.node =
        false → @NamesProposal Sha256.sample 4 w.history o := by
  refine ⟨by decide, ?_⟩
  exact System.Reach.exists_of_run
    (S := @system Sha256.sample 4 (FaultConfig.withByzantine {} 3 [.corruptDigest]))
    (P := fun w => ¬ ∀ o ∈ w.history,
      (FaultConfig.withByzantine {} 3 [.corruptDigest]).isByzantine o.node = false →
        @NamesProposal Sha256.sample 4 w.history o)
    (.call 0 (.propose ⟨[0x70]⟩) :: [0, 1, 1, 1].map .deliver) (by decide +kernel)

end HotStuff

end ConsensusBench
