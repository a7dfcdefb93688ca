import ConsensusBench.HotStuff.Ledger

namespace ConsensusBench

/-!
# HotStuff: what the commits of a cluster agree on

`Propose` messages are numbered proposals of the leader of a view (`led`), so the library
gives what nodes bind; votes and certificates play no part in it.

* `honest_leader_commits` — in a view with an honest leader every node commits exactly what
  the leader assigned, and no node commits a sequence twice in one view.
* `agreement_of_not_forks`, `agreement_of_drops` — agreement in view `0`, under a leader
  whose `Propose` messages keep their payload or whose certificates are all dropped.
* `leaders_agree` — a new leader numbers its proposals from its own counter, which
  does not move while others lead.  Agreement and integrity hold in the runs in which this
  reuses no committed sequence, and fail in others (`rebound_sequence_breaks_agreement`).
-/

open AsyncNet HotStuffNode

namespace HotStuff

variable [Sha256] {n : ℕ} {cfg : FaultConfig}
variable {ok : System.Guard NodeId HotStuffState Call NetworkMessage}
variable {w : World NodeId HotStuffState Call NetworkMessage}

/-! ### The proposals of the leaders -/

/-- What a message proposes. -/
def proposal (m : NetworkMessage) : Option (ViewNumber × SequenceNumber × Payload) :=
  match m.payload with
  | .hotStuff (.propose v q _ p _ _) => some (v, q, p)
  | _ => none

/-- The proposals of HotStuff. -/
def proposals (n : ℕ) :
    Proposals NodeId HotStuffState Call NetworkMessage ViewNumber SequenceNumber Payload where
  leader v := v % n
  next := HotStuffState.nextSequence
  assigns := assigns n
  accepts := accepts
  proposal := proposal

omit [Sha256] in
theorem proposal_eq_some {m : NetworkMessage} {v : ViewNumber} {q : SequenceNumber}
    {p : Payload} : proposal m = some (v, q, p) ↔
      ∃ d jv jp, m.payload = .hotStuff (.propose v q d p jv jp) := by
  unfold proposal
  split
  · rename_i v' q' d p' jv jp hm
    simp only [Option.some.injEq, Prod.mk.injEq, hm, ProtocolMessage.hotStuff.injEq,
      HotStuffMessage.propose.injEq]
    constructor
    · rintro ⟨rfl, rfl, rfl⟩; exact ⟨d, jv, jp, rfl, rfl, rfl, rfl, rfl, rfl⟩
    · rintro ⟨_, _, _, rfl, rfl, _, rfl, _⟩; exact ⟨rfl, rfl, rfl⟩
  · rename_i hm
    constructor
    · intro h; exact absurd h (by simp)
    · rintro ⟨d, jv, jp, h⟩; exact absurd h (hm v q d p jv jp)

/-- The counter of sequences never goes back. -/
theorem Effect.nextSequence_mono {self : HotStuffNode} {s s' : HotStuffState}
    {c : Cause Call NetworkMessage} {out : List NetworkMessage} (h : Effect self s c s' out) :
    s.nextSequence ≤ s'.nextSequence := by
  have hpending : ∀ (t : HotStuffState) q, (commitPending t q).nextSequence = t.nextSequence := by
    intro t q
    unfold commitPending
    split <;> rfl
  cases h with
  | assign => exact Nat.le_succ _
  | accept m v q d p jv jp hm hv =>
    unfold acceptProposal catchUp
    split <;> exact le_refl _
  | certify m q d t r slot slot' vc =>
    unfold completeQc
    split
    · rw [hpending]
    · exact le_refl _
  | learn => rw [seeQc_nextSequence]
  | advance => rw [advanceSlot_nextSequence, seeQc_nextSequence]
  | decide => rw [hpending]; exact le_of_eq (seeQc_nextSequence s _ _).symm
  | _ => exact le_refl _

/-- Assigning a sequence moves the counter past it, in the same view. -/
theorem Effect.assign_next {i : NodeId} {s s' : HotStuffState} {c : Cause Call NetworkMessage}
    {out : List NetworkMessage} (h : Effect (node n i) s c s' out) {v : ViewNumber}
    {q : SequenceNumber} {p : Payload} (ha : assigns n ⟨i, c, s, s', out⟩ = some (v, q, p)) :
    i = v % n ∧ v = s.view ∧ s'.view = s.view ∧ q = s.nextSequence ∧
      s.nextSequence < s'.nextSequence := by
  obtain ⟨hc, hcan, rfl, rfl⟩ := assigns_eq_some.mp ha
  dsimp only at hc
  subst hc
  cases h with
  | ignore _ hno => exact absurd hcan (hno p rfl)
  | assign => exact ⟨hcan.symm, rfl, rfl, rfl, Nat.lt_succ_self _⟩

/-- A `Propose` is said only by a step that assigns its sequence, and to another node. -/
theorem Says.assigns {i j : NodeId} {s : HotStuffState} {c : Cause Call NetworkMessage}
    {v : ViewNumber} {q : SequenceNumber} {d : Digest} {p : Payload} {jv : ViewNumber}
    {jp : HotStuffPhaseTag} (h : Says (node n i) s c j (.propose v q d p jv jp))
    (s' : HotStuffState) (out : List NetworkMessage) :
    assigns n ⟨i, c, s, s', out⟩ = some (v, q, p) ∧ j ≠ i := by
  cases h with
  | propose _ hc hp hj => exact ⟨assigns_eq_some.mpr ⟨hc, hp, rfl, rfl⟩, hj⟩

/-- A step sends at most one `Propose` for `(v, q)` to a node. -/
theorem Effect.propose_once {i : NodeId} {s s' : HotStuffState} {c : Cause Call NetworkMessage}
    {out : List NetworkMessage} (h : Effect (node n i) s c s' out) (j : NodeId)
    (v : ViewNumber) (q : SequenceNumber) :
    out.countP ((proposals n).proposesTo (system n cfg) j v q) ≤ 1 := by
  by_cases hz : out.countP ((proposals n).proposesTo (system n cfg) j v q) = 0
  · rw [hz]; exact Nat.zero_le _
  · obtain ⟨m, hm, hmp⟩ := List.countP_pos_iff.mp (Nat.pos_of_ne_zero hz)
    obtain ⟨_, p, hp⟩ := Proposals.proposesTo_iff.mp hmp
    obtain ⟨d, jv, jp, hpl⟩ := proposal_eq_some.mp hp
    -- only a node that assigns sends a `Propose`, and it sends one to each peer
    obtain ⟨k, x, rfl, hsaid⟩ := h.sent_said hm
    cases hpl
    obtain ⟨hc, hcan, _⟩ := assigns_eq_some.mp (hsaid.assigns s' out).1
    dsimp only at hc
    subst hc
    cases h with
    | ignore => exact absurd hm (by simp)
    | assign p hp =>
      show ((peerIds i n).map fun k => (node n i).msgTo k _).countP _ ≤ 1
      rw [List.countP_map]
      exact countP_peerIds_le fun k hk => (Proposals.proposesTo_iff.mp hk).1

omit [Sha256] in
/-- A message with the skeleton of a `Propose` is a `Propose`. -/
theorem propose_of_skeleton {x : ProtocolMessage} {v : ViewNumber} {q : SequenceNumber}
    {d : Digest} {p : Payload} {jv : ViewNumber} {jp : HotStuffPhaseTag}
    (h : FaultConfig.skeleton (.hotStuff (.propose v q d p jv jp)) = FaultConfig.skeleton x) :
    ∃ d' p', x = .hotStuff (.propose v q d' p' jv jp) := by
  cases x with
  | pbft x => cases x <;> simp [FaultConfig.skeleton] at h
  | raft x => cases x <;> simp [FaultConfig.skeleton] at h
  | hotStuff x => cases x <;> simp_all [FaultConfig.skeleton]

/-- **The leaders lead**: HotStuff satisfies what the library asks of proposals. -/
theorem led (ok : System.Guard NodeId HotStuffState Call NetworkMessage) :
    (proposals n).Led (ledger n) (system n cfg) ok where
  binds _ := rfl
  next_mono _ _ _ hf _ := (effect_of_fires hf).nextSequence_mono
  assign _ _ _ _ _ _ hf ha := (effect_of_fires hf).assign_next ha
  accept o v q p ha := by
    obtain ⟨m, d, jv, jp, hc, hm, _⟩ := accepts_eq_some.mp ha
    exact ⟨m, hc, proposal_eq_some.mpr ⟨d, jv, jp, hm⟩⟩
  sent w o _ hf m hm v q p hp := by
    obtain ⟨d, jv, jp, hpl⟩ := proposal_eq_some.mp hp
    obtain ⟨j, x, rfl, hsaid⟩ := (effect_of_fires hf).sent_said hm
    cases hpl
    exact hsaid.assigns o.after o.sent
  sent_once _ _ _ hf j v q := (effect_of_fires hf).propose_once j v q
  carry m m' hm := by
    obtain ⟨_, htarget, hskel⟩ := cfg.frame_of_mem hm
    refine ⟨htarget, fun v q p' hp => ?_⟩
    obtain ⟨d', jv, jp, hpl⟩ := proposal_eq_some.mp hp
    rw [hpl] at hskel
    obtain ⟨d, p, hm⟩ := propose_of_skeleton hskel
    exact ⟨p, proposal_eq_some.mpr ⟨d, jv, jp, hm⟩⟩

omit [Sha256] in
theorem proposed_of_proposal {m : NetworkMessage} {v : ViewNumber} {q : SequenceNumber}
    {p : Payload} (h : proposal m = some (v, q, p)) :
    FaultConfig.proposed m.payload = some p ∧
      messagePhase m.payload = some .hotStuffPropose := by
  obtain ⟨d, jv, jp, hm⟩ := proposal_eq_some.mp h
  rw [hm]
  exact ⟨rfl, rfl⟩

/-- A leader that does not equivocate, or whose `Propose` messages are all dropped, forks no
    payload. -/
theorem keepsValues_of_not_forks (hw : (system n cfg).Reach ok w) {i : NodeId}
    (h : .equivocate ∉ cfg.behaviors i ∨ cfg.dropsPhase i .hotStuffPropose = true) :
    (proposals n).KeepsValues (system n cfg) i w.history := by
  refine cfg.keepsValues rfl (fun _ o hf m hm => ?_) (fun _ _ _ _ => proposed_of_proposal) h hw
  obtain ⟨_, _, rfl, _⟩ := (effect_of_fires hf).sent_said hm
  rfl

/-- Honest leaders fork no payload. -/
theorem keepsValues_of_honest (hw : (system n cfg).Reach ok w) {i : NodeId}
    (h : cfg.isByzantine i = false) : (proposals n).KeepsValues (system n cfg) i w.history :=
  keepsValues_of_not_forks hw (.inl (by rw [cfg.behaviors_eq_nil h]; simp))

/-! ### Commits -/

omit [Sha256] in
theorem mem_ledger_commits {o : NodeStep HotStuffState} {e : CommittedEntry} :
    (e.sequence, e.payload) ∈ (ledger n).commits o ↔ e ∈ emitted o :=
  mem_commitsOf

/-- Whether handling `m` decides sequence `q`: as a `Commit` vote that completes the quorum
    at the leader, or as a `Commit` certificate. -/
def Decides (self : HotStuffNode) (s : HotStuffState) (m : NetworkMessage)
    (q : SequenceNumber) : Prop :=
  (∃ d r slot slot' vc, m.payload = .hotStuff (.vote s.view q d .commit r) ∧
    self.leaderForView s.view = self.id ∧ s.slots.lookup q = some slot ∧
    self.countVote slot .commit r = some (slot', some (.commit, vc))) ∨
  ∃ d vc slot, m.payload = .hotStuff (.quorumCertificate s.view q d .commit vc) ∧
    self.quorum ≤ vc ∧ s.slots.lookup q = some slot ∧ slot.phase ≠ .decided

omit [Sha256] in
/-- Taking a pending payload commits it under its sequence. -/
theorem commitPending_inv {i : NodeId} {c : Cause Call NetworkMessage} {s t : HotStuffState}
    {q : SequenceNumber} {out : List NetworkMessage} (hc : t.committed = s.committed)
    {e : CommittedEntry}
    (he : e ∈ emitted (⟨i, c, s, commitPending t q, out⟩ : NodeStep HotStuffState)) :
    e.sequence = q ∧ t.pendingPayloads.lookup q = some e.payload := by
  unfold commitPending at he
  split at he
  · rw [emitted_eq_nil (by exact hc)] at he
    exact absurd he (by simp)
  · rename_i p hp
    have hone : e ∈ [(⟨q, p⟩ : CommittedEntry)] := by
      rwa [emitted_eq (by rw [← show t.committed = CommitQueue.committed s from hc]; rfl)] at he
    rw [List.mem_singleton] at hone
    subst hone
    exact ⟨rfl, hp⟩

/-- A step that commits decides the sequence, and its payload is pending. -/
theorem Effect.commit_inv {i : NodeId} {s s' : HotStuffState} {c : Cause Call NetworkMessage}
    {out : List NetworkMessage} (h : Effect (node n i) s c s' out) {e : CommittedEntry}
    (he : e ∈ emitted (⟨i, c, s, s', out⟩ : NodeStep HotStuffState)) :
    ∃ m, c = .recv m ∧ Decides (node n i) s m e.sequence ∧
      s.pendingPayloads.lookup e.sequence = some e.payload := by
  have hnone : ∀ {c : Cause Call NetworkMessage} {s' : HotStuffState} {out : List NetworkMessage},
      s'.committed = s.committed →
      e ∉ emitted (⟨i, c, s, s', out⟩ : NodeStep HotStuffState) := by
    intro c s' out hs hmem
    rw [emitted_eq_nil hs] at hmem
    exact absurd hmem (by simp)
  cases h with
  | certify m q d t r slot slot' vc hm hl hs hc =>
    unfold completeQc at he
    split at he
    · rename_i ht
      subst ht
      obtain ⟨hseq, hp⟩ := commitPending_inv (by rfl) he
      subst hseq
      exact ⟨m, rfl, .inl ⟨d, r, slot, slot', vc, hm, hl, hs, hc⟩, hp⟩
    · exact absurd he (hnone rfl)
  | decide m q d vc slot hm hq hs hph =>
    obtain ⟨hseq, hp⟩ := commitPending_inv (by exact seeQc_committed s _ _) he
    subst hseq
    rw [seeQc_pendingPayloads] at hp
    exact ⟨m, rfl, .inr ⟨d, vc, slot, hm, hq, hs, hph⟩, hp⟩
  | poll => exact absurd he (by simp [emitted, CommitQueue.committed])
  | accept m v q d p jv jp hm hv =>
    refine absurd he (hnone ?_)
    unfold acceptProposal catchUp
    split <;> rfl
  | learn => exact absurd he (hnone (seeQc_committed s _ _))
  | advance =>
    exact absurd he (hnone ((advanceSlot_committed _ _ _ _).trans (seeQc_committed s _ _)))
  | _ => exact absurd he (hnone rfl)

/-- HotStuff is a view-based protocol. -/
theorem viewBased (ok : System.Guard NodeId HotStuffState Call NetworkMessage) :
    ViewBased (ledger n) (proposals n) (system n cfg) ok :=
  ⟨rfl, kept ok, led ok⟩

/-- Every step extends the queue of its node or drains it. -/
theorem Effect.queue {self : HotStuffNode} {s s' : HotStuffState} {c : Cause Call NetworkMessage}
    {out : List NetworkMessage} (h : Effect self s c s' out) :
    (∃ es, s'.committed = s.committed ++ es) ∨ s'.committed = [] := by
  by_cases hc : c = .call .pollCommitted
  · subst hc
    cases h with
    | poll => exact .inr rfl
    | ignore => exact .inl ⟨[], (List.append_nil _).symm⟩
  · exact .inl (h.queue_grows hc)

/-- What is in the queue of a node was committed by it. -/
theorem mem_committedBy_of_committed (hw : (system n cfg).Reach ok w) {i : NodeId}
    {e : CommittedEntry} (he : e ∈ (w.nodes i).committed) : e ∈ committedBy w.history i :=
  mem_committedBy_of_queue (fun _ => rfl) (fun _ _ _ hf => (effect_of_fires hf).queue) hw i e he

/-! ### A view with an honest leader -/

/-- **In a view with an honest leader, nodes commit exactly what it assigned**, whatever
    the other nodes are and do; and in no view does a node commit a sequence twice. -/
theorem honest_leader_commits (hw : (system n cfg).Reach System.anyStep w) :
    (∀ o ∈ w.history, cfg.isByzantine ((node n o.node).leaderForView o.before.view) = false →
      ∀ e ∈ emitted o,
        (∃ a ∈ w.history, a.node = (node n o.node).leaderForView o.before.view ∧
          assigns n a = some (o.before.view, e.sequence, e.payload)) ∧
        ∀ a ∈ w.history, ∀ p, assigns n a = some (o.before.view, e.sequence, p) →
          p = e.payload) ∧
    ∀ i v q, timesCommitted w.history i q (fun s => s.view = v) ≤ 1 := by
  refine ⟨fun o ho hhonest e he => ?_, (viewBased _).timesCommitted_view_le hw⟩
  exact (viewBased _).commit_assigned hw ho he (keepsValues_of_honest hw hhonest)

omit [Sha256] in
/-- Node `0` of four is honest and commits what it proposed; node `3` equivocates. -/
theorem honest_leader_commits_four : ∃ w,
    (@system Sha256.sample 4 (FaultConfig.withByzantine {} 3 [.equivocate])).Reach
      System.anyStep w ∧ committedBy w.history 0 = [⟨1, ⟨[0x70]⟩⟩] ∧
      (∀ o ∈ w.history, (FaultConfig.withByzantine {} 3 [.equivocate]).isByzantine
          ((node 4 o.node).leaderForView o.before.view) = false →
        ∀ e ∈ emitted o,
          (∃ a ∈ w.history, a.node = (node 4 o.node).leaderForView o.before.view ∧
            assigns 4 a = some (o.before.view, e.sequence, e.payload)) ∧
          ∀ a ∈ w.history, ∀ p, assigns 4 a = some (o.before.view, e.sequence, p) →
            p = e.payload) ∧
      ∀ i v q, timesCommitted w.history i q (fun s => s.view = v) ≤ 1 := by
  obtain ⟨w, hw, hcommitted⟩ := System.Reach.exists_of_run
    (S := @system Sha256.sample 4 (FaultConfig.withByzantine {} 3 [.equivocate]))
    (P := fun w => committedBy w.history 0 = [⟨1, ⟨[0x70]⟩⟩]) (commitRun ⟨[0x70]⟩)
    (by decide +kernel)
  exact ⟨w, hw, hcommitted, @honest_leader_commits Sha256.sample 4 _ w hw⟩

/-! ### Agreement in the first view -/

/-- Every node is in view `0`.  Views never go back, so it has been there all along. -/
def InFirstView (n : ℕ) (w : World NodeId HotStuffState Call NetworkMessage) : Prop :=
  ∀ i < n, (w.nodes i).view = 0

omit [Sha256] in
instance (w : World NodeId HotStuffState Call NetworkMessage) : Decidable (InFirstView n w) :=
  inferInstanceAs (Decidable (∀ i < n, _))

/-- In a world still in view `0`, every step was taken in view `0`. -/
theorem before_first_view (hw : (system n cfg).Reach ok w) (h0 : InFirstView n w)
    {o : NodeStep HotStuffState} (ho : o ∈ w.history) : o.before.view = 0 :=
  (viewBased ok).before_first_view hw (fun i hi => h0 i (Finset.mem_range.mp hi)) ho

omit [Sha256] in
theorem leader_zero : (proposals n).leader 0 = 0 :=
  Nat.zero_mod n

/-- **Agreement in view `0`** under a leader that does not equivocate, or whose `Propose`
    messages are all dropped. -/
theorem agreement_of_not_forks (hw : (system n cfg).Reach ok w) (h0 : InFirstView n w)
    (hcond : .equivocate ∉ cfg.behaviors 0 ∨ cfg.dropsPhase 0 .hotStuffPropose = true)
    (honest : NodeId → Prop) : Agreement w.history honest := by
  refine (viewBased ok).agreement_of_view hw (fun _ ho => before_first_view hw h0 ho) ?_ honest
  rw [leader_zero]
  exact keepsValues_of_not_forks hw hcond

omit [Sha256] in
/-- A message with the skeleton of a certificate is a certificate. -/
theorem certificate_of_skeleton {x : ProtocolMessage} {v : ViewNumber} {q : SequenceNumber}
    {d : Digest} {t : HotStuffPhaseTag} {vc : ℕ}
    (h : FaultConfig.skeleton (.hotStuff (.quorumCertificate v q d t vc)) =
      FaultConfig.skeleton x) :
    ∃ d', x = .hotStuff (.quorumCertificate v q d' t vc) := by
  cases x with
  | pbft x => cases x <;> simp [FaultConfig.skeleton] at h
  | raft x => cases x <;> simp [FaultConfig.skeleton] at h
  | hotStuff x => cases x <;> simp_all [FaultConfig.skeleton]

/-- **Where a certificate comes from**: the leader of its view sent it. -/
theorem certificate_source (hw : (system n cfg).Reach ok w) {o : NodeStep HotStuffState}
    (hf : (system n cfg).Fires w o) {m' : NetworkMessage} {v : ViewNumber} {q : SequenceNumber}
    {d : Digest} {t : HotStuffPhaseTag} {vc : ℕ} (hc : o.cause = .recv m')
    (hm' : m'.payload = .hotStuff (.quorumCertificate v q d t vc)) :
    ∃ j d', cfg.tamper ⟨v % n, j, .hotStuff (.quorumCertificate v q d' t vc)⟩ = [m'] := by
  obtain ⟨_, o₀, _, x, _, htamper, _, _, hskel, hsaid⟩ := recv_source hw hf hc
  rw [hm'] at hskel
  obtain ⟨d', hx⟩ := certificate_of_skeleton hskel
  cases hx
  cases hsaid with
  | certificate m q d t r slot slot' vc _ _ hl =>
    have hnode : o₀.before.view % n = o₀.node := hl
    exact ⟨o.node, d', by rw [hnode]; exact htamper⟩

/-- If all certificates of node `0` are dropped, only node `0` commits in view `0`. -/
theorem commits_leader_of_drops (hw : (system n cfg).Reach ok w) (h0 : InFirstView n w)
    (hdrop : cfg.dropsPhase 0 .hotStuffQC = true) {o : NodeStep HotStuffState}
    (ho : o ∈ w.history) {e : CommittedEntry} (he : e ∈ emitted o) : o.node = 0 := by
  have hview := before_first_view hw h0 ho
  obtain ⟨w₀, hr, _, hf, _⟩ := hw.fired o ho
  obtain ⟨m, hc, hdecide, _⟩ := (effect_of_fires hf).commit_inv he
  rcases hdecide with ⟨d, r, slot, slot', vc, _, hl, _⟩ | ⟨d, vc, slot, hm, _⟩
  · have hnode : o.before.view % n = o.node := hl
    rw [← hnode, hview, Nat.zero_mod]
  · obtain ⟨j, d', htamper⟩ := certificate_source hr hf hc hm
    rw [hview, Nat.zero_mod, cfg.tamper_eq, cfg.drops_eq_dropsPhase rfl, if_pos hdrop] at htamper
    exact absurd htamper (by simp)

/-- **Agreement in view `0`** when the certificates of node `0` are dropped: no honest node
    commits anything. -/
theorem agreement_of_drops (hw : (system n cfg).Reach ok w) (h0 : InFirstView n w)
    (hdrop : cfg.dropsPhase 0 .hotStuffQC = true) :
    Agreement w.history fun i => cfg.isByzantine i = false := by
  intro i j hi _ e he
  obtain ⟨o, ho, hnode, heo⟩ := mem_committedBy.mp he
  have hzero := commits_leader_of_drops hw h0 hdrop ho heo
  rw [← hnode, hzero] at hi
  -- an honest node drops nothing
  have hdrops : cfg.dropsPhase 0 .hotStuffQC = false := by
    rw [FaultConfig.dropsPhase, cfg.behaviors_eq_nil hi, List.any_nil]
  exact absurd (hdrop.symm.trans hdrops) (by decide)

/-! ### Agreement across views -/

/-- The step assigns no sequence that a node has committed. -/
def AssignsFresh (n : ℕ) (w : World NodeId HotStuffState Call NetworkMessage) (i : NodeId)
    (c : Cause Call NetworkMessage) : Prop :=
  ∀ p, c = .call (.propose p) → canPropose (node n i) (w.nodes i) →
    ∀ o ∈ w.history, ∀ e ∈ emitted o, e.sequence ≠ (w.nodes i).nextSequence

/-- The step decides no pending sequence that has been assigned again in a later view. -/
def DecidesCurrent (n : ℕ) (w : World NodeId HotStuffState Call NetworkMessage) (i : NodeId)
    (c : Cause Call NetworkMessage) : Prop :=
  ∀ m q, c = .recv m → Decides (node n i) (w.nodes i) m q →
    (w.nodes i).pendingPayloads.lookup q ≠ none →
    ∀ o ∈ w.history, ∀ v p, assigns n o = some (v, q, p) → v ≤ (w.nodes i).view

/-- No sequence is bound again after a commit. -/
def NoRebinding (n : ℕ) : System.Guard NodeId HotStuffState Call NetworkMessage :=
  fun w i c => AssignsFresh n w i c ∧ DecidesCurrent n w i c

/-- Deciding a pending sequence commits its payload. -/
theorem commit_of_decides {o : NodeStep HotStuffState} (hf : (system n cfg).Fires w o)
    {m : NetworkMessage} {q : SequenceNumber} {p : Payload} (hc : o.cause = .recv m)
    (hdecide : Decides (node n o.node) o.before m q)
    (hp : o.before.pendingPayloads.lookup q = some p) : (q, p) ∈ (ledger n).commits o := by
  have htake : ∀ t : HotStuffState, t.pendingPayloads = o.before.pendingPayloads →
      (commitPending t q).committed = t.committed ++ [⟨q, p⟩] := by
    intro t ht
    rw [commitPending, ht, hp]
  have hcommitted : o.after.committed = o.before.committed ++ [⟨q, p⟩] := by
    rw [after_of_recv hf hc, handleMessage]
    rcases hdecide with ⟨d, r, slot, slot', vc, hm, hl, hs, hcount⟩ | ⟨d, vc, slot, hm, hq, hs, hph⟩
    · rw [hm]
      simp only [handleVote, hs, hcount]
      rw [if_neg (not_not.mpr hl), if_neg (not_not.mpr rfl)]
      exact htake _ rfl
    · rw [hm]
      dsimp only
      rw [handleQuorumCertificate_commit _ _ hq hs hph, htake _ (by simp)]
      simp
  refine (mem_ledger_commits (e := ⟨q, p⟩)).mpr ?_
  rw [emitted_eq hcommitted]
  exact List.mem_singleton_self _

/-- A step commits a sequence if, and only if, it receives the message that decides a pending
    payload. -/
theorem commits_iff {o : NodeStep HotStuffState} (hf : (system n cfg).Fires w o)
    {q : SequenceNumber} : (∃ e ∈ emitted o, e.sequence = q) ↔
      ∃ m, o.cause = .recv m ∧ Decides (node n o.node) o.before m q ∧
        o.before.pendingPayloads.lookup q ≠ none := by
  constructor
  · rintro ⟨e, he, rfl⟩
    obtain ⟨m, hc, hdecide, hp⟩ := (effect_of_fires hf).commit_inv he
    exact ⟨m, hc, hdecide, by rw [hp]; simp⟩
  · rintro ⟨m, hc, hdecide, hp⟩
    obtain ⟨p, hp⟩ := Option.ne_none_iff_exists'.mp hp
    exact ⟨⟨q, p⟩, mem_ledger_commits.mp (commit_of_decides hf hc hdecide hp), rfl⟩

/-- **No rebinding, read off the steps**: nothing is assigned that was committed, and nothing is
    committed that was assigned in a later view. -/
theorem noRebinding_iff {o : NodeStep HotStuffState} (hf : (system n cfg).Fires w o) :
    NoRebinding n w o.node o.cause ↔ (ledger n).BindsOnce (assigns n) w.history o := by
  rw [bindsOnce_iff rfl fun _ _ _ => assigns_eq_some]
  unfold NoRebinding AssignsFresh DecidesCurrent
  rw [← hf.before_eq]
  apply and_congr Iff.rfl
  constructor
  · intro hcurrent q hq
    obtain ⟨m, hc, hdecide, hp⟩ := (commits_iff hf).mp hq
    exact hcurrent m q hc hdecide hp
  · intro hlate m q hc hdecide hp
    exact hlate q ((commits_iff hf).mpr ⟨m, hc, hdecide, hp⟩)

/-- **Agreement and integrity across views**, in the runs in which no sequence is bound
    again after a commit. -/
theorem leaders_agree (hw : (system n {}).Reach (NoRebinding n) w) :
    Integrity w.history ∧ Agreement w.history fun _ => True := by
  have honce := hw.along fun w o _ hok hf => (noRebinding_iff hf).mp hok
  exact (viewBased _).correct_of_along hw (fun i => keepsValues_of_honest hw rfl) honce

/-- While all nodes stay in view `0`, nothing is bound again after a commit. -/
theorem noRebinding_of_first_view (hw : (system n {}).Reach ok w) (h0 : InFirstView n w) :
    (system n {}).Reach (NoRebinding n) w := by
  have honce := (viewBased _).along_of_view hw (fun _ ho => before_first_view hw h0 ho)
    (keepsValues_of_honest hw rfl)
  exact hw.of_along honce fun w₀ o _ hf => (noRebinding_iff hf).mpr

omit [Sha256] in
/-- Node `0` of four loses its first proposal and has its second one committed, and node `1` after
    it commits a proposal of its own under the first number: nothing is bound again, though the view
    has changed. -/
theorem leaders_agree_four : ∃ w,
    (@system Sha256.sample 4 {}).Reach (@NoRebinding 4) w ∧ (w.nodes 0).view = 1 ∧
      committedBy w.history 0 = [⟨2, ⟨[0x71]⟩⟩, ⟨1, ⟨[0x70]⟩⟩] ∧
      Integrity w.history ∧ Agreement w.history fun _ => True := by
  obtain ⟨w, hw, hview, hcommitted, honce⟩ :=
    System.Reach.exists_of_run (S := @system Sha256.sample 4 {})
      (P := fun w => (w.nodes 0).view = 1 ∧
        committedBy w.history 0 = [⟨2, ⟨[0x71]⟩⟩, ⟨1, ⟨[0x70]⟩⟩] ∧
        System.Along ((ledger 4).BindsOnce (assigns 4)) w.history)
      (.call 0 (.propose ⟨[0x70]⟩) :: List.replicate 3 (.lose 0) ++
        .call 0 (.propose ⟨[0x71]⟩) :: List.replicate 21 (.deliver 0) ++
        ([1, 2, 3].flatMap fun i => List.replicate 41 (.call i .tick)) ++
        List.replicate 3 (.deliver 0) ++
        .call 1 (.propose ⟨[0x70]⟩) :: List.replicate 21 (.deliver 0)) (by decide +kernel)
  have hrun := hw.of_along honce fun w₀ o _ hf => (@noRebinding_iff Sha256.sample 4 _ w₀ o hf).mpr
  exact ⟨w, hrun, hview, hcommitted, @leaders_agree Sha256.sample 4 w hrun⟩

omit [Sha256] in
/-- Only the leader has counted the sequence it assigned, so the next leader numbers its own
    proposal from `1` again: node `0` of four commits sequence `1` twice. -/
theorem rebound_sequence_breaks_agreement : ∃ w,
    (@system Sha256.sample 4 {}).Reach System.anyStep w ∧
      ¬ (Integrity w.history ∧ Agreement w.history fun _ => True) := by
  obtain ⟨w, hw, hcommitted⟩ := System.Reach.exists_of_run (S := @system Sha256.sample 4 {})
    (P := fun w => committedBy w.history 0 = [⟨1, ⟨[0x70]⟩⟩, ⟨1, ⟨[0x71]⟩⟩])
    (commitRun ⟨[0x70]⟩ ++ ([1, 2, 3].flatMap fun i => List.replicate 41 (.call i .tick)) ++
      [7, 7].map .deliver ++ .call 1 (.propose ⟨[0x71]⟩) ::
      [7, 7, 8, 8, 8, 8, 9, 9, 9, 9, 10, 10, 10].map .deliver) (by decide +kernel)
  refine ⟨w, hw, fun ⟨_, hagree⟩ => ?_⟩
  have heq := hagree 0 0 trivial trivial ⟨1, ⟨[0x70]⟩⟩ (by rw [hcommitted]; decide)
    ⟨1, ⟨[0x71]⟩⟩ (by rw [hcommitted]; decide) rfl
  exact absurd heq (by decide)

end HotStuff

end ConsensusBench
