import ConsensusBench.HotStuff.Digest
import Mathlib.Data.Prod.Lex

namespace ConsensusBench

/-!
# HotStuff: the highest certificate a node records

Two handlers write `highest_qc_view` and `highest_qc_phase`.  A replica that learns a certificate
compares it with the record; a leader that completes one overwrites the record with it.

* `highestQc_seeQc` — what a replica learns only raises its record.
* `highest_never_decreases` — so no record goes down if, and only if, no leader completes a
  certificate that ranks below its own record.
-/

open AsyncNet HotStuff HotStuffNode

/-- The rank of the highest certificate that a node records, by view and then by phase. -/
def HotStuffState.highestQc (state : HotStuffState) : ℕ ×ₗ ℕ :=
  toLex (state.highestQcView, phaseOrd state.highestQcPhase)

namespace HotStuff

/-- The record of the node does not go down in this step. -/
def KeepsHighest (o : NodeStep HotStuffState) : Prop := o.before.highestQc ≤ o.after.highestQc

instance (o : NodeStep HotStuffState) : Decidable (KeepsHighest o) :=
  inferInstanceAs (Decidable (_ ≤ _))

/-- The votes that complete a certificate are for one that ranks at least as high as what the
    leader records. -/
def CertifiesHighest (self : HotStuffNode) (state : HotStuffState) :
    Cause Call NetworkMessage → Prop
  | .recv ⟨_, _, .hotStuff (.vote view sequence _ phase voter)⟩ =>
      completesCertificate self state view sequence phase voter →
        state.highestQc ≤ toLex (view, phaseOrd phase)
  | _ => True

instance (self : HotStuffNode) (state : HotStuffState) :
    DecidablePred (CertifiesHighest self state)
  | .recv ⟨_, _, .hotStuff (.vote ..)⟩ => inferInstanceAs (Decidable (_ → _))
  | .recv ⟨_, _, .hotStuff (.propose ..)⟩ => .isTrue trivial
  | .recv ⟨_, _, .hotStuff (.quorumCertificate ..)⟩ => .isTrue trivial
  | .recv ⟨_, _, .hotStuff (.newView ..)⟩ => .isTrue trivial
  | .recv ⟨_, _, .pbft _⟩ => .isTrue trivial
  | .recv ⟨_, _, .raft _⟩ => .isTrue trivial
  | .call _ => .isTrue trivial

/-! ### What the handlers do to the record -/

section Record

variable (s : HotStuffState)

/-- **Learning a certificate** records the higher one of the two. -/
theorem highestQc_seeQc (v : ViewNumber) (t : HotStuffPhaseTag) :
    (seeQc s v t).highestQc = max s.highestQc (toLex (v, phaseOrd t)) := by
  have hlt : s.highestQc < toLex (v, phaseOrd t) ↔ v > s.highestQcView ∨
      (v = s.highestQcView ∧ phaseOrd t > phaseOrd s.highestQcPhase) := by
    rw [HotStuffState.highestQc, Prod.Lex.toLex_lt_toLex]
    constructor
    · rintro (h | ⟨h, h'⟩)
      · exact .inl h
      · exact .inr ⟨h.symm, h'⟩
    · rintro (h | ⟨h, h'⟩)
      · exact .inl h
      · exact .inr ⟨h.symm, h'⟩
  unfold seeQc
  split
  · rename_i h
    rw [max_eq_right (le_of_lt (hlt.mpr h)), HotStuffState.highestQc]
  · rename_i h
    rw [max_eq_left (not_lt.mp (mt hlt.mp h))]

@[simp] theorem highestQc_commitPending (q : SequenceNumber) :
    (commitPending s q).highestQc = s.highestQc := by
  unfold commitPending
  split <;> rfl

@[simp] theorem highestQc_advanceSlot (q : SequenceNumber) (e e' : Phase) :
    (advanceSlot s q e e').highestQc = s.highestQc := by
  unfold advanceSlot
  split <;> [rfl; split <;> rfl]

@[simp] theorem highestQc_catchUp (v : ViewNumber) : (catchUp s v).highestQc = s.highestQc := by
  unfold catchUp
  split <;> rfl

/-- **Completing a certificate** records it, whatever was recorded before. -/
theorem highestQc_completeQc (q : SequenceNumber) (slot : SlotState) (t : HotStuffPhaseTag) :
    (completeQc s q slot t).highestQc = toLex (s.view, phaseOrd t) := by
  unfold completeQc
  dsimp only
  split
  · rw [highestQc_commitPending, HotStuffState.highestQc]
  · rw [HotStuffState.highestQc]

end Record

section Steps

variable [Sha256] {n : ℕ} {cfg : FaultConfig}
variable {w : World NodeId HotStuffState Call NetworkMessage} {o : NodeStep HotStuffState}

/-- What a step does to the record: nothing, or it completes a certificate and records that, or
    it learns one. -/
theorem highestQc_of_fires (hf : (system n cfg).Fires w o) :
    o.after.highestQc = o.before.highestQc ∨
    (∃ v t, o.after.highestQc = max o.before.highestQc (toLex (v, phaseOrd t))) ∨
    (∃ m v q d t r, o.cause = .recv m ∧ m.payload = .hotStuff (.vote v q d t r) ∧
      completesCertificate (node n o.node) o.before v q t r ∧
      o.after.highestQc = toLex (v, phaseOrd t)) := by
  obtain ⟨i, c, s, s', out⟩ := o
  have heff : Effect (node n i) s c s' out := effect_of_fires hf
  cases heff with
  | ignore | poll | tickDown | timeout | assign | count | vote | install => exact .inl rfl
  | accept m v q d p jv jp hm hv =>
    left
    show (catchUp s v).highestQc = s.highestQc
    exact highestQc_catchUp s v
  | certify m q d t r slot slot' vc hm hl hs hc =>
    have hcomplete : completesCertificate (node n i) s s.view q t r :=
      completesCertificate_iff.mpr ⟨hl, rfl, slot, slot', vc, hs, hc⟩
    exact .inr (.inr ⟨m, s.view, q, d, t, r, rfl, hm, hcomplete, highestQc_completeQc s q slot' t⟩)
  | learn m v q d t vc hm hq hno => exact .inr (.inl ⟨v, t, highestQc_seeQc s v t⟩)
  | advance m q d t t' vc hm hq ht =>
    refine .inr (.inl ⟨s.view, t, ?_⟩)
    show (advanceSlot (seeQc s s.view t) q (stage t) (stage t')).highestQc = _
    rw [highestQc_advanceSlot, highestQc_seeQc]
  | decide m q d vc slot hm hq hs hph =>
    refine .inr (.inl ⟨s.view, .commit, ?_⟩)
    show (commitPending _ q).highestQc = _
    rw [highestQc_commitPending]
    exact highestQc_seeQc s s.view .commit

omit [Sha256] in
/-- The vote that completes a certificate leaves the leader with it as its record. -/
theorem highestQc_handleVote {self : HotStuffNode} {s : HotStuffState} {v : ViewNumber}
    {q : SequenceNumber} {t : HotStuffPhaseTag} {r : NodeId}
    (hcomplete : completesCertificate self s v q t r) (d : Digest) :
    (self.handleVote s v q d t r).1.highestQc = toLex (v, phaseOrd t) := by
  obtain ⟨hl, rfl, slot, slot', vc, hs, hvote⟩ := completesCertificate_iff.mp hcomplete
  have hstate : (self.handleVote s s.view q d t r).1 = completeQc s q slot' t := by
    unfold handleVote
    rw [if_neg (not_not.mpr hl), if_neg (not_not.mpr rfl), hs]
    simp only [hvote]
    rfl
  rw [hstate, highestQc_completeQc]

theorem highestQc_of_completes (hf : (system n cfg).Fires w o) {m : NetworkMessage}
    (hc : o.cause = .recv m) {v : ViewNumber} {q : SequenceNumber} {d : Digest}
    {t : HotStuffPhaseTag} {r : NodeId} (hm : m.payload = .hotStuff (.vote v q d t r))
    (hcomplete : completesCertificate (node n o.node) o.before v q t r) :
    o.after.highestQc = toLex (v, phaseOrd t) := by
  cases hf with
  | call i a hi => exact absurd hc (by simp)
  | recv m₀ m₁ s out hm₀ hsent hcarry hmem hrecv =>
    cases hc
    have hstate : ((node n m.target).handleMessage (w.nodes m.target) m).1 = s :=
      congrArg Prod.fst (Option.some.inj hrecv)
    show s.highestQc = _
    rw [← hstate]
    unfold handleMessage
    rw [hm]
    exact highestQc_handleVote hcomplete d

/-- **A step keeps the record** from going down if, and only if, it completes no certificate below
    it. -/
theorem keepsHighest_iff (hf : (system n cfg).Fires w o) :
    KeepsHighest o ↔ CertifiesHighest (node n o.node) o.before o.cause := by
  constructor
  · intro hkeeps
    unfold CertifiesHighest
    split
    · rename_i src dst v q d t r hc
      intro hcomplete
      rw [← highestQc_of_completes hf hc rfl hcomplete]
      exact hkeeps
    · trivial
  · intro hcert
    unfold KeepsHighest
    rcases highestQc_of_fires hf with heq | ⟨v, t, heq⟩ | ⟨m, v, q, d, t, r, hc, hm, hcomplete, heq⟩
    · rw [heq]
    · rw [heq]
      exact le_max_left _ _
    · obtain ⟨src, dst, payload⟩ := m
      cases hm
      rw [hc] at hcert
      rw [heq]
      exact hcert hcomplete

/-- **The highest certificate that a node records never goes down** in the runs in which leaders
    complete no certificate below their record. -/
theorem highest_never_decreases (hw : (system n cfg).Reach System.anyStep w) :
    (∀ o ∈ w.history, KeepsHighest o) ↔
      ∀ o ∈ w.history, CertifiesHighest (node n o.node) o.before o.cause :=
  hw.forall_iff fun _ _ _ hf => keepsHighest_iff hf

end Steps

/-- One proposal up to its decision by the leader. -/
theorem highest_never_decreases_four : ∃ w,
    (@system Sha256.sample 4 {}).Reach System.anyStep w ∧
    (w.nodes 0).highestQc = toLex (0, 2) ∧ ∀ o ∈ w.history, KeepsHighest o := by
  obtain ⟨w, hw, hcert, hrecord⟩ := System.Reach.exists_of_run (S := @system Sha256.sample 4 {})
    (P := fun w => (∀ o ∈ w.history, CertifiesHighest (node 4 o.node) o.before o.cause) ∧
      (w.nodes 0).highestQc = toLex (0, 2))
    (commitRun ⟨[0x70]⟩) (by decide +kernel)
  exact ⟨w, hw, hrecord, (@highest_never_decreases Sha256.sample 4 {} w hw).mpr hcert⟩

/-- The leader has the `PreCommit` certificate of its first proposal when it completes the
    `Prepare` certificate of its second. -/
theorem highest_certificate_lowered : ∃ w,
    (@system Sha256.sample 4 {}).Reach System.anyStep w ∧ ¬ ∀ o ∈ w.history, KeepsHighest o :=
  System.Reach.exists_of_run (S := @system Sha256.sample 4 {})
    (P := fun w => ¬ ∀ o ∈ w.history, KeepsHighest o)
    (.call 0 (.propose ⟨[0x70]⟩) :: [0, 0, 1, 1, 1, 1, 2, 2].map .deliver ++
      .call 0 (.propose ⟨[0x71]⟩) :: [5, 5, 6, 6].map .deliver) (by decide +kernel)

end HotStuff

end ConsensusBench
