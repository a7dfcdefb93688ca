import ConsensusBench.Lib.Rounds
import ConsensusBench.HotStuff.Agreement

namespace ConsensusBench

/-!
# HotStuff: the run an equivocating leader breaks agreement with

If node `0` is Byzantine and its `Propose` messages and certificates get through, then one
proposal makes every honest node commit what it received: they vote, node `0` certifies, and
so on through the three tags (`proposal_run`).  The certificates name one sequence, not what
each node has pending for it.  So agreement in view `0` holds exactly for the configurations
in which node `0` does not equivocate, or drops one of the two kinds of messages
(`agreement_in_view_zero_iff`).
-/

open AsyncNet HotStuffNode

namespace HotStuff

variable [Sha256] {n : ℕ} {cfg : FaultConfig}

/-! ### The leader on a round of votes -/

/-- Node `i` collects votes of tag `t` for `q`; it has its own vote and none of later tags. -/
def Collecting (i : NodeId) (s : HotStuffState) (q : SequenceNumber) (t : HotStuffPhaseTag) :
    Prop :=
  ∃ slot, s.slots.lookup q = some slot ∧ slot.phase = stage t ∧ slot.voters t = {i} ∧
    ∀ t', phaseOrd t < phaseOrd t' → slot.voters t' = ∅

/-- A vote at a leader whose slot collects votes of its tag. -/
theorem recv_vote (n : ℕ) (cfg : FaultConfig) {i : NodeId} {s : HotStuffState}
    {q : SequenceNumber} {slot : SlotState} {t : HotStuffPhaseTag}
    (hl : (node n i).leaderForView s.view = i)
    (hs : s.slots.lookup q = some slot) (hph : slot.phase = stage t) (d : Digest) (r : NodeId) :
    (system n cfg).recv i s ⟨r, i, .hotStuff (.vote s.view q d t r)⟩ = some
      (if (node n i).quorum ≤ (insert r (slot.voters t)).card then
        (completeQc s q ((slot.addVote r t).certify i t) t,
          (node n i).broadcastHotstuff
            (.quorumCertificate s.view q d t (insert r (slot.voters t)).card))
      else ({ s with slots := s.slots.insert q (slot.addVote r t) }, [])) := by
  show some ((node n i).handleVote s s.view q d t r) = _
  unfold handleVote
  have hself : (node n i).id = i := rfl
  simp only [hself, hl, ne_eq, not_true_eq_false, if_false, hs, countVote_eq, hph]
  congr 1
  by_cases hq : (node n i).quorum ≤ (insert r (slot.voters t)).card
  · simp only [hq, if_true]
    rfl
  · simp only [hq, if_false]

/-- A vote at a leader whose slot does not collect votes of its tag. -/
theorem recv_vote_ignore {i : NodeId} {s : HotStuffState} {q : SequenceNumber}
    {slot : SlotState} {t : HotStuffPhaseTag} (hl : (node n i).leaderForView s.view = i)
    (hs : s.slots.lookup q = some slot) (hph : slot.phase ≠ stage t) (d : Digest) (r : NodeId) :
    (system n cfg).recv i s ⟨r, i, .hotStuff (.vote s.view q d t r)⟩ = some (s, []) := by
  show some ((node n i).handleVote s s.view q d t r) = _
  unfold handleVote
  have hself : (node n i).id = i := rfl
  simp only [hself, hl, ne_eq, not_true_eq_false, if_false, hs, countVote_eq, hph,
    not_false_eq_true, if_true]

omit [Sha256] in
/-- Completing a certificate changes the slot and leaves the view alone. -/
theorem completeQc_frame (s : HotStuffState) (q : SequenceNumber) (slot : SlotState)
    (t : HotStuffPhaseTag) : (completeQc s q slot t).view = s.view ∧
      (completeQc s q slot t).slots = s.slots.insert q slot := by
  have hpending : ∀ t : HotStuffState, (commitPending t q).view = t.view ∧
      (commitPending t q).slots = t.slots := by
    intro t
    unfold commitPending
    split <;> exact ⟨rfl, rfl⟩
  by_cases ht : t = .commit
  · simp only [completeQc, ht, if_true]
    exact hpending _
  · simp only [completeQc, ht, if_false, and_self]

omit [Sha256] in
theorem certify_phase_ne (slot : SlotState) (i : NodeId) (t : HotStuffPhaseTag) :
    (slot.certify i t).phase ≠ stage t := by
  cases t <;> simp [SlotState.certify, stage]

omit [Sha256] in
/-- After the certificate of a tag, the leader collects the votes of the next. -/
theorem collecting_certify {i r : NodeId} {s : HotStuffState} {q : SequenceNumber}
    {slot : SlotState} {t t' : HotStuffPhaseTag} (hnext : nextTag t = some t')
    (hs : s.slots.lookup q = some ((slot.addVote r t).certify i t))
    (hempty : ∀ t', phaseOrd t < phaseOrd t' → slot.voters t' = ∅) : Collecting i s q t' := by
  refine ⟨_, hs, ?_⟩
  cases t with
  | prepare =>
    cases hnext
    have hpre : slot.precommitVoters = ∅ := hempty .preCommit (by decide)
    have hcommit : slot.commitVoters = ∅ := hempty .commit (by decide)
    refine ⟨rfl, ?_, fun t'' h => ?_⟩
    · simp [SlotState.voters, SlotState.certify, SlotState.addVote, hpre]
    · cases t'' with
      | commit => exact hcommit
      | _ => exact absurd h (by decide)
  | preCommit =>
    cases hnext
    have hcommit : slot.commitVoters = ∅ := hempty .commit (by decide)
    refine ⟨rfl, ?_, fun t'' h => ?_⟩
    · simp [SlotState.voters, SlotState.certify, SlotState.addVote, hcommit]
    · cases t'' <;> exact absurd h (by decide)
  | commit => exact absurd hnext (by simp [nextTag])

/-- **Enough votes make a certificate.** -/
theorem absorb_votes (n : ℕ) (cfg : FaultConfig) {i : NodeId} {q : SequenceNumber}
    {t : HotStuffPhaseTag} (d : NodeId → Digest) {rs : List NodeId} (hrs : rs ≠ [])
    (hnodup : rs.Nodup) {s : HotStuffState} {slot : SlotState}
    (hl : (node n i).leaderForView s.view = i) (hs : s.slots.lookup q = some slot)
    (hph : slot.phase = stage t) (hnew : ∀ r ∈ rs, r ∉ slot.voters t)
    (hempty : ∀ t', phaseOrd t < phaseOrd t' → slot.voters t' = ∅)
    (hcount : (node n i).quorum ≤ (slot.voters t).card + rs.length) :
    ∃ s' d' vc, (system n cfg).absorb i s
        (rs.map fun r => ⟨r, i, .hotStuff (.vote s.view q (d r) t r)⟩) =
          some (s', (node n i).broadcastHotstuff (.quorumCertificate s.view q d' t vc)) ∧
      (node n i).quorum ≤ vc ∧ s'.view = s.view ∧
      ∀ t', nextTag t = some t' → Collecting i s' q t' := by
  -- until the quorum, the slot collects and nothing else changes
  let C (x : HotStuffState) (V : Finset NodeId) : Prop := x.view = s.view ∧
    ∃ y, x.slots.lookup q = some y ∧ y.phase = stage t ∧ y.voters t = V ∧
      ∀ t', phaseOrd t < phaseOrd t' → y.voters t' = ∅
  let R (x : HotStuffState) (out : List NetworkMessage) : Prop := ∃ d' vc,
    out = (node n i).broadcastHotstuff (.quorumCertificate s.view q d' t vc) ∧
      (node n i).quorum ≤ vc ∧ x.view = s.view ∧
      ∀ t', nextTag t = some t' → Collecting i x q t'
  have hC : C s (slot.voters t) := ⟨rfl, slot, hs, hph, rfl, hempty⟩
  have hadd : ∀ x V r, C x V → (insert r V).card < (node n i).quorum →
      ∃ x', (system n cfg).recv i x ⟨r, i, .hotStuff (.vote s.view q (d r) t r)⟩ =
        some (x', []) ∧ C x' (insert r V) := by
    rintro x V r ⟨hview, y, hy, hphy, rfl, hempty⟩ hlt
    have hrecv := recv_vote n cfg (by rw [hview]; exact hl) hy hphy (d r) r
    rw [hview, if_neg (not_le.mpr hlt)] at hrecv
    refine ⟨_, hrecv, rfl, y.addVote r t, AList.lookup_insert _, ?_, ?_, fun t' hlater => ?_⟩
    · rw [← hphy]
      cases t <;> rfl
    · cases t <;> rfl
    · -- a vote of one tag is not one of a later tag
      have hold := hempty t' hlater
      cases t <;> cases t' <;> first | exact hold | exact absurd hlater (by decide)
  have hfull : ∀ x V r, C x V → (node n i).quorum ≤ (insert r V).card →
      ∃ x' out, (system n cfg).recv i x ⟨r, i, .hotStuff (.vote s.view q (d r) t r)⟩ =
        some (x', out) ∧ R x' out ∧ ∀ r', (system n cfg).recv i x'
          ⟨r', i, .hotStuff (.vote s.view q (d r') t r')⟩ = some (x', []) := by
    rintro x V r ⟨hview, y, hy, hphy, rfl, hempty⟩ hle
    have hrecv := recv_vote n cfg (by rw [hview]; exact hl) hy hphy (d r) r
    rw [if_pos hle] at hrecv
    obtain ⟨hkept, hslots⟩ := completeQc_frame x q ((y.addVote r t).certify i t) t
    rw [hview] at hkept hrecv
    have hslot : (completeQc x q ((y.addVote r t).certify i t) t).slots.lookup q =
        some ((y.addVote r t).certify i t) := by
      rw [hslots]
      exact AList.lookup_insert _
    refine ⟨_, _, hrecv, ⟨d r, _, rfl, hle, hkept, fun t' hnext =>
      collecting_certify hnext hslot hempty⟩, fun r' => ?_⟩
    rw [← hkept]
    exact recv_vote_ignore (by rw [hkept]; exact hl) hslot (certify_phase_ne _ i t) (d r') r'
  obtain ⟨s', out, habs, d', vc, rfl, hafter⟩ :=
    System.absorb_votes _ _ hadd hfull hrs hnodup hC hnew hcount
  exact ⟨s', d', vc, habs, hafter⟩

/-! ### The replicas on a certificate -/

/-- Node `i` has `p` pending for `q` and has not decided it. -/
def Undecided (s : HotStuffState) (q : SequenceNumber) (p : Payload) : Prop :=
  s.pendingPayloads.lookup q = some p ∧
    ∃ slot, s.slots.lookup q = some slot ∧ slot.phase ≠ .decided

/-- A certificate that asks for votes, at a replica that has not decided. -/
theorem recv_certificate (n : ℕ) (cfg : FaultConfig) {i k : NodeId} {s : HotStuffState}
    {q : SequenceNumber} {p : Payload} {t t' : HotStuffPhaseTag} {vc : ℕ} (d : Digest)
    (hvc : (node n i).quorum ≤ vc) (hnext : nextTag t = some t') (hs : Undecided s q p) :
    ∃ s', (system n cfg).recv i s ⟨k, i, .hotStuff (.quorumCertificate s.view q d t vc)⟩ =
        some (s', [(node n i).msgTo ((node n i).leaderForView s.view)
          (.hotStuff (.vote s.view q d t' i))]) ∧ s'.view = s.view ∧ Undecided s' q p := by
  refine ⟨advanceSlot (seeQc s s.view t) q (stage t) (stage t'), ?_, by simp,
    by simpa using hs.1, ?_⟩
  · exact congrArg some (handleQuorumCertificate_eq (node n i) s hvc hnext d)
  · obtain ⟨slot, hslot, hph⟩ := hs.2
    unfold advanceSlot
    rw [seeQc_slots, hslot]
    dsimp only
    split
    · refine ⟨_, AList.lookup_insert _, ?_⟩
      cases t' <;> simp [stage]
    · exact ⟨slot, by rw [seeQc_slots, hslot], hph⟩

/-- A `Commit` certificate makes a replica commit what it has pending. -/
theorem recv_commit_certificate (n : ℕ) (cfg : FaultConfig) {i k : NodeId} {s : HotStuffState}
    {q : SequenceNumber} {p : Payload} {vc : ℕ} (d : Digest) (hvc : (node n i).quorum ≤ vc)
    (hs : Undecided s q p) :
    ∃ s', (system n cfg).recv i s ⟨k, i, .hotStuff (.quorumCertificate s.view q d .commit vc)⟩ =
        some (s', []) ∧ s'.view = s.view ∧ ⟨q, p⟩ ∈ s'.committed := by
  obtain ⟨hp, slot, hslot, hph⟩ := hs
  let s₁ : HotStuffState := { seeQc s s.view .commit with
    slots := (seeQc s s.view .commit).slots.insert q { slot with phase := .decided } }
  have hp₁ : s₁.pendingPayloads.lookup q = some p := by rw [← hp]; simp [s₁]
  have hcommit : commitPending s₁ q = { s₁ with
      pendingPayloads := s₁.pendingPayloads.erase q
      committed := s₁.committed ++ [⟨q, p⟩] } := by rw [commitPending, hp₁]
  refine ⟨commitPending s₁ q, ?_, ?_, ?_⟩
  · show some ((node n i).handleQuorumCertificate s s.view q d .commit vc) = _
    unfold handleQuorumCertificate
    rw [if_neg (not_lt.mpr hvc)]
    show some (if s.view ≠ (seeQc s s.view .commit).view then (seeQc s s.view .commit, []) else
      decideSlot (seeQc s s.view .commit) q) = _
    rw [if_neg (by simp)]
    have hslots : (seeQc s s.view .commit).slots.lookup q = some slot := by
      rw [seeQc_slots, hslot]
    unfold decideSlot
    rw [hslots]
    dsimp only
    rw [if_pos hph]
  · rw [hcommit]
    simp [s₁]
  · rw [hcommit]
    exact List.mem_append_right _ (List.mem_singleton_self _)

/-! ### The rounds -/

/-- Node `0` proposed `p` as `1` in view `0`; every honest node has what reached it, and has
    not decided it. -/
structure Proposed (n : ℕ) (cfg : FaultConfig) (p : Payload)
    (w : World NodeId HotStuffState Call NetworkMessage) : Prop where
  view : InFirstView n w
  undecided : ∀ i ∈ cfg.honest n,
    Undecided (w.nodes i) 1 (Payload.alt^[cfg.forkBytes 0 i] p)

/-- All honest nodes have voted with tag `t`. -/
structure Voted (n : ℕ) (cfg : FaultConfig) (p : Payload) (t : HotStuffPhaseTag)
    (w : World NodeId HotStuffState Call NetworkMessage) : Prop
    extends Proposed n cfg p w where
  collecting : Collecting 0 (w.nodes 0) 1 t
  votes : ∀ i ∈ cfg.honest n, ∃ d, ⟨i, 0, .hotStuff (.vote 0 1 d t i)⟩ ∈ w.inFlight

/-- Node `0` has certified tag `t`. -/
structure Certified (n : ℕ) (cfg : FaultConfig) (p : Payload) (t : HotStuffPhaseTag)
    (w : World NodeId HotStuffState Call NetworkMessage) : Prop
    extends Proposed n cfg p w where
  collecting : ∀ t', nextTag t = some t' → Collecting 0 (w.nodes 0) 1 t'
  certificate : ∃ d vc, (node n 0).quorum ≤ vc ∧ ∀ i ∈ cfg.honest n,
    ⟨0, i, .hotStuff (.quorumCertificate 0 1 d t vc)⟩ ∈ w.inFlight

section Rounds

variable {p : Payload} {t t' : HotStuffPhaseTag}
variable {w : World NodeId HotStuffState Call NetworkMessage}

omit [Sha256] in
theorem ne_zero_of_honest (hbyz : cfg.isByzantine 0 = true) {i : NodeId}
    (hi : i ∈ cfg.honest n) : i ≠ 0 := by
  rintro rfl
  rw [(cfg.mem_honest.mp hi).2] at hbyz
  exact absurd hbyz (by decide)

/-- **Node `0` certifies** once all honest nodes have voted. -/
theorem certify_round (hn : 0 < n) (hbyz : cfg.isByzantine 0 = true)
    (hcount : 2 * ((n - 1) / 3) + 1 ≤ (cfg.honest n).length) (hw : Voted n cfg p t w) :
    ∃ w', (system n cfg).Steps System.anyStep w w' ∧ Certified n cfg p t w' := by
  obtain ⟨slot, hslot, hph, hvoters, hempty⟩ := hw.collecting
  have hvotes := hw.votes
  choose! d hd using hvotes
  have hview : (w.nodes 0).view = 0 := hw.view 0 hn
  have hcarry : ∀ r ∈ cfg.honest n, cfg.tamper ⟨r, 0, .hotStuff (.vote 0 1 (d r) t r)⟩ =
      [⟨r, 0, .hotStuff (.vote 0 1 (d r) t r)⟩] := fun r hr =>
    cfg.tamper_of_honest (cfg.mem_honest.mp hr).2
  have hms : System.Arriving (system n cfg) w 0
      ((cfg.honest n).map fun r => ⟨r, 0, .hotStuff (.vote 0 1 (d r) t r)⟩) := by
    refine ⟨(cfg.nodup_honest n).map fun r r' h => congrArg NetworkMessage.sender h, ?_, ?_⟩
    · intro m hm
      obtain ⟨r, hr, rfl⟩ := List.mem_map.mp hm
      exact hd r hr
    · intro m hm
      obtain ⟨r, hr, rfl⟩ := List.mem_map.mp hm
      exact ⟨_, hcarry r hr, rfl⟩
  have hflat : ((cfg.honest n).map fun r =>
      (⟨r, 0, .hotStuff (.vote 0 1 (d r) t r)⟩ : NetworkMessage)).flatMap (system n cfg).carry =
        (cfg.honest n).map fun r => ⟨r, 0, .hotStuff (.vote 0 1 (d r) t r)⟩ := by
    rw [List.flatMap_map, List.map_eq_flatMap]
    exact List.flatMap_congr hcarry
  have hhonest : cfg.honest n ≠ [] := fun hnil => by
    rw [hnil, List.length_nil] at hcount
    omega
  obtain ⟨s, d', vc, habs, hvc, hview', hnext⟩ := absorb_votes n cfg (i := 0) d hhonest
    (cfg.nodup_honest n) (by rw [hview]; exact Nat.zero_mod n) hslot hph
    (fun r hr => by rw [hvoters, Finset.mem_singleton]; exact ne_zero_of_honest hbyz hr) hempty
    (le_trans hcount (Nat.le_add_left _ _))
  rw [hview] at habs
  obtain ⟨w', hs, hnodes, hh⟩ := System.Steps.absorb (Finset.mem_range.mpr hn) hms
    (by rw [hflat]; exact habs) (by
      intro m hm hin
      obtain ⟨j, _, _, rfl⟩ := mem_broadcastHotstuff.mp hm
      obtain ⟨r, _, heq⟩ := List.mem_map.mp hin
      exact absurd heq (by simp))
  have hframe : ∀ i, i ≠ 0 → w'.nodes i = w.nodes i := fun i hi => by
    rw [hnodes, Function.update_of_ne hi]
  have hzero : w'.nodes 0 = s := by rw [hnodes, Function.update_self]
  refine ⟨w', hs, ⟨⟨fun i hi => ?_, fun i hi => ?_⟩, fun t' ht' => ?_, d', vc, hvc, ?_⟩⟩
  · by_cases h0 : i = 0
    · rw [h0, hzero, hview', hview]
    · rw [hframe i h0]
      exact hw.view i hi
  · rw [hframe i (ne_zero_of_honest hbyz hi)]
    exact hw.undecided i hi
  · rw [hzero]
    exact hnext t' ht'
  · intro i hi
    exact hh.sent _ (mem_broadcastHotstuff.mpr
      ⟨i, (cfg.mem_honest.mp hi).1, ne_zero_of_honest hbyz hi, rfl⟩)

/-- What `tamper` makes of a certificate that it does not drop. -/
theorem tamper_certificate {i : NodeId} (hdrop : cfg.dropsPhase i .hotStuffQC = false)
    (j : NodeId) (v : ViewNumber) (q : SequenceNumber) (d : Digest) (t : HotStuffPhaseTag)
    (vc : ℕ) : ∃ d', cfg.tamper ⟨i, j, .hotStuff (.quorumCertificate v q d t vc)⟩ =
      [⟨i, j, .hotStuff (.quorumCertificate v q d' t vc)⟩] := by
  have hskel := cfg.alter_skeleton ⟨i, j, .hotStuff (.quorumCertificate v q d t vc)⟩
  rw [cfg.tamper_eq, cfg.drops_eq_dropsPhase rfl, hdrop, if_neg (by decide)]
  obtain ⟨d', hx⟩ := certificate_of_skeleton hskel.symm
  refine ⟨d', ?_⟩
  rw [← hx, List.singleton_inj]
  exact NetworkMessage.ext (cfg.alter_sender _) (cfg.alter_target _) rfl

/-- Every honest node handles the message `x` of node `0`, which reaches node `i` in form
    `y i` with some digest. -/
theorem honest_round (x : HotStuffMessage) (y : NodeId → Digest → HotStuffMessage)
    (htamper : ∀ i, ∃ d', cfg.tamper ⟨0, i, .hotStuff x⟩ = [⟨0, i, .hotStuff (y i d')⟩])
    (hflight : ∀ i ∈ cfg.honest n, ⟨0, i, .hotStuff x⟩ ∈ w.inFlight)
    (R : NodeId → HotStuffState → List NetworkMessage → Prop)
    (hrecv : ∀ i ∈ cfg.honest n, ∀ d', ∃ s out,
      (system n cfg).recv i (w.nodes i) ⟨0, i, .hotStuff (y i d')⟩ = some (s, out) ∧ R i s out)
    (hnew : ∀ i s out, R i s out → ∀ m ∈ out, ∀ j, m ≠ ⟨0, j, .hotStuff x⟩) :
    ∃ w', (system n cfg).Steps System.anyStep w w' ∧
      (∀ i ∈ cfg.honest n, ∃ out, R i (w'.nodes i) out ∧ ∀ m ∈ out, m ∈ w'.inFlight) ∧
      ∀ i, i ∉ cfg.honest n → w'.nodes i = w.nodes i := by
  have hms : ∀ i ∈ cfg.honest n,
      System.Arriving (system n cfg) w i [⟨0, i, .hotStuff x⟩] := by
    intro i hi
    refine ⟨List.nodup_singleton _, fun m hm => ?_, fun m hm => ?_⟩
    · rw [List.mem_singleton.mp hm]
      exact hflight i hi
    · rw [List.mem_singleton.mp hm]
      obtain ⟨d', htamper⟩ := htamper i
      exact ⟨_, htamper, rfl⟩
  obtain ⟨w', hs, hpost, hframe, _⟩ := System.Steps.round (cfg.nodup_honest n)
    (fun i hi => Finset.mem_range.mpr (cfg.mem_honest.mp hi).1) _ hms R
    (fun i hi => by
      obtain ⟨d', htamper⟩ := htamper i
      obtain ⟨s, out, hr, hR⟩ := hrecv i hi d'
      have hcarry : (system n cfg).carry ⟨0, i, .hotStuff x⟩ = _ := htamper
      rw [List.flatMap_singleton, hcarry]
      exact ⟨s, out, by rw [System.absorb_cons hr]; simp, hR⟩)
    (fun i hi s out hR m hm j hj hin => hnew i s out hR m hm j (List.mem_singleton.mp hin))
  exact ⟨w', hs, hpost, hframe⟩

/-- **The honest nodes vote** with the next tag on a certificate. -/
theorem vote_round (hbyz : cfg.isByzantine 0 = true)
    (hdrop : cfg.dropsPhase 0 .hotStuffQC = false) (hnext : nextTag t = some t')
    (hw : Certified n cfg p t w) :
    ∃ w', (system n cfg).Steps System.anyStep w w' ∧ Voted n cfg p t' w' := by
  obtain ⟨d, vc, hvc, hflight⟩ := hw.certificate
  obtain ⟨w', hs, hpost, hframe⟩ := honest_round _ (fun _ d => .quorumCertificate 0 1 d t vc)
    (fun i => tamper_certificate hdrop i 0 1 d t vc) hflight
    (fun i s out => s.view = 0 ∧ Undecided s 1 (Payload.alt^[cfg.forkBytes 0 i] p) ∧
      ∃ d', out = [⟨i, 0, .hotStuff (.vote 0 1 d' t' i)⟩])
    (fun i hi d' => by
      have hview := hw.view i (cfg.mem_honest.mp hi).1
      obtain ⟨s, hr, hview', hund⟩ := recv_certificate n cfg (i := i) (k := 0) d' hvc hnext
        (hw.undecided i hi)
      rw [hview] at hr hview'
      have hlead : (node n i).leaderForView 0 = 0 := Nat.zero_mod n
      rw [hlead] at hr
      exact ⟨s, _, hr, hview', hund, d', rfl⟩)
    (by
      rintro i s out ⟨_, _, d', rfl⟩ m hm j rfl
      exact absurd (List.mem_singleton.mp hm) (by simp))
  have hzero : w'.nodes 0 = w.nodes 0 :=
    hframe 0 fun h => ne_zero_of_honest hbyz h rfl
  refine ⟨w', hs, ⟨⟨fun i hi => ?_, fun i hi => ?_⟩, ?_, fun i hi => ?_⟩⟩
  · by_cases hh : i ∈ cfg.honest n
    · obtain ⟨_, ⟨hview, _⟩, _⟩ := hpost i hh
      exact hview
    · rw [hframe i hh]
      exact hw.view i hi
  · obtain ⟨_, ⟨_, hund, _⟩, _⟩ := hpost i hi
    exact hund
  · rw [hzero]
    exact hw.collecting t' hnext
  · obtain ⟨_, ⟨_, _, d', rfl⟩, hsent⟩ := hpost i hi
    exact ⟨d', hsent _ (List.mem_singleton_self _)⟩

/-- **The honest nodes commit** on the `Commit` certificate. -/
theorem decide_round (hdrop : cfg.dropsPhase 0 .hotStuffQC = false)
    (hw : Certified n cfg p .commit w) :
    ∃ w', (system n cfg).Steps System.anyStep w w' ∧ InFirstView n w' ∧
      ∀ i ∈ cfg.honest n,
        ⟨1, Payload.alt^[cfg.forkBytes 0 i] p⟩ ∈ (w'.nodes i).committed := by
  obtain ⟨d, vc, hvc, hflight⟩ := hw.certificate
  obtain ⟨w', hs, hpost, hframe⟩ := honest_round _
    (fun _ d => .quorumCertificate 0 1 d .commit vc)
    (fun i => tamper_certificate hdrop i 0 1 d .commit vc) hflight
    (fun i s out => s.view = 0 ∧ ⟨1, Payload.alt^[cfg.forkBytes 0 i] p⟩ ∈ s.committed ∧ out = [])
    (fun i hi d' => by
      have hview := hw.view i (cfg.mem_honest.mp hi).1
      obtain ⟨s, hr, hview', hmem⟩ := recv_commit_certificate n cfg (i := i) (k := 0) d' hvc
        (hw.undecided i hi)
      rw [hview] at hr hview'
      exact ⟨s, _, hr, hview', hmem, rfl⟩)
    (by
      rintro i s out ⟨_, _, rfl⟩ m hm
      exact absurd hm (by simp))
  refine ⟨w', hs, fun i hi => ?_, fun i hi => ?_⟩
  · by_cases hh : i ∈ cfg.honest n
    · obtain ⟨_, ⟨hview, _⟩, _⟩ := hpost i hh
      exact hview
    · rw [hframe i hh]
      exact hw.view i hi
  · obtain ⟨_, ⟨_, hmem, _⟩, _⟩ := hpost i hi
    exact hmem

/-- What `tamper` makes of a `Propose` that it does not drop. -/
theorem tamper_propose {i : NodeId} (hdrop : cfg.dropsPhase i .hotStuffPropose = false)
    (j : NodeId) (v : ViewNumber) (q : SequenceNumber) (d : Digest) (p : Payload)
    (jv : ViewNumber) (jp : HotStuffPhaseTag) :
    ∃ d', cfg.tamper ⟨i, j, .hotStuff (.propose v q d p jv jp)⟩ =
      [⟨i, j, .hotStuff (.propose v q d' (Payload.alt^[cfg.forkBytes i j] p) jv jp)⟩] := by
  have hskel := cfg.alter_skeleton ⟨i, j, .hotStuff (.propose v q d p jv jp)⟩
  have hprop := cfg.proposed_alter ⟨i, j, .hotStuff (.propose v q d p jv jp)⟩
  rw [cfg.tamper_eq, cfg.drops_eq_dropsPhase rfl, hdrop, if_neg (by decide)]
  obtain ⟨d', p', hx⟩ := propose_of_skeleton hskel.symm
  rw [hx] at hprop
  have hp' : p' = Payload.alt^[cfg.forkBytes i j] p := Option.some.inj hprop
  refine ⟨d', ?_⟩
  rw [← hp', ← hx, List.singleton_inj]
  exact NetworkMessage.ext (cfg.alter_sender _) (cfg.alter_target _) rfl

/-- Node `0` proposes, and collects `Prepare` votes. -/
theorem opening (n : ℕ) (cfg : FaultConfig) (hn : 0 < n) (p : Payload) : ∃ w,
    (system n cfg).Reach System.anyStep w ∧ (w.nodes 0).view = 0 ∧
    Collecting 0 (w.nodes 0) 1 .prepare ∧ (∀ i, i ≠ 0 → w.nodes i = (HotStuffNode.new i n).2) ∧
    ∀ i < n, i ≠ 0 → ⟨0, i, .hotStuff (.propose 0 1 p.digest p 0 .prepare)⟩ ∈ w.inFlight := by
  have hmem : 0 ∈ (system n cfg).members := Finset.mem_range.mpr hn
  have hpropose : (system n cfg).act 0 ((system n cfg).start.nodes 0) (.propose p) =
      ({ (HotStuffNode.new 0 n).2 with
          nextSequence := 2
          slots := (∅ : HashMap SequenceNumber SlotState).insert 1
            { SlotState.new 0 1 with phase := .prepare, prepareVoters := {0} }
          pendingPayloads := (∅ : HashMap SequenceNumber Payload).insert 1 p },
        (node n 0).broadcastHotstuff (.propose 0 1 p.digest p 0 .prepare)) := by
    show ((node n 0).propose (HotStuffNode.new 0 n).2 p).2 = _
    unfold propose
    rw [if_neg (fun hne => hne (Nat.zero_mod n))]
    rfl
  refine ⟨_, System.Steps.call hmem hpropose, ?_, ?_, fun i hi => ?_, fun i hi hne => ?_⟩
  · rw [World.record_nodes, Function.update_self]
    rfl
  · rw [World.record_nodes, Function.update_self]
    refine ⟨_, AList.lookup_insert _, rfl, rfl, fun t' ht' => ?_⟩
    cases t' with
    | prepare => exact absurd ht' (by decide)
    | _ => rfl
  · rw [World.record_nodes, Function.update_of_ne hi]
    rfl
  · exact List.mem_append_right _ (mem_broadcastHotstuff.mpr ⟨i, hi, hne, rfl⟩)

/-- **The honest nodes vote** for the proposal of node `0`. -/
theorem propose_round (hn : 0 < n) (hbyz : cfg.isByzantine 0 = true)
    (hdrop : cfg.dropsPhase 0 .hotStuffPropose = false) (p : Payload) :
    ∃ w, (system n cfg).Reach System.anyStep w ∧ Voted n cfg p .prepare w := by
  obtain ⟨w₁, hr₁, hview₁, hcollect, hinit, hflight⟩ := opening n cfg hn p
  obtain ⟨w₂, hs₂, hpost, hframe⟩ := honest_round (w := w₁) _
    (fun i d => .propose 0 1 d (Payload.alt^[cfg.forkBytes 0 i] p) 0 .prepare)
    (fun i => tamper_propose hdrop i 0 1 p.digest p 0 .prepare)
    (fun i hi => hflight i (cfg.mem_honest.mp hi).1 (ne_zero_of_honest hbyz hi))
    (fun i s out => s.view = 0 ∧ Undecided s 1 (Payload.alt^[cfg.forkBytes 0 i] p) ∧
      ∃ d, out = [⟨i, 0, .hotStuff (.vote 0 1 d .prepare i)⟩])
    (fun i hi d => by
      rw [hinit i (ne_zero_of_honest hbyz hi)]
      refine ⟨_, _, rfl, rfl, ⟨AList.lookup_insert _, _, AList.lookup_insert _, by simp⟩, d, ?_⟩
      show [(⟨i, 0 % n, _⟩ : NetworkMessage)] = _
      rw [Nat.zero_mod]
      rfl)
    (by
      rintro i s out ⟨_, _, d, rfl⟩ m hm j rfl
      exact absurd (List.mem_singleton.mp hm) (by simp))
  have hzero : w₂.nodes 0 = w₁.nodes 0 := hframe 0 fun h => ne_zero_of_honest hbyz h rfl
  refine ⟨w₂, System.Steps.trans hr₁ hs₂, ⟨⟨fun i hi => ?_, fun i hi => ?_⟩, ?_, fun i hi => ?_⟩⟩
  · by_cases hh : i ∈ cfg.honest n
    · obtain ⟨_, ⟨hview, _⟩, _⟩ := hpost i hh
      exact hview
    · rw [hframe i hh]
      by_cases h0 : i = 0
      · rw [h0, hview₁]
      · rw [hinit i h0]
        rfl
  · obtain ⟨_, ⟨_, hund, _⟩, _⟩ := hpost i hi
    exact hund
  · rw [hzero]
    exact hcollect
  · obtain ⟨_, ⟨_, _, d, rfl⟩, hsent⟩ := hpost i hi
    exact ⟨d, hsent _ (List.mem_singleton_self _)⟩

/-- **One proposal of a Byzantine leader**, and three votes of the honest nodes: each of them
    commits what reached it. -/
theorem proposal_run (hn : 0 < n) (hbyz : cfg.isByzantine 0 = true)
    (hcount : 2 * ((n - 1) / 3) + 1 ≤ (cfg.honest n).length)
    (hpropose : cfg.dropsPhase 0 .hotStuffPropose = false)
    (hqc : cfg.dropsPhase 0 .hotStuffQC = false) (p : Payload) :
    ∃ w, (system n cfg).Reach System.anyStep w ∧ InFirstView n w ∧
      ∀ i ∈ cfg.honest n,
        ⟨1, Payload.alt^[cfg.forkBytes 0 i] p⟩ ∈ (w.nodes i).committed := by
  obtain ⟨w₁, hr₁, h₁⟩ := propose_round hn hbyz hpropose p
  obtain ⟨w₂, hs₂, h₂⟩ := certify_round hn hbyz hcount h₁
  obtain ⟨w₃, hs₃, h₃⟩ := vote_round hbyz hqc (show nextTag .prepare = some .preCommit from rfl) h₂
  obtain ⟨w₄, hs₄, h₄⟩ := certify_round hn hbyz hcount h₃
  obtain ⟨w₅, hs₅, h₅⟩ := vote_round hbyz hqc (show nextTag .preCommit = some .commit from rfl) h₄
  obtain ⟨w₆, hs₆, h₆⟩ := certify_round hn hbyz hcount h₅
  obtain ⟨w₇, hs₇, h₇⟩ := decide_round hqc h₆
  have hreach₄ := System.Steps.trans (System.Steps.trans (System.Steps.trans hr₁ hs₂) hs₃) hs₄
  exact ⟨w₇, ((hreach₄.trans hs₅).trans hs₆).trans hs₇, h₇⟩

end Rounds

/-! ### Which configurations agree -/

/-- **Agreement in view `0`** holds exactly for the configurations in which node `0` does not
    equivocate, or drops its `Propose` messages or its certificates. -/
theorem agreement_in_view_zero_iff (hn : 1 ≤ n) (hcard : (cfg.byzantine n).card ≤ (n - 1) / 3) :
    (∀ w, (system n cfg).Reach System.anyStep w → InFirstView n w →
      Agreement w.history fun i => cfg.isByzantine i = false) ↔
    (.equivocate ∉ cfg.behaviors 0 ∨ cfg.dropsPhase 0 .hotStuffPropose = true ∨
      cfg.dropsPhase 0 .hotStuffQC = true) := by
  constructor
  · intro hagree
    by_contra hcond
    rw [not_or, not_or, not_not, Bool.not_eq_true, Bool.not_eq_true] at hcond
    obtain ⟨hequiv, hpropose, hqc⟩ := hcond
    have hbyz : cfg.isByzantine 0 = true := cfg.isByzantine_of_mem hequiv
    have hcount := cfg.card_byzantine_add_length_honest n
    obtain ⟨w, hw, h0, hcommit⟩ := proposal_run hn hbyz (by omega) hpropose hqc ⟨[]⟩
    -- an odd and an even honest node
    obtain ⟨i, hi, hodd⟩ := cfg.exists_honest_odd hn hcard hbyz
    obtain ⟨j, hj, heven⟩ := cfg.exists_honest_even hn hcard
    have heq := hagree w hw h0 i j (cfg.mem_honest.mp hi).2 (cfg.mem_honest.mp hj).2
      _ (mem_committedBy_of_committed hw (hcommit i hi))
      _ (mem_committedBy_of_committed hw (hcommit j hj)) rfl
    have hlen := congrArg (fun p => p.data.length) heq
    have hpos := cfg.forkBytes_pos hequiv hodd
    have hzero : cfg.forkBytes 0 j = 0 := by rw [FaultConfig.forkBytes, if_pos heven]
    simp only [FaultConfig.length_iterate_alt, hzero] at hlen
    omega
  · intro hcond w hw h0
    rcases hcond with hequiv | hpropose | hqc
    · exact agreement_of_not_forks hw h0 (.inl hequiv) _
    · exact agreement_of_not_forks hw h0 (.inr hpropose) _
    · exact agreement_of_drops hw h0 hqc

omit [Sha256] in
/-- Both sides of the equivalence fail for four nodes with an equivocating leader. -/
theorem agreement_in_view_zero_iff_four :
    ((FaultConfig.withByzantine {} 0 [.equivocate]).byzantine 4).card ≤ 1 ∧
    ((∀ w, (@system Sha256.sample 4 (FaultConfig.withByzantine {} 0 [.equivocate])).Reach
        System.anyStep w → InFirstView 4 w → Agreement w.history fun i =>
          (FaultConfig.withByzantine {} 0 [.equivocate]).isByzantine i = false) ↔
      (.equivocate ∉ (FaultConfig.withByzantine {} 0 [.equivocate]).behaviors 0 ∨
        (FaultConfig.withByzantine {} 0 [.equivocate]).dropsPhase 0 .hotStuffPropose = true ∨
        (FaultConfig.withByzantine {} 0 [.equivocate]).dropsPhase 0 .hotStuffQC = true)) := by
  have hcard : ((FaultConfig.withByzantine {} 0 [.equivocate]).byzantine 4).card ≤ 1 := by decide
  exact ⟨hcard, @agreement_in_view_zero_iff Sha256.sample 4 _ (by decide) hcard⟩

omit [Sha256] in
/-- Node `0` of four equivocates: nodes `1` and `2` commit different payloads for sequence `1`. -/
theorem equivocating_leader_breaks_agreement : ∃ w,
    (@system Sha256.sample 4 (FaultConfig.withByzantine {} 0 [.equivocate])).Reach
      System.anyStep w ∧ InFirstView 4 w ∧
    ¬ Agreement w.history fun i =>
      (FaultConfig.withByzantine {} 0 [.equivocate]).isByzantine i = false := by
  obtain ⟨w, hw, h0, h1, h2⟩ := System.Reach.exists_of_run
    (S := @system Sha256.sample 4 (FaultConfig.withByzantine {} 0 [.equivocate]))
    (P := fun w => InFirstView 4 w ∧ committedBy w.history 1 = [⟨1, ⟨[0x70, 0xFF]⟩⟩] ∧
      committedBy w.history 2 = [⟨1, ⟨[0x70]⟩⟩])
    (commitRun ⟨[0x70]⟩ ++ [3, 3].map .deliver)
    (by decide +kernel)
  refine ⟨w, hw, h0, fun hagree => ?_⟩
  have heq := hagree 1 2 (by decide) (by decide) ⟨1, ⟨[0x70, 0xFF]⟩⟩ (by rw [h1]; decide)
    ⟨1, ⟨[0x70]⟩⟩ (by rw [h2]; decide) rfl
  exact absurd heq (by decide)

end HotStuff

end ConsensusBench
