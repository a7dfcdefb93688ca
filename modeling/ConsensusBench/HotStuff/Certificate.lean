import ConsensusBench.HotStuff.Agreement
import ConsensusBench.HotStuff.Views

namespace ConsensusBench

/-!
# HotStuff: the chain of certificates

A slot that the leader of a view works on goes through the phases of the three tags, and each
transition is a certificate.

* `Creates`, `Cast` — a certificate is created by the step that broadcasts it; a vote is cast by
  the step that sends it, or by the leader as it opens a phase.
* `Working` — in the leader's slot for `(v, q)`, every counted vote was cast, and the phase tells
  which certificates of `(v, q)` there are.  In the view it leads, a node hears no `Propose` and
  no certificate, so its slots are all its own.
* `certificate_chain` — the certificates of `(v, q)` are created in order, each once and on the
  votes of a quorum, and nobody commits `q` in view `v` before the last of them.
-/

open AsyncNet HotStuffNode

namespace HotStuff

/-! ### Certificates and votes -/

/-- The step creates a certificate: it broadcasts it. -/
def Creates (o : NodeStep HotStuffState) (v : ViewNumber) (q : SequenceNumber)
    (t : HotStuffPhaseTag) (vc : ℕ) : Prop :=
  ∃ m ∈ o.sent, ∃ d, m.payload = .hotStuff (.quorumCertificate v q d t vc)

/-- A certificate of tag `t` for `(v, q)` has been created. -/
def Created (h : History HotStuffState) (v : ViewNumber) (q : SequenceNumber)
    (t : HotStuffPhaseTag) : Prop :=
  ∃ o ∈ h, ∃ vc, Creates o v q t vc

/-- The leader of view `v` has proposed sequence `q`. -/
def Assigned (n : ℕ) (h : History HotStuffState) (v : ViewNumber) (q : SequenceNumber) : Prop :=
  ∃ o ∈ h, o.node = v % n ∧ ∃ p, assigns n o = some (v, q, p)

/-- The leader of view `v` has counted its own vote of tag `t` for `q`: when it proposed `q`, or
    when it created the certificate before. -/
def OwnVote (n : ℕ) (h : History HotStuffState) (v : ViewNumber) (q : SequenceNumber) :
    HotStuffPhaseTag → Prop
  | .prepare => Assigned n h v q
  | .preCommit => Created h v q .prepare
  | .commit => Created h v q .preCommit

/-- Node `j` has cast its vote of tag `t` for `(v, q)`. -/
def Cast (n : ℕ) (h : History HotStuffState) (j : NodeId) (v : ViewNumber) (q : SequenceNumber)
    (t : HotStuffPhaseTag) : Prop :=
  (∃ o ∈ h, o.node = j ∧ ∃ m ∈ o.sent, ∃ d, m.payload = .hotStuff (.vote v q d t j)) ∨
    (j = v % n ∧ OwnVote n h v q t)

/-- The slot of the leader of view `v` for `q`, as long as it is not decided. -/
structure Working (n : ℕ) (h : History HotStuffState) (v : ViewNumber) (q : SequenceNumber)
    (slot : SlotState) : Prop where
  proposed : Assigned n h v q
  votes : ∀ t, ∀ r ∈ slot.voters t, r < n ∧ Cast n h r v q t
  progress : ∃ t, slot.phase = stage t ∧ v % n ∈ slot.voters t ∧
    ∀ t', Created h v q t' ↔ phaseOrd t' < phaseOrd t

section Histories

variable {n : ℕ} {h : History HotStuffState} {o : NodeStep HotStuffState} {j : NodeId}
variable {v : ViewNumber} {q : SequenceNumber} {t : HotStuffPhaseTag}

theorem created_cons : Created (o :: h) v q t ↔ (∃ vc, Creates o v q t vc) ∨ Created h v q t := by
  simp only [Created, List.mem_cons, exists_eq_or_imp]

theorem Assigned.cons (hp : Assigned n h v q) (o : NodeStep HotStuffState) :
    Assigned n (o :: h) v q := by
  obtain ⟨o', ho', hrest⟩ := hp
  exact ⟨o', List.mem_cons_of_mem _ ho', hrest⟩

theorem Cast.cons (hc : Cast n h j v q t) (o : NodeStep HotStuffState) :
    Cast n (o :: h) j v q t := by
  rcases hc with ⟨o', ho', hrest⟩ | ⟨hj, hown⟩
  · exact .inl ⟨o', List.mem_cons_of_mem _ ho', hrest⟩
  · refine .inr ⟨hj, ?_⟩
    cases t with
    | prepare => exact hown.cons o
    | preCommit => exact created_cons.mpr (.inr hown)
    | commit => exact created_cons.mpr (.inr hown)

/-- A slot is not touched by steps that create no certificate for it. -/
theorem Working.cons {slot : SlotState} (hw : Working n h v q slot)
    (hno : ∀ t vc, ¬ Creates o v q t vc) : Working n (o :: h) v q slot where
  proposed := hw.proposed.cons o
  votes t r hr := ⟨(hw.votes t r hr).1, (hw.votes t r hr).2.cons o⟩
  progress := by
    obtain ⟨t, hph, hin, hcreated⟩ := hw.progress
    refine ⟨t, hph, hin, fun t' => ?_⟩
    rw [created_cons, ← hcreated t']
    exact or_iff_right fun ⟨vc, hc⟩ => hno t' vc hc

/-- One more vote that was cast. -/
theorem Working.addVote {slot : SlotState} (hw : Working n h v q slot) {r : NodeId} (hr : r < n)
    (hcast : Cast n h r v q t) : Working n h v q (slot.addVote r t) where
  proposed := hw.proposed
  votes t' r' hr' := by
    have hor : (t' = t ∧ r' = r) ∨ r' ∈ slot.voters t' := by
      cases t <;> cases t' <;> simp_all [SlotState.voters, SlotState.addVote]
    rcases hor with ⟨rfl, rfl⟩ | hold
    · exact ⟨hr, hcast⟩
    · exact hw.votes t' r' hold
  progress := by
    obtain ⟨t', hph, hin, hcreated⟩ := hw.progress
    refine ⟨t', ?_, ?_, hcreated⟩
    · rw [← hph]
      cases t <;> rfl
    · cases t <;> cases t' <;> simp_all [SlotState.voters, SlotState.addVote]

/-- The next phase, once the certificate of the present one is created. -/
theorem Working.certify {slot : SlotState} (hw : Working n h v q slot) (hph : slot.phase = stage t)
    (hn : v % n < n) (hc : ∃ vc, Creates o v q t vc)
    (honly : ∀ t' vc, Creates o v q t' vc → t' = t)
    (hnot : (slot.certify (v % n) t).phase ≠ .decided) :
    Working n (o :: h) v q (slot.certify (v % n) t) where
  proposed := hw.proposed.cons o
  votes t' r hr := by
    have hor : (r = v % n ∧ nextTag t = some t') ∨ r ∈ slot.voters t' := by
      cases t <;> cases t' <;> simp_all [SlotState.voters, SlotState.certify, nextTag]
    rcases hor with ⟨rfl, hnext⟩ | hold
    · refine ⟨hn, .inr ⟨rfl, ?_⟩⟩
      have hcreated : Created (o :: h) v q t := created_cons.mpr (.inl hc)
      cases t <;> cases hnext
      · exact hcreated
      · exact hcreated
    · exact ⟨(hw.votes t' r hold).1, (hw.votes t' r hold).2.cons o⟩
  progress := by
    obtain ⟨t₀, hph₀, _, hcreated⟩ := hw.progress
    obtain rfl := stage_injective (hph₀.symm.trans hph)
    have hiff : ∀ t', Created (o :: h) v q t' ↔ t' = t₀ ∨ phaseOrd t' < phaseOrd t₀ := by
      intro t'
      rw [created_cons, hcreated t']
      constructor
      · rintro (⟨vc, hc'⟩ | hlt)
        · exact .inl (honly t' vc hc')
        · exact .inr hlt
      · rintro (rfl | hlt)
        · exact .inl hc
        · exact .inr hlt
    cases t₀ with
    | prepare =>
      refine ⟨.preCommit, rfl, Finset.mem_insert_self _ _, fun t' => ?_⟩
      rw [hiff]
      cases t' <;> simp [phaseOrd]
    | preCommit =>
      refine ⟨.commit, rfl, Finset.mem_insert_self _ _, fun t' => ?_⟩
      rw [hiff]
      cases t' <;> simp [phaseOrd]
    | commit => exact absurd rfl hnot

end Histories

/-! ### Certificates on the wire -/

section Source

variable [Sha256] {n : ℕ} {cfg : FaultConfig}
variable {ok : System.Guard NodeId HotStuffState Call NetworkMessage}
variable {w : World NodeId HotStuffState Call NetworkMessage}

/-- **How a certificate is created**: by the leader of its view, in its view, on a vote that
    completes the quorum of its slot. -/
theorem Creates.inv {o : NodeStep HotStuffState} (hf : (system n cfg).Fires w o)
    {v : ViewNumber} {q : SequenceNumber} {t : HotStuffPhaseTag} {vc : ℕ}
    (hc : Creates o v q t vc) : o.node = v % n ∧ o.before.view = v ∧
      ∃ m d r slot slot', o.cause = .recv m ∧ m.payload = .hotStuff (.vote v q d t r) ∧
        o.before.slots.lookup q = some slot ∧
        (node n o.node).countVote slot t r = some (slot', some (t, vc)) := by
  obtain ⟨m, hm, d, hpl⟩ := hc
  obtain ⟨j, x, rfl, hsaid⟩ := (effect_of_fires hf).sent_said hm
  cases hpl
  cases hsaid with
  | certificate m' q d t r slot slot' vc hc hm' hl hs hvote =>
    exact ⟨Eq.symm hl, rfl, m', d, r, slot, slot', hc, hm', hs, hvote⟩

/-- A received certificate was created, by another node. -/
theorem created_of_recv (hw : (system n cfg).Reach ok w) {o : NodeStep HotStuffState}
    (hf : (system n cfg).Fires w o) {m : NetworkMessage} (hc : o.cause = .recv m)
    {v : ViewNumber} {q : SequenceNumber} {d : Digest} {t : HotStuffPhaseTag} {vc : ℕ}
    (hm : m.payload = .hotStuff (.quorumCertificate v q d t vc)) :
    Created w.history v q t ∧ o.node ≠ v % n := by
  obtain ⟨_, o₀, ho₀, x, hsent, _, _, _, hskel, hsaid⟩ := recv_source hw hf hc
  rw [hm] at hskel
  obtain ⟨d', hx⟩ := certificate_of_skeleton hskel
  cases hx
  refine ⟨⟨o₀, ho₀, vc, _, hsent, d', rfl⟩, ?_⟩
  cases hsaid with
  | certificate m' q d t r slot slot' vc _ _ hl _ _ hj =>
    have hnode : o₀.before.view % n = o₀.node := hl
    rw [hnode]
    exact hj

omit [Sha256] in
/-- A message with the skeleton of a `Vote` is that vote, up to its digest. -/
theorem vote_of_skeleton {x : HotStuffMessage} {v : ViewNumber} {q : SequenceNumber} {d : Digest}
    {t : HotStuffPhaseTag} {r : NodeId}
    (h : FaultConfig.skeleton (.hotStuff (.vote v q d t r)) = FaultConfig.skeleton (.hotStuff x)) :
    ∃ d', x = .vote v q d' t r := by
  cases x <;> simp_all [FaultConfig.skeleton]

/-- A received vote was cast by the node it names, on a message from the leader of the view,
    which is another node. -/
theorem cast_of_recv (hw : (system n cfg).Reach ok w) {o : NodeStep HotStuffState}
    (hf : (system n cfg).Fires w o) {m : NetworkMessage} (hc : o.cause = .recv m)
    {v : ViewNumber} {q : SequenceNumber} {d : Digest} {t : HotStuffPhaseTag} {r : NodeId}
    (hm : m.payload = .hotStuff (.vote v q d t r)) :
    r < n ∧ r ≠ v % n ∧ Cast n w.history r v q t := by
  obtain ⟨_, o₀, ho₀, x, hsent, _, _, hn, hskel, hsaid⟩ := recv_source hw hf hc
  rw [hm] at hskel
  obtain ⟨d', rfl⟩ := vote_of_skeleton hskel
  obtain ⟨w₀, hr₀, _, hf₀, _⟩ := hw.fired o₀ ho₀
  have hvoter : r = o₀.node ∧ o₀.node ≠ v % n := by
    cases hsaid with
    | prepareVote m' v q d p jv jp hc' hm' =>
      obtain ⟨_, _, _, _, hne⟩ := propose_source hr₀ hf₀ hc' hm'
      exact ⟨rfl, hne⟩
    | vote m' q d t t' vc hc' hm' =>
      exact ⟨rfl, (created_of_recv hr₀ hf₀ hc' hm').2⟩
  obtain ⟨rfl, hne⟩ := hvoter
  exact ⟨hn, hne, .inl ⟨o₀, ho₀, rfl, _, hsent, d', rfl⟩⟩

/-! ### The slots of a leader -/

omit [Sha256] in
/-- A vote that counts is one of the phase of the slot. -/
theorem countVote_inv {self : HotStuffNode} {slot slot' : SlotState} {t : HotStuffPhaseTag}
    {r : NodeId} {action : Option (HotStuffPhaseTag × ℕ)}
    (h : self.countVote slot t r = some (slot', action)) : slot.phase = stage t ∧
      ((action = none ∧ slot' = slot.addVote r t) ∨
        (self.quorum ≤ (insert r (slot.voters t)).card ∧
          action = some (t, (insert r (slot.voters t)).card) ∧
          slot' = (slot.addVote r t).certify self.id t)) := by
  rw [countVote_eq] at h
  split at h
  · exact absurd h (by simp)
  · rename_i hph
    refine ⟨not_not.mp hph, ?_⟩
    split at h
    · rename_i hq
      rw [Option.some.injEq, Prod.mk.injEq] at h
      exact .inr ⟨hq, h.2.symm, h.1.symm⟩
    · rw [Option.some.injEq, Prod.mk.injEq] at h
      exact .inl ⟨h.2.symm, h.1.symm⟩

omit [Sha256] in
theorem lookup_enterNewView {s : HotStuffState} {v : ViewNumber} {q : SequenceNumber}
    {slot : SlotState} (h : (enterNewView s v).slots.lookup q = some slot) :
    s.slots.lookup q = some slot ∧ slot.phase = .decided := by
  change (s.slots.retain fun _ slot => slot.phase = .decided).lookup q = some slot at h
  rw [HashMap.lookup_retain, Option.filter_eq_some_iff] at h
  exact ⟨h.1, of_decide_eq_true h.2⟩

/-- What one step can do to the slot of `q`: the slot after it, from the slot before it. -/
inductive SlotStep (self : HotStuffNode) (s s' : HotStuffState) (c : Cause Call NetworkMessage)
    (out : List NetworkMessage) (q : SequenceNumber) : SlotState → Prop
  | keep (slot : SlotState) (hv : s'.view = s.view) (hs : s.slots.lookup q = some slot)
      (hout : ∀ m ∈ out, ∀ v d t vc, m.payload ≠ .hotStuff (.quorumCertificate v q d t vc)) :
      SlotStep self s s' c out q slot
  | retained (slot : SlotState) (hph : slot.phase = .decided) : SlotStep self s s' c out q slot
  | opened (p : Payload) (hc : c = .call (.propose p)) (hp : canPropose self s)
      (hq : q = s.nextSequence) (hv : s'.view = s.view)
      (hout : ∀ m ∈ out, ∀ v d t vc, m.payload ≠ .hotStuff (.quorumCertificate v q d t vc)) :
      SlotStep self s s' c out q
        { SlotState.new s.view q with phase := .prepare, prepareVoters := {self.id} }
  | proposed (m : NetworkMessage) (q' : SequenceNumber) (d : Digest) (p : Payload)
      (jv : ViewNumber) (jp : HotStuffPhaseTag) (slot : SlotState) (hc : c = .recv m)
      (hm : m.payload = .hotStuff (.propose s'.view q' d p jv jp)) : SlotStep self s s' c out q slot
  | counted (m : NetworkMessage) (d : Digest) (t : HotStuffPhaseTag) (r : NodeId)
      (slot : SlotState) (hv : s'.view = s.view) (hc : c = .recv m)
      (hm : m.payload = .hotStuff (.vote s.view q d t r)) (hs : s.slots.lookup q = some slot)
      (hph : slot.phase = stage t)
      (hout : ∀ m ∈ out, ∀ v d t vc, m.payload ≠ .hotStuff (.quorumCertificate v q d t vc)) :
      SlotStep self s s' c out q (slot.addVote r t)
  | certified (m : NetworkMessage) (d : Digest) (t : HotStuffPhaseTag) (r : NodeId)
      (slot : SlotState) (hv : s'.view = s.view) (hc : c = .recv m)
      (hm : m.payload = .hotStuff (.vote s.view q d t r)) (hs : s.slots.lookup q = some slot)
      (hph : slot.phase = stage t) (hout : out = self.broadcastHotstuff
        (.quorumCertificate s.view q d t (insert r (slot.voters t)).card)) :
      SlotStep self s s' c out q ((slot.addVote r t).certify self.id t)
  | told (m : NetworkMessage) (q' : SequenceNumber) (d : Digest) (t : HotStuffPhaseTag) (vc : ℕ)
      (slot : SlotState) (hv : s'.view = s.view) (hc : c = .recv m)
      (hm : m.payload = .hotStuff (.quorumCertificate s.view q' d t vc)) :
      SlotStep self s s' c out q slot

omit [Sha256] in
/-- A completed certificate leaves the view and the other slots. -/
theorem completeQc_slots (s : HotStuffState) (q : SequenceNumber) (slot : SlotState)
    (t : HotStuffPhaseTag) : (completeQc s q slot t).slots = s.slots.insert q slot := by
  have hpending : ∀ s' : HotStuffState, (commitPending s' q).slots = s'.slots := by
    intro s'
    unfold commitPending
    split <;> rfl
  unfold completeQc
  split
  · exact hpending _
  · rfl

/-- **What a step does to a slot.** -/
theorem Effect.slot_step {i : NodeId} {s s' : HotStuffState} {c : Cause Call NetworkMessage}
    {out : List NetworkMessage} (h : Effect (node n i) s c s' out) {q : SequenceNumber}
    {slot : SlotState} (hs : s'.slots.lookup q = some slot) :
    SlotStep (node n i) s s' c out q slot := by
  have hnil : ∀ m ∈ ([] : List NetworkMessage), ∀ v d t vc,
      m.payload ≠ .hotStuff (.quorumCertificate v q d t vc) := fun m hm => absurd hm (by simp)
  cases h with
  | timeout hl h0 =>
    refine .keep slot rfl hs fun m hm v d t vc hpl => ?_
    rw [List.mem_singleton.mp hm] at hpl
    exact absurd hpl (by simp [msgTo])
  | assign p hp =>
    have hout : ∀ m ∈ (node n i).broadcastHotstuff (.propose s.view s.nextSequence p.digest p
        s.highestQcView s.highestQcPhase), ∀ v d t vc,
        m.payload ≠ .hotStuff (.quorumCertificate v q d t vc) := by
      intro m hm v d t vc hpl
      obtain ⟨j, _, _, rfl⟩ := mem_broadcastHotstuff.mp hm
      exact absurd hpl (by simp)
    rcases HashMap.of_lookup_insert hs with ⟨rfl, rfl⟩ | ⟨_, hs⟩
    · exact .opened p rfl hp rfl rfl hout
    · exact .keep slot rfl hs hout
  | accept m v q' d p jv jp hm hv =>
    have hview : (acceptProposal (catchUp s v) v q' p).view = v :=
      (catchUp_view s v).trans (max_eq_right hv)
    exact .proposed m q' d p jv jp slot rfl (by rw [hview]; exact hm)
  | count m q' d t r slot₀ slot' hm hl hs' hc =>
    obtain ⟨hph, ⟨_, rfl⟩ | ⟨_, habsurd, _⟩⟩ := countVote_inv hc
    · rcases HashMap.of_lookup_insert hs with ⟨rfl, rfl⟩ | ⟨_, hs⟩
      · exact .counted m d t r slot₀ rfl rfl hm hs' hph hnil
      · exact .keep slot rfl hs hnil
    · exact absurd habsurd (by simp)
  | certify m q' d t r slot₀ slot' vc hm hl hs' hc =>
    obtain ⟨hph, ⟨habsurd, _⟩ | ⟨_, hvc, rfl⟩⟩ := countVote_inv hc
    · exact absurd habsurd (by simp)
    · rw [Option.some.injEq, Prod.mk.injEq] at hvc
      obtain ⟨_, rfl⟩ := hvc
      have hview := (completeQc_view_votes s q' ((slot₀.addVote r t).certify (node n i).id t) t).1
      rw [completeQc_slots] at hs
      rcases HashMap.of_lookup_insert hs with ⟨rfl, rfl⟩ | ⟨hq, hs⟩
      · exact .certified m d t r slot₀ hview rfl hm hs' hph rfl
      · refine .keep slot hview hs fun m hm v d t vc hpl => ?_
        obtain ⟨j, _, _, rfl⟩ := mem_broadcastHotstuff.mp hm
        cases hpl
        exact hq rfl
  | learn m v q' d t vc hm hq hno =>
    rw [seeQc_slots] at hs
    exact .keep slot (seeQc_view s v t) hs hnil
  | advance m q' d t t' vc hm hq ht =>
    exact .told m q' d t vc slot (by simp) rfl hm
  | decide m q' d vc slot₀ hm hq hs' hph =>
    exact .told m q' d .commit vc slot ((commitPending_frame _ q').1.trans (seeQc_view s _ _)) rfl
      hm
  | install m v hv hp r hm hlt hq hl => exact .retained slot (lookup_enterNewView (v := v) hs).2
  | _ => exact .keep slot rfl hs hnil

/-! ### The chain is kept -/

/-- What the run knows about certificates, and about the slots of the leaders. -/
structure Chained (n : ℕ) (nodes : NodeId → HotStuffState) (h : History HotStuffState) :
    Prop where
  slots : ∀ i, (nodes i).view % n = i → ∀ q slot, (nodes i).slots.lookup q = some slot →
    slot.phase ≠ .decided → Working n h (nodes i).view q slot
  created : ∀ v q t, Created h v q t →
    Assigned n h v q ∧ ∀ t', phaseOrd t' < phaseOrd t → Created h v q t'

/-- **What is known of a certificate as it is created**: it is the first of its tag, those before
    it were created, and its votes were cast. -/
theorem Chained.creates (h : Chained n w.nodes w.history) (hw : (system n cfg).Reach ok w)
    {o : NodeStep HotStuffState} (hf : (system n cfg).Fires w o) {v : ViewNumber}
    {q : SequenceNumber} {t : HotStuffPhaseTag} {vc : ℕ} (hc : Creates o v q t vc) :
    Assigned n w.history v q ∧
      (∀ t', Created w.history v q t' ↔ phaseOrd t' < phaseOrd t) ∧
      2 * ((n - 1) / 3) + 1 ≤ vc ∧ ∃ V : Finset NodeId, vc = V.card ∧ v % n ∈ V ∧
        ∀ j ∈ V, j < n ∧ Cast n w.history j v q t := by
  obtain ⟨hnode, rfl, m, d, r, slot, slot', hcause, hm, hs, hcount⟩ := hc.inv hf
  obtain ⟨hph, ⟨habsurd, _⟩ | ⟨hq, haction, _⟩⟩ := countVote_inv hcount
  · exact absurd habsurd (by simp)
  · rw [hf.before_eq] at hs hnode
    have hwork := h.slots o.node hnode.symm q slot hs (by rw [hph]; cases t <;> decide)
    obtain ⟨hr, _, hcast⟩ := cast_of_recv hw hf hcause hm
    rw [hf.before_eq] at hcast ⊢
    obtain ⟨t₀, hph₀, hin, hcreated⟩ := hwork.progress
    obtain rfl := stage_injective (hph₀.symm.trans hph)
    rw [Option.some.injEq, Prod.mk.injEq] at haction
    rw [haction.2]
    refine ⟨hwork.proposed, hcreated, hq, _, rfl, Finset.mem_insert_of_mem hin, fun j hj => ?_⟩
    rcases Finset.mem_insert.mp hj with rfl | hj
    · exact ⟨hr, hcast⟩
    · exact hwork.votes t₀ j hj

/-- The slot that a leader opens when it proposes. -/
theorem Chained.opened (h : Chained n w.nodes w.history) (hw : (system n cfg).Reach ok w)
    {o : NodeStep HotStuffState} (hf : (system n cfg).Fires w o) {v : ViewNumber}
    {q : SequenceNumber} {p : Payload} (ha : assigns n o = some (v, q, p))
    (hno : ∀ t vc, ¬ Creates o v q t vc) : Working n (o :: w.history) v q
      { SlotState.new v q with phase := .prepare, prepareVoters := {o.node} } := by
  have hled : (proposals n).Led (ledger n) (system n cfg) ok := led ok
  obtain ⟨hnode, hv, hsame, hk, hlt⟩ := hled.assign w o v q p hw hf ha
  have hprop : Assigned n (o :: w.history) v q := ⟨o, List.mem_cons_self, hnode, p, ha⟩
  -- the counter is past every sequence that was proposed in this view
  have hfresh : ∀ t, ¬ Created w.history v q t := by
    intro t hcreated
    obtain ⟨o', ho', hnode', p', ha'⟩ := (h.created v q t hcreated).1
    obtain ⟨_, _, hbehind⟩ := hled.assign_behind (kept ok) hw o' ho' v q p' ha'
    have heq : o'.node = o.node := hnode'.trans hnode.symm
    rw [heq, ← hf.before_eq] at hbehind
    exact absurd (hbehind hv) (by rw [hk]; exact lt_irrefl _)
  refine ⟨hprop, fun t r hr => ?_, .prepare, rfl, ?_, fun t' => ?_⟩
  · cases t with
    | prepare =>
      obtain rfl := Finset.mem_singleton.mp hr
      exact ⟨Finset.mem_range.mp hf.node_mem, .inr ⟨hnode, hprop⟩⟩
    | preCommit => exact absurd hr (by simp [SlotState.voters, SlotState.new])
    | commit => exact absurd hr (by simp [SlotState.voters, SlotState.new])
  · exact Finset.mem_singleton.mpr hnode.symm
  · rw [created_cons]
    constructor
    · rintro (⟨vc, hc⟩ | hc)
      · exact absurd hc (hno t' vc)
      · exact absurd hc (hfresh t')
    · intro hlt
      exact absurd hlt (by simp [phaseOrd])

omit [Sha256] in
/-- A step that broadcasts no certificate for a sequence creates none. -/
theorem not_creates {o : NodeStep HotStuffState} {v : ViewNumber} {q : SequenceNumber}
    (h : ∀ m ∈ o.sent, ∀ v d t vc, m.payload ≠ .hotStuff (.quorumCertificate v q d t vc)) :
    ∀ t vc, ¬ Creates o v q t vc :=
  fun _ _ ⟨m, hm, _, hpl⟩ => h m hm _ _ _ _ hpl

/-- **The slots of a leader after a step of its own.** -/
theorem Chained.step_slots (h : Chained n w.nodes w.history) (hw : (system n cfg).Reach ok w)
    {o : NodeStep HotStuffState} (hf : (system n cfg).Fires w o)
    (hl : o.after.view % n = o.node) {q : SequenceNumber} {slot : SlotState}
    (hs : o.after.slots.lookup q = some slot) (hph : slot.phase ≠ .decided) :
    Working n (o :: w.history) o.after.view q slot := by
  have hbefore := hf.before_eq
  have hmem : o.node < n := Finset.mem_range.mp hf.node_mem
  have hold : o.after.view = o.before.view → ∀ slot, o.before.slots.lookup q = some slot →
      slot.phase ≠ .decided → Working n w.history o.after.view q slot := by
    intro hv slot hs hph
    rw [hv, hbefore] at hl ⊢
    rw [hbefore] at hs
    exact h.slots o.node hl q slot hs hph
  cases (effect_of_fires hf).slot_step hs with
  | keep _ hv hs₀ hout => exact (hold hv slot hs₀ hph).cons (not_creates hout)
  | retained _ hdec => exact absurd hdec hph
  | opened p hc hp hq hv hout =>
    subst hq
    rw [hv]
    exact h.opened hw hf (assigns_eq_some.mpr ⟨hc, hp, rfl, rfl⟩) (not_creates hout)
  | proposed m q' d p jv jp _ hc hm =>
    -- the leader of a view does not receive its own proposal
    obtain ⟨_, _, _, _, hne⟩ := propose_source hw hf hc hm
    exact absurd hl.symm hne
  | counted m d t r slot₀ hv hc hm hs₀ hph₀ hout =>
    obtain ⟨hr, _, hcast⟩ := cast_of_recv hw hf hc hm
    rw [← hv] at hcast
    have hwork := hold hv slot₀ hs₀ (by rw [hph₀]; cases t <;> decide)
    exact (hwork.cons (not_creates hout)).addVote hr (hcast.cons o)
  | certified m d t r slot₀ hv hc hm hs₀ hph₀ hout =>
    obtain ⟨hr, hne, hcast⟩ := cast_of_recv hw hf hc hm
    rw [← hv] at hcast hne
    have hwork := hold hv slot₀ hs₀ (by rw [hph₀]; cases t <;> decide)
    have hadd := hwork.addVote hr hcast
    -- the voter is one of the nodes the certificate goes to
    have hcreates : Creates o o.after.view q t (insert r (slot₀.voters t)).card := by
      rw [hl] at hne
      refine ⟨⟨o.node, r, _⟩, ?_, d, rfl⟩
      rw [hout, hv]
      exact mem_broadcastHotstuff.mpr ⟨r, hr, hne, rfl⟩
    have honly : ∀ t' vc, Creates o o.after.view q t' vc → t' = t := by
      rintro t' vc ⟨m', hm', d', hpl⟩
      rw [hout] at hm'
      obtain ⟨_, _, _, rfl⟩ := mem_broadcastHotstuff.mp hm'
      simp only [ProtocolMessage.hotStuff.injEq, HotStuffMessage.quorumCertificate.injEq] at hpl
      exact hpl.2.2.2.1.symm
    have hphase : (slot₀.addVote r t).phase = stage t := by
      rw [← hph₀]
      cases t <;> rfl
    have hself : (node n o.node).id = o.after.view % n := hl.symm
    rw [hself] at hph ⊢
    exact hadd.certify hphase (by rw [hl]; exact hmem) ⟨_, hcreates⟩ honly hph
  | told m q' d t vc _ hv hc hm =>
    have hne := (created_of_recv hw hf hc hm).2
    rw [← hv] at hne
    exact absurd hl.symm hne

/-- **Every step keeps the chain.** -/
theorem Chained.step (h : Chained n w.nodes w.history) (hw : (system n cfg).Reach ok w)
    {o : NodeStep HotStuffState} (hf : (system n cfg).Fires w o) :
    Chained n (Function.update w.nodes o.node o.after) (o :: w.history) := by
  refine ⟨fun i hl q slot hs hph => ?_, fun v q t hc => ?_⟩
  · by_cases hi : i = o.node
    · subst hi
      rw [Function.update_self] at hl hs ⊢
      exact h.step_slots hw hf hl hs hph
    · rw [Function.update_of_ne hi] at hl hs ⊢
      refine (h.slots i hl q slot hs hph).cons fun t vc hc => ?_
      exact hi (hl.symm.trans (hc.inv hf).1.symm)
  · rcases created_cons.mp hc with ⟨vc, hc⟩ | hc
    · obtain ⟨hprop, hcreated, _⟩ := h.creates hw hf hc
      exact ⟨hprop.cons o, fun t' hlt => created_cons.mpr (.inr ((hcreated t').mpr hlt))⟩
    · obtain ⟨hprop, hlower⟩ := h.created v q t hc
      exact ⟨hprop.cons o, fun t' hlt => created_cons.mpr (.inr (hlower t' hlt))⟩

theorem chained (hw : (system n cfg).Reach ok w) : Chained n w.nodes w.history := by
  refine System.Reach.induct (N := Chained n) ⟨fun i _ q slot hs => ?_, ?_⟩ ?_ hw
  · exact absurd hs (by simp [system, HotStuffNode.new])
  · rintro v q t ⟨o, ho, _⟩
    exact absurd ho (by simp)
  · intro w o hr ih _ hf
    exact ih.step hr hf

/-! ### The chain -/

/-- Only nodes of `C` exchange messages. -/
def Within (C : Finset NodeId) (h : History HotStuffState) : Prop :=
  ∀ o ∈ h, ∀ m, o.cause = .recv m → m.sender ∈ C ∧ m.target ∈ C

omit [Sha256] in
theorem handleVote_sent {i : NodeId} {s : HotStuffState} {q : SequenceNumber} {d : Digest}
    {t t' : HotStuffPhaseTag} {r : NodeId} {slot slot' : SlotState} {vc : ℕ}
    (hl : s.view % n = i) (hs : s.slots.lookup q = some slot)
    (hvote : (node n i).countVote slot t r = some (slot', some (t', vc))) :
    ((node n i).handleVote s s.view q d t r).2 =
      (node n i).broadcastHotstuff (.quorumCertificate s.view q d t' vc) := by
  have hleader : (node n i).leaderForView s.view = (node n i).id := hl
  unfold handleVote
  rw [if_neg (not_not.mpr hleader), if_neg (not_not.mpr rfl), hs]
  simp only [hvote]

/-- A leader broadcasts the certificate that a vote completes. -/
theorem sent_of_countVote {o : NodeStep HotStuffState} (hf : (system n cfg).Fires w o)
    {m : NetworkMessage} (hc : o.cause = .recv m) {q : SequenceNumber} {d : Digest}
    {t t' : HotStuffPhaseTag} {r : NodeId}
    (hm : m.payload = .hotStuff (.vote o.before.view q d t r)) {slot slot' : SlotState} {vc : ℕ}
    (hl : (node n o.node).leaderForView o.before.view = (node n o.node).id)
    (hs : o.before.slots.lookup q = some slot)
    (hvote : (node n o.node).countVote slot t r = some (slot', some (t', vc))) :
    o.sent = (node n o.node).broadcastHotstuff
      (.quorumCertificate o.before.view q d t' vc) := by
  cases hf with
  | call i a hi => exact absurd hc (by simp)
  | recv m₀ m₁ s out hm₀ hsent hcarry hmem hrecv =>
    cases hc
    have hout : ((node n m.target).handleMessage (w.nodes m.target) m).2 = out :=
      congrArg Prod.snd (Option.some.inj hrecv)
    have hl' : ((w.nodes m.target).view % n) = m.target := hl
    have hm' : m.payload = .hotStuff (.vote (w.nodes m.target).view q d t r) := hm
    have hs' : (w.nodes m.target).slots.lookup q = some slot := hs
    have hvote' : (node n m.target).countVote slot t r = some (slot', some (t', vc)) := hvote
    change out = (node n m.target).broadcastHotstuff
      (.quorumCertificate (w.nodes m.target).view q d t' vc)
    rw [← hout]
    unfold handleMessage
    rw [hm']
    exact handleVote_sent hl' hs' hvote'

/-- **Nobody commits before the last certificate**: the leader commits as it creates it, the
    others when they receive it. -/
theorem created_of_emitted (hw : (system n cfg).Reach ok w) {o : NodeStep HotStuffState}
    (hf : (system n cfg).Fires w o) {e : CommittedEntry} (he : e ∈ emitted o) :
    Created (o :: w.history) o.before.view e.sequence .commit := by
  obtain ⟨m, hc, ⟨d, r, slot, slot', vc, hm, hl, hs, hvote⟩ | ⟨d, vc, slot, hm, hq, hs, hph⟩, _⟩ :=
    (effect_of_fires hf).commit_inv he
  · obtain ⟨hr, hne, _⟩ := cast_of_recv hw hf hc hm
    have hnode : o.before.view % n = o.node := hl
    rw [hnode] at hne
    have hsent := sent_of_countVote hf hc hm hl hs hvote
    refine created_cons.mpr (.inl ⟨vc, ⟨o.node, r, _⟩, ?_, d, rfl⟩)
    rw [hsent]
    exact mem_broadcastHotstuff.mpr ⟨r, hr, hne, rfl⟩
  · exact created_cons.mpr (.inr (created_of_recv hw hf hc hm).1)

/-- A certificate needs `2f + 1` nodes that exchange messages. -/
theorem quorum_within (hw : (system n cfg).Reach ok w) {C : Finset NodeId}
    (hC : Within C w.history) {v : ViewNumber} {q : SequenceNumber} {t : HotStuffPhaseTag}
    (hc : Created w.history v q t) : 2 * ((n - 1) / 3) + 1 ≤ C.card := by
  obtain ⟨o, ho, vc, hc⟩ := hc
  obtain ⟨w₀, hr₀, _, hf₀, hsuf⟩ := hw.fired o ho
  obtain ⟨_, _, hq, V, rfl, _, hV⟩ := (chained hr₀).creates hr₀ hf₀ hc
  refine le_trans hq (Finset.card_le_card fun j hj => ?_)
  rcases (hV j hj).2 with ⟨o', ho', rfl, m, hm, d, hpl⟩ | ⟨rfl, _⟩
  · -- a vote answers a message
    have hmem := hsuf.subset (List.mem_cons_of_mem _ ho')
    obtain ⟨w₁, hr₁, _, hf₁, _⟩ := hw.fired o' hmem
    obtain ⟨k, x, rfl, hsaid⟩ := (effect_of_fires hf₁).sent_said hm
    cases hpl
    have hrecv : ∃ m', o'.cause = .recv m' := by
      cases hsaid with
      | prepareVote m' v q d p jv jp hc' => exact ⟨m', hc'⟩
      | vote m' q d t t' vc hc' => exact ⟨m', hc'⟩
    obtain ⟨m', hc'⟩ := hrecv
    rw [← (recv_source hr₁ hf₁ hc').1]
    exact (hC o' hmem m' hc').2
  · obtain ⟨hnode, _, m, _, _, _, _, hcause, _⟩ := hc.inv hf₀
    rw [← hnode, ← (recv_source hr₀ hf₀ hcause).1]
    exact (hC o ho m hcause).2

/-- **The chain of certificates.**  A certificate for `(v, q)` is created by the leader of view
    `v` in view `v`, once for each tag, after those of the tags before, and on the votes of at
    least `2f + 1` nodes, the leader included.  A node that commits `q` in view `v` does so when
    all three have been created.  So nothing commits while fewer than `2f + 1` nodes exchange
    messages. -/
theorem certificate_chain (hw : (system n cfg).Reach System.anyStep w) :
    (∀ o h₀, (o :: h₀) <:+ w.history → ∀ v q t vc, Creates o v q t vc →
      o.node = v % n ∧ o.before.view = v ∧ ¬ Created h₀ v q t ∧
      (∀ t' vc', Creates o v q t' vc' → t' = t ∧ vc' = vc) ∧
      (∀ t', phaseOrd t' < phaseOrd t → Created h₀ v q t') ∧
      2 * ((n - 1) / 3) + 1 ≤ vc ∧ ∃ V : Finset NodeId, vc ≤ V.card ∧ v % n ∈ V ∧
        ∀ j ∈ V, j < n ∧ Cast n h₀ j v q t) ∧
    (∀ o h₀, (o :: h₀) <:+ w.history → ∀ e ∈ emitted o, ∀ t,
      Created (o :: h₀) o.before.view e.sequence t) ∧
    ∀ C : Finset NodeId, C.card < 2 * ((n - 1) / 3) + 1 → Within C w.history →
      ∀ o ∈ w.history, emitted o = [] := by
  refine ⟨fun o h₀ hsuf v q t vc hc => ?_, fun o h₀ hsuf e he t => ?_, fun C hcard hC o ho => ?_⟩
  · obtain ⟨w₀, hr₀, _, hf₀, rfl⟩ := hw.fired_suffix o h₀ hsuf
    obtain ⟨hnode, hview, m, d, r, slot, slot', hcause, hm, hs, hcount⟩ := hc.inv hf₀
    obtain ⟨_, hcreated, hq, V, hcardV, hin, hV⟩ := (chained hr₀).creates hr₀ hf₀ hc
    refine ⟨hnode, hview, ?_, fun t' vc' hc' => ?_, fun t' hlt => (hcreated t').mpr hlt, hq, V,
      le_of_eq hcardV, hin, hV⟩
    · rw [hcreated]
      exact lt_irrefl _
    · obtain ⟨_, _, m', d', r', slot₁, slot₂, hcause', hm', hs', hcount'⟩ := hc'.inv hf₀
      -- both are created on the one vote that the step handles
      cases hcause.symm.trans hcause'
      rw [hm] at hm'
      cases hm'
      rw [hs, Option.some.injEq] at hs'
      subst hs'
      rw [hcount, Option.some.injEq, Prod.mk.injEq, Option.some.injEq, Prod.mk.injEq] at hcount'
      exact ⟨rfl, hcount'.2.2.symm⟩
  · obtain ⟨w₀, hr₀, _, hf₀, rfl⟩ := hw.fired_suffix o h₀ hsuf
    have hcommit := created_of_emitted hr₀ hf₀ he
    obtain ⟨w', hw', _, hhist⟩ := hr₀.next trivial hf₀
    rw [← hhist] at hcommit ⊢
    cases t with
    | commit => exact hcommit
    | _ => exact ((chained hw').created _ _ _ hcommit).2 _ (by decide)
  · rw [List.eq_nil_iff_forall_not_mem]
    intro e he
    obtain ⟨w₀, hr₀, _, hf₀, hsuf⟩ := hw.fired o ho
    obtain ⟨w', hw', _, hhist⟩ := hr₀.next trivial hf₀
    have hcommit := created_of_emitted hr₀ hf₀ he
    rw [← hhist] at hcommit
    have hC' : Within C w'.history := fun o' ho' => hC o' (hsuf.subset (by rwa [hhist] at ho'))
    exact absurd (quorum_within hw' hC' hcommit) (by omega)

omit [Sha256] in
/-- Node `0` of four commits sequence `1` on three certificates of nodes `0`, `1` and `2`. -/
theorem certificate_chain_four : ∃ w, (@system Sha256.sample 4 {}).Reach System.anyStep w ∧
    committedBy w.history 0 = [⟨1, ⟨[0x70]⟩⟩] ∧
    (∀ o h₀, (o :: h₀) <:+ w.history → ∀ e ∈ emitted o, ∀ t,
      Created (o :: h₀) o.before.view e.sequence t) ∧
    ∀ C : Finset NodeId, C.card < 3 → Within C w.history → ∀ o ∈ w.history, emitted o = [] := by
  obtain ⟨w, hw, hcommitted⟩ := System.Reach.exists_of_run (S := @system Sha256.sample 4 {})
    (P := fun w => committedBy w.history 0 = [⟨1, ⟨[0x70]⟩⟩]) (commitRun ⟨[0x70]⟩)
    (by decide +kernel)
  exact ⟨w, hw, hcommitted, (@certificate_chain Sha256.sample 4 {} w hw).2⟩

end Source

end HotStuff

end ConsensusBench
