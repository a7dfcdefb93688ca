import ConsensusBench.HotStuff.Agreement
import ConsensusBench.HotStuff.Certificate

namespace ConsensusBench

/-!
# HotStuff: the order of commits

A slot is decided on a certificate of its own sequence, whether the sequence before is decided or
not; as in PBFT, nothing puts the commits of a node in order.

* `Effect.accounted` — an open slot has its payload, and a slot is decided only as its node commits
  it.
* `CommitsInOrder` — the runs in which no sequence is decided ahead of the sequence before.
* `totalOrder_of_inOrder` — in these runs every node commits `1, 2, …` while views stay at `0`.
-/

open AsyncNet HotStuffNode

namespace HotStuff

/-! ### Decided slots -/

/-- The slot of `q` is decided. -/
def IsDecided (s : HotStuffState) (q : SequenceNumber) : Prop :=
  ∃ slot, s.slots.lookup q = some slot ∧ slot.phase = .decided

/-- The slots of a node, open until they are decided. -/
def slots : Slots HotStuffState SequenceNumber SlotState Payload where
  slots := HotStuffState.slots
  pending := HotStuffState.pendingPayloads
  closed slot := slot.phase = .decided

/-- Before the last certificate, certifying leaves a slot open. -/
theorem certify_phase {slot : SlotState} {i : NodeId} {t : HotStuffPhaseTag} (ht : t ≠ .commit) :
    (slot.certify i t).phase ≠ .decided := by
  cases t <;> simp_all [SlotState.certify]

/-- Seeing a higher view keeps decided slots only. -/
theorem catchUp_cases (s : HotStuffState) (v : ViewNumber) : catchUp s v = s ∨
    ∀ q slot, (catchUp s v).slots.lookup q = some slot →
      s.slots.lookup q = some slot ∧ slot.phase = .decided := by
  unfold catchUp
  split
  · exact .inr fun q slot hs => lookup_enterNewView (v := v) hs
  · exact .inl rfl

/-- Advancing a slot changes at most its phase. -/
theorem advanceSlot_cases (s : HotStuffState) (q : SequenceNumber) (e e' : Phase) :
    (advanceSlot s q e e').slots = s.slots ∨ ∃ slot, s.slots.lookup q = some slot ∧
      slot.phase = e ∧
        (advanceSlot s q e e').slots = s.slots.insert q { slot with phase := e' } := by
  unfold advanceSlot
  split
  · exact .inl rfl
  · rename_i slot hs
    split
    · rename_i hph
      exact .inr ⟨slot, hs, hph, rfl⟩
    · exact .inl rfl

section Accounts

variable {s s' : HotStuffState} {q q' : SequenceNumber} {slot : SlotState}

/-- Accepting a proposal, perhaps of a higher view, opens a slot with its payload. -/
theorem accounted_accept {taken : SequenceNumber → Prop} (hb : slots.Backed s) {v : ViewNumber}
    {p : Payload} (hs' : (acceptProposal (catchUp s v) v q' p).slots.lookup q = some slot) :
    slots.Accounted taken s (acceptProposal (catchUp s v) v q' p) q slot := by
  -- a higher view drops the open slots, so only the new one is open then
  rcases catchUp_cases s v with hsame | hkept
  · rw [hsame] at hs' ⊢
    exact hb.opens (by simp [slots]) rfl hs'
  · rcases HashMap.of_lookup_insert hs' with ⟨rfl, rfl⟩ | ⟨_, hs⟩
    · refine ⟨fun _ => ⟨p, ?_⟩, fun hdec => absurd hdec (by simp [slots])⟩
      change ((catchUp s v).pendingPayloads.insert q p).lookup q = some p
      rw [HashMap.lookup_insert_ite, if_pos rfl]
    · obtain ⟨hs, hdec⟩ := hkept q slot hs
      exact .retained hs hdec

/-- Deciding a slot commits its payload. -/
theorem accounted_decide {i : NodeId} {c : Cause Call NetworkMessage} {out : List NetworkMessage}
    (hb : slots.Backed s) {t : HotStuffState} {slot₀ slot' : SlotState}
    (hts : t.slots = s.slots.insert q' slot') (htp : t.pendingPayloads = s.pendingPayloads)
    (htc : t.committed = s.committed) (hs₀ : s.slots.lookup q' = some slot₀)
    (hopen₀ : ¬slots.closed slot₀) (hclosed' : slots.closed slot')
    (hs' : (commitPending t q').slots.lookup q = some slot) :
    slots.Accounted (fun q => ∃ e ∈ emitted ⟨i, c, s, commitPending t q', out⟩, e.sequence = q)
      s (commitPending t q') q slot := by
  obtain ⟨p, hp⟩ : ∃ p, s.pendingPayloads.lookup q' = some p := hb q' slot₀ hs₀ hopen₀
  have hafter : commitPending t q' = { t with
      pendingPayloads := t.pendingPayloads.erase q'
      committed := t.committed ++ [⟨q', p⟩] } := by
    rw [commitPending, htp, hp]
  rw [hafter] at hs' ⊢
  refine hb.closes hclosed' ⟨⟨q', p⟩, ?_, rfl⟩ ?_ (hts ▸ hs')
  · simp [emitted, CommitQueue.committed, htc]
  · change t.pendingPayloads.erase q' = s.pendingPayloads.erase q'
    rw [htp]

end Accounts

variable [Sha256] {n : ℕ} {cfg : FaultConfig}
variable {ok : System.Guard NodeId HotStuffState Call NetworkMessage}
variable {w : World NodeId HotStuffState Call NetworkMessage}

/-- **A step accounts for its slots**: an open one has its payload, and one is decided only as its
    node commits it. -/
theorem Effect.accounted {i : NodeId} {s s' : HotStuffState} {c : Cause Call NetworkMessage}
    {out : List NetworkMessage} (h : Effect (node n i) s c s' out) (hb : slots.Backed s)
    {q : SequenceNumber} {slot : SlotState} (hs' : s'.slots.lookup q = some slot) :
    slots.Accounted (fun q => ∃ e ∈ emitted ⟨i, c, s, s', out⟩, e.sequence = q) s s' q slot := by
  have hstage : ∀ {slot' : SlotState} {t}, slot'.phase = stage t → ¬slots.closed slot' := by
    intro slot' t hph hdec
    exact stage_ne_decided t (hph.symm.trans hdec)
  cases h with
  | assign p hp => exact hb.opens (by simp [slots]) (by rfl) hs'
  | accept m v q' d p jv jp hm hv => exact accounted_accept hb hs'
  | count m q' d t r slot₀ slot' hm hl hs hc =>
    obtain ⟨hph, ⟨_, rfl⟩ | ⟨_, habsurd, _⟩⟩ := countVote_inv hc
    · have hadd : (slot₀.addVote r t).phase = stage t := by cases t <;> exact hph
      exact hb.update (by rfl) hs (hstage hph) (hstage hadd) hs'
    · exact absurd habsurd (by simp)
  | certify m q' d t r slot₀ slot' vc hm hl hs hc =>
    obtain ⟨hph, ⟨habsurd, _⟩ | ⟨_, hvc, rfl⟩⟩ := countVote_inv hc
    · exact absurd habsurd (by simp)
    · by_cases ht : t = .commit
      · subst ht
        rw [completeQc, if_pos rfl] at hs' ⊢
        exact accounted_decide hb rfl rfl rfl hs (hstage hph) rfl hs'
      · rw [completeQc, if_neg ht] at hs' ⊢
        exact hb.update (by rfl) hs (hstage hph) (certify_phase ht) hs'
  | learn m v q' d t vc hm hq hno =>
    rw [seeQc_slots] at hs'
    exact hb.keep (by simp [slots]) hs'
  | advance m q' d t t' vc hm hq ht =>
    rcases advanceSlot_cases (seeQc s s.view t) q' (stage t) (stage t') with
      hsame | ⟨slot₀, hs, hph, hslots⟩
    · rw [hsame, seeQc_slots] at hs'
      exact hb.keep (by simp [slots]) hs'
    · rw [hslots, seeQc_slots] at hs'
      rw [seeQc_slots] at hs
      exact hb.update (by simp [slots]) hs (hstage hph) (hstage (t := t') rfl) hs'
  | decide m q' d vc slot₀ hm hq hs hph =>
    have hslots : (seeQc s s.view .commit).slots.insert q' { slot₀ with phase := .decided } =
        s.slots.insert q' { slot₀ with phase := .decided } := by rw [seeQc_slots]
    exact accounted_decide hb hslots (by simp) (by simp) hs hph rfl hs'
  | install m v hv hp r hm hlt hq hl =>
    obtain ⟨hs, hph⟩ := lookup_enterNewView (v := v) hs'
    exact .retained hs hph
  | _ => exact hb.keep (by rfl) hs'

/-- Nodes account for their slots. -/
theorem slots_kept : slots.Kept (system n cfg) ok fun o q => ∃ e ∈ emitted o, e.sequence = q where
  init _ := rfl
  step _ _ _ hf hb _ _ hs := (effect_of_fires hf).accounted hb hs

/-! ### Committing in order -/

/-- The step decides no sequence ahead of the one before, at the same node. -/
def CommitsInOrder (n : ℕ) : System.Guard NodeId HotStuffState Call NetworkMessage := fun w i c =>
  ∀ m q, c = .recv m → Decides (node n i) (w.nodes i) m q →
    q = 1 ∨ IsDecided (w.nodes i) (q - 1)

omit [Sha256] in
/-- A slot that is being decided is not decided yet. -/
theorem not_isDecided_of_decides {self : HotStuffNode} {s : HotStuffState} {m : NetworkMessage}
    {q : SequenceNumber} (h : Decides self s m q) : ¬ IsDecided s q := by
  rintro ⟨slot', hs', hdec⟩
  rcases h with ⟨d, r, slot, _, vc, _, _, hs, hvote⟩ | ⟨d, vc, slot, _, _, hs, hph⟩
  · rw [hs, Option.some.injEq] at hs'
    subst hs'
    exact absurd ((countVote_inv hvote).1.symm.trans hdec) (by simp [stage])
  · rw [hs, Option.some.injEq] at hs'
    subst hs'
    exact hph hdec

/-- **If every node commits in order, nodes commit in one order**, as long as views stay at
    `0`. -/
theorem totalOrder_of_inOrder (hw : (system n cfg).Reach (CommitsInOrder n) w)
    (h0 : InFirstView n w) : TotalOrder w.history := by
  refine (viewBased _).totalOrder slots_kept hw (fun _ ho => before_first_view hw h0 ho)
    fun w₀ o hr hok hf e he => ?_
  obtain ⟨m, hc, hdec, _⟩ := (effect_of_fires hf).commit_inv he
  rw [hf.before_eq] at hdec ⊢
  exact ⟨not_isDecided_of_decides hdec, hok m e.sequence hc hdec⟩

/-- Every slot comes after a decided one. -/
def OpensInOrder (s : HotStuffState) : Prop :=
  ∀ q ∈ s.slots.keys, q = 1 ∨ (s.slots.lookup (q - 1)).map SlotState.phase = some .decided

instance (s : HotStuffState) : Decidable (OpensInOrder s) :=
  inferInstanceAs (Decidable (∀ q ∈ s.slots.keys, _))

omit [Sha256] in
/-- A sequence that is decided has a slot. -/
theorem Decides.slot {self : HotStuffNode} {s : HotStuffState} {m : NetworkMessage}
    {q : SequenceNumber} (h : Decides self s m q) : q ∈ s.slots.keys := by
  rcases h with ⟨d, r, slot, _, vc, _, _, hs, _⟩ | ⟨d, vc, slot, _, _, hs, _⟩
  · exact AList.mem_keys.mpr (AList.lookup_isSome.mp (by rw [hs]; rfl))
  · exact AList.mem_keys.mpr (AList.lookup_isSome.mp (by rw [hs]; rfl))

/-- A run whose slots are opened one after the other commits in order. -/
theorem inOrder_of_opens (hw : (system n cfg).Reach ok w)
    (hopens : ∀ o ∈ w.history, OpensInOrder o.before) :
    (system n cfg).Reach (CommitsInOrder n) w := by
  refine hw.strengthen fun w₀ o _ hf hsuf m q _ hdec => ?_
  have hopen := hopens o (hsuf.subset List.mem_cons_self)
  rw [hf.before_eq] at hopen
  rcases hopen q hdec.slot with hfirst | hprev
  · exact .inl hfirst
  · exact .inr (Option.map_eq_some_iff.mp hprev)

end HotStuff

end ConsensusBench
