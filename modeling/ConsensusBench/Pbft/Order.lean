import ConsensusBench.Pbft.Agreement
import ConsensusBench.Pbft.Certificate

namespace ConsensusBench

/-!
# PBFT: the order of commits

A slot is committed when its quorum is complete, whether the sequence before is committed or
not; nothing puts the commits of a node in order.

* `Effect.accounted` — an open slot has its payload, and a slot is committed only as its node
  commits it.
* `CommitsInOrder` — the runs in which no quorum is completed ahead of the sequence before.
* `totalOrder_of_inOrder` — in these runs every node commits `1, 2, …` while views stay at `0`.
-/

open AsyncNet PbftNode

namespace Pbft

/-! ### Committed slots -/

/-- The slot of `q` is committed. -/
def IsCommitted (s : PbftState) (q : SequenceNumber) : Prop :=
  ∃ slot, s.slots.lookup q = some slot ∧ slot.phase = .committed

/-- The slots of a node, open until they are committed. -/
def slots : Slots PbftState SequenceNumber SlotState Payload where
  slots := PbftState.slots
  pending := PbftState.pendingPayloads
  closed slot := slot.phase = .committed

/-- A slot whose votes are still counted is open. -/
theorem open_of_phase {slot : SlotState}
    (h : slot.phase = .prepared ∨ slot.phase = .prePrepared) : ¬slots.closed slot := by
  rintro hcom
  rcases h with hph | hph
  · exact absurd (hph.symm.trans hcom) (by simp)
  · exact absurd (hph.symm.trans hcom) (by simp)

variable [Sha256] {n : ℕ} {cfg : FaultConfig}
variable {ok : System.Guard NodeId PbftState Call NetworkMessage}
variable {w : World NodeId PbftState Call NetworkMessage}

/-- **A step accounts for its slots**: an open one has its payload, and one is committed only as its
    node commits it. -/
theorem Effect.accounted {i : NodeId} {s s' : PbftState} {c : Cause Call NetworkMessage}
    {out : List NetworkMessage} (h : Effect (node n i) s c s' out) (hb : slots.Backed s)
    {q : SequenceNumber} {slot : SlotState} (hs' : s'.slots.lookup q = some slot) :
    slots.Accounted (fun q => ∃ e ∈ emitted ⟨i, c, s, s', out⟩, e.sequence = q) s s' q slot := by
  cases h with
  | assign p hp => exact hb.opens (open_of_phase (.inr rfl)) (by rfl) hs'
  | accept m q' d p hm ha => exact hb.opens (open_of_phase (.inr rfl)) (by rfl) hs'
  | countPrepare m q' d r slot' hm hs hph =>
    refine hb.update (by rfl) hs (open_of_phase (.inr hph)) ?_ hs'
    exact open_of_phase (.inr hph)
  | prepare m q' d r slot' hm hs hph hq =>
    refine hb.update (by rfl) hs (open_of_phase (.inr hph)) ?_ hs'
    exact open_of_phase (.inl rfl)
  | countCommit m q' d r slot' hm hs hph =>
    refine hb.update (by rfl) hs (open_of_phase hph) ?_ hs'
    exact open_of_phase hph
  | commitNothing m q' d r slot' hm hs hph hq hp =>
    -- the slot is open, so its payload is pending
    obtain ⟨p, hp'⟩ := hb q' slot' hs (open_of_phase hph)
    exact absurd (hp.symm.trans hp') (by simp)
  | commit m q' d r slot' p hm hs hph hq hp =>
    refine hb.closes ?_ ⟨⟨q', p⟩, ?_, rfl⟩ (by rfl) hs'
    · rfl
    · rw [emitted_eq (by rfl)]
      exact List.mem_singleton_self _
  | install m v r l votes out hm hv hvotes hq hp =>
    obtain ⟨hs, hph⟩ := lookup_enterNewView (v := v) hs'
    exact .retained hs hph
  | adopt m v ns hm hv =>
    obtain ⟨hs, hph⟩ := lookup_enterNewView (v := v) hs'
    exact .retained hs hph
  | _ => exact hb.keep (by rfl) hs'

/-- Nodes account for their slots. -/
theorem slots_kept : slots.Kept (system n cfg) ok fun o q => ∃ e ∈ emitted o, e.sequence = q where
  init _ := rfl
  step _ _ _ hf hb _ _ hs := (effect_of_fires hf).accounted hb hs

/-! ### Committing in order -/

/-- The step completes no quorum ahead of the sequence before, at the same node. -/
def CommitsInOrder (n : ℕ) : System.Guard NodeId PbftState Call NetworkMessage := fun w i c =>
  ∀ m v q d r, c = .recv m → m.payload = .pbft (.commit v q d r) →
    completesQuorum (node n i) (w.nodes i) v q r → q = 1 ∨ IsCommitted (w.nodes i) (q - 1)

omit [Sha256] in
/-- A slot whose quorum is being completed is not committed. -/
theorem not_isCommitted_of_completes {self : PbftNode} {s : PbftState} {v : ViewNumber}
    {q : SequenceNumber} {r : NodeId} (h : completesQuorum self s v q r) : ¬ IsCommitted s q := by
  rintro ⟨slot', hs', hcom⟩
  obtain ⟨_, slot, hs, hph, _⟩ := h
  rw [hs, Option.some.injEq] at hs'
  subst hs'
  rcases hph with hph | hph
  · exact absurd (hph.symm.trans hcom) (by simp)
  · exact absurd (hph.symm.trans hcom) (by simp)

/-- **If every node commits in order, nodes commit in one order**, as long as views stay at
    `0`. -/
theorem totalOrder_of_inOrder (hw : (system n cfg).Reach (CommitsInOrder n) w)
    (h0 : InFirstView n w) : TotalOrder w.history := by
  refine (viewBased _).totalOrder slots_kept hw (fun _ ho => before_first_view hw h0 ho)
    fun w₀ o hr hok hf e he => ?_
  obtain ⟨m, d, r, hc, hm, hq, _⟩ := (effect_of_fires hf).commit_inv he
  rw [hf.before_eq] at hm hq ⊢
  exact ⟨not_isCommitted_of_completes hq, hok m _ e.sequence d r hc hm hq⟩

/-- Every slot comes after a committed one. -/
def OpensInOrder (s : PbftState) : Prop :=
  ∀ q ∈ s.slots.keys, q = 1 ∨ phaseOf s (q - 1) = some .committed

instance (s : PbftState) : Decidable (OpensInOrder s) :=
  inferInstanceAs (Decidable (∀ q ∈ s.slots.keys, _))

/-- A run whose slots are opened one after the other commits in order. -/
theorem inOrder_of_opens (hw : (system n cfg).Reach ok w)
    (hopens : ∀ o ∈ w.history, OpensInOrder o.before) :
    (system n cfg).Reach (CommitsInOrder n) w := by
  refine hw.strengthen fun w₀ o _ hf hsuf m v q d r _ _ hq => ?_
  obtain ⟨_, slot, hs, _⟩ := hq
  have hmem : q ∈ (w₀.nodes o.node).slots.keys :=
    AList.mem_keys.mpr (AList.lookup_isSome.mp (by rw [hs]; rfl))
  have hopen := hopens o (hsuf.subset List.mem_cons_self)
  rw [hf.before_eq] at hopen
  rcases hopen q hmem with hfirst | hprev
  · exact .inl hfirst
  · exact .inr (Option.map_eq_some_iff.mp hprev)

end Pbft

end ConsensusBench
