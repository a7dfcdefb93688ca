import ConsensusBench.Pbft.Order
import ConsensusBench.Pbft.Views

namespace ConsensusBench

/-!
# PBFT: the sequences of a primary

`next_sequence` is counted up by `propose`, set behind the highest committed sequence when a node
installs a view, and copied from a `NewView`.  A backup may hold slots beyond it.  A primary does
not: the slots that survive its view change are committed ones, and from then on nobody but itself
opens slots for it, since it hears neither a `PrePrepare` nor a `NewView` of its own view.

* `not_own` — what only the primary of a view says does not reach that primary.
* `Numbered` — the invariant of a node, kept by every step (`Effect.numbered`).
* `primary_numbers_fresh` — so a primary numbers its proposals beyond all it holds and has
  committed.
-/

open AsyncNet PbftNode

namespace Pbft

/-- The view of a message that only the primary of the view sends. -/
def viewOfPrimary : ProtocolMessage → Option ViewNumber
  | .pbft (.prePrepare v _ _ _) => some v
  | .pbft (.newView v _) => some v
  | _ => none

/-- Faults change neither the kind of a message nor its view. -/
theorem viewOfPrimary_skeleton (x : ProtocolMessage) :
    viewOfPrimary (FaultConfig.skeleton x) = viewOfPrimary x := by
  cases x with
  | pbft x => cases x <;> rfl
  | raft x => cases x <;> rfl
  | hotStuff x => cases x <;> rfl

/-- The committed slots of node `i` are not beyond its highest committed sequence, and if it is
    the primary of its view, `next_sequence` is beyond that and all slots. -/
structure Numbered (n : ℕ) (i : NodeId) (s : PbftState) : Prop where
  committed : ∀ q slot, s.slots.lookup q = some slot → slot.phase = .committed →
    q ≤ s.highestCommittedSeq
  highest : s.view % n = i → s.highestCommittedSeq < s.nextSequence
  slots : s.view % n = i → ∀ q slot, s.slots.lookup q = some slot → q < s.nextSequence

/-! ### What the handlers do to the numbers -/

section Numbers

variable {n : ℕ} {i : NodeId} {s : PbftState} {q : SequenceNumber} {slot slot' : SlotState}

theorem openSlot_ne_committed (v : ViewNumber) (q : SequenceNumber) :
    (openSlot v q).phase ≠ .committed := by
  simp [openSlot]

/-- A slot that is not committed may be opened below `next_sequence`; of a backup, anywhere. -/
theorem Numbered.insert (h : Numbered n i s) (hph : slot.phase ≠ .committed)
    (hlt : s.view % n = i → q < s.nextSequence) :
    Numbered n i { s with slots := s.slots.insert q slot } where
  committed q' slot' hs hcom := by
    rcases HashMap.of_lookup_insert hs with ⟨_, rfl⟩ | ⟨_, hs⟩
    · exact absurd hcom hph
    · exact h.committed q' slot' hs hcom
  highest := h.highest
  slots hp q' slot' hs := by
    rcases HashMap.of_lookup_insert hs with ⟨rfl, _⟩ | ⟨_, hs⟩
    · exact hlt hp
    · exact h.slots hp q' slot' hs

/-- A vote changes a slot that is there, and commits nothing. -/
theorem Numbered.update (h : Numbered n i s) (hs : s.slots.lookup q = some slot)
    (hph : slot'.phase ≠ .committed) :
    Numbered n i { s with slots := s.slots.insert q slot' } :=
  h.insert hph fun hp => h.slots hp q slot hs

theorem highest_le_markCommitted (s : PbftState) (q : SequenceNumber) (slot : SlotState) :
    s.highestCommittedSeq ≤ (markCommitted s q slot).highestCommittedSeq := by
  unfold markCommitted
  dsimp only
  split
  · rename_i hgt
    exact le_of_lt hgt
  · exact le_rfl

theorem le_highest_markCommitted (s : PbftState) (q : SequenceNumber) (slot : SlotState) :
    q ≤ (markCommitted s q slot).highestCommittedSeq := by
  unfold markCommitted
  dsimp only
  split
  · exact le_rfl
  · rename_i hle
    exact not_lt.mp hle

/-- A slot is committed, and its sequence may be the highest one now. -/
theorem Numbered.markCommitted (h : Numbered n i s) (hs : s.slots.lookup q = some slot)
    (slot' : SlotState) : Numbered n i (Pbft.markCommitted s q slot') where
  committed q' slot₀ hs' hcom := by
    rcases HashMap.of_lookup_insert hs' with ⟨rfl, _⟩ | ⟨_, hs'⟩
    · exact le_highest_markCommitted s q' slot'
    · exact (h.committed q' slot₀ hs' hcom).trans (highest_le_markCommitted s q slot')
  highest hp := by
    show (if q > s.highestCommittedSeq then q else s.highestCommittedSeq) < s.nextSequence
    split
    · exact h.slots hp q slot hs
    · exact h.highest hp
  slots hp q' slot₀ hs' := by
    rcases HashMap.of_lookup_insert hs' with ⟨rfl, _⟩ | ⟨_, hs'⟩
    · exact h.slots hp q' slot hs
    · exact h.slots hp q' slot₀ hs'

end Numbers

section Steps

variable [Sha256] {n : ℕ} {i : NodeId} {s s' : PbftState} {c : Cause Call NetworkMessage}
variable {out : List NetworkMessage}

/-- **Every step keeps the numbers**, unless a primary is told of its own view. -/
theorem Effect.numbered (h : Effect (node n i) s c s' out) (hn : Numbered n i s)
    (hown : ∀ m v, c = .recv m → viewOfPrimary m.payload = some v → v % n ≠ i) :
    Numbered n i s' := by
  have hopen : ∀ {slot : SlotState}, slot.phase = .prepared ∨ slot.phase = .prePrepared →
      slot.phase ≠ .committed := by
    rintro slot (hph | hph)
    · rw [hph]
      decide
    · rw [hph]
      decide
  cases h with
  | ignore => exact hn
  | poll => exact ⟨hn.committed, hn.highest, hn.slots⟩
  | tickDown => exact ⟨hn.committed, hn.highest, hn.slots⟩
  | timeout => exact ⟨hn.committed, hn.highest, hn.slots⟩
  | vote => exact ⟨hn.committed, hn.highest, hn.slots⟩
  | assign p hp =>
    -- the counter moves on before the slot is opened
    have hcounted : Numbered n i { s with nextSequence := s.nextSequence + 1 } :=
      ⟨hn.committed, fun hi => Nat.lt_succ_of_lt (hn.highest hi),
        fun hi q slot hs => Nat.lt_succ_of_lt (hn.slots hi q slot hs)⟩
    have hnew := hcounted.insert (openSlot_ne_committed s.view s.nextSequence)
      fun _ => Nat.lt_succ_self s.nextSequence
    exact ⟨hnew.committed, hnew.highest, hnew.slots⟩
  | accept m q d p hm ha =>
    have hbackup : s.view % n ≠ i := hown m s.view rfl (by rw [hm]; rfl)
    have hnew := hn.insert (q := q) (openSlot_ne_committed s.view q) fun hi => absurd hi hbackup
    exact ⟨hnew.committed, hnew.highest, hnew.slots⟩
  | countPrepare m q d r slot hm hs hph => exact hn.update hs (hopen (.inr hph))
  | prepare m q d r slot hm hs hph hq => exact hn.update hs (hopen (.inl rfl))
  | countCommit m q d r slot hm hs hph => exact hn.update hs (hopen hph)
  | commitNothing m q d r slot hm hs => exact hn.markCommitted hs _
  | commit m q d r slot p hm hs =>
    have hnew := hn.markCommitted hs (slot.addCommit r)
    exact ⟨hnew.committed, hnew.highest, hnew.slots⟩
  | install m v r l votes out hm hv hvotes hq hp =>
    -- all slots that are left are committed
    have hkept : ∀ q slot, (enterNewView s v).slots.lookup q = some slot →
        q ≤ s.highestCommittedSeq := by
      intro q slot hs
      obtain ⟨hs, hph⟩ := lookup_enterNewView hs
      exact hn.committed q slot hs hph
    exact ⟨fun q slot hs _ => hkept q slot hs, fun _ => Nat.lt_succ_self _,
      fun _ q slot hs => Nat.lt_succ_of_le (hkept q slot hs)⟩
  | adopt m v ns hm hv =>
    have hbackup : v % n ≠ i := hown m v rfl (by rw [hm]; rfl)
    refine ⟨fun q slot hs _ => ?_, fun hi => absurd hi hbackup, fun hi => absurd hi hbackup⟩
    obtain ⟨hs, hph⟩ := lookup_enterNewView (v := v) hs
    exact hn.committed q slot hs hph

/-- The highest committed sequence does not go down. -/
theorem Effect.highest_mono (h : Effect (node n i) s c s' out) :
    s.highestCommittedSeq ≤ s'.highestCommittedSeq := by
  cases h with
  | commitNothing m q d r slot => exact highest_le_markCommitted s q (slot.addCommit r)
  | commit m q d r slot p => exact highest_le_markCommitted s q (slot.addCommit r)
  | _ => exact le_rfl

/-- What a step commits is not beyond the highest committed sequence. -/
theorem Effect.emitted_le_highest (h : Effect (node n i) s c s' out) {e : CommittedEntry}
    (he : e ∈ emitted (⟨i, c, s, s', out⟩ : NodeStep PbftState)) :
    e.sequence ≤ s'.highestCommittedSeq := by
  obtain ⟨m, d, r, hc, hm, _⟩ := h.commit_inv he
  have hnone : s'.committed = s.committed → e.sequence ≤ s'.highestCommittedSeq := by
    intro hsame
    rw [emitted_eq_nil hsame] at he
    exact absurd he (by simp)
  cases h with
  | poll => exact absurd hc (by simp)
  | commit m q d r slot p =>
    have hone : e ∈ [(⟨q, p⟩ : CommittedEntry)] := by rwa [emitted_eq rfl] at he
    rw [List.mem_singleton.mp hone]
    exact le_highest_markCommitted s q (slot.addCommit r)
  | _ => exact hnone rfl

end Steps

/-! ### Every run -/

section Runs

variable [Sha256] {n : ℕ} {cfg : FaultConfig}
variable {ok : System.Guard NodeId PbftState Call NetworkMessage}
variable {w : World NodeId PbftState Call NetworkMessage} {o : NodeStep PbftState}

/-- **A primary is not told of its own view**: that is said by itself alone, and to others. -/
theorem not_own (hw : (system n cfg).Reach ok w) (hf : (system n cfg).Fires w o)
    {m : NetworkMessage} {v : ViewNumber} (hc : o.cause = .recv m)
    (hv : viewOfPrimary m.payload = some v) : v % n ≠ o.node := by
  obtain ⟨_, hne, o₀, _, x, _, _, hsender, _, hskel, hsaid⟩ := recv_source hw hf hc
  rw [hsender] at hne
  have hview : viewOfPrimary (.pbft x) = some v := by
    rw [← viewOfPrimary_skeleton, ← hskel, viewOfPrimary_skeleton, hv]
  cases hsaid with
  | prePrepare p hcall hp =>
    obtain rfl : o₀.before.view = v := Option.some.inj hview
    rw [show o₀.before.view % n = o₀.node from hp.1]
    exact hne
  | newView v' hlt hp =>
    obtain rfl : v' = v := Option.some.inj hview
    rw [show v' % n = o₀.node from hp]
    exact hne
  | _ => exact absurd hview (by simp [viewOfPrimary])

theorem numbered_step (hw : (system n cfg).Reach ok w) (hf : (system n cfg).Fires w o)
    (h : Numbered n o.node o.before) : Numbered n o.node o.after :=
  (effect_of_fires hf).numbered h fun _ _ hc hv => not_own hw hf hc hv

theorem numbered (hw : (system n cfg).Reach ok w) : ∀ i, Numbered n i (w.nodes i) := by
  refine hw.everywhere (fun i => ?_) fun w o hr h _ hf => numbered_step hr hf h
  exact ⟨fun q slot hs => absurd hs (by simp [system, PbftNode.new]), fun _ => Nat.zero_lt_one,
    fun _ q slot hs => absurd hs (by simp [system, PbftNode.new])⟩

/-- What a node had committed at some step is not beyond its highest committed sequence now. -/
theorem committed_le_highest (hw : (system n cfg).Reach ok w) (ho : o ∈ w.history)
    {q : SequenceNumber} (hq : (∃ e ∈ emitted o, e.sequence = q) ∨ IsCommitted o.after q) :
    q ≤ (w.nodes o.node).highestCommittedSeq := by
  have hnow : o.after.highestCommittedSeq ≤ (w.nodes o.node).highestCommittedSeq :=
    hw.le_now (f := PbftState.highestCommittedSeq)
      (fun _ _ _ hf => (effect_of_fires hf).highest_mono) o ho
  refine le_trans ?_ hnow
  rcases hq with ⟨e, he, rfl⟩ | ⟨slot, hs, hph⟩
  · obtain ⟨_, _, _, hf₀, _⟩ := hw.fired o ho
    exact (effect_of_fires hf₀).emitted_le_highest he
  · obtain ⟨w', hr', hafter, _⟩ := hw.reached o ho
    rw [← hafter] at hs ⊢
    exact (numbered hr' o.node).committed q slot hs hph

/-- A proposal is numbered `next_sequence`, and changes no slot beside that one. -/
theorem lookup_propose {self : PbftNode} {s : PbftState} {q : SequenceNumber}
    (hq : q < s.nextSequence) (p : Payload) :
    (self.propose s p).2.1.slots.lookup q = s.slots.lookup q := by
  unfold propose
  dsimp only
  split
  · rfl
  · split
    · rfl
    · exact AList.lookup_insert_ne (Nat.ne_of_lt hq)

/-- **A primary reuses no sequence it knows**: `next_sequence` is beyond all sequences that it has a
    slot for, or has ever committed, so that its next proposal leaves its slots alone. -/
theorem primary_numbers_fresh (hw : (system n cfg).Reach System.anyStep w) {i : NodeId}
    (hi : (node n i).primaryForView (w.nodes i).view = i) :
    (∀ q slot, (w.nodes i).slots.lookup q = some slot → q < (w.nodes i).nextSequence) ∧
    (∀ e ∈ committedBy w.history i, e.sequence < (w.nodes i).nextSequence) ∧
    (∀ o ∈ w.history, o.node = i → ∀ q, IsCommitted o.after q → q < (w.nodes i).nextSequence) ∧
    ∀ p q slot, (w.nodes i).slots.lookup q = some slot →
      ((node n i).propose (w.nodes i) p).2.1.slots.lookup q = some slot := by
  have hnow := numbered hw i
  refine ⟨hnow.slots hi, fun e he => ?_, fun o ho hnode q hq => ?_, fun p q slot hs => ?_⟩
  · obtain ⟨o, ho, rfl, hemit⟩ := mem_committedBy.mp he
    exact (committed_le_highest hw ho (.inl ⟨e, hemit, rfl⟩)).trans_lt (hnow.highest hi)
  · subst hnode
    exact (committed_le_highest hw ho (.inr hq)).trans_lt (hnow.highest hi)
  · rw [lookup_propose (hnow.slots hi q slot hs) p]
    exact hs

omit [Sha256] in
/-- Node `1` of four commits sequence `1` as a backup, becomes the primary of view `1` and proposes
    sequence `2` there; its next number is `3`. -/
theorem primary_numbers_fresh_four : ∃ w,
    (@system Sha256.sample 4 {}).Reach System.anyStep w ∧ (w.nodes 1).view = 1 ∧
    (w.nodes 1).slots.keys = [2, 1] ∧ (w.nodes 1).highestCommittedSeq = 1 ∧
    (w.nodes 1).nextSequence = 3 ∧
    ∀ q slot, (w.nodes 1).slots.lookup q = some slot → q < (w.nodes 1).nextSequence := by
  obtain ⟨w, hw, hview, hkeys, hhigh, hnext⟩ := System.Reach.exists_of_run
    (S := @system Sha256.sample 4 {})
    (P := fun w => (w.nodes 1).view = 1 ∧ (w.nodes 1).slots.keys = [2, 1] ∧
      (w.nodes 1).highestCommittedSeq = 1 ∧ (w.nodes 1).nextSequence = 3)
    (.call 0 (.propose ⟨[0x70]⟩) :: List.replicate 27 (.deliver 0) ++
      List.replicate 41 (.call 3 .tick) ++
      [.deliver 0, .deliver 0, .deliver 1, .call 1 (.propose ⟨[0x71]⟩)]) (by decide +kernel)
  have hprimary : (node 4 1).primaryForView (w.nodes 1).view = 1 := by
    rw [hview]
    rfl
  exact ⟨w, hw, hview, hkeys, hhigh, hnext,
    (@primary_numbers_fresh Sha256.sample 4 {} w hw 1 hprimary).1⟩

end Runs

end Pbft

end ConsensusBench
