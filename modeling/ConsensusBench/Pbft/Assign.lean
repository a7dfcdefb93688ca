import ConsensusBench.Commits
import ConsensusBench.Pbft.Ledger

namespace ConsensusBench

/-!
# PBFT: the proposals of the primaries

`PrePrepare` messages are numbered proposals: the primary of a view assigns `next_sequence`
when it accepts a `propose`, and broadcasts one `PrePrepare` for it.  `Pbft.led` shows what
the library asks of single steps; that in each view at most one payload is assigned to a
sequence, and that nodes bind what was assigned, follows there.

`keepsValues_of_not_forks` says when the proposals of a node keep their payload: when it does
not equivocate, or drops them all.
-/

open AsyncNet PbftNode

namespace Pbft

variable [Sha256] {n : ℕ} {cfg : FaultConfig}
variable {ok : System.Guard NodeId PbftState Call NetworkMessage}
variable {w : World NodeId PbftState Call NetworkMessage}

/-- What a message proposes. -/
def proposal (m : NetworkMessage) : Option (ViewNumber × SequenceNumber × Payload) :=
  match m.payload with
  | .pbft (.prePrepare v q _ p) => some (v, q, p)
  | _ => none

/-- The proposals of PBFT. -/
def proposals (n : ℕ) :
    Proposals NodeId PbftState Call NetworkMessage ViewNumber SequenceNumber Payload where
  leader v := v % n
  next := PbftState.nextSequence
  assigns := assigns n
  accepts := accepts
  proposal := proposal

omit [Sha256] in
theorem proposal_eq_some {m : NetworkMessage} {v : ViewNumber} {q : SequenceNumber}
    {p : Payload} : proposal m = some (v, q, p) ↔
      ∃ d, m.payload = .pbft (.prePrepare v q d p) := by
  unfold proposal
  split
  · rename_i v' q' d p' hm
    simp only [Option.some.injEq, Prod.mk.injEq, hm, ProtocolMessage.pbft.injEq,
      PbftMessage.prePrepare.injEq]
    constructor
    · rintro ⟨rfl, rfl, rfl⟩; exact ⟨d, rfl, rfl, rfl, rfl⟩
    · rintro ⟨_, rfl, rfl, _, rfl⟩; exact ⟨rfl, rfl, rfl⟩
  · rename_i hm
    constructor
    · intro h; exact absurd h (by simp)
    · rintro ⟨d, h⟩; exact absurd h (hm v q d p)

/-! ### What single steps do -/

/-- Within a view, the counter of sequences never goes back. -/
theorem Effect.nextSequence_mono {self : PbftNode} {s s' : PbftState}
    {c : Cause Call NetworkMessage} {out : List NetworkMessage} (h : Effect self s c s' out)
    (hv : s'.view = s.view) : s.nextSequence ≤ s'.nextSequence := by
  cases h with
  | install m v r l votes out hm hlt => exact absurd hv (ne_of_gt hlt)
  | adopt m v ns hm hlt => exact absurd hv (ne_of_gt hlt)
  | assign => exact Nat.le_succ _
  | _ => exact le_refl _

/-- Assigning a sequence moves the counter past it, in the same view. -/
theorem Effect.assign_next {i : NodeId} {s s' : PbftState} {c : Cause Call NetworkMessage}
    {out : List NetworkMessage} (h : Effect (node n i) s c s' out) {v : ViewNumber}
    {q : SequenceNumber} {p : Payload} (ha : assigns n ⟨i, c, s, s', out⟩ = some (v, q, p)) :
    i = v % n ∧ v = s.view ∧ s'.view = s.view ∧ q = s.nextSequence ∧
      s.nextSequence < s'.nextSequence := by
  obtain ⟨hc, hcan, rfl, rfl⟩ := assigns_eq_some.mp ha
  dsimp only at hc
  subst hc
  cases h with
  | ignore _ hno => exact absurd hcan (hno p rfl)
  | assign => exact ⟨hcan.1.symm, rfl, rfl, rfl, Nat.lt_succ_self _⟩

/-- A `PrePrepare` is said only by a step that assigns its sequence. -/
theorem Says.assigns {i : NodeId} {s s' : PbftState} {c : Cause Call NetworkMessage}
    {v : ViewNumber} {q : SequenceNumber} {d : Digest} {p : Payload}
    (h : Says (node n i) s s' c (.prePrepare v q d p)) (out : List NetworkMessage) :
    assigns n ⟨i, c, s, s', out⟩ = some (v, q, p) := by
  cases h with
  | prePrepare _ hc hp => exact assigns_eq_some.mpr ⟨hc, hp, rfl, rfl⟩

omit [Sha256] in
/-- A broadcast has at most one copy for each node. -/
theorem countP_broadcast_le (n : ℕ) (i j : NodeId) (x : PbftMessage) (p : NetworkMessage → Bool)
    (hp : ∀ m, p m → m.target = j) : ((node n i).broadcastPbft x).countP p ≤ 1 := by
  show ((peerIds i n).map fun k => (node n i).msgTo k (.pbft x)).countP p ≤ 1
  rw [List.countP_map]
  exact countP_peerIds_le fun k hk => hp _ hk

/-- A step sends at most one `PrePrepare` for `(v, q)` to a node. -/
theorem Effect.prePrepare_once {i : NodeId} {s s' : PbftState} {c : Cause Call NetworkMessage}
    {out : List NetworkMessage} (h : Effect (node n i) s c s' out) (j : NodeId)
    (v : ViewNumber) (q : SequenceNumber) :
    out.countP ((proposals n).proposesTo (system n cfg) j v q) ≤ 1 := by
  by_cases hz : out.countP ((proposals n).proposesTo (system n cfg) j v q) = 0
  · rw [hz]; exact Nat.zero_le _
  · obtain ⟨m, hm, hmp⟩ := List.countP_pos_iff.mp (Nat.pos_of_ne_zero hz)
    obtain ⟨_, p, hp⟩ := Proposals.proposesTo_iff.mp hmp
    obtain ⟨d, hpl⟩ := proposal_eq_some.mp hp
    obtain ⟨k, x, _, _, rfl, hsaid⟩ := h.sent_said hm
    cases hpl
    obtain ⟨hc, hcan, _⟩ := assigns_eq_some.mp (hsaid.assigns out)
    dsimp only at hc
    subst hc
    cases h with
    | ignore => exact absurd hm (by simp)
    | assign p hp =>
      -- the `Prepare` messages of the step propose nothing
      have hprepare : ((node n i).broadcastPbft (.prepare s.view s.nextSequence p.digest i)).countP
          ((proposals n).proposesTo (system n cfg) j v q) = 0 := by
        rw [List.countP_eq_zero]
        intro m hm hmp
        obtain ⟨k, _, _, rfl⟩ := mem_broadcastPbft.mp hm
        obtain ⟨_, p, hp⟩ := Proposals.proposesTo_iff.mp hmp
        exact absurd hp (by simp [proposals, proposal])
      have hpre := countP_broadcast_le n i j (.prePrepare s.view s.nextSequence p.digest p)
        ((proposals n).proposesTo (system n cfg) j v q)
        fun m hm => (Proposals.proposesTo_iff.mp hm).1
      rw [List.countP_append]
      exact le_trans (Nat.add_le_add_left (le_of_eq hprepare) _) hpre

omit [Sha256] in
/-- A message with the skeleton of a `PrePrepare` is a `PrePrepare`. -/
theorem prePrepare_of_skeleton {x : ProtocolMessage} {v : ViewNumber} {q : SequenceNumber}
    {d : Digest} {p : Payload}
    (h : FaultConfig.skeleton (.pbft (.prePrepare v q d p)) = FaultConfig.skeleton x) :
    ∃ d' p', x = .pbft (.prePrepare v q d' p') := by
  cases x with
  | pbft x => cases x <;> simp_all [FaultConfig.skeleton]
  | raft x => cases x <;> simp [FaultConfig.skeleton] at h
  | hotStuff x => cases x <;> simp [FaultConfig.skeleton] at h

/-- **The primaries lead**: PBFT satisfies what the library asks of proposals. -/
theorem led (ok : System.Guard NodeId PbftState Call NetworkMessage) :
    (proposals n).Led (ledger n) (system n cfg) ok where
  binds _ := rfl
  next_mono _ _ _ hf hv := (effect_of_fires hf).nextSequence_mono hv
  assign _ _ _ _ _ _ hf ha := (effect_of_fires hf).assign_next ha
  accept o v q p ha := by
    obtain ⟨m, d, hc, hm, _⟩ := accepts_eq_some.mp ha
    exact ⟨m, hc, proposal_eq_some.mpr ⟨d, hm⟩⟩
  sent w o _ hf m hm v q p hp := by
    obtain ⟨d, hpl⟩ := proposal_eq_some.mp hp
    obtain ⟨j, x, _, hne, rfl, hsaid⟩ := (effect_of_fires hf).sent_said hm
    cases hpl
    exact ⟨hsaid.assigns o.sent, hne⟩
  sent_once _ _ _ hf j v q := (effect_of_fires hf).prePrepare_once j v q
  carry m m' hm := by
    obtain ⟨_, htarget, hskel⟩ := cfg.frame_of_mem hm
    refine ⟨htarget, fun v q p' hp => ?_⟩
    obtain ⟨d', hpl⟩ := proposal_eq_some.mp hp
    rw [hpl] at hskel
    obtain ⟨d, p, hm⟩ := prePrepare_of_skeleton hskel
    exact ⟨p, proposal_eq_some.mpr ⟨d, hm⟩⟩

/-! ### Proposals on the way -/

omit [Sha256] in
theorem proposed_of_proposal {m : NetworkMessage} {v : ViewNumber} {q : SequenceNumber}
    {p : Payload} (h : proposal m = some (v, q, p)) :
    FaultConfig.proposed m.payload = some p ∧
      messagePhase m.payload = some .pbftPrePrepare := by
  obtain ⟨d, hm⟩ := proposal_eq_some.mp h
  rw [hm]
  exact ⟨rfl, rfl⟩

/-- A primary that does not equivocate, or whose `PrePrepare` messages are all dropped,
    forks no payload. -/
theorem keepsValues_of_not_forks (hw : (system n cfg).Reach ok w) {i : NodeId}
    (h : .equivocate ∉ cfg.behaviors i ∨ cfg.dropsPhase i .pbftPrePrepare = true) :
    (proposals n).KeepsValues (system n cfg) i w.history := by
  refine cfg.keepsValues rfl (fun _ o hf m hm => ?_) (fun _ _ _ _ => proposed_of_proposal) h hw
  obtain ⟨_, _, _, _, rfl, _⟩ := (effect_of_fires hf).sent_said hm
  rfl

/-- Honest primaries fork no payload. -/
theorem keepsValues_of_honest (hw : (system n cfg).Reach ok w) {i : NodeId}
    (h : cfg.isByzantine i = false) : (proposals n).KeepsValues (system n cfg) i w.history :=
  keepsValues_of_not_forks hw (.inl (by rw [cfg.behaviors_eq_nil h]; simp))

end Pbft

end ConsensusBench
