import ConsensusBench.Consensus
import ConsensusBench.Fault
import ConsensusBench.Lib.Proposals
import ConsensusBench.Lib.Slots

namespace ConsensusBench

open AsyncNet

/-!
# The commits of a view-based protocol

PBFT and HotStuff differ in their messages and in what they count.  What their commits amount to
follows from what they share: a ledger of bound payloads, proposals that the leader of each view
numbers, and slots that are closed as their entries are committed.

* `assignedBy`, `BoundBy` — what a call of `propose` assigns, and what a ledger binds then.
* `bindsOnce_iff` — what it takes that a step binds nothing again.
* `ViewBased` — a protocol with a ledger and with proposals.
* `ViewBased.commit_assigned` — in a view whose leader's proposals keep their payloads, nodes commit
  exactly what the leader assigned.
* `ViewBased.correct_of_view` — agreement and integrity while one view lasts.
* `ViewBased.correct_of_along` — agreement and integrity across views, if nothing is bound again;
  `ViewBased.along_of_view` finds such runs within a view.
* `ViewBased.totalOrder` — one order, if slots are closed one after the other.
* `FaultConfig.keepsValues` — the leaders whose proposals keep their payloads.
-/

variable {σ : Type} {L : Ledger NodeId σ Call NetworkMessage ViewNumber SequenceNumber Payload}

/-! ### What a step binds -/

/-- What an accepted call of `propose` assigns: the next sequence, in the present view. -/
def assignedBy (can : Prop) [Decidable can] (view : ViewNumber) (next : SequenceNumber) :
    Cause Call NetworkMessage → Option (ViewNumber × SequenceNumber × Payload)
  | .call (.propose p) => if can then some (view, next, p) else none
  | _ => none

/-- `assignedBy`, read backwards. -/
theorem assignedBy_eq_some {can : Prop} [Decidable can] {view v : ViewNumber}
    {next q : SequenceNumber} {c : Cause Call NetworkMessage} {p : Payload} :
    assignedBy can view next c = some (v, q, p) ↔
      c = .call (.propose p) ∧ can ∧ v = view ∧ q = next := by
  constructor
  · intro h
    unfold assignedBy at h
    split at h
    · rename_i p'
      by_cases hcan : can
      · rw [if_pos hcan] at h
        cases h
        exact ⟨rfl, hcan, rfl, rfl⟩
      · rw [if_neg hcan] at h
        cases h
    · cases h
  · rintro ⟨rfl, hcan, rfl, rfl⟩
    exact if_pos hcan

/-- A ledger that is bound by calls of `propose`, and by the proposals a node accepts. -/
structure BoundBy (L : Ledger NodeId σ Call NetworkMessage ViewNumber SequenceNumber Payload)
    (assigns accepts : NodeStep σ → Option (ViewNumber × SequenceNumber × Payload)) : Prop where
  binds : ∀ o, L.binds o = (assigns o).or (accepts o)
  propose : ∀ o e, assigns o = some e → o.cause = .call (.propose e.2.2)
  receive : ∀ o e, accepts o = some e → ∃ m, o.cause = .recv m

namespace BoundBy

variable {assigns accepts : NodeStep σ → Option (ViewNumber × SequenceNumber × Payload)}
variable {o : NodeStep σ} {e : ViewNumber × SequenceNumber × Payload}

/-- What is assigned is bound. -/
theorem of_assigns (h : BoundBy L assigns accepts) (ha : assigns o = some e) :
    L.binds o = some e := by
  rw [h.binds, ha, Option.some_or]

/-- What is accepted is bound, as nothing is assigned where a message is received. -/
theorem of_accepts (h : BoundBy L assigns accepts) (ha : accepts o = some e) :
    L.binds o = some e := by
  have hnone : assigns o = none := by
    rw [Option.eq_none_iff_forall_ne_some]
    intro e' hass
    obtain ⟨m, hc⟩ := h.receive o e ha
    exact absurd ((h.propose o e' hass).symm.trans hc) (by simp)
  rw [h.binds, hnone, Option.none_or, ha]

/-- A step that neither assigns nor accepts binds nothing. -/
theorem eq_none (h : BoundBy L assigns accepts) (hassign : ∀ e, assigns o ≠ some e)
    (haccept : ∀ e, accepts o ≠ some e) : L.binds o = none := by
  rw [h.binds, Option.eq_none_iff_forall_ne_some.mpr hassign,
    Option.eq_none_iff_forall_ne_some.mpr haccept, Option.or_none]

/-- A call other than `propose` binds nothing. -/
theorem of_call (h : BoundBy L assigns accepts) {a : Call} (hc : o.cause = .call a)
    (ha : ∀ p, a ≠ .propose p) : L.binds o = none := by
  refine h.eq_none (fun e he => ?_) fun e he => ?_
  · have hcause := (h.propose o e he).symm.trans hc
    cases hcause
    exact ha _ rfl
  · obtain ⟨m, hcause⟩ := h.receive o e he
    exact absurd (hcause.symm.trans hc) (by simp)

/-- A message that is not accepted binds nothing. -/
theorem of_recv (h : BoundBy L assigns accepts) {m : NetworkMessage} (hc : o.cause = .recv m)
    (haccept : ∀ e, accepts o ≠ some e) : L.binds o = none := by
  refine h.eq_none (fun e he => ?_) haccept
  exact absurd ((h.propose o e he).symm.trans hc) (by simp)

end BoundBy

variable [CommitQueue σ] {S : System NodeId σ Call NetworkMessage}
variable {ok : System.Guard NodeId σ Call NetworkMessage} {w : World NodeId σ Call NetworkMessage}
variable {D : Proposals NodeId σ Call NetworkMessage ViewNumber SequenceNumber Payload}

/-- **What it takes that a step binds nothing again**: no sequence is assigned that was committed,
    and none is committed that was assigned in a later view. -/
theorem bindsOnce_iff (hL : L.commits = commitsOf)
    {assigns : NodeStep σ → Option (ViewNumber × SequenceNumber × Payload)} {o : NodeStep σ}
    {hist : History σ} {proposes : Payload → Prop} {can : Prop} {view : ViewNumber}
    {next : SequenceNumber} (hassigns : ∀ v q p, assigns o = some (v, q, p) ↔
      proposes p ∧ can ∧ v = view ∧ q = next) :
    L.BindsOnce assigns hist o ↔
      (∀ p, proposes p → can → ∀ o' ∈ hist, ∀ e ∈ emitted o', e.sequence ≠ next) ∧
      ∀ q, (∃ e ∈ emitted o, e.sequence = q) → ∀ o' ∈ hist, ∀ v p,
        assigns o' = some (v, q, p) → v ≤ L.view o.before := by
  unfold Ledger.BindsOnce
  rw [hL]
  constructor
  · rintro ⟨hfresh, hlate⟩
    constructor
    · intro p hp hcan o' ho' e he
      exact hfresh _ ((hassigns view next p).mpr ⟨hp, hcan, rfl, rfl⟩) o' ho' _
        (mem_commitsOf.mpr he)
    · rintro q ⟨e, he, rfl⟩ o' ho' v p ha
      exact hlate _ (mem_commitsOf.mpr he) o' ho' _ ha rfl
  · rintro ⟨hfresh, hlate⟩
    constructor
    · rintro ⟨v, q, p⟩ ha o' ho' e he
      obtain ⟨hp, hcan, _, hq⟩ := (hassigns v q p).mp ha
      rw [hq]
      exact hfresh p hp hcan o' ho' ⟨e.1, e.2⟩ (mem_commitsOf.mp he)
    · rintro e he o' ho' ⟨v, q, p⟩ ha hk
      dsimp only at hk
      rw [hk] at ha
      exact hlate e.1 ⟨⟨e.1, e.2⟩, mem_commitsOf.mp he, rfl⟩ o' ho' v p ha

/-! ### View-based protocols -/

/-- A protocol whose nodes commit what they have bound, and bind what the leader of their view has
    numbered. -/
structure ViewBased (L : Ledger NodeId σ Call NetworkMessage ViewNumber SequenceNumber Payload)
    (D : Proposals NodeId σ Call NetworkMessage ViewNumber SequenceNumber Payload)
    (S : System NodeId σ Call NetworkMessage) (ok : System.Guard NodeId σ Call NetworkMessage) :
    Prop where
  commits : L.commits = commitsOf
  kept : L.Kept S ok
  led : D.Led L S ok

namespace ViewBased

/-- The ledger commits the entries that are appended to the queue. -/
theorem mem_commits (h : ViewBased L D S ok) {o : NodeStep σ} {e : CommittedEntry}
    (he : e ∈ emitted o) : (e.sequence, e.payload) ∈ L.commits o := by
  rw [h.commits]
  exact mem_commitsOf.mpr he

/-! ### Single commits -/

/-- A node commits a sequence at most once in each view. -/
theorem timesCommitted_view_le (h : ViewBased L D S ok) (hw : S.Reach ok w) (i : NodeId)
    (v : ViewNumber) (q : SequenceNumber) :
    timesCommitted w.history i q (fun s => L.view s = v) ≤ 1 := by
  rw [timesCommitted_eq_commitCount h.commits]
  exact h.led.commitCount_le h.kept hw i v q

/-- **What is committed was assigned** by the leader of the view, and nothing else was for its
    sequence, if the leader's proposals keep their payloads. -/
theorem commit_assigned (h : ViewBased L D S ok) (hw : S.Reach ok w) {o : NodeStep σ}
    (ho : o ∈ w.history) {e : CommittedEntry} (he : e ∈ emitted o)
    (hkeep : D.KeepsValues S (D.leader (L.view o.before)) w.history) :
    (∃ a ∈ w.history, a.node = D.leader (L.view o.before) ∧
      D.assigns a = some (L.view o.before, e.sequence, e.payload)) ∧
    ∀ a ∈ w.history, ∀ p, D.assigns a = some (L.view o.before, e.sequence, p) → p = e.payload := by
  obtain ⟨a, ha, hass⟩ := h.led.commit_assigned h.kept hw ho (h.mem_commits he) hkeep
  have hnode := (h.led.assign_behind h.kept hw a ha _ _ _ hass).1
  refine ⟨⟨a, ha, hnode, hass⟩, fun a' ha' p hass' => ?_⟩
  exact h.led.assigned_unique h.kept hw ha' ha hass' hass

/-! ### While one view lasts -/

/-- If every node is in view `0` now, every step was taken in view `0`. -/
theorem before_first_view (h : ViewBased L D S ok) (hw : S.Reach ok w)
    (h0 : ∀ i ∈ S.members, L.view (w.nodes i) = 0) {o : NodeStep σ} (ho : o ∈ w.history) :
    L.view o.before = 0 :=
  Nat.le_zero.mp (h.kept.view_le_of_now hw (fun i hi => (h0 i hi).le) o ho)

/-- **Agreement while one view lasts**, if its leader's proposals keep their payloads. -/
theorem agreement_of_view (h : ViewBased L D S ok) (hw : S.Reach ok w) {v : ViewNumber}
    (hview : ∀ o ∈ w.history, L.view o.before = v)
    (hkeep : D.KeepsValues S (D.leader v) w.history) (honest : NodeId → Prop) :
    Agreement w.history honest := by
  refine agreement_of_commits h.commits ?_ honest
  intro o ho o' ho' e he e' he' hseq
  have hsame : L.view o.before = L.view o'.before := (hview o ho).trans (hview o' ho').symm
  exact h.led.commits_eq_of_view h.kept hw ho ho' he he' hsame hseq (by rwa [hview o ho])

/-- **Agreement and integrity across views**, if nothing is bound again after a commit. -/
theorem correct_of_along (h : ViewBased L D S ok) (hw : S.Reach ok w)
    (hkeep : ∀ i, D.KeepsValues S i w.history)
    (honce : System.Along (L.BindsOnce D.assigns) w.history) :
    Integrity w.history ∧ Agreement w.history fun _ => True := by
  obtain ⟨htotal, hagree⟩ := h.led.agree_across_views h.kept hkeep hw honce
  exact ⟨integrity_of_totalCount h.commits htotal, agreement_of_commits h.commits hagree _⟩

/-- While one view lasts, nothing is bound again after a commit. -/
theorem along_of_view (h : ViewBased L D S ok) (hw : S.Reach ok w) {v : ViewNumber}
    (hview : ∀ o ∈ w.history, L.view o.before = v)
    (hkeep : D.KeepsValues S (D.leader v) w.history) :
    System.Along (L.BindsOnce D.assigns) w.history := by
  refine System.Along.of_forall_suffix fun o hist hsuf => ?_
  obtain ⟨w₀, hr, _, hf, rfl⟩ := hw.fired_suffix o hist hsuf
  have ho : L.view o.before = v := hview o (hsuf.subset List.mem_cons_self)
  have hsub : ∀ o' ∈ w₀.history, o' ∈ w.history := fun o' ho' =>
    hsuf.subset (List.mem_cons_of_mem _ ho')
  refine h.led.bindsOnce_of_view h.kept hr hf (fun o' ho' => ?_) ?_
  · rw [ho]
    exact hview o' (hsub o' ho')
  · rw [ho]
    exact fun o' ho' => hkeep o' (hsub o' ho')

/-! ### The order of commits -/

/-- **Nodes that close every slot behind the one before it commit in one order**, while one view
    lasts. -/
theorem totalOrder {Slot : Type} {B : Slots σ SequenceNumber Slot Payload}
    (h : ViewBased L D S ok)
    (hB : B.Kept S ok fun o q => ∃ e ∈ emitted o, e.sequence = q) (hw : S.Reach ok w)
    {v : ViewNumber} (hview : ∀ o ∈ w.history, L.view o.before = v)
    (hnext : ∀ w o, S.Reach ok w → ok w o.node o.cause → S.Fires w o → ∀ e ∈ emitted o,
      ¬B.Closed o.before e.sequence ∧ (e.sequence = 1 ∨ B.Closed o.before (e.sequence - 1))) :
    TotalOrder w.history := by
  refine totalOrder_of_next (p := fun s => L.view s = v)
    (fun _ _ hr hf => length_emitted_le h.commits h.kept hr hf)
    (fun _ hr i q => h.timesCommitted_view_le hr i v q) (fun w₀ o hr hok hf e he => ?_) hw hview
  obtain ⟨hopen, hfirst | hprev⟩ := hnext w₀ o hr hok hf e he
  · exact .inl hfirst
  · refine .inr ⟨Nat.pos_of_ne_zero fun hz => ?_, ?_⟩
    · rw [hz] at hopen hprev
      exact hopen hprev
    · -- the slot before is closed, so its entry was committed
      rw [hf.before_eq] at hprev
      obtain ⟨o', ho', hnode, e', he', hseq⟩ := hB.taken_of_closed hr o.node _ hprev
      exact mem_sequencesBy.mpr ⟨e', mem_committedBy.mpr ⟨o', ho', hnode, he'⟩, hseq⟩

end ViewBased

/-! ### Leaders that fork nothing -/

omit [CommitQueue σ] in
/-- A leader that does not equivocate, or whose proposals are all dropped, forks no payload. -/
theorem FaultConfig.keepsValues [Sha256] (cfg : FaultConfig) {phase : MessagePhase} {i : NodeId}
    (hcarry : S.carry = cfg.tamper) (hsender : ∀ w o, S.Fires w o → ∀ m ∈ o.sent, m.sender = o.node)
    (hproposal : ∀ m v q p, D.proposal m = some (v, q, p) →
      FaultConfig.proposed m.payload = some p ∧ messagePhase m.payload = some phase)
    (h : .equivocate ∉ cfg.behaviors i ∨ cfg.dropsPhase i phase = true) (hw : S.Reach ok w) :
    D.KeepsValues S i w.history := by
  intro o ho hnode m hm m' hm' v q p p' hp hp'
  obtain ⟨w₀, _, _, hf, _⟩ := hw.fired o ho
  have hi : m.sender = i := (hsender w₀ o hf m hm).trans hnode
  rw [hcarry] at hm'
  obtain ⟨hpay, hphase⟩ := hproposal m v q p hp
  exact cfg.proposed_kept hm' (hi ▸ h) hphase hpay (hproposal m' v q p' hp').1

end ConsensusBench
