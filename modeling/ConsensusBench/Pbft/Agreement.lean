import ConsensusBench.Pbft.Assign

namespace ConsensusBench

/-!
# PBFT: what the commits of a cluster agree on

The handlers count votes without looking at digests, so agreement rests on what the nodes
bind, not on quorums.

* `honest_primary_commits` — in a view with an honest primary every node commits exactly
  what the primary assigned, and no node commits a sequence twice in one view.
* `agreement_of_not_forks` — agreement in view `0` needs no more than a primary whose
  `PrePrepare` messages keep their payload.
* `agreement_across_views` — a new primary numbers its proposals from what it has committed
  itself.  Agreement and integrity hold in the runs in which this reuses no committed
  sequence, and fail in others (`reused_sequence_breaks_agreement`).
-/

open AsyncNet PbftNode

namespace Pbft

variable [Sha256] {n : ℕ} {cfg : FaultConfig}
variable {ok : System.Guard NodeId PbftState Call NetworkMessage}
variable {w : World NodeId PbftState Call NetworkMessage}

/-! ### Commits and assignments -/

omit [Sha256] in
theorem mem_ledger_commits {o : NodeStep PbftState} {e : CommittedEntry} :
    (e.sequence, e.payload) ∈ (ledger n).commits o ↔ e ∈ emitted o :=
  mem_commitsOf

/-- PBFT is a view-based protocol. -/
theorem viewBased (ok : System.Guard NodeId PbftState Call NetworkMessage) :
    ViewBased (ledger n) (proposals n) (system n cfg) ok :=
  ⟨rfl, kept ok, led ok⟩

/-- What is in the queue of a node was committed by it. -/
theorem mem_committedBy_of_committed (hw : (system n cfg).Reach ok w) {i : NodeId}
    {e : CommittedEntry} (he : e ∈ (w.nodes i).committed) : e ∈ committedBy w.history i :=
  mem_committedBy_of_queue (fun _ => rfl) (fun _ _ _ hf => (effect_of_fires hf).queue) hw i e he

/-! ### A view with an honest primary -/

/-- **In a view with an honest primary, nodes commit exactly what it assigned**, whatever
    the other nodes are and do; and in no view does a node commit a sequence twice. -/
theorem honest_primary_commits (hw : (system n cfg).Reach System.anyStep w) :
    (∀ o ∈ w.history, cfg.isByzantine ((node n o.node).primaryForView o.before.view) = false →
      ∀ e ∈ emitted o,
        (∃ a ∈ w.history, a.node = (node n o.node).primaryForView o.before.view ∧
          assigns n a = some (o.before.view, e.sequence, e.payload)) ∧
        ∀ a ∈ w.history, ∀ p, assigns n a = some (o.before.view, e.sequence, p) →
          p = e.payload) ∧
    ∀ i v q, timesCommitted w.history i q (fun s => s.view = v) ≤ 1 := by
  refine ⟨fun o ho hhonest e he => ?_, (viewBased _).timesCommitted_view_le hw⟩
  exact (viewBased _).commit_assigned hw ho he (keepsValues_of_honest hw hhonest)

omit [Sha256] in
/-- Node `0` of four is honest and commits what it proposed; node `3` equivocates. -/
theorem honest_primary_commits_four : ∃ w,
    (@system Sha256.sample 4 (FaultConfig.withByzantine {} 3 [.equivocate])).Reach
      System.anyStep w ∧ committedBy w.history 0 = [⟨1, ⟨[0x70]⟩⟩] ∧
      (∀ o ∈ w.history, (FaultConfig.withByzantine {} 3 [.equivocate]).isByzantine
          ((node 4 o.node).primaryForView o.before.view) = false →
        ∀ e ∈ emitted o,
          (∃ a ∈ w.history, a.node = (node 4 o.node).primaryForView o.before.view ∧
            assigns 4 a = some (o.before.view, e.sequence, e.payload)) ∧
          ∀ a ∈ w.history, ∀ p, assigns 4 a = some (o.before.view, e.sequence, p) →
            p = e.payload) ∧
      ∀ i v q, timesCommitted w.history i q (fun s => s.view = v) ≤ 1 := by
  obtain ⟨w, hw, hcommitted⟩ := System.Reach.exists_of_run
    (S := @system Sha256.sample 4 (FaultConfig.withByzantine {} 3 [.equivocate]))
    (P := fun w => committedBy w.history 0 = [⟨1, ⟨[0x70]⟩⟩]) (commitRun ⟨[0x70]⟩)
    (by decide +kernel)
  exact ⟨w, hw, hcommitted, @honest_primary_commits Sha256.sample 4 _ w hw⟩

/-! ### Agreement in the first view -/

/-- Every node is in view `0`.  Views never go back, so it has been there all along. -/
def InFirstView (n : ℕ) (w : World NodeId PbftState Call NetworkMessage) : Prop :=
  ∀ i < n, (w.nodes i).view = 0

omit [Sha256] in
instance (w : World NodeId PbftState Call NetworkMessage) : Decidable (InFirstView n w) :=
  inferInstanceAs (Decidable (∀ i < n, _))

/-- In a world still in view `0`, every step was taken in view `0`. -/
theorem before_first_view (hw : (system n cfg).Reach ok w) (h0 : InFirstView n w)
    {o : NodeStep PbftState} (ho : o ∈ w.history) : o.before.view = 0 :=
  (viewBased ok).before_first_view hw (fun i hi => h0 i (Finset.mem_range.mp hi)) ho

omit [Sha256] in
theorem leader_zero : (proposals n).leader 0 = 0 :=
  Nat.zero_mod n

/-- **Agreement in view `0`** under a primary that does not equivocate, or whose `PrePrepare`
    messages are all dropped. -/
theorem agreement_of_not_forks (hw : (system n cfg).Reach ok w) (h0 : InFirstView n w)
    (hcond : .equivocate ∉ cfg.behaviors 0 ∨ cfg.dropsPhase 0 .pbftPrePrepare = true)
    (honest : NodeId → Prop) : Agreement w.history honest := by
  refine (viewBased ok).agreement_of_view hw (fun _ ho => before_first_view hw h0 ho) ?_ honest
  rw [leader_zero]
  exact keepsValues_of_not_forks hw hcond

/-! ### Agreement across views -/

/-- The step assigns no sequence that a node has committed. -/
def AssignsFresh (n : ℕ) (w : World NodeId PbftState Call NetworkMessage) (i : NodeId)
    (c : Cause Call NetworkMessage) : Prop :=
  ∀ p, c = .call (.propose p) → canPropose (node n i) (w.nodes i) →
    ∀ o ∈ w.history, ∀ e ∈ emitted o, e.sequence ≠ (w.nodes i).nextSequence

/-- The step completes no quorum for a pending payload whose sequence has been assigned
    again in a later view. -/
def CommitsCurrent (n : ℕ) (w : World NodeId PbftState Call NetworkMessage) (i : NodeId)
    (c : Cause Call NetworkMessage) : Prop :=
  ∀ m v q d r, c = .recv m → m.payload = .pbft (.commit v q d r) →
    completesQuorum (node n i) (w.nodes i) v q r →
    (w.nodes i).pendingPayloads.lookup q ≠ none →
    ∀ o ∈ w.history, ∀ v' p, assigns n o = some (v', q, p) → v' ≤ v

/-- No sequence is bound again after a commit. -/
def NoRebinding (n : ℕ) : System.Guard NodeId PbftState Call NetworkMessage :=
  fun w i c => AssignsFresh n w i c ∧ CommitsCurrent n w i c

omit [Sha256] in
/-- **A `Commit` that completes a quorum commits** the pending payload. -/
theorem committed_handleCommit {self : PbftNode} {s : PbftState} {v : ViewNumber}
    {q : SequenceNumber} {r : NodeId} (hcomplete : completesQuorum self s v q r) {p : Payload}
    (hp : s.pendingPayloads.lookup q = some p) :
    (self.handleCommit s v q r).1.committed = s.committed ++ [⟨q, p⟩] := by
  obtain ⟨rfl, slot, hs, hph, hq⟩ := hcomplete
  have hopen : slot.phase ≠ .committed := by
    rcases hph with h | h
    · rw [h]
      decide
    · rw [h]
      decide
  have hcard : self.quorum ≤ (insert r slot.commitVoters).card ∧ slot.phase ≠ .committed :=
    ⟨hq, hopen⟩
  unfold handleCommit
  rw [if_neg (not_not.mpr rfl), hs]
  simp only [hph, if_true]
  rw [if_pos hcard]
  simp only [hp]

/-- Completing a quorum for a pending payload commits it. -/
theorem commit_of_completes {o : NodeStep PbftState} (hf : (system n cfg).Fires w o)
    {m : NetworkMessage} {v : ViewNumber} {q : SequenceNumber} {d : Digest} {r : NodeId}
    {p : Payload} (hc : o.cause = .recv m) (hm : m.payload = .pbft (.commit v q d r))
    (hq : completesQuorum (node n o.node) o.before v q r)
    (hp : o.before.pendingPayloads.lookup q = some p) : (q, p) ∈ (ledger n).commits o := by
  have hcommitted : o.after.committed = o.before.committed ++ [⟨q, p⟩] := by
    rw [after_of_recv hf hc, handleMessage, hm]
    exact committed_handleCommit hq hp
  refine (mem_ledger_commits (e := ⟨q, p⟩)).mpr ?_
  rw [emitted_eq hcommitted]
  exact List.mem_singleton_self _

/-- A step commits a sequence if, and only if, it receives the `Commit` that completes the quorum
    of a pending payload. -/
theorem commits_iff {o : NodeStep PbftState} (hf : (system n cfg).Fires w o)
    {q : SequenceNumber} : (∃ e ∈ emitted o, e.sequence = q) ↔
      ∃ m v d r, o.cause = .recv m ∧ m.payload = .pbft (.commit v q d r) ∧
        completesQuorum (node n o.node) o.before v q r ∧
        o.before.pendingPayloads.lookup q ≠ none := by
  constructor
  · rintro ⟨e, he, rfl⟩
    obtain ⟨m, d, r, hc, hm, hquorum, hp⟩ := (effect_of_fires hf).commit_inv he
    exact ⟨m, _, d, r, hc, hm, hquorum, by rw [hp]; simp⟩
  · rintro ⟨m, v, d, r, hc, hm, hquorum, hp⟩
    obtain ⟨p, hp⟩ := Option.ne_none_iff_exists'.mp hp
    exact ⟨⟨q, p⟩, mem_ledger_commits.mp (commit_of_completes hf hc hm hquorum hp), rfl⟩

/-- **No rebinding, read off the steps**: nothing is assigned that was committed, and nothing is
    committed that was assigned in a later view. -/
theorem noRebinding_iff {o : NodeStep PbftState} (hf : (system n cfg).Fires w o) :
    NoRebinding n w o.node o.cause ↔ (ledger n).BindsOnce (assigns n) w.history o := by
  rw [bindsOnce_iff rfl fun _ _ _ => assigns_eq_some]
  unfold NoRebinding AssignsFresh CommitsCurrent
  rw [← hf.before_eq]
  apply and_congr Iff.rfl
  constructor
  · intro hcurrent q hq o' ho' v' p ha
    obtain ⟨m, v, d, r, hc, hm, hquorum, hp⟩ := (commits_iff hf).mp hq
    have hle := hcurrent m v q d r hc hm hquorum hp o' ho' v' p ha
    rwa [hquorum.1] at hle
  · intro hlate m v q d r hc hm hquorum hp o' ho' v' p ha
    rw [hquorum.1]
    exact hlate q ((commits_iff hf).mpr ⟨m, v, d, r, hc, hm, hquorum, hp⟩) o' ho' v' p ha

/-- **Agreement and integrity across views**, in the runs in which no sequence is bound
    again after a commit. -/
theorem agreement_across_views (hw : (system n {}).Reach (NoRebinding n) w) :
    Integrity w.history ∧ Agreement w.history fun _ => True := by
  have honce := hw.along fun w o _ hok hf => (noRebinding_iff hf).mp hok
  exact (viewBased _).correct_of_along hw (fun i => keepsValues_of_honest hw rfl) honce

/-- While all nodes stay in view `0`, nothing is bound again after a commit. -/
theorem noRebinding_of_first_view (hw : (system n {}).Reach ok w) (h0 : InFirstView n w) :
    (system n {}).Reach (NoRebinding n) w := by
  have honce := (viewBased _).along_of_view hw (fun _ ho => before_first_view hw h0 ho)
    (keepsValues_of_honest hw rfl)
  exact hw.of_along honce fun w₀ o _ hf => (noRebinding_iff hf).mpr

omit [Sha256] in
/-- Four nodes commit a payload under node `0`, time out, and commit another one under node `1`:
    nothing is bound again, though the view has changed. -/
theorem agreement_across_views_four : ∃ w,
    (@system Sha256.sample 4 {}).Reach (@NoRebinding 4) w ∧ (w.nodes 0).view = 1 ∧
      committedBy w.history 0 = [⟨1, ⟨[0x70]⟩⟩, ⟨2, ⟨[0x71]⟩⟩] ∧
      Integrity w.history ∧ Agreement w.history fun _ => True := by
  obtain ⟨w, hw, hview, hcommitted, honce⟩ :=
    System.Reach.exists_of_run (S := @system Sha256.sample 4 {})
      (P := fun w => (w.nodes 0).view = 1 ∧
        committedBy w.history 0 = [⟨1, ⟨[0x70]⟩⟩, ⟨2, ⟨[0x71]⟩⟩] ∧
        System.Along ((ledger 4).BindsOnce (assigns 4)) w.history)
      (.call 0 (.propose ⟨[0x70]⟩) :: List.replicate 27 (.deliver 0) ++
        List.replicate 41 (.call 3 .tick) ++ List.replicate 15 (.deliver 0) ++
        .call 1 (.propose ⟨[0x71]⟩) :: List.replicate 27 (.deliver 0)) (by decide +kernel)
  have hrun := hw.of_along honce fun w₀ o _ hf => (@noRebinding_iff Sha256.sample 4 _ w₀ o hf).mpr
  exact ⟨w, hrun, hview, hcommitted, @agreement_across_views Sha256.sample 4 w hrun⟩

omit [Sha256] in
/-- The quorum of the first view may commit without the next primary, which then numbers its
    own proposal from `1` again: node `0` of four commits sequence `1` twice. -/
theorem reused_sequence_breaks_agreement : ∃ w,
    (@system Sha256.sample 4 {}).Reach System.anyStep w ∧
      ¬ (Integrity w.history ∧ Agreement w.history fun _ => True) := by
  obtain ⟨w, hw, hcommitted⟩ := System.Reach.exists_of_run (S := @system Sha256.sample 4 {})
    (P := fun w => committedBy w.history 0 = [⟨1, ⟨[0x70]⟩⟩, ⟨1, ⟨[0x71]⟩⟩])
    (commitRun ⟨[0x70]⟩ ++ List.replicate 41 (.call 1 .tick) ++
      [12, 12, 13, 15, 16, 16, 16].map .deliver ++ .call 1 (.propose ⟨[0x71]⟩) ::
      [16, 16, 17, 22, 19, 21, 19, 17, 23, 25].map .deliver) (by decide +kernel)
  refine ⟨w, hw, fun ⟨_, hagree⟩ => ?_⟩
  have heq := hagree 0 0 trivial trivial ⟨1, ⟨[0x70]⟩⟩ (by rw [hcommitted]; decide)
    ⟨1, ⟨[0x71]⟩⟩ (by rw [hcommitted]; decide) rfl
  exact absurd heq (by decide)

end Pbft

end ConsensusBench
