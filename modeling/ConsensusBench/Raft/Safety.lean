import ConsensusBench.Raft.Refinement

namespace ConsensusBench

/-!
# Raft safety

What the refinement gives, in the runs in which every step is `Checked`.

* `committed_payloads_agree` — the nodes commit no two payloads for one sequence.
* `committed_prefix_kept` — no node loses what it has committed, and no handler panics.

Both fail in runs with two leaders of one term (`stale_vote_commits_two_payloads`,
`stale_vote_truncates_committed`).
-/

open AsyncNet RaftNode Quorum
open Replication (Inv Certified Traced Runs Moves)

namespace Raft

/-! ### What a step commits -/

/-- **A step commits entries of its log**, up to the new commit index. -/
theorem Effect.emitted_inv {self : RaftNode} {i : NodeId} {s s' : RaftState}
    {c : Cause Call NetworkMessage} {out : List NetworkMessage} (h : Effect self s c s' out)
    {e : CommittedEntry} (he : e ∈ emitted ⟨i, c, s, s', out⟩) :
    ∃ x ∈ s'.log.take s'.commitIndex, e = ⟨x.index, x.payload⟩ := by
  -- followers and leaders queue what they commit in the same way
  have hcommit : ∀ {s₁ : RaftState} {k : ℕ}, commitUpTo s₁ k = some s' →
      s₁.committed = s.committed → ∃ x ∈ s'.log.take s'.commitIndex, e = ⟨x.index, x.payload⟩ := by
    intro s₁ k hs hq
    obtain ⟨_, _, rfl⟩ := commitUpTo_eq_some.mp hs
    rw [emitted_eq (o := ⟨i, c, s, _, out⟩) (congrArg (· ++ _) hq)] at he
    obtain ⟨x, hx, rfl⟩ := List.mem_map.mp he
    exact ⟨x, List.mem_of_mem_drop hx, rfl⟩
  have hnone : s'.committed = s.committed → ∃ x ∈ s'.log.take s'.commitIndex,
      e = ⟨x.index, x.payload⟩ := by
    intro hq
    rw [emitted_eq_nil (o := ⟨i, c, s, s', out⟩) hq] at he
    exact absurd he (by simp)
  cases h with
  | poll => exact absurd he (by simp [emitted, CommitQueue.committed])
  | deny m t => exact hnone (observe_committed s t)
  | grant m t => exact hnone (observe_committed s t)
  | accept m t l pi pt es lc log s' hm ht hprev hlog hs =>
    split at hs
    · exact hcommit hs rfl
    · cases hs
      exact hnone rfl
  | commit m t mi k s' hm ht hr hk hs => exact hcommit hs rfl
  | retry => exact hnone (backOff_committed s _)
  | _ => exact hnone rfl

section Results

variable [Sha256] {n : ℕ} {rngs : NodeId → StdRng}
variable {ok : System.Guard NodeId RaftState Call NetworkMessage}
variable {w : World NodeId RaftState Call NetworkMessage}
variable {a : Replication.State NodeId LogEntry}

omit [Sha256] in
/-- What is certified is indexed. -/
theorem Refines.indexed_certified {nodes : NodeId → RaftState} {hist : History RaftState}
    (h : Refines n a nodes hist) {t : ℕ} {P : List LogEntry}
    (hP : Certified (Finset.range n) LogEntry.term a t P) : Indexed P := by
  rcases hP with rfl | ⟨t', _, P', ⟨c, L, hl, hL, _⟩, _, hP'⟩
  · intro k e he
    exact absurd he (by simp)
  · exact (h.indexed t' c L hl).part (hP'.trans hL)

/-- **A step keeps what its node has committed**, and commits no less. -/
theorem Refines.step_kept (h : Refines n a w.nodes w.history)
    (hok : ∀ w i c, ok w i c → Checked (w.nodes i) c) (hw : (system n {} rngs).Reach ok w)
    {o : NodeStep RaftState} (hg : ok w o.node o.cause) (hf : (system n {} rngs).Fires w o) :
    o.before.commitIndex ≤ o.after.commitIndex ∧
      o.before.log.take o.before.commitIndex <+: o.after.log := by
  obtain ⟨i, c, s, s', out⟩ := o
  have heff := effect_of_fires hf
  have hs := hf.before_eq
  dsimp only at heff hs hg ⊢
  have hd := h.describes i
  rw [← hs] at hd
  have hsame : s'.commitIndex = s.commitIndex → s'.log = s.log →
      s.commitIndex ≤ s'.commitIndex ∧ s.log.take s.commitIndex <+: s'.log := by
    intro hcommit hlog
    rw [hcommit, hlog]
    exact ⟨le_refl _, List.take_prefix _ _⟩
  cases heff with
  | append p hr => exact ⟨le_refl _, (List.take_prefix _ _).trans (List.prefix_append _ _)⟩
  | deny m t => exact hsame (observe_commitIndex s t) (observe_log s t)
  | grant m t => exact hsame (observe_commitIndex s t) (observe_log s t)
  | conflict m t l pi pt es lc e hm ht hpi he hne =>
    obtain ⟨M, L, hsent⟩ := h.received hw hf rfl hm
    obtain ⟨y, hy, hney⟩ := hsent.conflict_log hpi hne
    exact ⟨le_refl _, hd.kept_conflict h.inv ht hsent.lead he hy hney⟩
  | accept m t l pi pt es lc log s' hm ht hprev hlog hs' =>
    obtain ⟨L, hlead, hpart, hor, _⟩ := h.accepted hok hw hg hf hm ht hprev hlog
    -- committed entries are chosen, so they are in the leader's log
    have hkept := hd.kept_accept h.inv ht hlead hpart hor
    split at hs'
    · obtain ⟨hle, _, rfl⟩ := commitUpTo_eq_some.mp hs'
      exact ⟨hle, hkept⟩
    · cases hs'
      exact ⟨le_refl _, hkept⟩
  | commit m t mi k s' hm ht hr hk hs' =>
    obtain ⟨hle, _, rfl⟩ := commitUpTo_eq_some.mp hs'
    exact ⟨hle, List.take_prefix _ _⟩
  | retry => exact hsame (backOff_commitIndex s _) (backOff_log s _)
  | _ => exact hsame rfl rfl

/-! ### State machine safety -/

/-- **State machine safety**, in the runs in which every step is checked: the nodes commit no
    two payloads for one sequence. -/
theorem committed_payloads_agree
    (hw : (system n {} rngs).Reach (System.locally Checked) w) :
    Agreement w.history fun _ => True := by
  obtain ⟨a, ha⟩ := refines (fun _ _ _ h => h) hw
  -- a committed entry stands in a certified list, at the position its sequence says
  have hplace : ∀ {i e}, e ∈ committedBy w.history i →
      ∃ (t : ℕ) (P : List LogEntry) (k : ℕ) (x : LogEntry),
      Certified (Finset.range n) LogEntry.term a t P ∧ P[k]? = some x ∧ e.sequence = k + 1 ∧
        e.payload = x.payload := by
    intro i e he
    obtain ⟨o, ho, _, heo⟩ := mem_committedBy.mp he
    obtain ⟨w₀, _, _, hf, _⟩ := hw.fired o ho
    obtain ⟨x, hx, rfl⟩ := (effect_of_fires hf).emitted_inv (i := o.node) heo
    obtain ⟨k, hk⟩ := List.mem_iff_getElem?.mp hx
    have hcert := (ha.booked o ho).certified
    exact ⟨_, _, k, x, hcert, hk, ha.indexed_certified hcert k x hk, rfl⟩
  have hsame : ∀ {P P' : List LogEntry} {k : ℕ} {x x' : LogEntry}, P <+: P' → P[k]? = some x →
      P'[k]? = some x' → x = x' := by
    rintro P P' k x x' ⟨u, rfl⟩ hx hx'
    obtain ⟨hk, _⟩ := List.getElem?_eq_some_iff.mp hx
    rw [List.getElem?_append_left hk, hx] at hx'
    exact Option.some.inj hx'
  intro i j _ _ e he e' he' hseq
  obtain ⟨t, P, k, x, hP, hx, hk, hpay⟩ := hplace he
  obtain ⟨t', P', k', x', hP', hx', hk', hpay'⟩ := hplace he'
  obtain rfl : k = k' := Nat.succ.inj (hk.symm.trans (hseq.trans hk'))
  rw [hpay, hpay']
  rcases ha.inv.chosen_comparable hP hP' with hpre | hpre
  · rw [hsame hpre hx hx']
  · rw [hsame hpre hx' hx]

/-! ### The committed prefix -/

/-- **The committed prefix is permanent**: at every node the commit index stays within the
    log and never goes back, what was committed after a step is still in the log, and no
    message in flight, if its delivery is `checked`, makes its addressee panic. -/
structure CommitsPermanent (n : ℕ) (checked : RaftState → Cause Call NetworkMessage → Prop)
    (w : World NodeId RaftState Call NetworkMessage) : Prop where
  commit_le : ∀ i, (w.nodes i).commitIndex ≤ (w.nodes i).log.length
  commit_mono : ∀ o ∈ w.history, o.before.commitIndex ≤ o.after.commitIndex
  kept : ∀ o ∈ w.history, o.after.commitIndex ≤ (w.nodes o.node).commitIndex ∧
    o.after.log.take o.after.commitIndex <+: (w.nodes o.node).log
  no_panic : ∀ m ∈ w.inFlight, checked (w.nodes m.target) (.recv m) →
    (node n m.target).handleMessage (w.nodes m.target) m ≠ none

/-- What was committed after a step is still in the log of its node. -/
theorem kept_since (hok : ∀ w i c, ok w i c → Checked (w.nodes i) c)
    (hw : (system n {} rngs).Reach ok w) : ∀ o ∈ w.history,
      o.after.commitIndex ≤ (w.nodes o.node).commitIndex ∧
        o.after.log.take o.after.commitIndex <+: (w.nodes o.node).log := by
  refine hw.since (R := fun o s => o.after.commitIndex ≤ s.commitIndex ∧
    o.after.log.take o.after.commitIndex <+: s.log) ?_ ?_
  · intro w o _ _
    exact ⟨le_refl _, List.take_prefix _ _⟩
  · rintro w o o' hr _ ⟨hle, hpre⟩ hg hf _
    obtain ⟨a, ha⟩ := refines hok hr
    obtain ⟨hmono, hkept⟩ := ha.step_kept hok hr hg hf
    refine ⟨le_trans hle hmono, ?_⟩
    -- the older prefix is a part of what is committed before this step
    have hwithin : o.after.log.take o.after.commitIndex <+:
        o'.before.log.take o'.before.commitIndex := by
      rw [List.prefix_take_iff]
      refine ⟨hpre, ?_⟩
      rw [List.length_take]
      exact le_trans (min_le_left _ _) hle
    exact hwithin.trans hkept

/-- **The committed prefix is permanent** in the runs in which every step is checked. -/
theorem committed_prefix_kept (hw : (system n {} rngs).Reach (System.locally Checked) w) :
    CommitsPermanent n Checked w := by
  obtain ⟨a, ha⟩ := refines (fun _ _ _ h => h) hw
  refine ⟨fun i => (ha.describes i).commit_le, fun o ho => ?_, kept_since (fun _ _ _ h => h) hw, ?_⟩
  · obtain ⟨w₀, hr₀, hg₀, hf₀, _⟩ := hw.fired o ho
    obtain ⟨a₀, ha₀⟩ := refines (fun _ _ _ h => h) hr₀
    exact (ha₀.step_kept (fun _ _ _ h => h) hr₀ hg₀ hf₀).1
  · intro m hm hcheck
    obtain ⟨o, ho, hmo⟩ := System.Reach.sent_of_mem hw m hm
    have hd := ha.describes m.target
    refine handleMessage_ne_none fun t l pi pt es lc hpl ht hprev => ?_
    obtain ⟨M, L, hsent⟩ := ha.sentBy hw ho hmo hpl
    obtain ⟨log, hfold, hpart, hor, _⟩ := ha.accept_log hsent hprev
      (hcheck.2.2.tail hpl ht hprev)
    exact ⟨log, hfold, (take_of_kept hd.commit_le
      (hd.kept_accept ha.inv ht hsent.lead hpart hor)).1⟩

/-! ### Runs of three nodes -/

/-- Node `0` wins term `1` with the vote of node `1`, replicates a proposal on node `1` and
    commits it; its heartbeat lets node `1` commit, too. -/
def replicatedRun : List (Event NodeId Call) :=
  List.replicate 16 (.call 0 .tick) ++ [0, 1].map .deliver ++ [.call 0 (.propose ⟨[0x70]⟩)] ++
    [3, 4].map .deliver ++ [.call 0 .tick, .deliver 4]

/-- Nodes `0` and `1` both lead term `2`: node `0` counts the vote of node `2` of term `1`,
    and node `1` the one of term `2`. -/
def twoLeadersRun : List (Event NodeId Call) :=
  List.replicate 16 (.call 0 .tick) ++ .deliver 1 :: List.replicate 16 (.call 0 .tick) ++
    List.replicate 32 (.call 1 .tick) ++ [7, 7, 1].map .deliver

omit [Sha256] in
/-- Two of three nodes commit a proposal of node `0`. -/
theorem committed_payloads_agree_three : ∃ w,
    (@system Sha256.sample 3 {} fun _ => ⟨fun _ => 0⟩).Reach (System.locally Checked) w ∧
    committedBy w.history 0 = [⟨1, ⟨[0x70]⟩⟩] ∧ committedBy w.history 1 = [⟨1, ⟨[0x70]⟩⟩] ∧
    Agreement w.history fun _ => True := by
  obtain ⟨w, hw, hlocal, h0, h1⟩ := System.Reach.exists_of_run
    (S := @system Sha256.sample 3 {} fun _ => ⟨fun _ => 0⟩)
    (P := fun w => (∀ o ∈ w.history, Checked o.before o.cause) ∧
      committedBy w.history 0 = [⟨1, ⟨[0x70]⟩⟩] ∧ committedBy w.history 1 = [⟨1, ⟨[0x70]⟩⟩])
    replicatedRun (by decide +kernel)
  have hrun := hw.locally hlocal
  exact ⟨w, hrun, h0, h1, @committed_payloads_agree Sha256.sample 3 _ w hrun⟩

omit [Sha256] in
/-- Node `1` of three has committed an entry, for good. -/
theorem committed_prefix_kept_three : ∃ w,
    (@system Sha256.sample 3 {} fun _ => ⟨fun _ => 0⟩).Reach (System.locally Checked) w ∧
    (w.nodes 1).commitIndex = 1 ∧ CommitsPermanent 3 Checked w := by
  obtain ⟨w, hw, hlocal, h1⟩ := System.Reach.exists_of_run
    (S := @system Sha256.sample 3 {} fun _ => ⟨fun _ => 0⟩)
    (P := fun w => (∀ o ∈ w.history, Checked o.before o.cause) ∧ (w.nodes 1).commitIndex = 1)
    replicatedRun (by decide +kernel)
  have hrun := hw.locally hlocal
  exact ⟨w, hrun, h1, @committed_prefix_kept Sha256.sample 3 _ w hrun⟩

omit [Sha256] in
/-- Both leaders of term `2` commit a payload of their own as sequence `1`, counting the
    success of node `2`. -/
theorem stale_vote_commits_two_payloads : ∃ w,
    (@system Sha256.sample 3 {} fun _ => ⟨fun _ => 0⟩).Reach System.anyStep w ∧
    ¬ Agreement w.history fun _ => True := by
  obtain ⟨w, hw, h0, h1⟩ := System.Reach.exists_of_run
    (S := @system Sha256.sample 3 {} fun _ => ⟨fun _ => 0⟩)
    (P := fun w => (⟨1, ⟨[0x70]⟩⟩ : CommittedEntry) ∈ committedBy w.history 0 ∧
      (⟨1, ⟨[0x71]⟩⟩ : CommittedEntry) ∈ committedBy w.history 1)
    (twoLeadersRun ++ [.call 0 (.propose ⟨[0x70]⟩), .call 1 (.propose ⟨[0x71]⟩)] ++
      [11, 13, 12, 12].map .deliver) (by decide +kernel)
  refine ⟨w, hw, fun hagree => ?_⟩
  exact absurd (hagree 0 1 trivial trivial _ h0 _ h1 rfl) (by decide)

omit [Sha256] in
/-- Node `2` commits sequence `1` of node `0`; then node `1`, whose log is empty, names entry
    `1` with term `0`, and node `2` cuts the entry off. -/
theorem stale_vote_truncates_committed : ∃ w,
    (@system Sha256.sample 3 {} fun _ => ⟨fun _ => 0⟩).Reach System.anyStep w ∧
    ¬ CommitsPermanent 3 (fun _ _ => True) w := by
  obtain ⟨w, hw, hlt⟩ := System.Reach.exists_of_run
    (S := @system Sha256.sample 3 {} fun _ => ⟨fun _ => 0⟩)
    (P := fun w => (w.nodes 2).log.length < (w.nodes 2).commitIndex)
    (twoLeadersRun ++ .call 0 (.propose ⟨[0x70]⟩) :: [11, 11].map .deliver ++
      .call 0 .tick :: .deliver 12 :: [7, 12].map .deliver ++ [.call 1 .tick, .deliver 13])
    (by decide +kernel)
  exact ⟨w, hw, fun h => absurd (h.commit_le 2) (not_le.mpr hlt)⟩

end Results

end Raft

end ConsensusBench
