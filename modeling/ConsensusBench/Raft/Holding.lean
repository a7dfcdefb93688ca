import ConsensusBench.Raft.Safety

namespace ConsensusBench

/-!
# What a Raft leader commits is held

A leader counts the indices that its followers report.  A follower reports the length of its
log, of which the leader knows only the part that it has sent; so the count says something about
the logs only in the runs in which every step is `Checked` (`commit_held`).  In others a leader
commits what it alone holds (`stale_tail_commits_unheld`).
-/

open AsyncNet RaftNode Quorum

namespace Raft

/-- Whether a step handles an `AppendEntriesResponse`. -/
def hearsResponse : Cause Call NetworkMessage → Bool
  | .recv ⟨_, _, .raft (.appendEntriesResponse _ _ _)⟩ => true
  | _ => false

theorem hearsResponse_iff {c : Cause Call NetworkMessage} : hearsResponse c = true ↔
    ∃ m t b mi, c = .recv m ∧ m.payload = .raft (.appendEntriesResponse t b mi) := by
  unfold hearsResponse
  split
  · rename_i i j t b mi
    exact iff_of_true rfl ⟨_, t, b, mi, rfl, rfl⟩
  · rename_i hno
    constructor
    · intro h
      exact absurd h (by decide)
    · rintro ⟨⟨i, j, pl⟩, t, b, mi, rfl, rfl⟩
      exact absurd rfl (hno i j t b mi)

/-- The nodes whose first `m` entries are those of `log`. -/
def holders (n : ℕ) (nodes : NodeId → RaftState) (log : List LogEntry) (m : ℕ) :
    Finset NodeId :=
  (Finset.range n).filter fun j => (nodes j).log.take m = log.take m

/-- **A majority holds what was just committed**: if the last step handled an
    `AppendEntriesResponse` and advanced the commit index of its node to `m`, then `n / 2 + 1`
    nodes have the first `m` entries of that node. -/
def CommitHeld (n : ℕ) (w : World NodeId RaftState Call NetworkMessage) : Prop :=
  ∀ o hist, w.history = o :: hist → hearsResponse o.cause = true →
    o.before.commitIndex < o.after.commitIndex →
    o.after.commitIndex ≤ o.after.log.length ∧
      n / 2 + 1 ≤ (holders n w.nodes o.after.log o.after.commitIndex).card

section Held

variable [Sha256] {n : ℕ} {rngs : NodeId → StdRng}
variable {ok : System.Guard NodeId RaftState Call NetworkMessage}
variable {w : World NodeId RaftState Call NetworkMessage}
variable {a : Replication.State NodeId LogEntry}

/-- **What a step commits on a response is held by a majority.** -/
theorem Refines.step_held (h : Refines n a w.nodes w.history) (hw : (system n {} rngs).Reach ok w)
    {o : NodeStep RaftState} (hcheck : Checked o.before o.cause)
    (hf : (system n {} rngs).Fires w o) (hresp : hearsResponse o.cause = true)
    (hgrow : o.before.commitIndex < o.after.commitIndex) :
    o.after.log = o.before.log ∧ o.after.commitIndex ≤ o.before.log.length ∧
      ∃ V, Majority (Finset.range n) V ∧
        ∀ j ∈ V, o.before.log.take o.after.commitIndex <+: (w.nodes j).log := by
  obtain ⟨i, c, s, s', out⟩ := o
  have heff := effect_of_fires hf
  have hs := hf.before_eq
  have hi : i < n := Finset.mem_range.mp hf.node_mem
  obtain ⟨m, t, b, mi, hc, hm⟩ := hearsResponse_iff.mp hresp
  dsimp only at heff hs hcheck hgrow hc ⊢
  subst hc
  have hd := h.describes i
  rw [← hs] at hd
  have hnot : ∀ {y : RaftMessage}, m.payload = .raft y → y = .appendEntriesResponse t b mi := by
    intro y hy
    rw [hm] at hy
    exact (ProtocolMessage.raft.inj hy).symm
  cases heff with
  | commit _ t' mi' k _ hm' ht hr hk hs' =>
    cases hnot hm'
    -- the success is of the current term, so the sender has confirmed what it reports
    obtain rfl := le_antisymm ht (hcheck.2.1.le hm' hr)
    obtain ⟨L, _, hack⟩ := h.confirmed hw hf rfl hm'
    have hpeers := (effect_of_fires (o := ⟨i, .recv m, s, s', []⟩) hf).indexesPeers
      (by rw [hs]; exact indexesPeers hw i) fun m' hc => recv_from_peer hw hf hc
    obtain ⟨_, hle, rfl⟩ := commitUpTo_eq_some.mp hs'
    obtain ⟨hstands, hchosen⟩ := (hd.record h.inv hr hack).chosen_next hr hpeers hi hk
    obtain ⟨V, hV, hheld⟩ := h.inv.held hstands hchosen
    refine ⟨rfl, hle, V, hV, fun j hj => ?_⟩
    rw [← (h.describes j).log]
    exact hheld j hj
  | deny _ t' x li lt hm' => exact absurd (hnot hm') (by simp)
  | grant _ t' x li lt hm' => exact absurd (hnot hm') (by simp)
  | accept _ t' l pi pt es lc log s' hm' => exact absurd (hnot hm') (by simp)
  | retry _ t' mi' hm' ht hr =>
    rw [backOff_commitIndex] at hgrow
    exact absurd hgrow (lt_irrefl _)
  | _ => exact absurd hgrow (lt_irrefl _)

/-- **A leader commits what a majority holds**, in the runs in which every step is checked. -/
theorem commit_held (hw : (system n {} rngs).Reach (System.locally Checked) w) :
    CommitHeld n w := by
  refine System.Reach.induct (N := fun nodes hist => CommitHeld n ⟨nodes, [], hist⟩) ?_ ?_ hw
  · intro o hist heq
    exact absurd heq (by simp)
  · intro w o hr _ hg hf o' hist heq hresp hgrow
    obtain ⟨rfl, rfl⟩ := List.cons.inj heq
    have hcheck : Checked o.before o.cause := by
      rw [hf.before_eq]
      exact hg
    obtain ⟨a, ha⟩ := refines (fun _ _ _ h => h) hr
    obtain ⟨hlog, hle, V, hV, hheld⟩ := ha.step_held hr hcheck hf hresp hgrow
    rw [hlog]
    refine ⟨hle, ?_⟩
    have hsub : V ⊆ holders n (Function.update w.nodes o.node o.after) o.before.log
        o.after.commitIndex := by
      intro j hj
      refine Finset.mem_filter.mpr ⟨hV.1 hj, ?_⟩
      by_cases hnode : j = o.node
      · rw [hnode, Function.update_self, hlog]
      · rw [Function.update_of_ne hnode]
        exact (take_of_kept hle (hheld j hj)).2
    have hmaj := hV.2
    rw [Finset.card_range] at hmaj
    have hcard := Finset.card_le_card hsub
    dsimp only
    omega

end Held

/-- Node `0` wins term `1` with the vote of node `1`, and commits a proposal as soon as node `1`
    has it. -/
theorem commit_held_three : ∃ w,
    (@system Sha256.sample 3 {} fun _ => ⟨fun _ => 0⟩).Reach (System.locally Checked) w ∧
    (w.nodes 0).commitIndex = 1 ∧ w.history.head?.any (fun o => hearsResponse o.cause) = true ∧
    CommitHeld 3 w := by
  obtain ⟨w, hw, hlocal, hcommit, hhead⟩ := System.Reach.exists_of_run
    (S := @system Sha256.sample 3 {} fun _ => ⟨fun _ => 0⟩)
    (P := fun w => (∀ o ∈ w.history, Checked o.before o.cause) ∧
      (w.nodes 0).commitIndex = 1 ∧
      w.history.head?.any (fun o => hearsResponse o.cause) = true)
    (List.replicate 16 (.call 0 .tick) ++ [0, 1].map .deliver ++
      [.call 0 (.propose ⟨[0x70]⟩)] ++ [3, 4].map .deliver) (by decide +kernel)
  have hrun := hw.locally hlocal
  exact ⟨w, hrun, hcommit, hhead, @commit_held Sha256.sample 3 _ w hrun⟩

/-- Node `0` leads term `1` and has a second entry that it alone holds.  Node `1` wins term `2`
    and asks for entries behind the first; node `0` reports two entries, and node `1` commits the
    second one of its own. -/
theorem stale_tail_commits_unheld : ∃ w,
    (@system Sha256.sample 3 {} fun _ => ⟨fun _ => 0⟩).Reach System.anyStep w ∧
    ¬ CommitHeld 3 w := by
  obtain ⟨w, hw, hhead⟩ := System.Reach.exists_of_run
    (S := @system Sha256.sample 3 {} fun _ => ⟨fun _ => 0⟩)
    (P := fun w => w.history.head?.any (fun o => hearsResponse o.cause ∧
      o.before.commitIndex < o.after.commitIndex ∧
      (holders 3 w.nodes o.after.log o.after.commitIndex).card = 1) = true)
    (List.replicate 16 (.call 0 .tick) ++ [0, 1].map .deliver ++
      .call 0 (.propose ⟨[0x70]⟩) :: [3, 3].map .deliver ++ .call 0 (.propose ⟨[0x71]⟩) ::
      List.replicate 16 (.call 1 .tick) ++ [8, 8, 8].map .deliver ++
      [.call 1 (.propose ⟨[0x72]⟩), .deliver 9]) (by decide +kernel)
  refine ⟨w, hw, fun h => ?_⟩
  rw [Option.any_eq_true] at hhead
  obtain ⟨o, ho, hstep⟩ := hhead
  rw [decide_eq_true_eq] at hstep
  obtain ⟨hresp, hgrow, hcard⟩ := hstep
  obtain ⟨hist, heq⟩ := List.head?_eq_some_iff.mp ho
  have hheld := (h o hist heq hresp hgrow).2
  rw [hcard] at hheld
  exact absurd hheld (by decide)

end Raft

end ConsensusBench
