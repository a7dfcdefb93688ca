import ConsensusBench.HotStuff.Crash
import ConsensusBench.HotStuff.Order
import ConsensusBench.Lib.Quorum
import ConsensusBench.Pbft.Crash
import ConsensusBench.Pbft.Order

namespace ConsensusBench

/-!
# PBFT and HotStuff side by side

What holds of both protocols, under the conditions they share.

* `commits_in_one_order` — nodes commit in one order in the runs in which every node commits a
  sequence after the one before; a quorum that completes early breaks it
  (`commits_out_of_order`).
* `quorums_meet_iff` — any two quorums share an honest node if and only if the cluster has `3f + 1`
  nodes; in others (`quorums_of_five`) `2f + 1` votes are too few.
* `no_dead_end` — view changes reach a live leader under `f` crashed nodes, unless the leaders of
  the first two views are among them (`dead_end`).
-/

open AsyncNet

/-! ### Total order -/

/-- **Total order** of both protocols in view `0`, in the runs in which no node commits ahead of
    the sequence before. -/
theorem commits_in_one_order [Sha256] (n : ℕ) :
    (∀ w, (Pbft.system n {}).Reach (Pbft.CommitsInOrder n) w → Pbft.InFirstView n w →
      TotalOrder w.history) ∧
    ∀ w, (HotStuff.system n {}).Reach (HotStuff.CommitsInOrder n) w → HotStuff.InFirstView n w →
      TotalOrder w.history :=
  ⟨fun _ hw h0 => Pbft.totalOrder_of_inOrder hw h0,
    fun _ hw h0 => HotStuff.totalOrder_of_inOrder hw h0⟩

/-- Two proposals to node `0`, each delivered to the end before the next. -/
def twoRounds (k : ℕ) : List (Event NodeId Call) :=
  .call 0 (.propose ⟨[0x70]⟩) :: List.replicate k (.deliver 0) ++
    .call 0 (.propose ⟨[0x71]⟩) :: List.replicate k (.deliver 0)

/-- Four nodes commit two sequences in order, under either protocol. -/
theorem commits_in_one_order_four :
    (∃ w, (@Pbft.system Sha256.sample 4 {}).Reach (Pbft.CommitsInOrder 4) w ∧
      sequencesBy w.history 3 = [1, 2] ∧ TotalOrder w.history) ∧
    ∃ w, (@HotStuff.system Sha256.sample 4 {}).Reach (HotStuff.CommitsInOrder 4) w ∧
      sequencesBy w.history 3 = [1, 2] ∧ TotalOrder w.history := by
  obtain ⟨w, hw, h0, hseq, hopens⟩ :=
    System.Reach.exists_of_run (S := @Pbft.system Sha256.sample 4 {})
      (P := fun w => Pbft.InFirstView 4 w ∧ sequencesBy w.history 3 = [1, 2] ∧
        ∀ o ∈ w.history, Pbft.OpensInOrder o.before) (twoRounds 27) (by decide +kernel)
  obtain ⟨w', hw', h0', hseq', hopens'⟩ :=
    System.Reach.exists_of_run (S := @HotStuff.system Sha256.sample 4 {})
      (P := fun w => HotStuff.InFirstView 4 w ∧ sequencesBy w.history 3 = [1, 2] ∧
        ∀ o ∈ w.history, HotStuff.OpensInOrder o.before) (twoRounds 21) (by decide +kernel)
  have hrun := @Pbft.inOrder_of_opens Sha256.sample 4 {} _ w hw hopens
  have hrun' := @HotStuff.inOrder_of_opens Sha256.sample 4 {} _ w' hw' hopens'
  exact ⟨⟨w, hrun, hseq, (@commits_in_one_order Sha256.sample 4).1 w hrun h0⟩,
    w', hrun', hseq', (@commits_in_one_order Sha256.sample 4).2 w' hrun' h0'⟩

/-- Node `0` of four commits sequences `1` and `2` in this order, node `1` the other way round:
    the last votes, or the last certificate, of sequence `1` reach it late. -/
theorem commits_out_of_order :
    (∃ w, (@Pbft.system Sha256.sample 4 {}).Reach System.anyStep w ∧ Pbft.InFirstView 4 w ∧
      ¬ TotalOrder w.history) ∧
    ∃ w, (@HotStuff.system Sha256.sample 4 {}).Reach System.anyStep w ∧
      HotStuff.InFirstView 4 w ∧ ¬ TotalOrder w.history := by
  have hnot : ∀ {σ : Type} [CommitQueue σ] {h : History σ}, sequencesBy h 0 = [1, 2] →
      sequencesBy h 1 = [2, 1] → ¬ TotalOrder h := by
    intro σ _ h hzero hone htotal
    have horder := htotal 0 1
    rw [hzero, hone] at horder
    exact absurd horder (by decide)
  obtain ⟨w, hw, h0, hzero, hone⟩ :=
    System.Reach.exists_of_run (S := @Pbft.system Sha256.sample 4 {})
      (P := fun w => Pbft.InFirstView 4 w ∧ sequencesBy w.history 0 = [1, 2] ∧
        sequencesBy w.history 1 = [2, 1])
      (.call 0 (.propose ⟨[0x70]⟩) :: .call 0 (.propose ⟨[0x71]⟩) ::
        (List.replicate 31 0 ++ 1 :: 1 :: 2 :: List.replicate 17 3 ++ [0, 0, 0]).map .deliver)
      (by decide +kernel)
  obtain ⟨w', hw', h0', hzero', hone'⟩ :=
    System.Reach.exists_of_run (S := @HotStuff.system Sha256.sample 4 {})
      (P := fun w => HotStuff.InFirstView 4 w ∧ sequencesBy w.history 0 = [1, 2] ∧
        sequencesBy w.history 1 = [2, 1])
      (.call 0 (.propose ⟨[0x70]⟩) :: .call 0 (.propose ⟨[0x71]⟩) ::
        (List.replicate 36 0 ++ List.replicate 5 1 ++ [0]).map .deliver) (by decide +kernel)
  exact ⟨⟨w, hw, h0, hnot hzero hone⟩, w', hw', h0', hnot hzero' hone'⟩

/-! ### Quorums -/

/-- What votes of `quorum` nodes of `n` are good for if `f` of the nodes are faulty: any two quorums
    have an honest node in common, and the honest nodes are one. -/
structure QuorumsMeet (n quorum f : ℕ) : Prop where
  common : Quorum.Overlap (Finset.range n) quorum f
  honest : ∀ Q ⊆ Finset.range n, ∀ Q' ⊆ Finset.range n, Q.card = quorum → Q'.card = quorum →
    ∀ B : Finset NodeId, B.card ≤ f → ∃ j ∈ Q, j ∈ Q' ∧ j ∉ B
  live : quorum ≤ n - f

/-- Quorums of `2f + 1` are large enough for `3f + 1` nodes only. -/
theorem quorumsMeet_iff_mod (n : ℕ) :
    QuorumsMeet n (2 * ((n - 1) / 3) + 1) ((n - 1) / 3) ↔ n % 3 = 1 := by
  constructor
  · intro h
    have hlive := h.live
    have hfit : 2 * ((n - 1) / 3) + 1 ≤ (Finset.range n).card := by
      rw [Finset.card_range]
      omega
    have hcommon := (Quorum.overlap_iff hfit).mp h.common
    rw [Finset.card_range] at hcommon
    omega
  · intro hn
    have hlive : 2 * ((n - 1) / 3) + 1 ≤ n - (n - 1) / 3 := by omega
    have hcommon : Quorum.Overlap (Finset.range n) (2 * ((n - 1) / 3) + 1) ((n - 1) / 3) := by
      refine (Quorum.overlap_iff ?_).mpr ?_
      · rw [Finset.card_range]
        omega
      · rw [Finset.card_range]
        omega
    exact ⟨hcommon, fun Q hQ Q' hQ' hcard hcard' B hB =>
      hcommon.exists_common hQ hQ' hcard hcard' hB, hlive⟩

/-- **Quorums meet in an honest node**, under either protocol, if and only if the cluster has
    `3f + 1` nodes. -/
theorem quorums_meet_iff (n : ℕ) (i : NodeId) :
    (QuorumsMeet n (Pbft.node n i).quorum (Pbft.node n i).faultTolerance ↔ n % 3 = 1) ∧
      (QuorumsMeet n (HotStuff.node n i).quorum (HotStuff.node n i).faultTolerance ↔ n % 3 = 1) :=
  ⟨quorumsMeet_iff_mod n, quorumsMeet_iff_mod n⟩

/-- Five nodes have a fault tolerance of `1` and quorums of `3`, two of which share node `2`
    only. -/
theorem quorums_of_five :
    ¬ QuorumsMeet 5 (Pbft.node 5 0).quorum (Pbft.node 5 0).faultTolerance ∧
      ¬ QuorumsMeet 5 (HotStuff.node 5 0).quorum (HotStuff.node 5 0).faultTolerance := by
  have hfaulty : ∀ {quorum f : ℕ}, quorum = 3 → f = 1 → ¬ QuorumsMeet 5 quorum f := by
    rintro quorum f rfl rfl h
    obtain ⟨j, hj, hj', hne⟩ := h.honest {0, 1, 2} (by decide) {2, 3, 4} (by decide) rfl rfl {2}
      (by decide)
    revert j
    decide
  exact ⟨hfaulty rfl rfl, hfaulty rfl rfl⟩

/-! ### Dead ends -/

/-- **No dead end**, under either protocol, if and only if the leaders of views `0` and `1` have
    not both crashed. -/
theorem no_dead_end [Sha256] (n : ℕ) (hn : 2 ≤ n) (I : Finset NodeId)
    (hI : I.card ≤ (n - 1) / 3) :
    (NoDeadEnd (Pbft.system n {}) (Pbft.Accepts n) I ↔ ¬ (0 ∈ I ∧ 1 ∈ I)) ∧
      (NoDeadEnd (HotStuff.system n {}) (HotStuff.Accepts n) I ↔ ¬ (0 ∈ I ∧ 1 ∈ I)) :=
  ⟨(Pbft.rotation hn hI).noDeadEnd_iff hn, (HotStuff.rotation hn hI).noDeadEnd_iff hn⟩

/-- Four nodes survive the crash of node `0`. -/
theorem no_dead_end_four :
    @NoDeadEnd _ (@Pbft.system Sha256.sample 4 {}) (@Pbft.Accepts Sha256.sample 4) {0} ∧
      @NoDeadEnd _ (@HotStuff.system Sha256.sample 4 {}) (@HotStuff.Accepts Sha256.sample 4) {0} :=
  ⟨(@no_dead_end Sha256.sample 4 (by decide) {0} (by decide)).1.mpr (by decide),
    (@no_dead_end Sha256.sample 4 (by decide) {0} (by decide)).2.mpr (by decide)⟩

/-- Seven nodes do not survive the crash of nodes `0` and `1`. -/
theorem dead_end : ¬ @NoDeadEnd _ (@Pbft.system Sha256.sample 7 {}) (@Pbft.Accepts Sha256.sample 7)
      {0, 1} ∧
    ¬ @NoDeadEnd _ (@HotStuff.system Sha256.sample 7 {}) (@HotStuff.Accepts Sha256.sample 7)
      {0, 1} := by
  have hI : ({0, 1} : Finset NodeId).card ≤ (7 - 1) / 3 := by decide
  refine ⟨fun h => ?_, fun h => ?_⟩
  · exact ((@Pbft.rotation Sha256.sample 7 (by decide) _ hI).noDeadEnd_iff (by decide)).mp h
      (by decide)
  · exact ((@HotStuff.rotation Sha256.sample 7 (by decide) _ hI).noDeadEnd_iff (by decide)).mp h
      (by decide)

end ConsensusBench
