import ConsensusBench.HotStuff.Idle
import ConsensusBench.Leaders
import ConsensusBench.Pbft.Idle
import ConsensusBench.Quiescence
import ConsensusBench.Record

namespace ConsensusBench

/-!
# Clusters that are left alone

What the views of a cluster are after a number of rounds in which nobody proposes, if some nodes
have crashed.

* `idle_rotation` — PBFT goes to the next view every `VIEW_CHANGE_TIMEOUT + 1` rounds, and stays
  where the next primary has crashed.
* `idle_takeover` — in HotStuff only node `1` ever moves, to view `1`.
-/

open AsyncNet Cluster

section Calm

variable [Sha256] {σ : Type} [CommitQueue σ] {code : NodeId → PolledNode σ} {n : ℕ}
variable {S : System NodeId σ Call NetworkMessage} {cfg : FaultConfig}

/-- Calls that let no time pass lead to a run without ticks. -/
theorem RunsAs.calm {c₀ c : Cluster σ} (h : RunsAs code S n cfg c₀) {calls : List HarnessCall}
    (hcalls : ∀ call ∈ calls, call.Within (fun _ => True) (·.toFaultConfig = cfg))
    (htime : Timeless calls) (hrun : c₀.drive code calls = some c) :
    ∃ w, S.Reach System.anyStep w ∧ Cluster.Shows n cfg c c.pending w ∧
      ∀ o ∈ w.history, o.cause ≠ .call .tick := by
  obtain ⟨w, ht⟩ := h calls c hcalls hrun
  refine ⟨w, ht.reach, ht.shows, fun o ho hc => ?_⟩
  obtain ⟨call, hmem, hmakes⟩ := ht.called o ho _ hc
  exact htime call hmem hmakes

omit [Sha256] [CommitQueue σ] in
theorem Cluster.Shows.honest {c : Cluster σ} {flight : List NetworkMessage}
    {w : World NodeId σ Call NetworkMessage} (h : Cluster.Shows n cfg c flight w)
    (hhonest : ∀ i, cfg.isByzantine i = false) (i : NodeId) : c.faults.isByzantine i = false := by
  show c.faults.toFaultConfig.isByzantine i = false
  rw [h.faults]
  exact hhonest i

end Calm

section Protocols

/-- A node refers to the primary of its view. -/
theorem Pbft.refers_primary {n : ℕ} (hn : 0 < n) {c : Cluster PbftState} (hsize : c.size = n)
    {i : NodeId} (h : (c.nodes i).view % n = i → (c.nodes i).viewChangeInProgress = false) :
    c.refers (Pbft.leads n) (Pbft.hint n) i = some ((c.nodes i).view % n) := by
  by_cases hi : (c.nodes i).view % n = i
  · have hleads : Pbft.leads n i (c.nodes i) = true := decide_eq_true ⟨hi, h hi⟩
    rw [refers_of_leads hleads, hi]
  · have hleads : Pbft.leads n i (c.nodes i) = false := decide_eq_false fun hcan => hi hcan.1
    have hlt : (c.nodes i).view % n < c.size := by
      rw [hsize]
      exact Nat.mod_lt _ hn
    have hhint : Pbft.hint n i (c.nodes i) = some ((c.nodes i).view % n) := if_pos hi
    rw [refers_of_not_leads hleads, hhint, Option.filter_some, decide_eq_true hlt, if_pos rfl]

variable [Sha256]

/-- **A PBFT cluster that is left alone** after a while without ticks goes to the next view every
    `VIEW_CHANGE_TIMEOUT + 1` rounds, whether its primary works or not, until the next primary is
    one that has crashed.  A live primary accepts what is proposed then. -/
theorem idle_rotation (n : ℕ) (hn : 2 ≤ n) (rng : ℕ → ℚ) (faults : NetworkFaults)
    (hhonest : ∀ i, faults.isByzantine i = false) (calls : List HarnessCall)
    (hcalls : ∀ call ∈ calls, call.Within (fun _ => True) (·.toFaultConfig = faults.toFaultConfig))
    (htime : Timeless calls) (c : Cluster PbftState)
    (hrun : ((Pbft.newCluster n rng).setFaults faults).drive (Pbft.polled n) calls = some c)
    (hdrained : c.pending = []) (hlossless : c.faults.Lossless)
    (hcard : c.faults.isolatedNodes.card ≤ (n - 1) / 3) (k : ℕ) (hk : n + 2 ≤ k) (T : ℕ) :
    ∃ c', c.drive (Pbft.polled n) (timed k T) = some c' ∧ c'.pending = [] ∧
      (∀ i < n, i ∉ c.faults.isolatedNodes →
        (c'.nodes i).view = Pbft.viewAt n c.faults.isolatedNodes T) ∧
      (Pbft.viewAt n c.faults.isolatedNodes T % n ∉ c.faults.isolatedNodes → ∀ p,
        (c'.propose (Pbft.code n) p).1 = .accepted ∧
        ∀ i, i ≠ Pbft.viewAt n c.faults.isolatedNodes T % n →
          (c'.propose (Pbft.code n) p).2.nodes i = c'.nodes i) := by
  obtain ⟨w, hw, hshows, hcalm⟩ := (runsAs_new Pbft.parties Pbft.polls rng rfl fun _ => rfl).calm
    hcalls htime hrun
  have hstart : Pbft.At n c.faults.isolatedNodes 0 c.nodes := by
    refine .inl ⟨rfl, fun i _ _ => ?_⟩
    rw [← hshows.nodes]
    exact Pbft.idle_of_called hw hcalm i
  obtain ⟨c', hdrive, halike, hpending, hat⟩ :=
    (Pbft.turning hn hcard (hshows.honest hhonest)).rounds (Pbft.polled n) hlossless
      (fun c hsize => (Pbft.drains n c k hsize hk).imp fun _ => Exists.imp fun _ h =>
        ⟨h.1, h.2.2⟩) T hshows.size rfl hdrained hstart
  rw [Nat.zero_add] at hat
  refine ⟨c', hdrive, hpending, fun i hi hiI => hat.view hi hiI, fun hp p => ?_⟩
  have hsize : c'.size = n := halike.size.trans hshows.size
  have hlt : Pbft.viewAt n c.faults.isolatedNodes T % n < n := Nat.mod_lt _ (by omega)
  have hlive : ∀ i, c'.Live i → i < n ∧ i ∉ c.faults.isolatedNodes := by
    rintro i ⟨hi, hno⟩
    rw [halike.faults] at hno
    exact ⟨hsize ▸ hi, of_decide_eq_false hno⟩
  have hmem : c'.Live (Pbft.viewAt n c.faults.isolatedNodes T % n) := by
    refine ⟨hsize ▸ hlt, ?_⟩
    rw [halike.faults]
    exact decide_eq_false hp
  have hleads : Pbft.leads n _ (c'.nodes (Pbft.viewAt n c.faults.isolatedNodes T % n)) = true :=
    decide_eq_true ⟨congrArg (· % n) (hat.view hlt hp), hat.primary hlt hp rfl⟩
  refine propose_of_asked (Pbft.answers n) hleads (asked_of_refers hmem hleads fun i hi => ?_) p
  obtain ⟨hi, hiI⟩ := hlive i hi
  have hview := hat.view hi hiI
  rw [Pbft.refers_primary (by omega) hsize, hview]
  rw [hview]
  exact hat.primary hi hiI

/-- Node `l` crashes once a proposal is done. -/
def crashAfter (l : NodeId) : List HarnessCall :=
  [.call (.propose ⟨[0x70]⟩), .call (.runToCompletion 100),
    .call (.setFaults { isolatedNodes := {l}, rng := fun _ => 0 })]

omit [Sha256] in
theorem crashAfter_within (l : NodeId) : (∀ call ∈ crashAfter l, call.Within (fun _ => True)
    (·.toFaultConfig = ({ rng := fun _ => 0 } : NetworkFaults).toFaultConfig)) ∧
    Timeless (crashAfter l) := by
  refine ⟨by simp [crashAfter, HarnessCall.Within], ?_⟩
  simp [Timeless, crashAfter, HarnessCall.Makes]

omit [Sha256] in
/-- Four nodes of which node `2` crashes are in view `1` after `100` rounds, and node `1` is in
    office. -/
theorem idle_rotation_four : ∃ c c',
    @drive _ (@Pbft.polled Sha256.sample 4) Sha256.sample
      ((Pbft.newCluster 4 fun _ => 0).setFaults { rng := fun _ => 0 }) (crashAfter 2) = some c ∧
    @drive _ (@Pbft.polled Sha256.sample 4) Sha256.sample c (timed 100 100) = some c' ∧
    (c'.nodes 3).view = 1 ∧ (c'.propose (@Pbft.code Sha256.sample 4) ⟨[0x71]⟩).1 = .accepted := by
  have hrun : (@drive _ (@Pbft.polled Sha256.sample 4) Sha256.sample
      ((Pbft.newCluster 4 fun _ => 0).setFaults { rng := fun _ => 0 }) (crashAfter 2)).map
        (fun c => (c.pending, c.faults.isolatedNodes, c.faults.dropRate, c.faults.partitions)) =
          some ([], {2}, 0, ∅) := by decide +kernel
  obtain ⟨c, hc, heq⟩ := Option.map_eq_some_iff.mp hrun
  simp only [Prod.mk.injEq] at heq
  obtain ⟨hpending, hisolated, hrate, hpartitions⟩ := heq
  obtain ⟨hcalls, htime⟩ := crashAfter_within 2
  obtain ⟨c', hdrive, _, hview, haccept⟩ := @idle_rotation Sha256.sample 4 (by decide) (fun _ => 0)
    { rng := fun _ => 0 } (fun _ => rfl) (crashAfter 2) hcalls htime c hc hpending
    ⟨hrate, hpartitions⟩ (by rw [hisolated]; decide) 100 (by decide) 100
  rw [hisolated] at hview haccept
  exact ⟨c, c', hc, hdrive, hview 3 (by decide) (by decide), (haccept (by decide) _).1⟩

omit [Sha256] in
/-- A node refers to the leader of its view. -/
theorem HotStuff.refers_leader {n : ℕ} (hn : 0 < n) {c : Cluster HotStuffState}
    (hsize : c.size = n) (i : NodeId) :
    c.refers (HotStuff.leads n) (HotStuff.hint n) i = some ((c.nodes i).view % n) := by
  by_cases hi : (c.nodes i).view % n = i
  · have hleads : HotStuff.leads n i (c.nodes i) = true := decide_eq_true hi
    rw [refers_of_leads hleads, hi]
  · have hleads : HotStuff.leads n i (c.nodes i) = false := decide_eq_false hi
    have hlt : (c.nodes i).view % n < c.size := by
      rw [hsize]
      exact Nat.mod_lt _ hn
    have hhint : HotStuff.hint n i (c.nodes i) = some ((c.nodes i).view % n) := rfl
    rw [refers_of_not_leads hleads, hhint, Option.filter_some, decide_eq_true hlt, if_pos rfl]

/-- **A HotStuff cluster that is left alone** after a while without ticks stays in view `0`, but
    for node `1`: it enters view `1` when the first timeouts have passed and all live nodes but `0`
    are a quorum, and stays there.  It takes over from node `0` if that has crashed. -/
theorem idle_takeover (n : ℕ) (hn : 2 ≤ n) (rng : ℕ → ℚ) (faults : NetworkFaults)
    (hhonest : ∀ i, faults.isByzantine i = false) (calls : List HarnessCall)
    (hcalls : ∀ call ∈ calls, call.Within (fun _ => True) (·.toFaultConfig = faults.toFaultConfig))
    (htime : Timeless calls) (c : Cluster HotStuffState)
    (hrun : ((HotStuff.newCluster n rng).setFaults faults).drive (HotStuff.polled n) calls = some c)
    (hdrained : c.pending = []) (hlossless : c.faults.Lossless) (k : ℕ) (hk : 7 ≤ k) (T : ℕ) :
    ∃ c', c.drive (HotStuff.polled n) (timed k T) = some c' ∧ c'.pending = [] ∧
      (∀ i < n, i ∉ c.faults.isolatedNodes → (c'.nodes i).view =
        HotStuff.viewAt n c.faults.isolatedNodes T i) ∧
      (∀ l, HotStuff.leaderAt n c.faults.isolatedNodes T = some l → ∀ p,
        (c'.propose (HotStuff.code n) p).1 = .accepted ∧
        ∀ i, i ≠ l → (c'.propose (HotStuff.code n) p).2.nodes i = c'.nodes i) ∧
      (HotStuff.leaderAt n c.faults.isolatedNodes T = none → ∀ i, c'.Live i →
        HotStuff.leads n i (c'.nodes i) = false) := by
  obtain ⟨w, hw, hshows, hcalm⟩ :=
    (runsAs_new HotStuff.parties HotStuff.polls rng rfl fun _ => rfl).calm hcalls htime hrun
  have hidle : ∀ i, HotStuff.Idle HotStuff.VIEW_CHANGE_TIMEOUT i (c.nodes i) ∧
      HotStuff.held (c.nodes i) = ∅ := by
    intro i
    rw [← hshows.nodes]
    exact HotStuff.idle_of_called hw hcalm i
  have hstart : HotStuff.At n c.faults.isolatedNodes 0 c.nodes := by
    refine ⟨fun i _ _ _ => (hidle i).1, fun _ => .inr ⟨(hidle 1).1, ⟨?_, ?_⟩, fun hle => ?_⟩⟩
    · rw [(hidle 1).2]
      exact Finset.empty_subset _
    · rw [(hidle 1).2]
      exact Nat.succ_pos _
    · exact absurd hle (Nat.not_succ_le_zero _)
  obtain ⟨c', hdrive, halike, hpending, hat⟩ :=
    (HotStuff.turning hn (hshows.honest hhonest)).rounds (HotStuff.polled n) hlossless
      (fun c hsize => (HotStuff.drains n c k hsize hk).imp fun _ => Exists.imp fun _ h =>
        ⟨h.1, h.2.2⟩) T hshows.size rfl hdrained hstart
  rw [Nat.zero_add] at hat
  have hsize : c'.size = n := halike.size.trans hshows.size
  have hisolated : ∀ i, c'.faults.isIsolated i = decide (i ∈ c.faults.isolatedNodes) := by
    intro i
    rw [halike.faults]
    rfl
  refine ⟨c', hdrive, hpending, fun i hi hiI => hat.view hi hiI, fun l hleader p => ?_,
    fun hnone i hi => ?_⟩
  · obtain ⟨hl, hlI, hbefore, hlview⟩ := HotStuff.leaderAt_eq_some.mp hleader
    have hln : l < n := lt_of_lt_of_le hl hn
    have hview : (c'.nodes l).view % n = l := by
      rw [hat.view hln hlI, hlview, Nat.mod_eq_of_lt hln]
    have hlive : c'.Live l := by
      refine ⟨hsize ▸ hln, ?_⟩
      rw [hisolated]
      exact decide_eq_false hlI
    refine propose_of_asked (HotStuff.answers n) (decide_eq_true hview)
      (asked_of_first hlive (fun i hi hlive => ?_) ?_) p
    · have hno := hlive.2
      rw [hisolated] at hno
      exact of_decide_eq_false hno (hbefore i hi)
    · rw [HotStuff.refers_leader (by omega) hsize, hview]
  · have hiI := hi.2
    rw [hisolated] at hiI
    refine decide_eq_false fun hleads => ?_
    refine HotStuff.viewAt_mod_ne hnone (of_decide_eq_false hiI) ?_
    rw [← hat.view (hsize ▸ hi.1) (of_decide_eq_false hiI)]
    exact hleads

omit [Sha256] in
/-- Of four nodes node `1` takes over after `41` rounds if node `0` has crashed. -/
theorem idle_takeover_four : ∃ c c',
    @drive _ (@HotStuff.polled Sha256.sample 4) Sha256.sample
      ((HotStuff.newCluster 4 fun _ => 0).setFaults { rng := fun _ => 0 }) (crashAfter 0) = some c ∧
    @drive _ (@HotStuff.polled Sha256.sample 4) Sha256.sample c (timed 100 41) = some c' ∧
    (c'.nodes 1).view = 1 ∧ (c'.nodes 2).view = 0 ∧
    (c'.propose (@HotStuff.code Sha256.sample 4) ⟨[0x71]⟩).1 = .accepted := by
  have hrun : (@drive _ (@HotStuff.polled Sha256.sample 4) Sha256.sample
      ((HotStuff.newCluster 4 fun _ => 0).setFaults { rng := fun _ => 0 }) (crashAfter 0)).map
        (fun c => (c.pending, c.faults.isolatedNodes, c.faults.dropRate, c.faults.partitions)) =
          some ([], {0}, 0, ∅) := by decide +kernel
  obtain ⟨c, hc, heq⟩ := Option.map_eq_some_iff.mp hrun
  simp only [Prod.mk.injEq] at heq
  obtain ⟨hpending, hisolated, hrate, hpartitions⟩ := heq
  obtain ⟨hcalls, htime⟩ := crashAfter_within 0
  obtain ⟨c', hdrive, _, hview, haccept, _⟩ := @idle_takeover Sha256.sample 4 (by decide)
    (fun _ => 0) { rng := fun _ => 0 } (fun _ => rfl) (crashAfter 0) hcalls htime c hc hpending
    ⟨hrate, hpartitions⟩ 100 (by decide) 41
  rw [hisolated] at hview haccept
  exact ⟨c, c', hc, hdrive, hview 1 (by decide) (by decide), hview 2 (by decide) (by decide),
    (haccept 1 (by decide) _).1⟩

end Protocols

end ConsensusBench
