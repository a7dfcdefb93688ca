import ConsensusBench.Idle
import ConsensusBench.Minority

namespace ConsensusBench

/-!
# PBFT clusters that have stopped

If a cluster is left alone for long enough while a backup has crashed, it stops in the view before
that backup is primary.  The other backups have voted for the next view by then, so they accept
nothing from the primary that they still have, and they do not vote for any other view.

* `Stale`, `Stuck` — what live nodes are like, and what they send.
* `Effect.stuck` — they stay like this.
* `idle_standstill` — nothing is committed any more, whatever happens next.
-/

open AsyncNet Cluster PbftNode

namespace Pbft

/-- What the live nodes of view `v` still send: the proposals of its primary, and votes for the
    next view. -/
def Stale (n : ℕ) (v : ViewNumber) (sender : NodeId) : ProtocolMessage → Prop
  | .pbft (.prePrepare ..) => v % n = sender
  | .pbft (.prepare ..) => v % n = sender
  | .pbft (.viewChange u _ _) => u = v + 1
  | _ => False

theorem stale_skeleton {n : ℕ} {v : ViewNumber} {sender : NodeId} (m : ProtocolMessage) :
    Stale n v sender (FaultConfig.skeleton m) ↔ Stale n v sender m := by
  cases m with
  | pbft m => cases m <;> rfl
  | raft m => cases m <;> rfl
  | hotStuff m => cases m <;> rfl

/-- A live node of view `v`: a backup has given the view up, and holds no slots. -/
structure Stuck (n : ℕ) (v : ViewNumber) (i : NodeId) (s : PbftState) : Prop where
  view : s.view = v
  progress : v % n ≠ i → s.viewChangeInProgress = true
  slots : v % n ≠ i → ∀ q, s.slots.lookup q = none

section Steps

variable [Sha256] {n : ℕ} {I : Finset NodeId} {v : ViewNumber} {i : NodeId} {s s' : PbftState}
variable {c : Cause Call NetworkMessage} {out : List NetworkMessage}

omit [Sha256] in
/-- A backup has no slot to count a vote of its primary in, and nobody else votes. -/
theorem Stuck.lookup (hs : Stuck n v i s) {m : NetworkMessage} {u : ViewNumber}
    {q : SequenceNumber} {d : Digest} {r : NodeId} (hne : m.sender ≠ i)
    (hstale : Stale n v m.sender m.payload) (hm : m.payload = .pbft (.prepare u q d r)) :
    s.slots.lookup q = none := by
  rw [hm] at hstale
  exact hs.slots (fun hp => hne (hstale.symm.trans hp)) q

/-- **What a live node does** while it hears of live nodes of its view only. -/
theorem Effect.stuck (h : Effect (node n i) s c s' out) (hp : (v + 1) % n ∈ I) (hi : i ∉ I)
    (hc : ∀ m, c = .recv m → m.sender ≠ i ∧ Stale n v m.sender m.payload) (hs : Stuck n v i s) :
    Stuck n v i s' ∧ ∀ m ∈ out, Stale n v m.sender m.payload := by
  have hnone : ∀ m ∈ ([] : List NetworkMessage), Stale n v m.sender m.payload := by simp
  have hvote : ∀ m ∈ (node n i).broadcastPbft (.viewChange (v + 1) i s.highestCommittedSeq),
      Stale n v m.sender m.payload := by
    intro m hm
    obtain ⟨k, _, _, rfl⟩ := mem_broadcastPbft.mp hm
    exact rfl
  cases h with
  | ignore => exact ⟨hs, hnone⟩
  | poll => exact ⟨⟨hs.view, hs.progress, hs.slots⟩, hnone⟩
  | tickDown => exact ⟨⟨hs.view, hs.progress, hs.slots⟩, hnone⟩
  | timeout hprimary hview =>
    -- a backup has timed out already
    have hbackup : v % n ≠ i := by
      rw [← hs.view]
      exact hprimary
    rw [hs.progress hbackup] at hview
    exact absurd hview (by decide)
  | assign p hcan =>
    have hprimary : v % n = i := by
      rw [← hs.view]
      exact hcan.1
    refine ⟨⟨hs.view, fun hne => absurd hprimary hne, fun hne => absurd hprimary hne⟩,
      fun m hm => ?_⟩
    rcases List.mem_append.mp hm with hm | hm
    · obtain ⟨k, _, _, rfl⟩ := mem_broadcastPbft.mp hm
      exact hprimary
    · obtain ⟨k, _, _, rfl⟩ := mem_broadcastPbft.mp hm
      exact hprimary
  | accept m q d p hm ha =>
    obtain ⟨hne, hstale⟩ := hc m rfl
    rw [hm] at hstale
    have hview := ha.2
    rw [hs.progress fun hp => hne (hstale.symm.trans hp)] at hview
    exact absurd hview (by decide)
  | countPrepare m q d r slot hm hslot =>
    obtain ⟨hne, hstale⟩ := hc m rfl
    rw [hs.lookup hne hstale hm] at hslot
    exact absurd hslot (by simp)
  | prepare m q d r slot hm hslot =>
    obtain ⟨hne, hstale⟩ := hc m rfl
    rw [hs.lookup hne hstale hm] at hslot
    exact absurd hslot (by simp)
  | countCommit m q d r slot hm =>
    have hstale := (hc m rfl).2
    rw [hm] at hstale
    exact hstale.elim
  | commitNothing m q d r slot hm =>
    have hstale := (hc m rfl).2
    rw [hm] at hstale
    exact hstale.elim
  | commit m q d r slot p hm =>
    have hstale := (hc m rfl).2
    rw [hm] at hstale
    exact hstale.elim
  | vote m u r l votes out hm hu hvotes =>
    have hstale := (hc m rfl).2
    rw [hm] at hstale
    obtain rfl : u = v + 1 := hstale
    refine ⟨⟨hs.view, hs.progress, hs.slots⟩, ?_⟩
    rcases hvotes with ⟨_, _, rfl⟩ | ⟨_, rfl⟩
    · exact hnone
    · exact hvote
  | install m u r l votes out hm hu hvotes hq hprimary =>
    -- the primary of the next view has crashed
    have hstale := (hc m rfl).2
    rw [hm] at hstale
    obtain rfl : u = v + 1 := hstale
    have hi' : (v + 1) % n = i := hprimary
    exact absurd (hi' ▸ hp) hi
  | adopt m u ns hm =>
    have hstale := (hc m rfl).2
    rw [hm] at hstale
    exact hstale.elim

/-- Without commit votes there is no commit. -/
theorem Effect.emitted_of_stale (h : Effect (node n i) s c s' out)
    (hc : ∀ m, c = .recv m → Stale n v m.sender m.payload) : emitted ⟨i, c, s, s', out⟩ = [] := by
  refine List.eq_nil_iff_forall_not_mem.mpr fun e he => ?_
  obtain ⟨m, d, r, hm, hpl, _⟩ := h.commit_inv he
  have hstale := hc m hm
  rw [hpl] at hstale
  exact hstale

/-- A node that nobody proposes to, and that hears of no proposal, opens no slot. -/
theorem Effect.slots_empty (h : Effect (node n i) s c s' out) (hp : ∀ p, c ≠ .call (.propose p))
    (hc : ∀ m, c = .recv m → messagePhase m.payload ≠ some .pbftPrePrepare)
    (hs : ∀ q, s.slots.lookup q = none) : (∀ q, s'.slots.lookup q = none) ∧
      emitted ⟨i, c, s, s', out⟩ = [] ∧
      ∀ m ∈ out, messagePhase m.payload ≠ some .pbftPrePrepare := by
  have hnone : ∀ {q slot}, s.slots.lookup q ≠ some slot := by
    intro q slot
    rw [hs q]
    exact (nomatch ·)
  refine ⟨fun q => Option.eq_none_iff_forall_ne_some.mpr fun slot hslot => ?_,
    List.eq_nil_iff_forall_not_mem.mpr fun e he => ?_, fun m hm => ?_⟩
  · cases h with
    | assign p => exact hp p rfl
    | accept m q d p hm => exact hc m rfl (by rw [hm]; rfl)
    | countPrepare _ _ _ _ _ _ hold => exact hnone hold
    | prepare _ _ _ _ _ _ hold => exact hnone hold
    | countCommit _ _ _ _ _ _ hold => exact hnone hold
    | commitNothing _ _ _ _ _ _ hold => exact hnone hold
    | commit _ _ _ _ _ _ _ hold => exact hnone hold
    | install _ v => exact hnone (lookup_enterNewView (v := v) hslot).1
    | adopt _ v => exact hnone (lookup_enterNewView (v := v) hslot).1
    | _ => exact hnone hslot
  · obtain ⟨m, d, r, _, _, ⟨_, slot, hslot, _⟩, _⟩ := h.commit_inv he
    exact hnone hslot
  · obtain ⟨j, x, _, _, rfl, hsays⟩ := h.sent_said hm
    cases hsays with
    | prePrepare p hcall => exact absurd hcall (hp p)
    | _ => exact (nomatch ·)

/-- **A cluster that was never used** holds no slots, and has committed nothing. -/
theorem slots_of_timed {rng : ℕ → ℚ} {faults : NetworkFaults} {k T : ℕ} {c : Cluster PbftState}
    (hrun : ((newCluster n rng).setFaults faults).drive (polled n) (timed k T) = some c) :
    ∀ i, (∀ q, (c.nodes i).slots.lookup q = none) ∧
      c.commitLog.recorded i ++ CommitQueue.committed (c.nodes i) = [] := by
  have hupheld : Upheld n (polled n) (fun _ => False) (fun _ => True)
      (fun _ s es => (∀ q, s.slots.lookup q = none) ∧ es ++ CommitQueue.committed s = [])
      (fun m => messagePhase m.payload ≠ some .pbftPrePrepare)
      fun m => messagePhase m.payload ≠ some .pbftPrePrepare := by
    refine (listed n).upheld (B := fun _ => True)
      (I := fun _ s all => (∀ q, s.slots.lookup q = none) ∧ all = []) ?_ ?_ fun _ _ _ => trivial
    · rintro i s c s' out all hi h hp hrecv ⟨hs, rfl⟩
      obtain ⟨hs', hnone, hsent⟩ := h.slots_empty hp (fun m hm => (hrecv m hm).2) hs
      rw [hnone]
      exact ⟨⟨hs', rfl⟩, hsent⟩
    · intro faults m m' _ hm hpass
      rw [faults.eq_alter_of_mem hpass.tampered, ← FaultConfig.messagePhase_skeleton,
        faults.alter_skeleton, FaultConfig.messagePhase_skeleton]
      exact hm
  have hstart : Upholds n (fun _ => True)
      (fun _ s es => (∀ q, s.slots.lookup q = none) ∧ es ++ CommitQueue.committed s = [])
      (fun m => messagePhase m.payload ≠ some .pbftPrePrepare)
      ((newCluster n rng).setFaults faults) :=
    ⟨rfl, trivial, fun _ => ⟨fun _ => rfl, rfl⟩, by simp [newCluster, Cluster.new, setFaults]⟩
  have hcalls : ∀ call ∈ timed k T, call.Within (fun _ => False) fun _ => True := by
    intro call hcall
    obtain ⟨l, hl, hcall⟩ := List.mem_flatten.mp hcall
    rw [List.eq_of_mem_replicate hl] at hcall
    rcases List.mem_cons.mp hcall with rfl | hcall
    · exact trivial
    · rw [List.mem_singleton.mp hcall]
      exact trivial
  refine (hstart.drive hupheld _ hcalls (fun _ i s es _ h => ⟨h.1, ?_⟩) hrun).nodes
  exact (List.append_nil es).trans (List.append_eq_nil_iff.mp h.2).1

/-- **A cluster that is stuck** stays silent. -/
theorem Stuck.silent {c : Cluster PbftState} (hp : (v + 1) % n ∈ I) (hsize : c.size = n)
    (hpending : c.pending = []) (hstuck : ∀ i < n, i ∉ I → Stuck n v i (c.nodes i))
    (hnone : ∀ i, c.commitLog.recorded i ++ CommitQueue.committed (c.nodes i) = []) :
    Silent I (polled n) c := by
  intro faults calls c' hfaults hcalls hrun
  have hupheld : Upheld n (polled n) (fun _ => True) (Isolates I)
      (fun i s es => (i < n → i ∉ I → Stuck n v i s) ∧ es ++ CommitQueue.committed s = [])
      (fun m => m.sender ≠ m.target ∧ (m.sender ∉ I → Stale n v m.sender m.payload))
      fun m => m.target ∉ I ∧ m.sender ≠ m.target ∧ Stale n v m.sender m.payload := by
    refine (listed n).upheld
      (I := fun i s all => (i < n → i ∉ I → Stuck n v i s) ∧ all = []) ?_ ?_ fun _ _ h => h
    · rintro i s c s' out all hi h _ hrecv ⟨hs, rfl⟩
      have hstep := fun hiI => h.stuck hp hiI (fun m hm => by
        obtain ⟨htarget, _, hne, hstale⟩ := hrecv m hm
        exact ⟨htarget ▸ hne, hstale⟩) (hs hi hiI)
      rw [h.emitted_of_stale fun m hm => (hrecv m hm).2.2.2]
      refine ⟨⟨fun _ hiI => (hstep hiI).1, rfl⟩, fun m hm => ?_⟩
      have hsent := hm
      obtain ⟨j, x, _, hne, rfl, _⟩ := h.sent_said hm
      exact ⟨hne.symm, fun hiI => (hstep hiI).2 _ hsent⟩
    · -- an isolated node sends and receives nothing
      rintro faults m m' hB ⟨hne, hm⟩ hpass
      have hlive : ∀ {j}, faults.isIsolated j = false → j ∉ I := fun hno hI =>
        absurd ((hB _ hI).symm.trans hno) (by decide)
      obtain ⟨hsender, htarget, hskel⟩ := faults.frame_of_mem hpass.tampered
      rw [hsender, htarget]
      refine ⟨hlive hpass.target, hne, (stale_skeleton _).mp ?_⟩
      rw [hskel]
      exact (stale_skeleton _).mpr (hm (hlive hpass.sender))
  have hstart : Upholds n (Isolates I)
      (fun i s es => (i < n → i ∉ I → Stuck n v i s) ∧ es ++ CommitQueue.committed s = [])
      (fun m => m.sender ≠ m.target ∧ (m.sender ∉ I → Stale n v m.sender m.payload))
      (c.setFaults faults) := by
    refine ⟨hsize, hfaults, fun i => ⟨hstuck i, hnone i⟩, fun m hm => ?_⟩
    have hempty : (c.setFaults faults).pending = [] := hpending
    rw [hempty] at hm
    exact absurd hm List.not_mem_nil
  have hend := hstart.drive hupheld calls hcalls (fun _ i s es hi h => ?_) hrun
  · refine ⟨fun i => (List.append_eq_nil_iff.mp (hend.nodes i).2).1,
      collectCommitted_eq_nil fun i => ?_⟩
    exact (List.append_eq_nil_iff.mp (hend.nodes i).2).2
  · refine ⟨fun hi hiI => ⟨(h.1 hi hiI).view, (h.1 hi hiI).progress, (h.1 hi hiI).slots⟩, ?_⟩
    exact (List.append_nil es).trans (List.append_eq_nil_iff.mp h.2).1

end Steps

end Pbft

/-- **An idle PBFT cluster stops for good** if a node has crashed: after a timeout for every node,
    nothing that is proposed is committed any more, although the crashed nodes are at most `f`. -/
theorem idle_standstill [Sha256] (n : ℕ) (rng : ℕ → ℚ) (faults : NetworkFaults)
    (hhonest : ∀ i, faults.isByzantine i = false) (hlossless : faults.Lossless)
    (hcard : faults.isolatedNodes.card ≤ (n - 1) / 3) (i : NodeId) (hi : i < n)
    (hcrashed : i ∈ faults.isolatedNodes) (k : ℕ) (hk : n + 2 ≤ k) (T : ℕ)
    (hT : n * (Pbft.VIEW_CHANGE_TIMEOUT + 1) ≤ T) :
    ∃ c, ((Pbft.newCluster n rng).setFaults faults).drive (Pbft.polled n) (timed k T) = some c ∧
      Silent faults.isolatedNodes (Pbft.polled n) c := by
  have hpos := Finset.card_pos.mpr ⟨i, hcrashed⟩
  have hn : 2 ≤ n := by omega
  have hstart : Pbft.At n faults.isolatedNodes 0
      ((Pbft.newCluster n rng).setFaults faults).nodes :=
    .inl ⟨rfl, fun _ _ _ => ⟨rfl, rfl, fun _ => rfl, fun _ _ => rfl⟩⟩
  obtain ⟨c, hdrive, halike, hpending, hat⟩ :=
    (Pbft.turning hn hcard hhonest).rounds (Pbft.polled n) hlossless
      (fun c hsize => (Pbft.drains n c k hsize hk).imp fun _ => Exists.imp fun _ h =>
        ⟨h.1, h.2.2⟩) T rfl rfl rfl hstart
  rw [Nat.zero_add] at hat
  obtain ⟨hp, hvoting⟩ := hat.stuck hi hcrashed hT
  have hunused := Pbft.slots_of_timed hdrive
  refine ⟨c, hdrive, Pbft.Stuck.silent hp halike.size hpending (fun j hj hjI => ?_) fun j =>
    (hunused j).2⟩
  exact ⟨(hvoting j hj hjI).view, fun hne => ((hvoting j hj hjI).suspects hne).1, fun _ =>
    (hunused j).1⟩

/-- Four nodes of which node `2` has crashed have stopped after `164` rounds. -/
theorem idle_standstill_four : ∃ c, @drive _ (@Pbft.polled Sha256.sample 4) Sha256.sample
      ((Pbft.newCluster 4 fun _ => 0).setFaults { isolatedNodes := {2}, rng := fun _ => 0 })
      (timed 100 164) = some c ∧
    @Silent _ Sha256.sample {2} (@Pbft.polled Sha256.sample 4) c :=
  @idle_standstill Sha256.sample 4 (fun _ => 0) { isolatedNodes := {2}, rng := fun _ => 0 }
    (fun _ => rfl) ⟨rfl, rfl⟩ (by decide) 2 (by decide) (by decide) 100 (by decide) 164 (by decide)

end ConsensusBench
