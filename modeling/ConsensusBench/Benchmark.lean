import ConsensusBench.Quiescence

namespace ConsensusBench

/-!
# Benchmarks pass their checks

A benchmark makes proposals and lets the cluster run; in the end the commits are collected and
checked.

* `Cluster.drive_run` — what a benchmark calls is a run of proposals and steps.
* `CommitLog.check_numbered` — a log in which all honest nodes have all proposals, in order, passes
  all checks.
* `benchmark_passes` — with up to `f` faulty backups, PBFT and HotStuff clusters have it.
-/

/-- The calls of a benchmark between its start and its end. -/
def HarnessCall.Works : HarnessCall → Prop
  | .call (.propose _) => True
  | .call .step => True
  | .call (.runToCompletion _) => True
  | _ => False

namespace Cluster

variable {σ : Type} [Sha256] {code : NodeId → PolledNode σ}

/-- Running to completion is a number of steps. -/
theorem run_of_runToCompletion {inner : NodeId → ConsensusNode σ} (calls : List ClusterCall)
    (k : ℕ) : ∀ {c c' : Cluster σ} {steps : ℕ}, runToCompletion inner c k = some (steps, c') →
      c.run inner (List.replicate steps .step ++ calls) = c'.run inner calls := by
  induction k with
  | zero =>
    intro c c' steps h
    cases h
    rfl
  | succ k ih =>
    intro c c' steps h
    rw [runToCompletion] at h
    split at h
    · cases h
      rfl
    · obtain ⟨c₁, hstep, hrest⟩ := Option.bind_eq_some_iff.mp h
      obtain ⟨⟨steps', c₂⟩, hrun, heq⟩ := Option.map_eq_some_iff.mp hrest
      cases heq
      rw [List.replicate_succ, List.cons_append, run, hstep, Option.bind_some]
      exact ih hrun

/-- **What a benchmark calls** is a run of proposals and steps, without ticks.  It records nothing
    but its proposals, and keeps the faults. -/
theorem drive_run (calls : List HarnessCall) (hcalls : ∀ call ∈ calls, call.Works) :
    ∀ {c c' : Cluster σ}, c.drive code calls = some c' → ∃ (ccalls : List ClusterCall)
      (results : List ProposeResult), .tick ∉ ccalls ∧
      proposals ccalls = calls.filterMap HarnessCall.proposal ∧
      c.run (consensus code) ccalls = some (results, c') ∧
      (∀ i, c'.commitLog.recorded i = c.commitLog.recorded i) ∧
      ∃ rng, c'.faults = { c.faults with rng := rng } := by
  have hsame : ∀ {c c₁ c' : Cluster σ}, Same c c₁ →
      (∀ i, c'.commitLog.recorded i = c₁.commitLog.recorded i) ∧
        (∃ rng, c'.faults = { c₁.faults with rng := rng }) →
      (∀ i, c'.commitLog.recorded i = c.commitLog.recorded i) ∧
        ∃ rng, c'.faults = { c.faults with rng := rng } := by
    rintro c c₁ c' h ⟨hrec, rng, hrng⟩
    obtain ⟨rng₁, hrng₁⟩ := h.faults
    refine ⟨fun i => ?_, rng, ?_⟩
    · rw [hrec, h.commitLog]
    · rw [hrng, hrng₁]
  induction calls with
  | nil =>
    intro c c' h
    cases h
    exact ⟨[], [], by simp, rfl, rfl, fun _ => rfl, c.faults.rng, rfl⟩
  | cons call calls ih =>
    intro c c' h
    obtain ⟨c₁, hfirst, hrest⟩ := drive_cons h
    obtain ⟨ccalls, results, htick, hprop, hrun, hkept⟩ :=
      ih (fun call' hmem => hcalls call' (List.mem_cons_of_mem _ hmem)) hrest
    have hworks := hcalls call List.mem_cons_self
    cases call with
    | call call =>
      cases call with
      | propose p =>
        cases hfirst
        refine ⟨.propose p :: ccalls, (c.propose (consensus code) p).1 :: results,
          by simpa using htick, ?_, ?_, ?_⟩
        · rw [proposals_cons_propose, hprop]
          rfl
        · rw [run]
          exact congrArg (Option.map _) hrun
        · exact hsame (c := { c with commitLog := c.commitLog.recordProposal p })
            (tryPropose_same p (List.range c.size) _) hkept
      | step =>
        refine ⟨.step :: ccalls, results, by simpa using htick, hprop, ?_,
          hsame (step_same hfirst) hkept⟩
        have hstep : c.step (consensus code) = some c₁ := hfirst
        rw [run, hstep, Option.bind_some, hrun]
      | runToCompletion k =>
        obtain ⟨⟨steps, c₂⟩, hcomplete, rfl⟩ := Option.map_eq_some_iff.mp hfirst
        refine ⟨List.replicate steps .step ++ ccalls, results, by simp [htick], ?_, ?_,
          hsame (runToCompletion_same _ hcomplete) hkept⟩
        · have hsteps : proposals (List.replicate steps .step) = [] :=
            List.filterMap_eq_nil_iff.mpr fun call hmem => by rw [List.eq_of_mem_replicate hmem]
          rw [proposals, List.filterMap_append]
          show proposals (List.replicate steps .step) ++ proposals ccalls = _
          rw [hsteps, List.nil_append, hprop]
          rfl
        · rw [run_of_runToCompletion ccalls k hcomplete, hrun]
      | _ => exact hworks.elim
    | _ => exact hworks.elim

/-- A benchmark returns if all handlers do. -/
theorem exists_drive (htotal : ∀ i s m, (code i).handleMessage s m ≠ none)
    (calls : List HarnessCall) (hcalls : ∀ call ∈ calls, call.Works) :
    ∀ c : Cluster σ, ∃ c', c.drive code calls = some c' := by
  have hcomplete : ∀ (k : ℕ) (c : Cluster σ),
      ∃ r, runToCompletion (consensus code) c k = some r := by
    intro k
    induction k with
    | zero => exact fun c => ⟨_, rfl⟩
    | succ k ih =>
      intro c
      rw [runToCompletion]
      split
      · exact ⟨_, rfl⟩
      · obtain ⟨c₁, hstep⟩ := exists_step (consensus code) htotal c
        obtain ⟨r, hr⟩ := ih c₁
        exact ⟨_, by rw [hstep, Option.bind_some, hr, Option.map_some]⟩
  have hone : ∀ (c : Cluster σ) (call : HarnessCall), call.Works →
      ∃ c', c.harness code call = some c' := by
    intro c call hworks
    cases call with
    | call call =>
      cases call with
      | propose p => exact ⟨_, rfl⟩
      | step => exact exists_step (consensus code) htotal c
      | runToCompletion k =>
        obtain ⟨r, hr⟩ := hcomplete k c
        exact ⟨r.2, Option.map_eq_some_iff.mpr ⟨r, hr, rfl⟩⟩
      | _ => exact hworks.elim
    | _ => exact hworks.elim
  induction calls with
  | nil => exact fun c => ⟨c, rfl⟩
  | cons call calls ih =>
    intro c
    obtain ⟨c₁, hfirst⟩ := hone c call (hcalls call List.mem_cons_self)
    obtain ⟨c', hrest⟩ := ih (fun call' hmem => hcalls call' (List.mem_cons_of_mem _ hmem)) c₁
    exact ⟨c', by rw [drive, List.foldlM_cons, hfirst]; exact hrest⟩

end Cluster

/-! ### Complete logs -/

theorem getElem?_numbered {ps : List Payload} {k : ℕ} {e : CommittedEntry}
    (he : (numbered ps)[k]? = some e) : e.sequence = k + 1 ∧ ps[k]? = some e.payload := by
  rw [numbered, List.getElem?_mapIdx, Option.map_eq_some_iff] at he
  obtain ⟨p, hp, rfl⟩ := he
  exact ⟨rfl, hp⟩

theorem sequences_numbered (ps : List Payload) :
    (numbered ps).map CommittedEntry.sequence = List.range' 1 ps.length := by
  induction ps using List.reverseRecOn with
  | nil => rfl
  | append_singleton ps p ih =>
    rw [numbered_concat, List.map_append, ih, List.length_append, List.length_singleton,
      ← List.range'_append_1, Nat.add_comm 1]
    rfl

/-- **A complete log passes all checks.** -/
theorem CommitLog.check_numbered {log : CommitLog} {honestNodes : HashSet NodeId}
    (hrec : ∀ i ∈ honestNodes, log.recorded i = numbered log.proposed) (order : Iteration) :
    log.check order honestNodes log.proposed.length = ⟨.pass, .pass, .pass, .pass, .pass⟩ := by
  have hagree : log.checkAgreement order honestNodes = .pass := by
    refine (checkAgreement_eq_pass order _ _).mpr fun i hi j hj e he e' he' hseq => ?_
    rw [hrec i hi] at he
    rw [hrec j hj] at he'
    obtain ⟨k, hk⟩ := List.mem_iff_getElem?.mp he
    obtain ⟨k', hk'⟩ := List.mem_iff_getElem?.mp he'
    obtain ⟨hseq₁, hp⟩ := getElem?_numbered hk
    obtain ⟨hseq₂, hp'⟩ := getElem?_numbered hk'
    obtain rfl : k = k' := Nat.succ.inj (hseq₁.symm.trans (hseq.trans hseq₂))
    exact Option.some.inj (hp.symm.trans hp')
  have hvalid : log.checkValidity order honestNodes = .pass := by
    refine (checkValidity_eq_pass order _ _).mpr fun i hi e he => ?_
    rw [hrec i hi] at he
    obtain ⟨k, hk⟩ := List.mem_iff_getElem?.mp he
    exact List.mem_of_getElem? (getElem?_numbered hk).2
  have hint : log.checkIntegrity order honestNodes = .pass := by
    refine (checkIntegrity_eq_pass order _ _).mpr fun i hi => ?_
    rw [hrec i hi, sequences_numbered]
    exact List.nodup_range'
  have hterm : log.checkTermination order honestNodes log.proposed.length = .pass := by
    refine (checkTermination_eq_pass order _ _ _).mpr fun i hi => ?_
    rw [hrec i hi, numbered, List.length_mapIdx]
  have horder : log.checkTotalOrder order honestNodes = .pass := by
    refine (checkTotalOrder_eq_pass order _ _).mpr fun r hr x hx => ?_
    obtain ⟨hr, _, hrseq⟩ := (mem_orderings order _ _).mp (List.mem_of_mem_head? hr)
    obtain ⟨hx, _, hxseq⟩ := (mem_orderings order _ _).mp hx
    rw [hrseq, hxseq, sequences, sequences, hrec _ hr, hrec _ hx]
    exact .inl (List.prefix_refl _)
  rw [check, hagree, hvalid, hint, hterm, horder]

/-! ### Benchmarks -/

section Benchmarks

open Cluster

variable {σ S W : Type} [CommitQueue σ] [Sha256] {n : ℕ} {N : NormalCase σ S W n}
variable {code : NodeId → PolledNode σ} {faults : NetworkFaults} {F : Finset NodeId}

/-- A benchmark of a protocol that drains within `K` steps. -/
theorem NormalCase.benchmark (hN : N.Orderly faults) (hn : 1 ≤ n) (hlossless : faults.Lossless)
    (hF : ∀ i, i ∈ F ↔ faults.isByzantine i = true ∨ faults.isIsolated i = true) (h0 : 0 ∉ F)
    (hfinished : ∀ i < n, i ∉ F → ∀ t, ((N.round faults).solo t).queue = [] →
      N.Finished (((N.round faults).solo t).state i))
    (hcode : consensus code = N.code) (htaken : ∀ i s, ((code i).pollCommitted s).1 =
      CommitQueue.committed s) (htotal : ∀ i s m, (code i).handleMessage s m ≠ none)
    {K : ℕ} (hdrains : ∀ (c : Cluster σ) (k : ℕ), c.size = n → K ≤ k → ∃ steps c',
      c.runToCompletion N.code k = some (steps, c') ∧ steps ≤ K ∧ c'.pending = [])
    (rng : ℕ → ℚ) (calls : List HarnessCall) (hcalls : ∀ call ∈ calls, call.Works) {k : ℕ}
    (hk : K ≤ k) : ∃ c, ((Cluster.new n N.init rng).setFaults faults).drive code
        (calls ++ [.call (.runToCompletion k), .collectAndRecordCommits]) = some c ∧
      (∀ i < n, i ∉ F → c.commitLog.recorded i = numbered (calls.filterMap HarnessCall.proposal)) ∧
      ∀ order, c.checkInvariants order (calls.filterMap HarnessCall.proposal).length =
        ⟨.pass, .pass, .pass, .pass, .pass⟩ := by
  have hconfined : faults.ConfinedTo F := ⟨hlossless, fun i hi => (hF i).mpr (.inr hi),
    fun i hi => (hF i).mpr (.inl hi)⟩
  have hworks : ∀ call ∈ calls ++ [.call (.runToCompletion k)], call.Works := by
    intro call hmem
    rcases List.mem_append.mp hmem with hmem | hmem
    · exact hcalls call hmem
    · rw [List.mem_singleton.mp hmem]
      exact trivial
  obtain ⟨c₁, hdrive⟩ := exists_drive htotal _ hworks ((Cluster.new n N.init rng).setFaults faults)
  obtain ⟨ccalls, results, htick, hprop, hrun, hrec, rng', hrng⟩ := drive_run _ hworks hdrive
  have hproposals : Cluster.proposals ccalls = calls.filterMap HarnessCall.proposal := by
    rw [hprop, List.filterMap_append]
    exact List.append_nil _
  -- the last call leaves nothing to deliver
  have hempty : c₁.pending = [] := by
    have hsplit := hdrive
    rw [drive, List.foldlM_append, Option.bind_eq_bind, Option.bind_eq_some_iff] at hsplit
    obtain ⟨c₀, hbefore, hlast⟩ := hsplit
    obtain ⟨c₂, hcomplete, hnil⟩ := drive_cons hlast
    cases hnil
    obtain ⟨steps, c', hc', _, hpending⟩ := hdrains c₀ k (drive_frame calls hbefore).1 hk
    obtain ⟨r, hr, rfl⟩ := Option.map_eq_some_iff.mp hcomplete
    rw [hcode, hc'] at hr
    cases hr
    exact hpending
  obtain ⟨_, c₂, hrun', _, hall⟩ := NormalCase.commits_all hN hn hconfined h0 rng ccalls htick
  rw [hcode, hrun'] at hrun
  cases hrun
  have hdrained := collectAndRecordCommits_drained code c₁
  have hsize : c₁.size = n := (drive_frame _ hdrive).1
  have hrecorded : ∀ i < n, i ∉ F → (collectAndRecordCommits code c₁).2.commitLog.recorded i =
      numbered (calls.filterMap HarnessCall.proposal) := by
    intro i hi hiF
    rw [hdrained.recorded, hrec, if_pos (hsize.symm ▸ hi), htaken, ← hproposals,
      hall hempty i (hfinished i hi hiF)]
    rfl
  have hproposed : (collectAndRecordCommits code c₁).2.commitLog.proposed =
      calls.filterMap HarnessCall.proposal := by
    rw [hdrained.proposed, (drive_frame _ hdrive).2, List.filterMap_append]
    exact List.append_nil _
  refine ⟨(collectAndRecordCommits code c₁).2, ?_, hrecorded, fun order => ?_⟩
  · rw [← List.singleton_append, ← List.append_assoc, drive, List.foldlM_append]
    show (drive code _ _).bind _ = _
    rw [hdrive]
    rfl
  · rw [← hproposed]
    refine CommitLog.check_numbered (fun i hi => ?_) order
    obtain ⟨hi, hbyz, hiso⟩ := mem_honestNodes.mp hi
    rw [hdrained.alike.size, hsize] at hi
    rw [hdrained.alike.faults, hrng] at hbyz hiso
    rw [hproposed]
    refine hrecorded i hi fun hmem => ?_
    rcases (hF i).mp hmem with h | h
    · exact absurd (h.symm.trans hbyz) (by decide)
    · exact absurd (h.symm.trans hiso) (by decide)

/-- **Benchmarks pass their checks** with up to `f` faulty backups: when nothing is left to deliver,
    every other node has committed all proposals, in order. -/
theorem benchmark_passes (n : ℕ) (hn : 2 ≤ n) (rng : ℕ → ℚ) (faults : NetworkFaults)
    (hlossless : faults.Lossless) (F : Finset NodeId)
    (hF : ∀ i, i ∈ F ↔ faults.isByzantine i = true ∨ faults.isIsolated i = true)
    (hcard : F.card ≤ (n - 1) / 3) (h0 : 0 ∉ F) (calls : List HarnessCall)
    (hcalls : ∀ call ∈ calls, call.Works) :
    (∀ k, n + 2 ≤ k → ∃ c, ((Pbft.newCluster n rng).setFaults faults).drive (Pbft.polled n)
        (calls ++ [.call (.runToCompletion k), .collectAndRecordCommits]) = some c ∧
      (∀ i < n, i ∉ F → c.commitLog.recorded i = numbered (calls.filterMap HarnessCall.proposal)) ∧
      ∀ order, c.checkInvariants order (calls.filterMap HarnessCall.proposal).length =
        ⟨.pass, .pass, .pass, .pass, .pass⟩) ∧
    ∀ k, 7 ≤ k → ∃ c, ((HotStuff.newCluster n rng).setFaults faults).drive (HotStuff.polled n)
        (calls ++ [.call (.runToCompletion k), .collectAndRecordCommits]) = some c ∧
      (∀ i < n, i ∉ F → c.commitLog.recorded i = numbered (calls.filterMap HarnessCall.proposal)) ∧
      ∀ order, c.checkInvariants order (calls.filterMap HarnessCall.proposal).length =
        ⟨.pass, .pass, .pass, .pass, .pass⟩ := by
  have hconfined : faults.ConfinedTo F := ⟨hlossless, fun i hi => (hF i).mpr (.inr hi),
    fun i hi => (hF i).mpr (.inl hi)⟩
  refine ⟨fun k hk => ?_, fun k hk => ?_⟩
  · have hlive := enough hn hcard h0 hconfined Pbft.Wave.messagePhase
    refine NormalCase.benchmark (N := Pbft.normalCase n)
      ⟨fun t => (Pbft.inWaves hlive t).fresh, Pbft.finished_mono hlive⟩ (by omega) hlossless hF h0
      (fun i hi hiF t hnil => ?_) rfl (fun _ _ => rfl)
      (fun _ _ _ => by simp [Pbft.polled, Pbft.code]) (Pbft.drains n) rng calls hcalls hk
    exact Pbft.finished_of_drained hlive hnil i
      (Finset.mem_sdiff.mpr ⟨Finset.mem_range.mpr hi, hiF⟩)
  · have hlive := enough hn hcard h0 hconfined HotStuff.Wave.messagePhase
    refine NormalCase.benchmark (N := HotStuff.normalCase n)
      ⟨fun t => (HotStuff.inWaves hlive t).fresh, HotStuff.finished_mono hlive⟩ (by omega) hlossless
      hF h0 (fun i hi hiF t hnil => ?_) rfl (fun _ _ => rfl)
      (fun _ _ _ => by simp [HotStuff.polled, HotStuff.code]) (HotStuff.drains n) rng calls
      hcalls hk
    exact HotStuff.finished_of_drained hlive hnil i
      (Finset.mem_sdiff.mpr ⟨Finset.mem_range.mpr hi, hiF⟩)

/-- Backup `3` of four is isolated. -/
def absentBackup : NetworkFaults where
  isolatedNodes := {3}
  rng _ := 0

/-- Two proposals, one step between them. -/
def twoProposals : List HarnessCall :=
  [.call (.propose ⟨[0x70]⟩), .call .step, .call (.propose ⟨[0x71]⟩)]

omit [Sha256] in
/-- Four nodes, one of which is isolated, pass the checks. -/
theorem benchmark_passes_four :
    (∃ c, @drive _ (@Pbft.polled Sha256.sample 4) Sha256.sample
        ((Pbft.newCluster 4 fun _ => 0).setFaults absentBackup)
        (twoProposals ++ [.call (.runToCompletion 6), .collectAndRecordCommits]) = some c ∧
      (∀ i < 4, i ∉ ({3} : Finset NodeId) →
        c.commitLog.recorded i = numbered [⟨[0x70]⟩, ⟨[0x71]⟩]) ∧
      ∀ order, c.checkInvariants order 2 = ⟨.pass, .pass, .pass, .pass, .pass⟩) ∧
    ∃ c, @drive _ (@HotStuff.polled Sha256.sample 4) Sha256.sample
        ((HotStuff.newCluster 4 fun _ => 0).setFaults absentBackup)
        (twoProposals ++ [.call (.runToCompletion 7), .collectAndRecordCommits]) = some c ∧
      (∀ i < 4, i ∉ ({3} : Finset NodeId) →
        c.commitLog.recorded i = numbered [⟨[0x70]⟩, ⟨[0x71]⟩]) ∧
      ∀ order, c.checkInvariants order 2 = ⟨.pass, .pass, .pass, .pass, .pass⟩ := by
  have hworks : ∀ call ∈ twoProposals, call.Works := by simp [twoProposals, HarnessCall.Works]
  have hF : ∀ i, i ∈ ({3} : Finset NodeId) ↔
      absentBackup.isByzantine i = true ∨ absentBackup.isIsolated i = true := by
    intro i
    simp [absentBackup, FaultConfig.isByzantine, NetworkFaults.isIsolated]
  obtain ⟨hpbft, hhotstuff⟩ := @benchmark_passes Sha256.sample 4 (by decide) (fun _ => 0)
    absentBackup ⟨rfl, rfl⟩ {3} hF (by decide) (by decide) twoProposals hworks
  exact ⟨hpbft 6 (by decide), hhotstuff 7 (by decide)⟩

end Benchmarks

end ConsensusBench
