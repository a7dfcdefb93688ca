import ConsensusBench.Raft.Log

namespace ConsensusBench

/-!
# Raft emits a gap-free stream

Under every fault configuration, whether the nodes agree or not: the entry at a position of a
log carries its index, and a node commits the sequences `1, 2, …` in order.  Neither needs a
correct leader, only that the entries of a message are `Contiguous`, which tampering leaves
alone.

A log may be cut below the commit index; but then the node panics before it commits anything
out of step.
-/

open AsyncNet RaftNode

namespace Raft

/-! ### Contiguous entries -/

/-- The entries carry the indices from `p + 1` on. -/
def Contiguous (p : ℕ) (es : List LogEntry) : Prop := ∀ k e, es[k]? = some e → e.index = p + k + 1

theorem Contiguous.tail {p : ℕ} {e : LogEntry} {es : List LogEntry} (h : Contiguous p (e :: es)) :
    Contiguous (p + 1) es := by
  intro k x hx
  have hk := h (k + 1) x (by rwa [List.getElem?_cons_succ])
  omega

/-- The entries behind a position of an indexed log are contiguous. -/
theorem Indexed.contiguous {log : List LogEntry} (h : Indexed log) (p : ℕ) :
    Contiguous p (log.drop p) := by
  intro k e he
  rw [List.getElem?_drop] at he
  exact h (p + k) e he

/-- What is contiguous is told from the indices. -/
theorem Contiguous.congr {p : ℕ} {es es' : List LogEntry} (h : Contiguous p es)
    (heq : es'.map LogEntry.index = es.map LogEntry.index) : Contiguous p es' := by
  intro k e he
  have hmap : (es.map LogEntry.index)[k]? = some e.index := by
    rw [← heq, List.getElem?_map, he]
    rfl
  rw [List.getElem?_map, Option.map_eq_some_iff] at hmap
  obtain ⟨e', he', hidx⟩ := hmap
  rw [← hidx]
  exact h k e' he'

/-- **Appending contiguous entries** that start within an indexed log keeps it indexed. -/
theorem Indexed.append {es : List LogEntry} {F log : List LogEntry} {p : ℕ} (hF : Indexed F)
    (hes : Contiguous p es) (hp : p ≤ F.length) (hlog : es.foldlM appendEntry F = some log) :
    Indexed log := by
  induction es generalizing F p with
  | nil =>
    rw [List.foldlM_nil, Option.pure_def, Option.some.injEq] at hlog
    rw [← hlog]
    exact hF
  | cons e es ih =>
    -- the first entry belongs right behind position `p`
    have hidx : e.index = p + 1 := hes 0 e rfl
    rw [List.foldlM_cons, appendEntry, if_neg (by omega)] at hlog
    simp only [hidx, Nat.add_sub_cancel] at hlog
    cases hx : F[p]? with
    | none =>
      have hlen : F.length = p := le_antisymm (List.getElem?_eq_none_iff.mp hx) hp
      simp only [hx, Option.bind_eq_bind, Option.bind_some] at hlog
      refine ih (hF.concat (by omega)) hes.tail ?_ hlog
      rw [List.length_append, List.length_singleton]
      omega
    | some x =>
      obtain ⟨hlt, _⟩ := List.getElem?_eq_some_iff.mp hx
      simp only [hx] at hlog
      split at hlog
      · -- the log is cut here, and goes on with the entry
        have hlen : (F.take p).length = p := by rw [List.length_take, min_eq_left hp]
        have hcut : Indexed (F.take p ++ [e]) := by
          refine Indexed.concat (fun k y hy => ?_) (by rw [hidx, hlen])
          obtain ⟨u, hu⟩ := List.take_prefix p F
          obtain ⟨hk, _⟩ := List.getElem?_eq_some_iff.mp hy
          exact hF k y (by rw [← hu, List.getElem?_append_left hk, hy])
        refine ih hcut hes.tail ?_ hlog
        rw [List.length_append, List.length_singleton, hlen]
      · exact ih hF hes.tail hlt hlog

/-- The indices of a part of an indexed log. -/
theorem Indexed.map_index {log : List LogEntry} (h : Indexed log) {a b : ℕ} (hb : b ≤ log.length) :
    ((log.take b).drop a).map LogEntry.index = List.range' (a + 1) (b - a) := by
  refine List.ext_getElem ?_ fun k hk hk' => ?_
  · rw [List.length_map, List.length_drop, List.length_take, List.length_range', min_eq_left hb]
  · rw [List.length_range'] at hk'
    have hlt : a + k < log.length := by omega
    rw [List.getElem_map, List.getElem_drop, List.getElem_take, List.getElem_range',
      h (a + k) _ (List.getElem?_eq_getElem hlt)]
    omega

/-! ### One step -/

section Step

variable {self : RaftNode} {s s' : RaftState} {c : Cause Call NetworkMessage}
variable {out : List NetworkMessage}

/-- **A step keeps the log indexed** if the entries of the message it handles are contiguous. -/
theorem Effect.indexed (h : Effect self s c s' out) (hs : Indexed s.log)
    (hrecv : ∀ m t l pi pt es lc, c = .recv m →
      m.payload = .raft (.appendEntries t l pi pt es lc) → Contiguous pi es) : Indexed s'.log := by
  rcases h.log_cases with
    ⟨hpre, _⟩ | ⟨p, _, rfl⟩ | ⟨m, t, l, pi, pt, es, lc, hc, hm, hprev, hlog, _⟩
  · intro k e he
    obtain ⟨u, hu⟩ := hpre
    obtain ⟨hk, _⟩ := List.getElem?_eq_some_iff.mp he
    exact hs k e (by rw [← hu, List.getElem?_append_left hk, he])
  · exact hs.concat rfl
  · refine hs.append (hrecv m t l pi pt es lc hc hm) ?_ hlog
    rcases hprev with h0 | ⟨e, he, _⟩
    · omega
    · obtain ⟨hlt, _⟩ := List.getElem?_eq_some_iff.mp he
      omega

/-- **A step commits the next sequences** up to the new commit index. -/
theorem Effect.emitted_sequences {i : NodeId} (h : Effect self s c s' out) (hs' : Indexed s'.log) :
    s.commitIndex ≤ s'.commitIndex ∧ (emitted ⟨i, c, s, s', out⟩).map CommittedEntry.sequence =
      List.range' (s.commitIndex + 1) (s'.commitIndex - s.commitIndex) := by
  have hnone : s'.commitIndex = s.commitIndex → emitted ⟨i, c, s, s', out⟩ = [] →
      s.commitIndex ≤ s'.commitIndex ∧ (emitted ⟨i, c, s, s', out⟩).map CommittedEntry.sequence =
        List.range' (s.commitIndex + 1) (s'.commitIndex - s.commitIndex) := by
    intro hcommit hnil
    rw [hnil, hcommit, Nat.sub_self]
    exact ⟨le_refl _, rfl⟩
  have hquiet : s'.commitIndex = s.commitIndex → s'.committed = s.committed →
      s.commitIndex ≤ s'.commitIndex ∧ (emitted ⟨i, c, s, s', out⟩).map CommittedEntry.sequence =
        List.range' (s.commitIndex + 1) (s'.commitIndex - s.commitIndex) :=
    fun hcommit hq => hnone hcommit (emitted_eq_nil (o := ⟨i, c, s, s', out⟩) hq)
  -- both kinds of commit queue the entries from the old index to the new one
  have hcommit : ∀ {s₁ : RaftState} {k : ℕ}, commitUpTo s₁ k = some s' →
      s₁.committed = s.committed → s₁.commitIndex = s.commitIndex →
      s.commitIndex ≤ s'.commitIndex ∧ (emitted ⟨i, c, s, s', out⟩).map CommittedEntry.sequence =
        List.range' (s.commitIndex + 1) (s'.commitIndex - s.commitIndex) := by
    intro s₁ k hs hq hci
    obtain ⟨hle, hlen, rfl⟩ := commitUpTo_eq_some.mp hs
    rw [emitted_eq (o := ⟨i, c, s, _, out⟩) (congrArg (· ++ _) hq), List.map_map, ← hci]
    exact ⟨hle, hs'.map_index hlen⟩
  cases h with
  | poll => exact hnone rfl (by simp [emitted, CommitQueue.committed])
  | deny m t => exact hquiet (observe_commitIndex s t) (observe_committed s t)
  | grant m t => exact hquiet (observe_commitIndex s t) (observe_committed s t)
  | accept m t l pi pt es lc log s' hm ht hprev hlog hs =>
    split at hs
    · exact hcommit hs rfl rfl
    · cases hs
      exact hquiet rfl rfl
  | commit m t mi k s' hm ht hr hk hs => exact hcommit hs rfl rfl
  | retry => exact hquiet (backOff_commitIndex s _) (backOff_committed s _)
  | _ => exact hquiet rfl rfl

end Step

/-! ### Runs -/

/-- Tampering leaves the indices of the entries alone. -/
theorem appendEntries_of_skeleton {m m' : ProtocolMessage}
    (h : FaultConfig.skeleton m' = FaultConfig.skeleton m) {t : ℕ} {l : NodeId} {pi pt : ℕ}
    {es : List LogEntry} {lc : ℕ} (hm' : m' = .raft (.appendEntries t l pi pt es lc)) :
    ∃ es₀, m = .raft (.appendEntries t l pi pt es₀ lc) ∧
      es.map LogEntry.index = es₀.map LogEntry.index := by
  subst hm'
  cases m with
  | pbft m => cases m <;> exact absurd h (by simp [FaultConfig.skeleton])
  | hotStuff m => cases m <;> exact absurd h (by simp [FaultConfig.skeleton])
  | raft m =>
    cases m with
    | appendEntries t₀ l₀ pi₀ pt₀ es₀ lc₀ =>
      simp only [FaultConfig.skeleton, ProtocolMessage.raft.injEq,
        RaftMessage.appendEntries.injEq] at h
      obtain ⟨rfl, rfl, rfl, rfl, hes, rfl⟩ := h
      refine ⟨es₀, rfl, ?_⟩
      have hidx := congrArg (List.map LogEntry.index) hes
      rwa [List.map_map, List.map_map] at hidx
    | _ => exact absurd h (by simp [FaultConfig.skeleton])

variable [Sha256] {n : ℕ} {cfg : FaultConfig} {rngs : NodeId → StdRng}
variable {ok : System.Guard NodeId RaftState Call NetworkMessage}
variable {w : World NodeId RaftState Call NetworkMessage}

/-- The nodes take the same steps, however the cluster was started. -/
theorem fires_withLeader {o : NodeStep RaftState} (h : (systemWithLeader n cfg rngs).Fires w o) :
    (system n cfg rngs).Fires w o := by
  cases h with
  | call i a hi => exact .call i a hi
  | recv m m' s out hm hsent hcarry hmem hrecv => exact .recv m m' s out hm hsent hcarry hmem hrecv

/-- What every node has at any time: an indexed log, and the sequences up to its commit index
    committed in order. -/
structure GapFree (nodes : NodeId → RaftState) (hist : History RaftState) : Prop where
  indexed : ∀ i, Indexed (nodes i).log
  indexed_sent : ∀ o ∈ hist, Indexed o.after.log
  sequences : ∀ i, (committedBy hist i).map CommittedEntry.sequence =
    List.range' 1 (nodes i).commitIndex

omit [Sha256] in
theorem GapFree.start {nodes : NodeId → RaftState} (hlog : ∀ i, (nodes i).log = [])
    (hcommit : ∀ i, (nodes i).commitIndex = 0) : GapFree nodes [] where
  indexed i k e he := by
    rw [hlog i] at he
    exact absurd he (by simp)
  indexed_sent o ho := absurd ho (by simp)
  sequences i := by
    rw [hcommit i]
    rfl

/-- **Every step keeps the stream gap-free.** -/
theorem GapFree.step (h : GapFree w.nodes w.history) {o : NodeStep RaftState}
    (hf : (system n cfg rngs).Fires w o) (hsaid : ∀ o₀ ∈ w.history,
      Effect (node n o₀.node) o₀.before o₀.cause o₀.after o₀.sent) :
    GapFree (Function.update w.nodes o.node o.after) (o :: w.history) := by
  have heff := effect_of_fires hf
  have hs := hf.before_eq
  -- a faulty leader changes payloads, but no index
  have hindexed : Indexed o.after.log := by
    refine heff.indexed (by rw [hs]; exact h.indexed o.node) ?_
    intro m t l pi pt es lc hc hm
    obtain ⟨_, o₀, ho₀, _, x, _, hskel, hsays⟩ := tampered_source hf hsaid hc
    obtain ⟨es₀, hm₀, hidx⟩ := appendEntries_of_skeleton hskel hm
    cases hm₀
    cases hsays with
    | appendEntries _ _ hbuild =>
      obtain ⟨_, _, hes, _⟩ := buildAppendEntries_eq (congrArg NetworkMessage.payload hbuild)
      refine Contiguous.congr ?_ hidx
      rw [hes]
      exact (h.indexed_sent o₀ ho₀).contiguous pi
  refine ⟨fun i => ?_, fun o' ho' => ?_, fun i => ?_⟩
  · by_cases hi : i = o.node
    · subst hi
      rw [Function.update_self]
      exact hindexed
    · rw [Function.update_of_ne hi]
      exact h.indexed i
  · rcases List.mem_cons.mp ho' with rfl | hold
    · exact hindexed
    · exact h.indexed_sent o' hold
  · rw [committedBy_cons, List.map_append, h.sequences i]
    by_cases hi : o.node = i
    · subst hi
      obtain ⟨i, c, s, s', out⟩ := o
      dsimp only at hs hindexed heff ⊢
      obtain ⟨hle, hseq⟩ := heff.emitted_sequences (i := i) hindexed
      rw [if_pos rfl, hseq, Function.update_self, ← hs, Nat.add_comm s.commitIndex 1,
        List.range'_append_1]
      congr 1
      omega
    · rw [if_neg hi, Function.update_of_ne (Ne.symm hi), List.map_nil, List.append_nil]

/-- A run keeps the stream gap-free, whatever the nodes were started with. -/
theorem GapFree.run {S : System NodeId RaftState Call NetworkMessage}
    (hS : ∀ w o, S.Fires w o → (system n cfg rngs).Fires w o) (h0 : GapFree S.init [])
    (hw : S.Reach ok w) : GapFree w.nodes w.history := by
  refine System.Reach.induct (N := GapFree) h0 ?_ hw
  intro w o hr ih _ hf
  exact ih.step (hS w o hf) (said_of_reach hS hr)

/-- **A gap-free stream at every node**, under all faults: entries carry the index of their
    position, and a node commits the sequences `1, 2, …` up to its commit index, in order. -/
theorem gap_free_stream (hw : (system n cfg rngs).Reach System.anyStep w ∨
    (systemWithLeader n cfg rngs).Reach System.anyStep w) (i : NodeId) :
    Indexed (w.nodes i).log ∧ (committedBy w.history i).map CommittedEntry.sequence =
      List.range' 1 (w.nodes i).commitIndex := by
  have hfree : GapFree w.nodes w.history := by
    rcases hw with hw | hw
    · exact .run (fun _ _ h => h) (.start (fun _ => rfl) fun _ => rfl) hw
    · refine .run (fun _ _ h => fires_withLeader h) (.start (fun j => ?_) fun j => ?_) hw
      · show (if j = 0 then _ else _ : RaftState).log = []
        split <;> rfl
      · show (if j = 0 then _ else _ : RaftState).commitIndex = 0
        split <;> rfl
  exact ⟨hfree.indexed i, hfree.sequences i⟩

omit [Sha256] in
/-- The leader of three equivocates: nodes `0` and `1` commit different payloads, but both
    streams are gap-free. -/
theorem gap_free_stream_three : ∃ w,
    (@systemWithLeader Sha256.sample 3 (FaultConfig.withByzantine {} 0 [.equivocate])
      fun _ => ⟨fun _ => 0⟩).Reach System.anyStep w ∧
    committedBy w.history 0 = [⟨1, ⟨[0x70]⟩⟩] ∧ committedBy w.history 1 = [⟨1, ⟨[0x70, 0xFF]⟩⟩] ∧
    ∀ i, Indexed (w.nodes i).log ∧ (committedBy w.history i).map CommittedEntry.sequence =
      List.range' 1 (w.nodes i).commitIndex := by
  obtain ⟨w, hw, h0, h1⟩ := System.Reach.exists_of_run
    (S := @systemWithLeader Sha256.sample 3 (FaultConfig.withByzantine {} 0 [.equivocate])
      fun _ => ⟨fun _ => 0⟩)
    (P := fun w => committedBy w.history 0 = [⟨1, ⟨[0x70]⟩⟩] ∧
      committedBy w.history 1 = [⟨1, ⟨[0x70, 0xFF]⟩⟩])
    [.call 0 (.propose ⟨[0x70]⟩), .deliver 0, .deliver 1, .call 0 .tick, .deliver 1]
    (by decide +kernel)
  exact ⟨w, hw, h0, h1, @gap_free_stream Sha256.sample 3 _ _ w (.inr hw)⟩

end Raft

end ConsensusBench
