import ConsensusBench.Raft.Append
import ConsensusBench.Tamper

namespace ConsensusBench

/-!
# Raft under a leader that forks its log

As long as nobody votes, node `0` leads term `1` as it was made to.  If it equivocates, what it
sends to odd nodes is not what it sends to even ones, and the nodes take over what they are sent.

* `Feeds` — what is on the way is a part of the leader's log, or an answer to one.
* `leader_step`, `follower_step` — the leader's log grows by its proposals, the others' by what the
  leader's log is for them.
* `Followed` — so at any time a node has committed the beginning of the leader's log, forked for it.
-/

open AsyncNet RaftNode

namespace Raft

/-- The node has neither voted nor seen a term after the first one. -/
def Calm (s : RaftState) : Prop := s.votedFor = none ∧ s.currentTerm ≤ 1

instance (s : RaftState) : Decidable (Calm s) := inferInstanceAs (Decidable (_ ∧ _))

/-- An entry as node `0` sends it to node `i`. -/
def forkEntry (cfg : FaultConfig) (i : NodeId) (e : LogEntry) : LogEntry :=
  { e with payload := e.payload.padded (forks (cfg.behaviors 0) i) }

/-- A log as node `0` sends it to node `i`. -/
def forkLog (cfg : FaultConfig) (i : NodeId) (log : List LogEntry) : List LogEntry :=
  log.map (forkEntry cfg i)

/-- What commits as an entry. -/
def LogEntry.toCommitted (e : LogEntry) : CommittedEntry := ⟨e.index, e.payload⟩

section Logs

variable {cfg : FaultConfig} {i : NodeId} {M F : List LogEntry}

theorem forkLog_indexed (h : Indexed M) : Indexed (forkLog cfg i M) := by
  intro k e he
  rw [forkLog, List.getElem?_map, Option.map_eq_some_iff] at he
  obtain ⟨x, hx, rfl⟩ := he
  exact h k x hx

theorem forkLog_terms (h : ∀ e ∈ M, e.term = 1) : ∀ e ∈ forkLog cfg i M, e.term = 1 := by
  intro e he
  obtain ⟨x, hx, rfl⟩ := List.mem_map.mp he
  exact h x hx

theorem forkLog_mono {M' : List LogEntry} (h : M <+: M') :
    forkLog cfg i M <+: forkLog cfg i M' := h.map _

/-- **Taking over a part of a log** that the own log is the beginning of. -/
theorem append_of_prefix (hM : Indexed M) (hF : F <+: M) {k p : ℕ} (hk : k ≤ M.length)
    (hp : p ≤ F.length) (hpk : p ≤ k) {log : List LogEntry}
    (hlog : ((M.take k).drop p).foldlM appendEntry F = some log) : F <+: log ∧ log <+: M := by
  have hpart : M.take k <+: M := List.take_prefix k M
  have hindexed : Indexed (M.take k) := by
    intro j e he
    obtain ⟨u, hu⟩ := hpart
    obtain ⟨hlt, _⟩ := List.getElem?_eq_some_iff.mp he
    exact hM j e (by rw [← hu, List.getElem?_append_left hlt, he])
  -- two beginnings of one log agree as far as they go
  have htake : ∀ {L : List LogEntry} {j}, L <+: M → j ≤ L.length → L.take j = M.take j := by
    rintro L j ⟨u, rfl⟩ hj
    exact (List.take_append_of_le_length hj).symm
  have hlen : (M.take k).length = k := by rw [List.length_take, min_eq_left hk]
  have hmatch : LogMatching F (M.take k) := by
    intro j x y hx hy _
    obtain ⟨hlt, _⟩ := List.getElem?_eq_some_iff.mp hx
    obtain ⟨hlt', _⟩ := List.getElem?_eq_some_iff.mp hy
    rw [htake hF hlt, htake hpart hlt']
  rw [foldlM_appendEntry hindexed hmatch (by rw [hlen]; exact hpk)
    (by rw [htake hF hp, htake hpart (by rw [hlen]; exact hpk)]), Option.some.injEq] at hlog
  rw [← hlog]
  split
  · exact ⟨List.prefix_refl F, hF⟩
  · rename_i hno
    exact ⟨(List.prefix_or_prefix_of_prefix hF hpart).resolve_right hno, hpart⟩

end Logs

/-! ### Messages -/

/-- The message can be on the way while the log of node `0` is `M`: if it has entries, they are a
    part of `M` sent by node `0`, and no other node reports to have more than `M`. -/
structure Feeds (M : List LogEntry) (m : NetworkMessage) : Prop where
  entries : ∀ t l pi pt es lc, m.payload = .raft (.appendEntries t l pi pt es lc) →
    m.sender = 0 ∧ m.target ≠ 0 ∧ (0 < pi → pt = 1) ∧
      ∃ k ≤ M.length, pi ≤ k ∧ es = (M.take k).drop pi
  success : ∀ t mi, m.payload = .raft (.appendEntriesResponse t true mi) → mi ≤ M.length
  answer : ∀ t b mi, m.payload = .raft (.appendEntriesResponse t b mi) → m.sender ≠ 0

/-- What a message of which `Feeds M` holds can be when it is delivered. -/
structure Reaches (cfg : FaultConfig) (M : List LogEntry) (m : NetworkMessage) : Prop where
  entries : ∀ t l pi pt es lc, m.payload = .raft (.appendEntries t l pi pt es lc) →
    m.target ≠ 0 ∧ (0 < pi → pt = 1) ∧
      ∃ k ≤ M.length, pi ≤ k ∧ es = ((forkLog cfg m.target M).take k).drop pi
  success : ∀ t mi, m.payload = .raft (.appendEntriesResponse t true mi) → mi ≤ M.length
  answer : ∀ t b mi, m.payload = .raft (.appendEntriesResponse t b mi) → m.sender ≠ 0

section Messages

variable {cfg : FaultConfig} {M M' : List LogEntry} {m m' : NetworkMessage}

/-- A growing log has all parts that it had. -/
theorem Feeds.mono (h : Feeds M m) (hM : M <+: M') : Feeds M' m := by
  refine ⟨fun t l pi pt es lc hpl => ?_, fun t mi hpl => (h.success t mi hpl).trans hM.length_le,
    h.answer⟩
  obtain ⟨hsender, htarget, hpt, k, hk, hpi, hes⟩ := h.entries t l pi pt es lc hpl
  refine ⟨hsender, htarget, hpt, k, hk.trans hM.length_le, hpi, ?_⟩
  obtain ⟨u, rfl⟩ := hM
  rw [List.take_append_of_le_length hk]
  exact hes

/-- An answer is delivered as it was sent. -/
theorem appendEntriesResponse_of_skeleton {x : ProtocolMessage} {t mi : ℕ} {b : Bool}
    (h : FaultConfig.skeleton (.raft (.appendEntriesResponse t b mi)) = FaultConfig.skeleton x) :
    x = .raft (.appendEntriesResponse t b mi) := by
  cases x with
  | pbft x => cases x <;> simp [FaultConfig.skeleton] at h
  | hotStuff x => cases x <;> simp [FaultConfig.skeleton] at h
  | raft x => cases x <;> simp_all [FaultConfig.skeleton]

/-- **What node `0` forks** is what it sends of its log. -/
theorem Feeds.tamper [Sha256] (h : Feeds M m) (hm : m' ∈ cfg.tamper m) : Reaches cfg M m' := by
  obtain ⟨hsender, htarget, hskel⟩ := cfg.frame_of_mem hm
  have hanswer : ∀ {t b mi}, m'.payload = .raft (.appendEntriesResponse t b mi) →
      m.payload = .raft (.appendEntriesResponse t b mi) := by
    intro t b mi hpl
    rw [hpl] at hskel
    exact appendEntriesResponse_of_skeleton hskel
  refine ⟨fun t l pi pt es lc hpl => ?_, fun t mi hpl => h.success t mi (hanswer hpl),
    fun t b mi hpl => ?_⟩
  · obtain ⟨es₀, hpl₀, _⟩ := appendEntries_of_skeleton hskel hpl
    obtain ⟨hzero, hne, hpt, k, hk, hpi, hes⟩ := h.entries t l pi pt es₀ lc hpl₀
    refine ⟨htarget ▸ hne, hpt, k, hk, hpi, ?_⟩
    have hpay := FaultConfig.payload_of_mem hm
    rw [hpl, hpl₀, hzero, tampered] at hpay
    cases hpay
    rw [htarget, hes, forkLog, ← List.map_take, ← List.map_drop]
    rfl
  · rw [hsender]
    exact h.answer t b mi (hanswer hpl)

end Messages

/-! ### Steps -/

section Steps

variable {cfg : FaultConfig} {n : ℕ} {i : NodeId} {M : List LogEntry} {s s' : RaftState}
variable {c : Cause Call NetworkMessage} {out : List NetworkMessage}

/-- A step that grants no vote records none. -/
theorem Effect.vote_source (h : Effect (node n i) s c s' out) (hvote : s'.votedFor ≠ none) :
    s.votedFor ≠ none ∨ 0 < s'.currentTerm ∨
      ∃ m cd li lt, c = .recv m ∧ m.payload = .raft (.requestVote 0 cd li lt) := by
  cases h with
  | stand => exact .inr (.inl (Nat.succ_pos _))
  | deny m t =>
    unfold observe at hvote
    split at hvote
    · exact absurd rfl hvote
    · exact .inl hvote
  | grant m t cd li lt hm hg =>
    rcases Nat.eq_zero_or_pos t with rfl | hpos
    · exact .inr (.inr ⟨m, cd, li, lt, rfl, hm⟩)
    · refine .inr (.inl (hpos.trans_le ?_))
      show t ≤ (observe s t).currentTerm
      rw [observe_currentTerm]
      exact le_max_right _ _
  | accept m t l pi pt es lc log s' hm ht hprev hlog hs =>
    rw [accept_eq hs] at hvote
    exact .inl hvote
  | commit m t mi k s' hm ht hr hk hs =>
    rw [commitUpTo_eq hs] at hvote
    exact .inl hvote
  | retry =>
    rw [backOff_votedFor] at hvote
    exact .inl hvote
  | _ => exact .inl hvote

/-- What node `0` sends another node of its log. -/
theorem feeds_buildAppendEntries {j : NodeId} (hj : j ≠ 0) (hM : ∀ e ∈ s.log, e.term = 1)
    (hnext : NextInLog s) : Feeds s.log ((node n 0).buildAppendEntries s j) := by
  refine ⟨fun t l pi pt es lc hpl => ?_,
    fun t mi hpl => absurd hpl (by simp [buildAppendEntries, msgTo]),
    fun t b mi hpl => absurd hpl (by simp [buildAppendEntries, msgTo])⟩
  obtain ⟨_, hle, hprev, hes, _⟩ := buildAppendEntries_inv hnext hpl
  refine ⟨rfl, hj, fun hpi => ?_, s.log.length, le_rfl, hle, by rw [List.take_length]; exact hes⟩
  rcases hprev with h0 | ⟨e, he, hterm⟩
  · omega
  · rw [← hterm]
    exact hM e (List.mem_of_getElem? he)

/-- What node `0` sends all others of its log. -/
theorem feeds_broadcast (hM : ∀ e ∈ s.log, e.term = 1) (hnext : NextInLog s) :
    ∀ m ∈ (node n 0).broadcastAppendEntries s, Feeds s.log m := by
  intro m hm
  obtain ⟨j, _, hne, rfl⟩ := mem_broadcastAppendEntries.mp hm
  exact feeds_buildAppendEntries hne hM hnext

/-- The answer to a request for a vote has no entries. -/
theorem feeds_reply {j : NodeId} {t : ℕ} {b : Bool} :
    ∀ m ∈ [(node n i).msgTo j (.raft (.requestVoteResponse t b))], Feeds M m := by
  intro m hm
  rw [List.mem_singleton.mp hm]
  exact ⟨fun t l pi pt es lc hpl => absurd hpl (by simp [msgTo]),
    fun t mi hpl => absurd hpl (by simp [msgTo]), fun t b mi hpl => absurd hpl (by simp [msgTo])⟩

/-- The answer of a node other than `0` to entries. -/
theorem feeds_answer {j : NodeId} {t mi : ℕ} {b : Bool} (hi : i ≠ 0)
    (hmi : b = true → mi ≤ M.length) :
    ∀ m ∈ [(node n i).msgTo j (.raft (.appendEntriesResponse t b mi))], Feeds M m := by
  intro m hm
  rw [List.mem_singleton.mp hm]
  refine ⟨fun t l pi pt es lc hpl => absurd hpl (by simp [msgTo]), fun t' mi' hpl => ?_,
    fun t' b' mi' hpl => hi⟩
  cases hpl
  exact hmi rfl

/-- **The leader's log** grows by what it proposes, while it is the leader. -/
theorem leader_step (h : Effect (node n 0) s c s' out) (hr : s.role = .leader)
    (ht : s.currentTerm = 1) (hM : ∀ e ∈ s.log, e.term = 1) (hnext : NextInLog s) (hs' : Calm s')
    (hc : ∀ m, c = .recv m → m.target = 0 ∧ Reaches cfg s.log m) :
    (s'.role = .leader ∧ s'.currentTerm = 1 ∧ NextInLog s') ∧
    (s'.log = s.log ∨ ∃ p, c = .call (.propose p) ∧ s'.log = s.log ++ [⟨1, s.log.length + 1, p⟩]) ∧
    ∀ m ∈ out, Feeds s'.log m := by
  have hown : ∀ {m t l pi pt es lc}, c = .recv m →
      m.payload ≠ .raft (.appendEntries t l pi pt es lc) := by
    intro m t l pi pt es lc hm hpl
    obtain ⟨htarget, hreach⟩ := hc m hm
    exact (hreach.entries t l pi pt es lc hpl).1 htarget
  -- most steps leave the log and the indices alone
  have hquiet : ∀ {s' : RaftState} {out : List NetworkMessage}, s'.role = .leader →
      s'.currentTerm = 1 → s'.log = s.log → s'.nextIndex = s.nextIndex →
      (∀ m ∈ out, Feeds s.log m) → (s'.role = .leader ∧ s'.currentTerm = 1 ∧ NextInLog s') ∧
      (s'.log = s.log ∨ ∃ p, c = .call (.propose p) ∧
        s'.log = s.log ++ [⟨1, s.log.length + 1, p⟩]) ∧ ∀ m ∈ out, Feeds s'.log m := by
    intro s' out hrole hterm heq hidx hout
    refine ⟨⟨hrole, hterm, ?_⟩, .inl heq, by rw [heq]; exact hout⟩
    unfold NextInLog
    rw [hidx, heq]
    exact hnext
  cases h with
  | refuse p hl => exact absurd hr hl
  | electionDown hl => exact absurd hr hl
  | stand hl => exact absurd hr hl
  | countVote m t hm hle hcand => exact absurd (hr.symm.trans hcand) (by decide)
  | win m t hm hle hcand => exact absurd (hr.symm.trans hcand) (by decide)
  | reject m t l pi pt es lc hm => exact absurd hm (hown rfl)
  | miss m t l pi pt es lc hm => exact absurd hm (hown rfl)
  | conflict m t l pi pt es lc e hm => exact absurd hm (hown rfl)
  | accept m t l pi pt es lc log s' hm => exact absurd hm (hown rfl)
  | grant => exact absurd hs'.1 (by simp [resetElectionTimeout])
  | stepDown m t hm hlt =>
    have hle : t ≤ 1 := hs'.2
    omega
  | append p hl =>
    have hM' : ∀ e ∈ s.log ++ [⟨s.currentTerm, s.log.length + 1, p⟩], e.term = 1 := by
      intro e he
      rcases List.mem_append.mp he with he | he
      · exact hM e he
      · rw [List.mem_singleton.mp he]
        exact ht
    have hnext' := hnext.append ⟨s.currentTerm, s.log.length + 1, p⟩
    exact ⟨⟨hr, ht, hnext'⟩, .inr ⟨p, rfl, by rw [ht]⟩, feeds_broadcast hM' hnext'⟩
  | heartbeat hl => exact hquiet hr ht rfl rfl (feeds_broadcast hM hnext)
  | deny m t =>
    -- the leader knows of a term that late
    have hterm : (observe s t).currentTerm ≤ 1 := hs'.2
    have heq : observe s t = s := by
      rw [observe_currentTerm] at hterm
      unfold observe
      rw [if_neg (by omega)]
    rw [heq]
    exact hquiet hr ht rfl rfl feeds_reply
  | record m t mi hm =>
    exact ⟨⟨hr, ht, hnext.recordMatch ((hc m rfl).2.success t mi hm)⟩, .inl rfl, by simp⟩
  | commit m t mi k s' hm hle hl hk hs =>
    rw [commitUpTo_eq hs]
    have hnext' : NextInLog (recordMatch s m.sender mi) :=
      hnext.recordMatch ((hc m rfl).2.success t mi hm)
    exact ⟨⟨hr, ht, hnext'⟩, .inl rfl, by simp⟩
  | retry m t mi hm =>
    have hnext' : NextInLog (backOff s m.sender) := hnext.backOff
    have hlog := backOff_log s m.sender
    refine ⟨⟨(backOff_role s _).trans hr, (backOff_currentTerm s _).trans ht, hnext'⟩, .inl hlog,
      fun m' hm' => ?_⟩
    rw [List.mem_singleton.mp hm']
    refine feeds_buildAppendEntries ((hc m rfl).2.answer t false mi hm) ?_ hnext'
    rw [hlog]
    exact hM
  | _ => exact hquiet hr ht rfl rfl (by simp)

/-- **The log of another node** grows by what node `0` sends it, while it is a follower. -/
theorem follower_step (h : Effect (node n i) s c s' out) (hi : i ≠ 0) (hr : s.role = .follower)
    (hM : Indexed M) (hterms : ∀ e ∈ M, e.term = 1) (hlog : s.log <+: forkLog cfg i M)
    (hs' : Calm s') (hc : ∀ m, c = .recv m → m.target = i ∧ Reaches cfg M m) :
    s'.role = .follower ∧ s.log <+: s'.log ∧ s'.log <+: forkLog cfg i M ∧
      ∀ m ∈ out, Feeds M m := by
  have hquiet : ∀ {s' : RaftState} {out : List NetworkMessage}, s'.role = .follower →
      s'.log = s.log → (∀ m ∈ out, Feeds M m) →
      s'.role = .follower ∧ s.log <+: s'.log ∧ s'.log <+: forkLog cfg i M ∧
        ∀ m ∈ out, Feeds M m := by
    intro s' out hrole heq hout
    rw [heq]
    exact ⟨hrole, List.prefix_refl _, hlog, hout⟩
  have hnone : ∀ m ∈ ([] : List NetworkMessage), Feeds M m := by simp
  have hnot : s.role ≠ .leader := by
    rw [hr]
    decide
  cases h with
  | append p hl => exact absurd hl hnot
  | heartbeatDown hl => exact absurd hl hnot
  | heartbeat hl => exact absurd hl hnot
  | stand => exact absurd hs'.1 (by simp [stand, resetElectionTimeout])
  | grant => exact absurd hs'.1 (by simp [resetElectionTimeout])
  | countVote m t hm ht hcand => exact absurd (hr.symm.trans hcand) (by decide)
  | win m t hm ht hcand => exact absurd (hr.symm.trans hcand) (by decide)
  | record m t mi hm ht hl => exact absurd hl hnot
  | commit m t mi k s' hm ht hl => exact absurd hl hnot
  | retry m t mi hm ht hl => exact absurd hl hnot
  | deny m t =>
    refine hquiet ?_ (observe_log s t) feeds_reply
    unfold observe
    split
    · rfl
    · exact hr
  | stepDown => exact hquiet rfl rfl hnone
  | reject => exact hquiet hr rfl (feeds_answer hi (by simp))
  | miss => exact hquiet rfl rfl (feeds_answer hi (by simp))
  | conflict m t l pi pt es lc e hm ht hpi he hne =>
    -- all entries are of the first term
    exfalso
    obtain ⟨_, hpt, _⟩ := (hc m rfl).2.entries t l pi pt es lc hm
    have hmem : e ∈ forkLog cfg i M := hlog.subset (List.mem_of_getElem? he)
    exact hne ((forkLog_terms hterms e hmem).trans (hpt hpi).symm)
  | accept m t l pi pt es lc log s' hm ht hprev happend hcommit =>
    obtain ⟨htarget, hreach⟩ := hc m rfl
    obtain ⟨_, _, k, hk, hpi, hes⟩ := hreach.entries t l pi pt es lc hm
    have hle : pi ≤ s.log.length := by
      rcases hprev with h0 | ⟨e, he, _⟩
      · omega
      · obtain ⟨hlt, _⟩ := List.getElem?_eq_some_iff.mp he
        omega
    rw [htarget] at hes
    rw [hes] at happend
    obtain ⟨hgrow, hpre⟩ := append_of_prefix (forkLog_indexed hM) hlog
      (by rw [forkLog, List.length_map]; exact hk) hle hpi happend
    have hlen : log.length ≤ M.length := by
      have hle := hpre.length_le
      rwa [forkLog, List.length_map] at hle
    have heq := accept_eq hcommit
    refine ⟨?_, ?_, ?_, feeds_answer hi fun _ => hlen⟩
    · rw [heq]
      rfl
    · rw [heq]
      exact hgrow
    · rw [heq]
      exact hpre
  | _ => exact hquiet hr rfl hnone

end Steps

/-! ### Commits -/

section Commits

variable {n : ℕ} {i : NodeId} {s s' : RaftState} {c : Cause Call NetworkMessage}
variable {out : List NetworkMessage}

/-- **A step commits the entries** between the old commit index and the new one. -/
theorem Effect.emitted_slice (h : Effect (node n i) s c s' out) (hle : s.commitIndex ≤ s.log.length)
    (hgrow : s.log <+: s'.log) : s.commitIndex ≤ s'.commitIndex ∧ s'.commitIndex ≤ s'.log.length ∧
      emitted ⟨i, c, s, s', out⟩ =
        ((s'.log.take s'.commitIndex).drop s.commitIndex).map LogEntry.toCommitted := by
  have hnone : s'.commitIndex = s.commitIndex → emitted ⟨i, c, s, s', out⟩ = [] →
      s.commitIndex ≤ s'.commitIndex ∧ s'.commitIndex ≤ s'.log.length ∧
      emitted ⟨i, c, s, s', out⟩ =
        ((s'.log.take s'.commitIndex).drop s.commitIndex).map LogEntry.toCommitted := by
    intro hcommit hnil
    have hempty : (s'.log.take s'.commitIndex).drop s.commitIndex = [] := by
      rw [List.drop_eq_nil_iff, List.length_take, hcommit]
      exact min_le_left _ _
    rw [hnil, hempty, hcommit]
    exact ⟨le_rfl, hle.trans hgrow.length_le, rfl⟩
  have hquiet : s'.commitIndex = s.commitIndex → s'.committed = s.committed →
      s.commitIndex ≤ s'.commitIndex ∧ s'.commitIndex ≤ s'.log.length ∧
      emitted ⟨i, c, s, s', out⟩ =
        ((s'.log.take s'.commitIndex).drop s.commitIndex).map LogEntry.toCommitted :=
    fun hcommit hq => hnone hcommit (emitted_eq_nil (o := ⟨i, c, s, s', out⟩) hq)
  have hcommit : ∀ {s₁ : RaftState} {k : ℕ}, commitUpTo s₁ k = some s' →
      s₁.committed = s.committed → s₁.commitIndex = s.commitIndex →
      s.commitIndex ≤ s'.commitIndex ∧ s'.commitIndex ≤ s'.log.length ∧
      emitted ⟨i, c, s, s', out⟩ =
        ((s'.log.take s'.commitIndex).drop s.commitIndex).map LogEntry.toCommitted := by
    intro s₁ k hs hq hci
    obtain ⟨hle, hlen, rfl⟩ := commitUpTo_eq_some.mp hs
    rw [emitted_eq (o := ⟨i, c, s, _, out⟩) (congrArg (· ++ _) hq), ← hci]
    exact ⟨hle, hlen, rfl⟩
  cases h with
  | poll => exact hnone rfl (by simp [emitted, CommitQueue.committed])
  | deny m t => exact hquiet (observe_commitIndex s t) (observe_committed s t)
  | grant m t => exact hquiet (observe_commitIndex s t) (observe_committed s t)
  | accept m t l pi pt es lc log s' hm ht hprev hlog hs =>
    split at hs
    · exact hcommit hs rfl rfl
    · cases hs
      exact hquiet rfl rfl
  | commit m t mi k s' hm ht hr hk hs => exact hcommit hs rfl rfl
  | retry => exact hquiet (backOff_commitIndex s _) (backOff_committed s _)
  | _ => exact hquiet rfl rfl

/-- What a node has committed of a growing log. -/
theorem committed_of_slice {log log' : List LogEntry} {a b : ℕ} (ha : a ≤ log.length) (hab : a ≤ b)
    (hgrow : log <+: log') : (log.take a).map LogEntry.toCommitted ++
      ((log'.take b).drop a).map LogEntry.toCommitted = (log'.take b).map LogEntry.toCommitted := by
  obtain ⟨u, rfl⟩ := hgrow
  have hfirst : log.take a = ((log ++ u).take b).take a := by
    rw [List.take_take, min_eq_left hab, List.take_append_of_le_length ha]
  rw [← List.map_append, hfirst, List.take_append_drop]

end Commits

/-! ### Runs -/

/-- Node `0` leads, and the others have what it has sent them of its log. -/
structure Followed (cfg : FaultConfig) (nodes : NodeId → RaftState) (hist : History RaftState) :
    Prop where
  leads : (nodes 0).role = .leader ∧ (nodes 0).currentTerm = 1 ∧ NextInLog (nodes 0)
  terms : ∀ e ∈ (nodes 0).log, e.term = 1
  proposed : ∀ e ∈ (nodes 0).log, ∃ o ∈ hist, o.cause = .call (.propose e.payload)
  follows : ∀ i, i ≠ 0 → (nodes i).role = .follower ∧
    (nodes i).log <+: forkLog cfg i (nodes 0).log
  feeds : ∀ o ∈ hist, ∀ m ∈ o.sent, Feeds (nodes 0).log m
  commit_le : ∀ i, (nodes i).commitIndex ≤ (nodes i).log.length
  committed : ∀ i, committedBy hist i =
    ((nodes i).log.take (nodes i).commitIndex).map LogEntry.toCommitted

section Runs

variable [Sha256] {n : ℕ} {cfg : FaultConfig} {rngs : NodeId → StdRng}
variable {ok : System.Guard NodeId RaftState Call NetworkMessage}
variable {w : World NodeId RaftState Call NetworkMessage}

/-- Votes are of terms after `0`. -/
theorem voted_pos (hw : (systemWithLeader n cfg rngs).Reach ok w) :
    ∀ i, (w.nodes i).votedFor ≠ none → 0 < (w.nodes i).currentTerm := by
  refine hw.everywhere (I := fun _ s => s.votedFor ≠ none → 0 < s.currentTerm) ?_ ?_
  · intro i hvote
    refine absurd ?_ hvote
    show (if i = 0 then _ else _ : RaftState).votedFor = none
    split
    · rfl
    · rfl
  · intro w o hr ih _ hf hvote
    have hfires := fires_withLeader hf
    have heff := effect_of_fires hfires
    rcases heff.vote_source hvote with hold | hpos | ⟨m, cd, li, lt, hc, hm⟩
    · exact (ih hold).trans_le heff.term_mono
    · exact hpos
    · have hpos := (candidate_eq_sender hfires (said_of_reach (fun _ _ h => fires_withLeader h) hr)
        hc hm).2
      exact absurd hpos (lt_irrefl 0)

/-- A cluster from a leader is gap-free, under any guard. -/
theorem gapFree_of_reach (hw : (systemWithLeader n cfg rngs).Reach ok w) :
    GapFree w.nodes w.history := by
  refine .run (fun _ _ h => fires_withLeader h) (.start (fun j => ?_) fun j => ?_) hw
  · show (if j = 0 then _ else _ : RaftState).log = []
    split
    · rfl
    · rfl
  · show (if j = 0 then _ else _ : RaftState).commitIndex = 0
    split
    · rfl
    · rfl

/-- A node that is calm was so before. -/
theorem calm_before (hw : (systemWithLeader n cfg rngs).Reach ok w) {o : NodeStep RaftState}
    (hf : (systemWithLeader n cfg rngs).Fires w o) (h : Calm o.after) : Calm o.before := by
  have heff := effect_of_fires (fires_withLeader hf)
  refine ⟨?_, heff.term_mono.trans h.2⟩
  by_contra hvote
  obtain ⟨x, hx⟩ := Option.ne_none_iff_exists'.mp hvote
  have hpos : 0 < o.before.currentTerm := by
    rw [hf.before_eq] at hvote ⊢
    exact voted_pos hw o.node hvote
  have hsame : o.after.currentTerm = o.before.currentTerm := by
    have hmono := heff.term_mono
    have hle := h.2
    omega
  exact absurd ((heff.votedFor_kept hsame hx).symm.trans h.1) (by simp)

/-- What a step of a followed leader can receive. -/
theorem Followed.reaches (h : Followed cfg w.nodes w.history) {o : NodeStep RaftState}
    (hf : (systemWithLeader n cfg rngs).Fires w o) {m : NetworkMessage} (hm : o.cause = .recv m) :
    m.target = o.node ∧ Reaches cfg (w.nodes 0).log m := by
  obtain ⟨hdst, o₀, ho₀, m₀, hmo, hcarry⟩ := hf.recv_inv hm
  refine ⟨hdst, (h.feeds o₀ ho₀ m₀ hmo).tamper ?_⟩
  rw [show cfg.tamper m₀ = [m] from hcarry]
  exact List.mem_singleton_self m

omit [Sha256] in
/-- **Every node has committed a beginning of its log** behind a step that takes nothing from the
    log of its node: the entries that are committed now go on where those before end. -/
theorem Followed.committed_step {nodes : NodeId → RaftState} {hist : History RaftState}
    (h : Followed cfg nodes hist) {i : NodeId} {c : Cause Call NetworkMessage} {s' : RaftState}
    {out : List NetworkMessage} (heff : Effect (node n i) (nodes i) c s' out)
    (hgrow : (nodes i).log <+: s'.log) (j : NodeId) :
    (Function.update nodes i s' j).commitIndex ≤ (Function.update nodes i s' j).log.length ∧
      committedBy (⟨i, c, nodes i, s', out⟩ :: hist) j =
        ((Function.update nodes i s' j).log.take (Function.update nodes i s' j).commitIndex).map
          LogEntry.toCommitted := by
  rw [committedBy_cons]
  by_cases hj : j = i
  · subst hj
    obtain ⟨hle, hlen, hemit⟩ := heff.emitted_slice (h.commit_le j) hgrow
    rw [Function.update_self, if_pos rfl, h.committed j, hemit]
    exact ⟨hlen, committed_of_slice (h.commit_le j) hle hgrow⟩
  · rw [Function.update_of_ne hj, if_neg (Ne.symm hj), List.append_nil]
    exact ⟨h.commit_le j, h.committed j⟩

omit [Sha256] in
/-- Every entry behind a step was there before, or it is one that the step proposes. -/
theorem mem_of_proposes {s s' : RaftState} {c : Cause Call NetworkMessage}
    (hlog : s'.log = s.log ∨
      ∃ p, c = .call (.propose p) ∧ s'.log = s.log ++ [⟨1, s.log.length + 1, p⟩])
    {e : LogEntry} (he : e ∈ s'.log) :
    e ∈ s.log ∨ e.term = 1 ∧ c = .call (.propose e.payload) := by
  rcases hlog with heq | ⟨p, hp, heq⟩
  · rw [heq] at he
    exact .inl he
  · rw [heq] at he
    rcases List.mem_append.mp he with he | he
    · exact .inl he
    · rw [List.mem_singleton.mp he]
      exact .inr ⟨rfl, hp⟩

omit [Sha256] in
/-- **A step of node `0`** keeps the others behind it. -/
theorem Followed.lead {nodes : NodeId → RaftState} {hist : History RaftState}
    (h : Followed cfg nodes hist) {c : Cause Call NetworkMessage} {s' : RaftState}
    {out : List NetworkMessage} (heff : Effect (node n 0) (nodes 0) c s' out) (hcalm : Calm s')
    (hc : ∀ m, c = .recv m → m.target = 0 ∧ Reaches cfg (nodes 0).log m) :
    Followed cfg (Function.update nodes 0 s') (⟨0, c, nodes 0, s', out⟩ :: hist) := by
  obtain ⟨hlead, hterm, hnext⟩ := h.leads
  obtain ⟨hleads, hlog, hsent⟩ := leader_step heff hlead hterm h.terms hnext hcalm hc
  have hgrow : (nodes 0).log <+: s'.log := by
    rcases hlog with heq | ⟨p, _, heq⟩
    · rw [heq]
    · rw [heq]
      exact List.prefix_append _ _
  have hcommitted := h.committed_step heff hgrow
  have hzero : Function.update nodes 0 s' 0 = s' := Function.update_self _ _ _
  refine ⟨by rw [hzero]; exact hleads, fun e he => ?_, fun e he => ?_, fun j hj => ?_,
    fun o ho m hm => ?_, fun j => (hcommitted j).1, fun j => (hcommitted j).2⟩
  · rw [hzero] at he
    rcases mem_of_proposes hlog he with hold | ⟨hone, _⟩
    · exact h.terms e hold
    · exact hone
  · rw [hzero] at he
    rcases mem_of_proposes hlog he with hold | ⟨_, hp⟩
    · obtain ⟨o, ho, hp⟩ := h.proposed e hold
      exact ⟨o, List.mem_cons_of_mem _ ho, hp⟩
    · exact ⟨_, List.mem_cons_self, hp⟩
  · rw [Function.update_of_ne hj, hzero]
    obtain ⟨hrole, hpre⟩ := h.follows j hj
    exact ⟨hrole, hpre.trans (forkLog_mono hgrow)⟩
  · rw [hzero]
    rcases List.mem_cons.mp ho with rfl | ho
    · exact hsent m hm
    · exact (h.feeds o ho m hm).mono hgrow

omit [Sha256] in
/-- **A step of another node** keeps it behind node `0`. -/
theorem Followed.follow {nodes : NodeId → RaftState} {hist : History RaftState}
    (h : Followed cfg nodes hist) {i : NodeId} {c : Cause Call NetworkMessage} {s' : RaftState}
    {out : List NetworkMessage} (heff : Effect (node n i) (nodes i) c s' out) (hi : i ≠ 0)
    (hindexed : Indexed (nodes 0).log) (hcalm : Calm s')
    (hc : ∀ m, c = .recv m → m.target = i ∧ Reaches cfg (nodes 0).log m) :
    Followed cfg (Function.update nodes i s') (⟨i, c, nodes i, s', out⟩ :: hist) := by
  obtain ⟨hrole, hpre⟩ := h.follows i hi
  obtain ⟨hrole', hgrow, hpre', hsent⟩ :=
    follower_step heff hi hrole hindexed h.terms hpre hcalm hc
  have hcommitted := h.committed_step heff hgrow
  have hzero : Function.update nodes i s' 0 = nodes 0 := Function.update_of_ne (Ne.symm hi) _ _
  refine ⟨by rw [hzero]; exact h.leads, by rw [hzero]; exact h.terms, fun e he => ?_,
    fun j hj => ?_, fun o ho m hm => ?_, fun j => (hcommitted j).1, fun j => (hcommitted j).2⟩
  · rw [hzero] at he
    obtain ⟨o, ho, hp⟩ := h.proposed e he
    exact ⟨o, List.mem_cons_of_mem _ ho, hp⟩
  · rw [hzero]
    by_cases hji : j = i
    · subst hji
      rw [Function.update_self]
      exact ⟨hrole', hpre'⟩
    · rw [Function.update_of_ne hji]
      exact h.follows j hj
  · rw [hzero]
    rcases List.mem_cons.mp ho with rfl | ho
    · exact hsent m hm
    · exact h.feeds o ho m hm

/-- **Every step keeps the others behind node `0`**, if nobody votes. -/
theorem Followed.step (h : Followed cfg w.nodes w.history)
    (hw : (systemWithLeader n cfg rngs).Reach ok w) {o : NodeStep RaftState}
    (hf : (systemWithLeader n cfg rngs).Fires w o) (hcalm : Calm o.after) :
    Followed cfg (Function.update w.nodes o.node o.after) (o :: w.history) := by
  have heff := effect_of_fires (fires_withLeader hf)
  have hs := hf.before_eq
  have hc := fun m => h.reaches hf (m := m)
  obtain ⟨i, c, s, s', out⟩ := o
  dsimp only at heff hs hc hcalm ⊢
  subst hs
  by_cases hi : i = 0
  · subst hi
    exact h.lead heff hcalm hc
  · exact h.follow heff hi ((gapFree_of_reach hw).indexed 0) hcalm hc

/-- The others start behind node `0`. -/
theorem Followed.start : Followed cfg (systemWithLeader n cfg rngs).init [] := by
  have hfollower : ∀ i, i ≠ 0 → (systemWithLeader n cfg rngs).init i =
      (RaftNode.newSeeded i n (rngs i)).2 := fun i hi => if_neg hi
  have hempty : ∀ i, ((systemWithLeader n cfg rngs).init i).log = [] ∧
      ((systemWithLeader n cfg rngs).init i).commitIndex = 0 := by
    intro i
    show (if i = 0 then _ else _ : RaftState).log = [] ∧
      (if i = 0 then _ else _ : RaftState).commitIndex = 0
    split
    · exact ⟨rfl, rfl⟩
    · exact ⟨rfl, rfl⟩
  refine ⟨⟨rfl, rfl, ?_⟩, ?_, ?_, fun i hi => ⟨?_, ?_⟩, fun o ho => ?_, fun i => ?_, fun i => ?_⟩
  · intro j x hx
    replace hx : ((node n 0).initIndices
        { (RaftNode.newSeeded 0 n (rngs 0)).2 with
          role := .leader
          currentTerm := 1
          leaderId := some 0
          leaderIdAtomic := 0 }).nextIndex.lookup j = some x := hx
    rw [lookup_initIndices_next] at hx
    split at hx
    · rw [(hempty 0).1]
      cases hx
      exact ⟨Nat.one_pos, le_rfl⟩
    · cases hx
  · intro e he
    rw [(hempty 0).1] at he
    exact absurd he List.not_mem_nil
  · intro e he
    rw [(hempty 0).1] at he
    exact absurd he List.not_mem_nil
  · rw [hfollower i hi]
    rfl
  · rw [(hempty i).1]
    exact List.nil_prefix
  · exact absurd ho List.not_mem_nil
  · rw [(hempty i).2]
    exact Nat.zero_le _
  · rw [(hempty i).1, List.take_nil]
    rfl

/-- **A calm cluster is behind its leader**: no node of it has voted, so none ever has. -/
theorem followed_of_calm (hw : (systemWithLeader n cfg rngs).Reach ok w)
    (hcalm : ∀ i < n, Calm (w.nodes i)) : Followed cfg w.nodes w.history := by
  refine System.Reach.induct
    (N := fun nodes hist => (∀ i < n, Calm (nodes i)) → Followed cfg nodes hist)
    (fun _ => .start) ?_ hw hcalm
  intro w o hr ih _ hf hafter
  have hnode : o.node < n := List.mem_range.mp hf.node_mem
  have ho : Calm o.after := by
    have := hafter o.node hnode
    rwa [Function.update_self] at this
  refine (ih fun i hi => ?_).step hr hf ho
  by_cases hi' : i = o.node
  · rw [hi', ← hf.before_eq]
    exact calm_before hr hf ho
  · have := hafter i hi
    rwa [Function.update_of_ne hi'] at this

end Runs

end Raft

end ConsensusBench
