import ConsensusBench.Leaders
import ConsensusBench.Lib.Relay
import ConsensusBench.Raft.CatchUp
import ConsensusBench.Raft.Feed
import ConsensusBench.Raft.Split
import ConsensusBench.Record
import ConsensusBench.Timed

namespace ConsensusBench

/-!
# A Raft leader that has won

Node `l` leads term `t` with the log `F`, and the live nodes have no more than that.  Nothing but
its entries, their acknowledgements and what is left of its election is on the way.

* `Member`, `Follows`, `Rules` — the nodes, and what they make of a message.
* `Reign` — the nodes and the messages; `Reign.receive` is a delivery.
* `Reign.propose` — a proposal, when all live nodes have the whole log.
* `Rules.committed` — when nothing is left to deliver, the leader has committed its log.
-/

open AsyncNet RaftNode Relay

namespace Raft

/-! ### Nodes -/

/-- A node that has seen no term after `t`; its log lies between `M` and `F`. -/
structure Member (t : ℕ) (M F : List LogEntry) (s : RaftState) : Prop where
  role : s.role ≠ .leader
  term : s.currentTerm ≤ t
  base : M <+: s.log
  upto : s.log <+: F
  commit : s.commitIndex ≤ s.log.length

/-- A node that follows `l` in term `t`, and has the log `F`. -/
structure Follows (l : NodeId) (t : ℕ) (F : List LogEntry) (s : RaftState) : Prop where
  term : s.currentTerm = t
  log : s.log = F
  leader : s.leaderId = some l
  atomic : s.leaderIdAtomic = l

/-- A node that has heard of the whole log from `l`.  Its timer is longer than the time to the next
    heartbeat, and if `C` it has committed the log. -/
structure Heard (l : NodeId) (t : ℕ) (F : List LogEntry) (C : Prop) (s : RaftState) : Prop
    extends Follows l t F s where
  timer : HEARTBEAT_INTERVAL < s.electionTicksRemaining
  commit : C → s.commitIndex = F.length

/-- The leader `l` of term `t`: it has committed all of its term that a majority has. -/
structure Rules (n : ℕ) (l : NodeId) (t : ℕ) (F : List LogEntry) (s : RaftState) : Prop where
  role : s.role = .leader
  term : s.currentTerm = t
  log : s.log = F
  leader : s.leaderId = some l
  atomic : s.leaderIdAtomic = l
  commit : s.commitIndex ≤ F.length
  counts : ∀ j x, s.matchIndex.lookup j = some x → x ≤ F.length
  waits : ∀ k, s.commitIndex < k → k ≤ F.length → (F[k - 1]?.all fun e => e.term = t) = true →
    replicatedOn s k < n / 2 + 1

/-- The leader knows that `j` has all of its log. -/
structure Knows (F : List LogEntry) (s : RaftState) (j : NodeId) : Prop where
  acked : s.matchIndex.lookup j = some F.length
  next : nextFor s j = F.length + 1

/-- The log `F` with a payload that was proposed in term `t`. -/
def extended (t : ℕ) (F : List LogEntry) (p : Payload) : List LogEntry :=
  F ++ [⟨t, F.length + 1, p⟩]

/-! ### Messages -/

/-- `l` asks for a vote. -/
def voteRequest (l : NodeId) (t : ℕ) (M : List LogEntry) (j : NodeId) : NetworkMessage :=
  ⟨l, j, .raft (.requestVote t l M.length (lastTerm M))⟩

/-- The answer of `j`. -/
def voteAnswer (l : NodeId) (t : ℕ) (b : Bool) (j : NodeId) : NetworkMessage :=
  ⟨j, l, .raft (.requestVoteResponse t b)⟩

/-- What `l` sends of its log. -/
def entriesFor (l : NodeId) (t : ℕ) (M F : List LogEntry) (pt lc : ℕ) (j : NodeId) :
    NetworkMessage :=
  ⟨l, j, .raft (.appendEntries t l M.length pt (F.drop M.length) lc)⟩

/-- The acknowledgement of `j`. -/
def entriesAnswer (l : NodeId) (t : ℕ) (F : List LogEntry) (j : NodeId) : NetworkMessage :=
  ⟨j, l, .raft (.appendEntriesResponse t true F.length)⟩

/-- What is on the way between live nodes, if `l` knows that node `j` has `M j`. -/
inductive Talk (l : NodeId) (t : ℕ) (M : NodeId → List LogEntry) (F : List LogEntry) :
    NetworkMessage → Prop
  | request (B : List LogEntry) (j : NodeId) (hj : j ≠ l) : Talk l t M F (voteRequest l t B j)
  | answer (b : Bool) (j : NodeId) (hj : j ≠ l) : Talk l t M F (voteAnswer l t b j)
  | entries (pt lc : ℕ) (j : NodeId) (hj : j ≠ l) (hprev : prevMatches (M j) (M j).length pt) :
      Talk l t M F (entriesFor l t (M j) F pt lc j)
  | acknowledge (j : NodeId) (hj : j ≠ l) : Talk l t M F (entriesAnswer l t F j)

/-- How many messages can follow on a message. -/
def followUps : ProtocolMessage → ℕ
  | .raft (.requestVote ..) => 3
  | .raft (.requestVoteResponse ..) => 2
  | .raft (.appendEntries ..) => 1
  | _ => 0

theorem followUps_le (m : ProtocolMessage) : followUps m ≤ 3 := by
  unfold followUps
  split <;> decide

section Nodes

variable {n : ℕ} {I : Finset NodeId} {l i j : NodeId} {t : ℕ} {M F : List LogEntry}
variable {s : RaftState}

/-- A timer that was reset outlasts the time to the next heartbeat. -/
theorem lt_resetElectionTimeout (s : RaftState) :
    HEARTBEAT_INTERVAL < (resetElectionTimeout s).electionTicksRemaining := by
  show 5 < 15 + s.rng.draws 0 % (30 - 15 + 1)
  omega

/-- Two beginnings of one log match. -/
theorem LogMatching.of_prefix {L L' : List LogEntry} (h : L <+: F) (h' : L' <+: F) :
    LogMatching L L' := by
  intro k x y hx hy _
  have htake : ∀ {L : List LogEntry} {x : LogEntry}, L <+: F → L[k]? = some x →
      L.take (k + 1) = F.take (k + 1) := by
    rintro L x ⟨u, rfl⟩ hx
    obtain ⟨hk, _⟩ := List.getElem?_eq_some_iff.mp hx
    exact (List.take_append_of_le_length hk).symm
  rw [htake h hx, htake h' hy]

/-- **A request for a vote** is answered; it is granted by a node that has not voted for another
    candidate of the term, and has no longer log. -/
theorem Member.vote (h : Member t M F s) (B : List LogEntry) : ∃ s' b,
    (node n j).handleMessage s (voteRequest l t B j) = some (s', [voteAnswer l t b j]) ∧
      Member t M F s' ∧ s'.log = s.log ∧ (∀ {C}, Heard l t F C s → Heard l t F C s') ∧
      (s.currentTerm < t ∨ s.votedFor = some l → s.log = B →
        b = true ∧ s'.currentTerm = t ∧ s'.votedFor = some l) := by
  let after : RaftState := if voteGranted (observe s t) t l B.length (lastTerm B) then
      resetElectionTimeout { observe s t with votedFor := some l } else observe s t
  have hterm : (observe s t).currentTerm = t := by
    rw [observe_currentTerm]
    exact max_eq_right h.term
  have hrole : (observe s t).role ≠ .leader := by
    unfold observe
    split
    · exact (nomatch ·)
    · exact h.role
  have hmember : ∀ {s' : RaftState}, s'.role = (observe s t).role →
      s'.currentTerm = (observe s t).currentTerm → s'.log = (observe s t).log →
      s'.commitIndex = (observe s t).commitIndex → Member t M F s' := by
    intro s' hr ht hl hc
    rw [observe_log] at hl
    refine ⟨hr ▸ hrole, (ht.trans hterm).le, hl ▸ h.base, hl ▸ h.upto, ?_⟩
    rw [hc, hl, observe_commitIndex]
    exact h.commit
  have hheard : ∀ {s' : RaftState} {C : Prop}, s'.currentTerm = (observe s t).currentTerm →
      s'.log = (observe s t).log → s'.leaderId = (observe s t).leaderId →
      s'.leaderIdAtomic = (observe s t).leaderIdAtomic →
      s'.commitIndex = (observe s t).commitIndex →
      s'.electionTicksRemaining = (observe s t).electionTicksRemaining ∨
        HEARTBEAT_INTERVAL < s'.electionTicksRemaining → Heard l t F C s → Heard l t F C s' := by
    intro s' C ht hl hi ha hc htimer hh
    have hsame : observe s t = s := if_neg (not_lt.mpr hh.term.ge)
    rw [hsame] at ht hl hi ha hc htimer
    refine ⟨⟨ht.trans hh.term, hl.trans hh.log, hi.trans hh.leader, ha.trans hh.atomic⟩, ?_,
      fun hC => hc.trans (hh.commit hC)⟩
    exact htimer.elim (fun heq => heq ▸ hh.timer) id
  have hform : (node n j).handleMessage s (voteRequest l t B j) = some (after,
      [⟨j, l, .raft (.requestVoteResponse after.currentTerm
        (voteGranted (observe s t) t l B.length (lastTerm B)))⟩]) := rfl
  cases hg : voteGranted (observe s t) t l B.length (lastTerm B) with
  | false =>
    have hafter : after = observe s t := if_neg (by rw [hg]; decide)
    rw [hafter, hterm, hg] at hform
    refine ⟨_, _, hform, hmember rfl rfl rfl rfl, observe_log s t,
      hheard rfl rfl rfl rfl rfl (.inl rfl), fun hvoted hlog => ?_⟩
    -- the vote is not refused
    have hcan : canGrant s t l B.length (lastTerm B) := by
      refine ⟨h.term, ?_, .inr ⟨by rw [hlog], by rw [hlog]⟩⟩
      unfold observe
      split
      · exact .inl rfl
      · rename_i hno
        exact .inr (hvoted.resolve_left hno)
    rw [(voteGranted_iff s t l B.length (lastTerm B)).mpr hcan] at hg
    exact absurd hg (by decide)
  | true =>
    have hafter : after = resetElectionTimeout { observe s t with votedFor := some l } :=
      if_pos hg
    rw [hafter, hg] at hform
    refine ⟨resetElectionTimeout { observe s t with votedFor := some l }, true, ?_,
      hmember rfl rfl rfl rfl, observe_log s t,
      hheard rfl rfl rfl rfl rfl (.inr (lt_resetElectionTimeout _)),
      fun _ _ => ⟨rfl, hterm, rfl⟩⟩
    rw [hform]
    show some (_, [(⟨j, l, .raft (.requestVoteResponse (observe s t).currentTerm true)⟩ :
      NetworkMessage)]) = _
    rw [hterm]
    rfl

/-- **Entries of the leader** are taken over, and all of the log is acknowledged. -/
theorem Member.accept (h : Member t M F s) (hF : Indexed F) {pt : ℕ}
    (hprev : prevMatches M M.length pt) (lc : ℕ) : ∃ s',
    (node n j).handleMessage s (entriesFor l t M F pt lc j) =
        some (s', [entriesAnswer l t F j]) ∧ Member t M F s' ∧ ∀ {C : Prop},
      (C → lc = F.length ∨ s.commitIndex = F.length) → Heard l t F C s' := by
  -- the leader is known and the timer is reset
  obtain ⟨s₁, hs₁⟩ : ∃ s₁, s₁ = resetElectionTimeout { s with
      currentTerm := t
      role := .follower
      leaderId := some l
      leaderIdAtomic := l } := ⟨_, rfl⟩
  have hlog₁ : s₁.log = s.log := by rw [hs₁]; rfl
  have hcommit₁ : s₁.commitIndex ≤ F.length := by
    rw [hs₁]
    exact h.commit.trans h.upto.length_le
  have hMF : M <+: F := h.base.trans h.upto
  have htake : s.log.take M.length = F.take M.length := by
    rw [← List.prefix_iff_eq_take.mp hMF, ← List.prefix_iff_eq_take.mp h.base]
  have hfold : (F.drop M.length).foldlM appendEntry s₁.log = some F := by
    rw [hlog₁, foldlM_appendEntry hF (LogMatching.of_prefix h.upto (List.prefix_refl F))
      hMF.length_le htake]
    split
    · rename_i hpre
      rw [h.upto.eq_of_length (le_antisymm h.upto.length_le hpre.length_le)]
    · rfl
  obtain ⟨s', hs', hlog', hrole', hterm', hid', hatomic', htimer', hcommit', hall'⟩ : ∃ s',
      (if lc > s₁.commitIndex then commitUpTo { s₁ with log := F } (min lc F.length)
        else some { s₁ with log := F }) = some s' ∧ s'.log = F ∧ s'.role = s₁.role ∧
      s'.currentTerm = s₁.currentTerm ∧ s'.leaderId = s₁.leaderId ∧
      s'.leaderIdAtomic = s₁.leaderIdAtomic ∧
      s'.electionTicksRemaining = s₁.electionTicksRemaining ∧ s'.commitIndex ≤ F.length ∧
      (lc = F.length ∨ s₁.commitIndex = F.length → s'.commitIndex = F.length) := by
    by_cases hlc : lc > s₁.commitIndex
    · rw [if_pos hlc]
      refine ⟨_, commitUpTo_eq_some.mpr ⟨le_min (le_of_lt hlc) hcommit₁, min_le_right _ _, rfl⟩,
        rfl, rfl, rfl, rfl, rfl, rfl, min_le_right _ _, fun h => ?_⟩
      show min lc F.length = F.length
      omega
    · rw [if_neg hlc]
      refine ⟨_, rfl, rfl, rfl, rfl, rfl, rfl, rfl, hcommit₁, fun h => ?_⟩
      show s₁.commitIndex = F.length
      omega
  have hterm : s'.currentTerm = t := hterm'.trans (by rw [hs₁]; rfl)
  have haccept : (node n j).acceptEntries s₁ l (F.drop M.length) lc =
      some (s', [entriesAnswer l t F j]) := by
    rw [acceptEntries, hfold, Option.bind_some]
    dsimp only
    rw [hs', Option.map_some, hterm]
    rfl
  refine ⟨s', ?_, ⟨?_, hterm.le, hlog' ▸ hMF, hlog' ▸ List.prefix_refl F, hlog'.symm ▸ hcommit'⟩,
    fun hC => ⟨⟨hterm, hlog', hid'.trans (by rw [hs₁]; rfl), hatomic'.trans (by rw [hs₁]; rfl)⟩,
      by rw [htimer', hs₁]; exact lt_resetElectionTimeout _, fun h => hall' ?_⟩⟩
  · show (node n j).handleAppendEntries s l t l M.length pt (F.drop M.length) lc = _
    rw [handleAppendEntries, if_neg (not_lt.mpr h.term)]
    dsimp only
    rw [← hs₁]
    by_cases hpos : M.length > 0
    · obtain ⟨y, hy, hyt⟩ := hprev.resolve_left (by omega)
      obtain ⟨u, hu⟩ := h.base
      have hentry : s₁.log[M.length - 1]? = some y := by
        rw [hlog₁, ← hu, List.getElem?_append_left (by omega), hy]
      rw [if_pos hpos, hentry]
      dsimp only
      rw [if_neg (not_not.mpr hyt)]
      exact haccept
    · rw [if_neg hpos]
      exact haccept
  · rw [hrole', hs₁]
    show Role.follower ≠ .leader
    decide
  · rw [hs₁]
    exact hC h

/-- A tick before the timeout. -/
theorem Member.tick (h : Member t M F s) (hpos : 0 < s.electionTicksRemaining) :
    (node n i).tick s =
      ({ s with electionTicksRemaining := s.electionTicksRemaining - 1 }, []) := by
  unfold RaftNode.tick
  split
  · rename_i hrole
    exact absurd hrole h.role
  · rw [if_neg (Nat.ne_of_gt hpos)]
  · rw [if_neg (Nat.ne_of_gt hpos)]

/-- A leader takes no notice of votes. -/
theorem Rules.ignore (h : Rules n l t F s) (b : Bool) :
    (node n l).handleMessage s (voteAnswer l t b j) = some (s, []) := by
  show some ((node n l).handleRequestVoteResponse s t b) = _
  have hterm : ¬ t > s.currentTerm := not_lt.mpr h.term.ge
  have hrole : ¬ (b = true ∧ s.role = .candidate) := by
    rw [h.role]
    exact fun hand => nomatch hand.2
  rw [handleRequestVoteResponse, if_neg hterm, if_neg hrole]

/-- **What the leader sends** to a node for which it starts from the end of `M`. -/
theorem Rules.entries (h : Rules n l t F s) (hMF : M <+: F)
    (hnext : nextFor s j = M.length + 1) : ∃ pt, prevMatches M M.length pt ∧
      (node n l).buildAppendEntries s j = entriesFor l t M F pt s.commitIndex j := by
  obtain ⟨pt, hbuild, hprev⟩ := buildAppendEntries_next (node n l) s j
  rw [hnext, Nat.add_sub_cancel, h.log, h.term] at hbuild
  rw [hnext, Nat.add_sub_cancel, h.log] at hprev
  refine ⟨pt, ?_, hbuild⟩
  rcases hprev with (h0 | ⟨y, hy, hyt⟩) | ⟨hlt, _⟩
  · exact .inl h0
  · rcases Nat.eq_zero_or_pos M.length with h0 | hpos
    · exact .inl h0
    · obtain ⟨u, rfl⟩ := hMF
      rw [List.getElem?_append_left (by omega)] at hy
      exact .inr ⟨y, hy, hyt⟩
  · exact absurd hMF.length_le (not_le.mpr hlt)

/-- **An acknowledgement** is recorded, and what a majority has now is committed. -/
theorem Rules.hear (h : Rules n l t F s) : ∃ s',
    (node n l).handleMessage s (entriesAnswer l t F j) = some (s', []) ∧ Rules n l t F s' ∧
      Knows F s' j ∧ ∀ i, Knows F s i → Knows F s' i := by
  obtain ⟨s₁, hs₁⟩ : ∃ s₁, s₁ = { s with
      matchIndex := s.matchIndex.insert j F.length
      nextIndex := s.nextIndex.insert j (F.length + 1) } := ⟨_, rfl⟩
  have hknows : ∀ (s' : RaftState), s'.matchIndex = s₁.matchIndex →
      s'.nextIndex = s₁.nextIndex → Knows F s' j ∧ (∀ i, Knows F s i → Knows F s' i) ∧
      ∀ i x, s'.matchIndex.lookup i = some x → x ≤ F.length := by
    intro s' hm hn
    rw [hs₁] at hm hn
    dsimp only at hm hn
    refine ⟨⟨?_, ?_⟩, fun i hk => ⟨?_, ?_⟩, fun i x hx => ?_⟩
    · rw [hm, HashMap.lookup_insert_ite, if_pos rfl]
    · rw [nextFor, hn, HashMap.lookup_insert_ite, if_pos rfl, Option.getD_some]
    · rw [hm, HashMap.lookup_insert_ite]
      split
      · rfl
      · exact hk.acked
    · rw [nextFor, hn, HashMap.lookup_insert_ite]
      split
      · rfl
      · exact hk.next
    · rw [hm, HashMap.lookup_insert_ite] at hx
      split at hx
      · exact (Option.some.inj hx).ge
      · exact h.counts i x hx
  have hlog₁ : s₁.log = F := by
    rw [hs₁]
    exact h.log
  have hterm₁ : s₁.currentTerm = t := by
    rw [hs₁]
    exact h.term
  -- what is still to be committed waits for a majority
  have hwaits : ∀ {m}, s₁.commitIndex ≤ m → (∀ k, (node n l).nextCommit s₁ = some k → k ≤ m) →
      ∀ k, m < k → k ≤ F.length → (F[k - 1]?.all fun e => e.term = t) = true →
        replicatedOn s₁ k < n / 2 + 1 := by
    intro m hm hmax k hlt hle hown
    refine nextCommit_lt (node n l) (lt_of_le_of_lt hm hlt) (hlog₁ ▸ hle) ?_ fun k' hk' =>
      lt_of_le_of_lt (hmax k' hk') hlt
    rw [hlog₁, hterm₁]
    exact hown
  have hcall : (node n l).handleMessage s (entriesAnswer l t F j) =
      (node n l).handleAppendEntriesResponse s j t true F.length := rfl
  rw [hcall, handleAppendEntriesResponse, if_neg (not_lt.mpr h.term.ge),
    if_neg (not_not.mpr h.role), if_pos rfl]
  dsimp only
  rw [← hs₁]
  cases hcommit : (node n l).nextCommit s₁ with
  | none =>
    obtain ⟨hnew, hold, hcounts⟩ := hknows s₁ rfl rfl
    refine ⟨s₁, rfl, ⟨by rw [hs₁]; exact h.role, hterm₁, hlog₁, by rw [hs₁]; exact h.leader,
      by rw [hs₁]; exact h.atomic, by rw [hs₁]; exact h.commit, hcounts, ?_⟩, hnew, hold⟩
    exact hwaits le_rfl fun k hk => absurd (hcommit.symm.trans hk) (by simp)
  | some k =>
    obtain ⟨hlt, hle, _⟩ := nextCommit_eq_some hcommit
    obtain ⟨s', hs'⟩ : ∃ s', commitUpTo s₁ k = some s' :=
      ⟨_, commitUpTo_eq_some.mpr ⟨le_of_lt hlt, hle, rfl⟩⟩
    have heq := (commitUpTo_eq_some.mp hs').2.2
    have hindex : s'.commitIndex = k := by rw [heq]
    obtain ⟨hnew, hold, hcounts⟩ := hknows s' (by rw [heq]) (by rw [heq])
    refine ⟨s', by dsimp only; rw [hs']; rfl, ⟨by rw [heq, hs₁]; exact h.role,
      by rw [heq]; exact hterm₁, by rw [heq]; exact hlog₁, by rw [heq, hs₁]; exact h.leader,
      by rw [heq, hs₁]; exact h.atomic, by rw [hindex]; exact hlog₁ ▸ hle,
      hcounts, ?_⟩, hnew, hold⟩
    intro k' hlt' hle' hown
    rw [hindex] at hlt'
    have hfew := hwaits (le_of_lt hlt) (fun k'' hk'' =>
      (Option.some.inj (hcommit.symm.trans hk'')).ge) k' hlt' hle' hown
    rw [heq]
    exact hfew

end Nodes

/-! ### Commits -/

/-- What a node has committed since it was `s₀`, as its log has only grown. -/
structure Queued (s₀ s : RaftState) : Prop where
  log : s₀.log <+: s.log
  commit : s₀.commitIndex ≤ s.commitIndex
  upto : s.commitIndex ≤ s.log.length
  committed : s.committed = s₀.committed ++
    ((s.log.take s.commitIndex).drop s₀.commitIndex).map LogEntry.toCommitted

theorem Queued.refl {s : RaftState} (h : s.commitIndex ≤ s.log.length) : Queued s s := by
  refine ⟨List.prefix_refl _, le_rfl, h, ?_⟩
  rw [List.drop_eq_nil_of_le (by rw [List.length_take]; exact min_le_left _ _), List.map_nil,
    List.append_nil]

theorem Queued.step {n : ℕ} {i : NodeId} {s₀ s s' : RaftState} {c : Cause Call NetworkMessage}
    {out : List NetworkMessage} (h : Queued s₀ s) (hstep : Effect (node n i) s c s' out)
    (hc : c ≠ .call .pollCommitted) (hgrow : s.log <+: s'.log) : Queued s₀ s' := by
  obtain ⟨hle, hupto, hemitted⟩ := hstep.emitted_slice (i := i) h.upto hgrow
  obtain ⟨es, hes⟩ := hstep.queue_grows hc
  rw [emitted_eq (o := ⟨i, c, s, s', out⟩) hes] at hemitted
  refine ⟨h.log.trans hgrow, h.commit.trans hle, hupto, ?_⟩
  have hfirst : s.log.take s.commitIndex = (s'.log.take s'.commitIndex).take s.commitIndex := by
    obtain ⟨u, hu⟩ := hgrow
    rw [List.take_take, min_eq_left hle, ← hu, List.take_append_of_le_length h.upto]
  have hlen : s₀.commitIndex ≤ ((s'.log.take s'.commitIndex).take s.commitIndex).length := by
    rw [← hfirst, List.length_take, min_eq_left h.upto]
    exact h.commit
  rw [hes, h.committed, hemitted, List.append_assoc, ← List.map_append, hfirst,
    ← List.drop_append_of_le_length hlen, List.take_append_drop]

/-! ### Deliveries -/

/-- The live nodes of a cluster under the leader `l`, who takes node `i` to have `M i`, and what is
    on the way between them: every other node is sent the log, and acknowledges it.  If `C`, it is
    told that all of it is committed.  The nodes were `init` once. -/
structure Reign (init : NodeId → RaftState) (n : ℕ) (I : Finset NodeId) (l : NodeId) (t : ℕ)
    (M : NodeId → List LogEntry) (F : List LogEntry) (C : Prop) (nodes : NodeId → RaftState)
    (q : List NetworkMessage) : Prop where
  leads : Rules n l t F (nodes l)
  member : ∀ i < n, i ∉ I → i ≠ l → Member t (M i) F (nodes i)
  talk : ∀ m ∈ q, m.sender ∉ I → m.target ∉ I → m.target < n ∧ Talk l t M F m
  acked : ∀ i < n, i ∉ I → i ≠ l → Handshake
    (fun m => ∃ pt lc, m = entriesFor l t (M i) F pt lc i ∧ (C → lc = F.length))
    (· = entriesAnswer l t F i) (Heard l t F C (nodes i)) (Knows F (nodes l) i) q
  queue : ∀ i < n, i ∉ I → Queued (init i) (nodes i)

section Deliveries

variable {init : NodeId → RaftState} {n : ℕ} {I : Finset NodeId} {l : NodeId} {t : ℕ}
variable {M : NodeId → List LogEntry} {F : List LogEntry} {C : Prop}
variable {nodes : NodeId → RaftState} {q : List NetworkMessage} {m : NetworkMessage}

/-- A message that does not arrive. -/
theorem Reign.lose (h : Reign init n I l t M F C nodes (m :: q)) (hl : l ∉ I)
    (hm : m.sender ∈ I ∨ m.target ∈ I) : Reign init n I l t M F C nodes q := by
  refine ⟨h.leads, h.member, fun m' hm' => h.talk m' (List.mem_cons_of_mem _ hm'),
    fun i hi hiI hil => ?_, h.queue⟩
  -- it was not part of the exchange
  refine (h.acked i hi hiI hil).skip ?_ ?_
  · rintro ⟨pt, lc, rfl, _⟩
    exact hm.elim hl hiI
  · rintro rfl
    exact hm.elim hiI hl

/-- A message that arrives. -/
theorem Reign.deliver (h : Reign init n I l t M F C nodes (m :: q)) {s' : RaftState}
    {out : List NetworkMessage} (hleads : m.target = l → Rules n l t F s')
    (hmember : m.target ≠ l → Member t (M m.target) F s')
    (hheard : m.target ≠ l → (Heard l t F C (nodes m.target) ∨
      ∃ pt lc, m = entriesFor l t (M m.target) F pt lc m.target ∧ (C → lc = F.length)) →
        Heard l t F C s')
    (hknown : m.target = l → ∀ i, m = entriesAnswer l t F i ∨ Knows F (nodes l) i → Knows F s' i)
    (hanswer : ∀ pt lc, m = entriesFor l t (M m.target) F pt lc m.target →
      entriesAnswer l t F m.target ∈ out)
    (htalk : ∀ m' ∈ out, m'.target ∉ I → m'.target < n ∧ Talk l t M F m')
    (hqueue : Queued (init m.target) s') :
    Reign init n I l t M F C (Function.update nodes m.target s') (q ++ out) := by
  have hsame : ∀ {i}, i ≠ m.target → Function.update nodes m.target s' i = nodes i :=
    fun hi => Function.update_of_ne hi _ _
  refine ⟨?_, fun i hi hiI hil => ?_, fun m' hm' hs ht => ?_, fun i hi hiI hil => ?_,
    fun i hi hiI => ?_⟩
  · by_cases ht : l = m.target
    · rw [ht, Function.update_self, ← ht]
      exact hleads ht.symm
    · rw [hsame ht]
      exact h.leads
  · by_cases ht : i = m.target
    · subst ht
      rw [Function.update_self]
      exact hmember hil
    · rw [hsame ht]
      exact h.member i hi hiI hil
  · rcases List.mem_append.mp hm' with hm' | hm'
    · exact h.talk m' (List.mem_cons_of_mem _ hm') hs ht
    · exact htalk m' hm' ht
  · have hknows : m = entriesAnswer l t F i ∨ Knows F (nodes l) i →
        Knows F (Function.update nodes m.target s' l) i := by
      intro hk
      by_cases ht : l = m.target
      · rw [ht, Function.update_self]
        exact hknown ht.symm i hk
      · rw [hsame ht]
        refine hk.resolve_left ?_
        rintro rfl
        exact ht rfl
    refine (h.acked i hi hiI hil).next ?_ (fun hh => ?_) (fun heq => hknows (.inl heq))
      fun hk => hknows (.inr hk)
    · rintro ⟨pt, lc, heq, hC⟩
      obtain rfl : m.target = i := by rw [heq]; rfl
      rw [Function.update_self]
      exact ⟨hheard hil (.inr ⟨pt, lc, heq, hC⟩), _, hanswer pt lc heq, rfl⟩
    · by_cases ht : i = m.target
      · subst ht
        rw [Function.update_self]
        exact hheard hil (.inl hh)
      · rw [hsame ht]
        exact hh
  · by_cases ht : i = m.target
    · subst ht
      rw [Function.update_self]
      exact hqueue
    · rw [hsame ht]
      exact h.queue i hi hiI

variable [Sha256] {faults : NetworkFaults}

/-- **A delivery.** -/
theorem Reign.receive (hhonest : ∀ i, faults.isByzantine i = false) (hl : l < n)
    (hlI : l ∉ faults.isolatedNodes) (hF : Indexed F)
    (h : Reign init n faults.isolatedNodes l t M F C nodes (m :: q)) : ∃ nodes' out,
      Cluster.receive (code n) n faults nodes m = some (nodes', out) ∧
        Reign init n faults.isolatedNodes l t M F C nodes' (q ++ out) ∧
        ∀ m' ∈ out, followUps m'.payload < followUps m.payload := by
  rcases NetworkFaults.carried_cases (hhonest m.sender) with
    ⟨hm, hcarried⟩ | ⟨hsender, htarget, hcarried⟩
  · refine ⟨nodes, [], Cluster.receive_of_lost hcarried nodes, ?_, by simp⟩
    rw [List.append_nil]
    exact h.lose hlI hm
  · obtain ⟨htn, htalk⟩ := h.talk m List.mem_cons_self hsender htarget
    -- the log of the target does not get shorter, so what it commits is queued in order
    have hqueue : ∀ {s' out}, (node n m.target).handleMessage (nodes m.target) m = some (s', out) →
        (nodes m.target).log <+: s'.log → Queued (init m.target) s' := fun hr hgrow =>
      (h.queue _ htn htarget).step (handleMessage_effect _ _ hr) (nomatch ·) hgrow
    cases htalk with
    | request B j hj =>
      obtain ⟨s', b, hr, hmember, hlog, hstill, _⟩ :=
        (h.member j htn htarget hj).vote (n := n) (l := l) (j := j) B
      refine ⟨_, _, Cluster.receive_of_handled hcarried htn hr, ?_, ?_⟩
      · refine h.deliver (fun heq => absurd heq hj) (fun _ => hmember) (fun _ hh => ?_)
          (fun heq => absurd heq hj) (fun pt lc heq => ?_) (fun m' hm' _ => ?_)
          (hqueue hr (hlog ▸ List.prefix_refl _))
        · refine hstill (hh.resolve_right ?_)
          rintro ⟨pt, lc, heq, _⟩
          cases congrArg NetworkMessage.payload heq
        · cases congrArg NetworkMessage.payload heq
        · rw [List.mem_singleton.mp hm']
          exact ⟨hl, .answer b j hj⟩
      · intro m' hm'
        rw [List.mem_singleton.mp hm']
        exact Nat.lt_succ_self 2
    | answer b j hj =>
      have hr := h.leads.ignore (j := j) b
      refine ⟨_, _, Cluster.receive_of_handled hcarried htn hr, ?_, by simp⟩
      refine h.deliver (fun _ => h.leads) (fun hne => absurd rfl hne) (fun hne => absurd rfl hne)
        (fun _ i hk => hk.resolve_left fun heq => ?_) (fun pt lc heq => ?_) (by simp)
        (hqueue hr (List.prefix_refl _))
      · cases congrArg NetworkMessage.payload heq
      · cases congrArg NetworkMessage.payload heq
    | entries pt lc j hj hprev =>
      obtain ⟨s', hr, hmember, hheard⟩ :=
        (h.member j htn htarget hj).accept (n := n) (l := l) (j := j) hF hprev lc
      refine ⟨_, _, Cluster.receive_of_handled hcarried htn hr, ?_, ?_⟩
      · refine h.deliver (fun heq => absurd heq hj) (fun _ => hmember) (fun _ hh => hheard ?_)
          (fun heq => absurd heq hj) (fun _ _ _ => List.mem_singleton_self _) (fun m' hm' _ => ?_)
          (hqueue hr ?_)
        · intro hC
          rcases hh with hh | ⟨pt', lc', heq, hC'⟩
          · exact .inr (hh.commit hC)
          · obtain ⟨_, rfl⟩ : pt = pt' ∧ lc = lc' := by
              simpa [entriesFor] using congrArg NetworkMessage.payload heq
            exact .inl (hC' hC)
        · rw [List.mem_singleton.mp hm']
          exact ⟨hl, .acknowledge j hj⟩
        · rw [(hheard (C := False) False.elim).log]
          exact (h.member j htn htarget hj).upto
      · intro m' hm'
        rw [List.mem_singleton.mp hm']
        exact Nat.zero_lt_one
    | acknowledge j hj =>
      obtain ⟨s', hr, hleads, hnew, hold⟩ := h.leads.hear (j := j)
      refine ⟨_, _, Cluster.receive_of_handled hcarried htn hr, ?_, by simp⟩
      refine h.deliver (fun _ => hleads) (fun hne => absurd rfl hne) (fun hne => absurd rfl hne)
        (fun _ i hk => ?_) (fun pt lc heq => ?_) (by simp) (hqueue hr ?_)
      · rcases hk with heq | hk
        · obtain rfl : j = i := congrArg NetworkMessage.sender heq
          exact hnew
        · exact hold i hk
      · cases congrArg NetworkMessage.payload heq
      · show (nodes l).log <+: s'.log
        rw [hleads.log, h.leads.log]

omit [Sha256] in
/-- When nothing is left to deliver, all live nodes have the log, and the leader knows. -/
theorem Reign.told (h : Reign init n I l t M F C nodes []) {i : NodeId} (hi : i < n) (hiI : i ∉ I)
    (hil : i ≠ l) : Heard l t F C (nodes i) ∧ Knows F (nodes l) i :=
  (h.acked i hi hiI hil).done

omit [Sha256] in
/-- **The leader commits its log**, if that ends in its term, and it knows that a majority has
    it. -/
theorem Rules.committed {s : RaftState} (h : Rules n l t F s) (hl : l < n) (hlI : l ∉ I)
    (hknows : ∀ i < n, i ∉ I → i ≠ l → Knows F s i)
    (hmajority : n / 2 + 1 ≤ (Finset.range n \ I).card)
    (hlast : (F[F.length - 1]?.all fun e => e.term = t) = true) : s.commitIndex = F.length := by
  refine (Nat.eq_or_lt_of_le h.commit).resolve_right fun hlt => ?_
  have hfew := h.waits F.length hlt le_rfl hlast
  have hall : ((Finset.range n \ I).erase l).card ≤
      (s.matchIndex.values.filter fun mi => F.length ≤ mi).length := by
    refine HashMap.card_le_values _ _ _ fun i hi => ?_
    obtain ⟨hil, hi⟩ := Finset.mem_erase.mp hi
    obtain ⟨hi, hiI⟩ := Finset.mem_sdiff.mp hi
    exact ⟨_, (hknows i (Finset.mem_range.mp hi) hiI hil).acked, decide_eq_true le_rfl⟩
  rw [Finset.card_erase_of_mem (Finset.mem_sdiff.mpr ⟨Finset.mem_range.mpr hl, hlI⟩)] at hall
  unfold replicatedOn at hfew
  omega

omit [Sha256] in
/-- **A proposal** to a leader whose log all live nodes have. -/
theorem Reign.propose (h : Reign init n I l t M F C nodes []) (hn : 2 ≤ n) (hl : l < n)
    (hlI : l ∉ I) (p : Payload) : ∃ s' out, (node n l).propose (nodes l) p = (.accepted, s', out) ∧
      Reign init n I l t (fun _ => F) (extended t F p) False (Function.update nodes l s') out ∧
      ∀ m ∈ out, followUps m.payload = 1 := by
  obtain ⟨s', hs'⟩ : ∃ s', s' = { nodes l with
      log := extended (nodes l).currentTerm (nodes l).log p } := ⟨_, rfl⟩
  have hcall : (node n l).propose (nodes l) p =
      (.accepted, s', (node n l).broadcastAppendEntries s') := by
    rw [RaftNode.propose, if_neg (not_not.mpr h.leads.role), hs']
    rfl
  have hlog : s'.log = extended t F p := by rw [hs', h.leads.log, h.leads.term]
  have hgrow : F <+: extended t F p := List.prefix_append _ _
  -- nobody has the new entry, so there is nothing to commit
  have hleads : Rules n l t (extended t F p) s' := by
    refine ⟨by rw [hs']; exact h.leads.role, by rw [hs']; exact h.leads.term, hlog,
      by rw [hs']; exact h.leads.leader, by rw [hs']; exact h.leads.atomic, ?_, fun j x hx => ?_,
      fun k hlt hle hown => ?_⟩
    · rw [hs']
      exact h.leads.commit.trans hgrow.length_le
    · rw [hs'] at hx
      exact (h.leads.counts j x hx).trans hgrow.length_le
    · rw [hs'] at hlt ⊢
      rcases Nat.lt_or_ge F.length k with hk | hk
      · have hnone : (nodes l).matchIndex.values.filter (fun mi => k ≤ mi) = [] := by
          refine List.filter_eq_nil_iff.mpr fun mi hmi hmk => ?_
          obtain ⟨e, he, rfl⟩ := List.mem_map.mp hmi
          have hx := h.leads.counts e.1 e.2 (AList.mem_lookup_iff.mpr he)
          exact absurd (of_decide_eq_true hmk) (not_le.mpr (lt_of_le_of_lt hx hk))
        show (List.filter _ _).length + 1 < n / 2 + 1
        rw [hnone, List.length_nil]
        omega
      · refine h.leads.waits k hlt hk ?_
        rwa [extended, List.getElem?_append_left (by omega)] at hown
  have hself : ∀ {i}, i ≠ l → Function.update nodes l s' i = nodes i :=
    fun hi => Function.update_of_ne hi _ _
  have hentries : ∀ j < n, j ∉ I → j ≠ l → ∃ pt, prevMatches F F.length pt ∧
      (node n l).buildAppendEntries s' j =
        entriesFor l t F (extended t F p) pt s'.commitIndex j := by
    intro j hj hjI hjl
    refine hleads.entries hgrow ?_
    rw [hs']
    exact (h.told hj hjI hjl).2.next
  refine ⟨s', _, hcall, ⟨?_, fun i hi hiI hil => ?_, fun m hm _ hmI => ?_, fun i hi hiI hil => ?_,
    fun i hi hiI => ?_⟩, fun m hm => ?_⟩
  · rw [Function.update_self]
    exact hleads
  · rw [hself hil]
    have hold := h.member i hi hiI hil
    have hfollows := (h.told hi hiI hil).1
    exact ⟨hold.role, hold.term, hfollows.log ▸ List.prefix_refl _, hfollows.log ▸ hgrow,
      hold.commit⟩
  · obtain ⟨j, hj, hjl, rfl⟩ := mem_broadcastAppendEntries.mp hm
    obtain ⟨pt, hprev, hbuild⟩ := hentries j hj hmI hjl
    rw [hbuild]
    exact ⟨hj, .entries pt _ j hjl hprev⟩
  · left
    obtain ⟨pt, _, hbuild⟩ := hentries i hi hiI hil
    exact ⟨_, mem_broadcastAppendEntries.mpr ⟨i, hi, hil, rfl⟩, pt, s'.commitIndex, hbuild,
      False.elim⟩
  · by_cases hil : i = l
    · subst hil
      rw [Function.update_self]
      have heffect := propose_effect (node n i) (nodes i) p
      rw [hcall] at heffect
      refine (h.queue i hi hiI).step heffect (by simp) ?_
      rw [hlog, h.leads.log]
      exact hgrow
    · rw [hself hil]
      exact h.queue i hi hiI
  · obtain ⟨j, _, _, rfl⟩ := mem_broadcastAppendEntries.mp hm
    rfl

omit [Sha256] in
/-- A cluster whose live nodes all name the leader asks it. -/
theorem asked_of_told {c : Cluster RaftState} (hsize : c.size = n) (hl : l < n)
    (hlI : l ∉ c.faults.isolatedNodes) (hrole : (c.nodes l).role = .leader)
    (htold : ∀ i < n, i ∉ c.faults.isolatedNodes → i ≠ l →
      (c.nodes i).role ≠ .leader ∧ (c.nodes i).leaderId = some l) :
    c.asked Raft.leads Raft.hint = some l := by
  have hleads : Raft.leads l (c.nodes l) = true := decide_eq_true hrole
  refine Cluster.asked_of_refers ⟨hsize ▸ hl, decide_eq_false hlI⟩ hleads fun i hlive => ?_
  by_cases hil : i = l
  · subst hil
    exact Cluster.refers_of_leads hleads
  · obtain ⟨hno, hname⟩ := htold i (hsize ▸ hlive.1) (of_decide_eq_false hlive.2) hil
    have hrole : Raft.leads i (c.nodes i) = false := decide_eq_false hno
    have hhint : Raft.hint i (c.nodes i) = some l := hname
    rw [Cluster.refers_of_not_leads hrole, hhint, Option.filter_some,
      decide_eq_true (hsize ▸ hl), if_pos rfl]

end Deliveries

end Raft

end ConsensusBench
