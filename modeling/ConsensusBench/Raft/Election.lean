import ConsensusBench.Lib.Quorum
import ConsensusBench.Lib.Repeat
import ConsensusBench.Raft.Step

namespace ConsensusBench

/-!
# Raft elections

Who voted for whom in which term is read off the history (`votes`): standing for election
votes for oneself, a granted `RequestVote` for the candidate.

* `voted_unique` — a node votes for one candidate in each term.
* `win_majority` — a candidate that counts only votes of its current term wins with the votes
  of a majority.
* `one_leader_per_term` — so election safety holds in the runs in which no candidate counts a
  vote of an earlier term, and fails in others (`stale_vote_elects_two_leaders`).
-/

open AsyncNet RaftNode Quorum

namespace Raft

/-! ### Fields after a step -/

/-- Accepting entries changes the fields of `follow`, the log, the commit index and the
    queue. -/
theorem accept_eq {s s' : RaftState} {t : ℕ} {l : NodeId} {log : List LogEntry} {lc : ℕ}
    (hs : (if lc > s.commitIndex then
        commitUpTo { follow s t l with log := log } (min lc log.length)
      else some { follow s t l with log := log }) = some s') :
    s' = { follow s t l with
      log := log
      commitIndex := s'.commitIndex
      committed := s'.committed } := by
  split at hs
  · obtain ⟨_, _, rfl⟩ := commitUpTo_eq_some.mp hs
    rfl
  · cases hs
    rfl

/-- Committing changes the commit index and the queue. -/
theorem commitUpTo_eq {s s' : RaftState} {k : ℕ} (hs : commitUpTo s k = some s') :
    s' = { s with commitIndex := k, committed := s'.committed } := by
  obtain ⟨_, _, rfl⟩ := commitUpTo_eq_some.mp hs
  rfl

section Fields

variable {self : RaftNode} {s s' : RaftState} {c : Cause Call NetworkMessage}
variable {out : List NetworkMessage}

/-- Terms never go back. -/
theorem Effect.term_mono (h : Effect self s c s' out) : s.currentTerm ≤ s'.currentTerm := by
  cases h with
  | stand => exact Nat.le_succ _
  | deny m t => rw [observe_currentTerm]; exact le_max_left _ _
  | grant m t =>
    show s.currentTerm ≤ (observe s t).currentTerm
    rw [observe_currentTerm]
    exact le_max_left _ _
  | stepDown m t hm ht => exact le_of_lt ht
  | miss m t l pi pt es lc hm ht => exact ht
  | conflict m t l pi pt es lc e hm ht => exact ht
  | accept m t l pi pt es lc log s' hm ht hprev hlog hs =>
    rw [accept_eq hs]
    exact ht
  | commit m t mi k s' hm ht hr hk hs =>
    rw [commitUpTo_eq hs]
    exact le_refl _
  | retry => rw [backOff_currentTerm]
  | _ => exact le_refl _

/-- Within a term a recorded vote stays. -/
theorem Effect.votedFor_kept (h : Effect self s c s' out) (ht : s'.currentTerm = s.currentTerm)
    {x : NodeId} (hx : s.votedFor = some x) : s'.votedFor = some x := by
  cases h with
  | stand => exact absurd ht (Nat.succ_ne_self _)
  | deny m t =>
    unfold observe at *
    split
    · rename_i hlt
      rw [if_pos hlt] at ht
      exact absurd ht (ne_of_gt hlt)
    · exact hx
  | grant m t c li lt hm hg =>
    -- a vote that is recorded is one for the candidate
    have heq : observe s t = s := by
      unfold observe
      split
      · rename_i hlt
        have ht' : (observe s t).currentTerm = s.currentTerm := ht
        rw [observe_currentTerm, max_eq_right_of_lt hlt] at ht'
        exact absurd ht' (ne_of_gt hlt)
      · rfl
    obtain ⟨_, hvoted, _⟩ := hg
    rw [heq, hx] at hvoted
    rcases hvoted with hnone | hsome
    · exact absurd hnone (by simp)
    · exact hsome.symm
  | stepDown m t hm hlt => exact absurd ht (ne_of_gt hlt)
  | accept m t l pi pt es lc log s' hm ht hprev hlog hs =>
    rw [accept_eq hs]
    exact hx
  | commit m t mi k s' hm ht hr hk hs =>
    rw [commitUpTo_eq hs]
    exact hx
  | retry => rw [backOff_votedFor]; exact hx
  | _ => exact hx

/-- A tick that finds the election timeout expired stands for election. -/
theorem Effect.stand_inv (h : Effect self s (.call .tick) s' out) (hr : s.role ≠ .leader)
    (h0 : s.electionTicksRemaining = 0) : s' = Raft.stand self s ∧
      out = self.peerIds.map fun peer => self.msgTo peer
        (.raft (.requestVote (s.currentTerm + 1) self.id s.log.length (lastTerm s.log))) := by
  cases h with
  | stand => exact ⟨rfl, rfl⟩
  | heartbeatDown hl => exact absurd hl hr
  | heartbeat hl => exact absurd hl hr
  | electionDown _ hne => exact absurd h0 hne

/-- A `RequestVote` is granted or denied. -/
theorem Effect.requestVote_inv {m : NetworkMessage} {t : ℕ} {x : NodeId} {li lt : ℕ}
    (h : Effect self s (.recv m) s' out) (hm : m.payload = .raft (.requestVote t x li lt)) :
    (canGrant s t x li lt ∧ s' = resetElectionTimeout { observe s t with votedFor := some x } ∧
      out = [self.msgTo m.sender (.raft (.requestVoteResponse t true))]) ∨
    (¬ canGrant s t x li lt ∧ s' = observe s t ∧ out = [self.msgTo m.sender
      (.raft (.requestVoteResponse (observe s t).currentTerm false))]) := by
  have hnot : ∀ {y : RaftMessage}, m.payload = .raft y → y = .requestVote t x li lt := fun h => by
    rw [hm] at h
    exact (ProtocolMessage.raft.inj h).symm
  cases h with
  | grant _ t' c' li' lt' hm' hg =>
    cases hnot hm'
    exact .inl ⟨hg, rfl, rfl⟩
  | deny _ t' c' li' lt' hm' hno =>
    cases hnot hm'
    exact .inr ⟨hno, rfl, rfl⟩
  | discard _ hno => exact absurd hm (hno t x li lt)
  | stepDown _ t' hm' =>
    rcases hm' with ⟨g, hm'⟩ | ⟨b, mi, hm'⟩
    · exact absurd (hnot hm') (by simp)
    · exact absurd (hnot hm') (by simp)
  | countVote _ t' hm' => exact absurd (hnot hm') (by simp)
  | win _ t' hm' => exact absurd (hnot hm') (by simp)
  | reject _ t' l pi pt es lc hm' => exact absurd (hnot hm') (by simp)
  | miss _ t' l pi pt es lc hm' => exact absurd (hnot hm') (by simp)
  | conflict _ t' l pi pt es lc e hm' => exact absurd (hnot hm') (by simp)
  | accept _ t' l pi pt es lc log s' hm' => exact absurd (hnot hm') (by simp)
  | record _ t' mi hm' => exact absurd (hnot hm') (by simp)
  | commit _ t' mi k s' hm' => exact absurd (hnot hm') (by simp)
  | retry _ t' mi hm' => exact absurd (hnot hm') (by simp)

/-- How a node comes to be a candidate: it stands, or it was one of the same term and with
    the same log, and may have counted a vote. -/
theorem Effect.role_candidate (h : Effect self s c s' out) (hr : s'.role = .candidate) :
    (c = .call .tick ∧ s.role ≠ .leader ∧ s.electionTicksRemaining = 0 ∧ s' = Raft.stand self s) ∨
    (s.role = .candidate ∧ s'.currentTerm = s.currentTerm ∧ s'.log = s.log ∧
      (s'.votesReceived = s.votesReceived ∨ ∃ m t, c = .recv m ∧
        m.payload = .raft (.requestVoteResponse t true) ∧ t ≤ s.currentTerm ∧
        s'.votesReceived = s.votesReceived + 1)) := by
  cases h with
  | stand hl h0 => exact .inl ⟨rfl, hl, h0, rfl⟩
  | append p hl => exact absurd (hl.symm.trans hr) (by decide)
  | countVote m t hm ht hc => exact .inr ⟨hc, rfl, rfl, .inr ⟨m, t, rfl, hm, ht, rfl⟩⟩
  | deny m t =>
    -- whoever sees a later term is a follower then
    have heq : observe s t = s := observe_eq_of_role s t (by rw [hr]; decide)
    rw [heq] at hr ⊢
    exact .inr ⟨hr, rfl, rfl, .inl rfl⟩
  | grant m t =>
    have heq : observe s t = s := observe_eq_of_role s t (by
      have hr' : (observe s t).role = .candidate := hr
      rw [hr']
      decide)
    rw [heq] at hr ⊢
    exact .inr ⟨hr, rfl, rfl, .inl rfl⟩
  | stepDown => exact absurd hr (by simp [Raft.stepDown])
  | win => exact absurd hr (by simp [lead, initIndices])
  | miss => exact absurd hr (by simp [follow, resetElectionTimeout])
  | conflict => exact absurd hr (by simp [follow, resetElectionTimeout])
  | accept m t l pi pt es lc log s' hm ht hprev hlog hs =>
    rw [accept_eq hs] at hr
    exact absurd hr (by simp [follow, resetElectionTimeout])
  | commit m t mi k s' hm ht hl hk hs =>
    rw [commitUpTo_eq hs] at hr
    have hr' : s.role = .candidate := hr
    rw [hl] at hr'
    exact absurd hr' (by decide)
  | retry m t mi hm ht hl =>
    rw [backOff_role, hl] at hr
    exact absurd hr (by decide)
  | _ => exact .inr ⟨hr, rfl, rfl, .inl rfl⟩

/-- How a node comes to be a leader: it wins, or it was one of the same term. -/
theorem Effect.role_leader (h : Effect self s c s' out) (hr : s'.role = .leader) :
    (s.role = .leader ∧ s'.currentTerm = s.currentTerm) ∨
    (∃ m t, c = .recv m ∧ m.payload = .raft (.requestVoteResponse t true) ∧
      t ≤ s.currentTerm ∧ s.role = .candidate ∧ self.majority ≤ s.votesReceived + 1 ∧
      s' = lead self s) := by
  cases h with
  | win m t hm ht hc hq => exact .inr ⟨m, t, rfl, hm, ht, hc, hq, rfl⟩
  | stand => exact absurd hr (by simp [Raft.stand, resetElectionTimeout])
  | deny m t =>
    have heq : observe s t = s := observe_eq_of_role s t (by rw [hr]; decide)
    rw [heq] at hr ⊢
    exact .inl ⟨hr, rfl⟩
  | grant m t =>
    have heq : observe s t = s := observe_eq_of_role s t (by
      have hr' : (observe s t).role = .leader := hr
      rw [hr']
      decide)
    rw [heq] at hr ⊢
    exact .inl ⟨hr, rfl⟩
  | stepDown => exact absurd hr (by simp [Raft.stepDown])
  | miss => exact absurd hr (by simp [follow, resetElectionTimeout])
  | conflict => exact absurd hr (by simp [follow, resetElectionTimeout])
  | accept m t l pi pt es lc log s' hm ht hprev hlog hs =>
    rw [accept_eq hs] at hr
    exact absurd hr (by simp [follow, resetElectionTimeout])
  | commit m t mi k s' hm ht hl hk hs =>
    rw [commitUpTo_eq hs]
    exact .inl ⟨hl, rfl⟩
  | retry m t mi hm ht hl => exact .inl ⟨hl, backOff_currentTerm s _⟩
  | _ => exact .inl ⟨hr, rfl⟩

end Fields

/-! ### Votes -/

/-- The term a step stands for election in. -/
def stands (o : NodeStep RaftState) : Option ℕ :=
  match o.cause with
  | .call .tick =>
      if o.before.role ≠ .leader ∧ o.before.electionTicksRemaining = 0 then
        some (o.before.currentTerm + 1)
      else none
  | _ => none

/-- The term and candidate a step grants its vote to. -/
def grants (o : NodeStep RaftState) : Option (ℕ × NodeId) :=
  match o.cause with
  | .recv ⟨_, _, .raft (.requestVote t c li lt)⟩ =>
      if canGrant o.before t c li lt then some (t, c) else none
  | _ => none

/-- The term and candidate a step votes for. -/
def votes (o : NodeStep RaftState) : Option (ℕ × NodeId) :=
  ((stands o).map fun t => (t, o.node)).or (grants o)

/-- Node `j` has voted for `c` in term `t`. -/
def Voted (h : History RaftState) (j : NodeId) (t : ℕ) (c : NodeId) : Prop :=
  ∃ o ∈ h, o.node = j ∧ votes o = some (t, c)

/-- A vote stays in a longer history. -/
theorem Voted.cons {h : History RaftState} {j c : NodeId} {t : ℕ} (hv : Voted h j t c)
    (o : NodeStep RaftState) : Voted (o :: h) j t c := by
  obtain ⟨o', ho', hrest⟩ := hv
  exact ⟨o', List.mem_cons_of_mem _ ho', hrest⟩

/-- A vote stays in any larger history. -/
theorem Voted.mono {h h' : History RaftState} (hsub : h ⊆ h') {j c : NodeId} {t : ℕ}
    (hv : Voted h j t c) : Voted h' j t c := by
  obtain ⟨o, ho, hrest⟩ := hv
  exact ⟨o, hsub ho, hrest⟩

/-- Who stands for an election, and in which term. -/
theorem stands_eq_some {o : NodeStep RaftState} {t : ℕ} : stands o = some t ↔
    o.cause = .call .tick ∧ o.before.role ≠ .leader ∧ o.before.electionTicksRemaining = 0 ∧
      t = o.before.currentTerm + 1 := by
  unfold stands
  split
  · rename_i hc
    by_cases hp : o.before.role ≠ .leader ∧ o.before.electionTicksRemaining = 0
    · simp only [hp, and_self, if_true, Option.some.injEq, hc, not_false_eq_true, ne_eq, true_and]
      exact eq_comm
    · rw [if_neg hp]
      constructor
      · intro h; exact absurd h (by simp)
      · rintro ⟨_, hr, h0, _⟩; exact absurd ⟨hr, h0⟩ hp
  · rename_i hc
    constructor
    · intro h; exact absurd h (by simp)
    · intro h; exact absurd h.1 hc

/-- Who grants a vote, to whom, and in which term. -/
theorem grants_eq_some {o : NodeStep RaftState} {t : ℕ} {c : NodeId} :
    grants o = some (t, c) ↔ ∃ m li lt, o.cause = .recv m ∧
      m.payload = .raft (.requestVote t c li lt) ∧ canGrant o.before t c li lt := by
  unfold grants
  split
  · rename_i i j t' c' li lt hc
    by_cases hg : canGrant o.before t' c' li lt
    · simp only [hg, if_true, Option.some.injEq, Prod.mk.injEq, hc, Cause.recv.injEq]
      constructor
      · rintro ⟨rfl, rfl⟩; exact ⟨_, li, lt, rfl, rfl, hg⟩
      · rintro ⟨m, li', lt', rfl, hm, _⟩; cases hm; exact ⟨rfl, rfl⟩
    · simp only [hg, if_false, hc, Cause.recv.injEq]
      constructor
      · intro h; exact absurd h (by simp)
      · rintro ⟨m, li', lt', rfl, hm, hcan⟩; cases hm; exact absurd hcan hg
  · rename_i hc
    constructor
    · intro h; exact absurd h (by simp)
    · rintro ⟨⟨i, j, pl⟩, li, lt, hcause, rfl, _⟩
      exact absurd hcause (hc i j t c li lt)

/-- A step that votes either stands, voting for its node, or grants its vote. -/
theorem votes_eq_some {o : NodeStep RaftState} {t : ℕ} {c : NodeId} :
    votes o = some (t, c) ↔ (stands o = some t ∧ c = o.node) ∨ grants o = some (t, c) := by
  have hexcl : ∀ t', stands o = some t' → grants o = none := by
    intro t' hs
    rw [Option.eq_none_iff_forall_ne_some]
    rintro ⟨t'', c'⟩ hg
    obtain ⟨m, _, _, hc, _⟩ := grants_eq_some.mp hg
    exact absurd ((stands_eq_some.mp hs).1.symm.trans hc) (by simp)
  unfold votes
  rw [Option.or_eq_some_iff]
  constructor
  · rintro (h | ⟨_, h⟩)
    · rw [Option.map_eq_some_iff] at h
      obtain ⟨t', hs, heq⟩ := h
      cases heq
      exact .inl ⟨hs, rfl⟩
    · exact .inr h
  · rintro (⟨hs, rfl⟩ | hg)
    · exact .inl (by rw [hs]; rfl)
    · refine .inr ⟨?_, hg⟩
      cases hs : stands o with
      | none => rfl
      | some t' => exact absurd (hexcl t' hs) (by rw [hg]; simp)

/-- After a vote the node is in its term and has recorded it.  A node that was in the term
    already had recorded no other vote. -/
theorem Effect.votes {i : NodeId} {s s' : RaftState} {n : ℕ} {c : Cause Call NetworkMessage}
    {out : List NetworkMessage} (h : Effect (node n i) s c s' out) {t : ℕ} {x : NodeId}
    (hv : Raft.votes ⟨i, c, s, s', out⟩ = some (t, x)) :
    s'.currentTerm = t ∧ s'.votedFor = some x ∧
      (s.currentTerm = t → s.votedFor = none ∨ s.votedFor = some x) := by
  rcases votes_eq_some.mp hv with ⟨hs, rfl⟩ | hg
  · obtain ⟨hc, hr, h0, rfl⟩ := stands_eq_some.mp hs
    dsimp only at hc hr h0
    subst hc
    obtain ⟨rfl, _⟩ := h.stand_inv hr h0
    exact ⟨rfl, rfl, fun ht => absurd ht.symm (Nat.succ_ne_self _)⟩
  · obtain ⟨m, li, lt, hc, hm, hcan⟩ := grants_eq_some.mp hg
    dsimp only at hc hcan
    subst hc
    rcases h.requestVote_inv hm with ⟨_, rfl, _⟩ | ⟨hno, _⟩
    · refine ⟨?_, rfl, fun ht => ?_⟩
      · show (observe s t).currentTerm = t
        rw [observe_currentTerm]
        exact max_eq_right hcan.1
      · have heq : observe s t = s := by
          unfold observe
          rw [if_neg (by omega)]
        have hvoted := hcan.2.1
        rwa [heq] at hvoted
    · exact absurd hcan hno

/-! ### One vote per term -/

section System

variable [Sha256] {n : ℕ} {cfg : FaultConfig} {rngs : NodeId → StdRng}
variable {ok : System.Guard NodeId RaftState Call NetworkMessage}
variable {w : World NodeId RaftState Call NetworkMessage}

/-- A vote is of no later term than its node is in now, and of this term only if it is the
    one recorded. -/
theorem recorded_of_repeats (hw : (system n cfg rngs).Repeats w) :
    ∀ o ∈ w.history, ∀ t c, votes o = some (t, c) → t ≤ (w.nodes o.node).currentTerm ∧
      (t = (w.nodes o.node).currentTerm → (w.nodes o.node).votedFor = some c) := by
  refine System.Repeats.induct (N := fun nodes hist => ∀ o ∈ hist, ∀ t c, votes o = some (t, c) →
    t ≤ (nodes o.node).currentTerm ∧
      (t = (nodes o.node).currentTerm → (nodes o.node).votedFor = some c)) ?_ ?_ hw
  · intro o ho
    exact absurd ho (by simp)
  · intro w o hr ih hf o₁ ho₁ t c hv
    have heff := effect_of_fires hf
    rcases List.mem_cons.mp ho₁ with rfl | ho₁
    · rw [Function.update_self]
      obtain ⟨hterm, hvoted, _⟩ := heff.votes hv
      exact ⟨le_of_eq hterm.symm, fun _ => hvoted⟩
    · obtain ⟨hle, hrec⟩ := ih o₁ ho₁ t c hv
      by_cases hne : o₁.node = o.node
      · rw [hne, Function.update_self]
        rw [hne, ← hf.before_eq] at hle hrec
        have hmono := heff.term_mono
        refine ⟨le_trans hle hmono, fun ht => ?_⟩
        -- the term did not change, so the recorded vote was kept
        have hsame : o.before.currentTerm = t := le_antisymm (ht ▸ hmono) hle
        exact heff.votedFor_kept (ht.symm.trans hsame.symm) (hrec hsame.symm)
      · rw [Function.update_of_ne hne]
        exact ⟨hle, hrec⟩

/-- **Votes are remembered** for as long as their term lasts. -/
theorem voted_recorded (hw : (system n cfg rngs).Reach ok w) :
    ∀ o ∈ w.history, ∀ t c, votes o = some (t, c) → t ≤ (w.nodes o.node).currentTerm ∧
      (t = (w.nodes o.node).currentTerm → (w.nodes o.node).votedFor = some c) :=
  recorded_of_repeats hw.repeats

/-- **One vote per term**, also when messages are delivered repeatedly. -/
theorem unique_of_repeats (hw : (system n cfg rngs).Repeats w) : ∀ {j t c c'},
    Voted w.history j t c → Voted w.history j t c' → c = c' := by
  refine System.Repeats.induct (N := fun _ hist => ∀ {j t c c'}, Voted hist j t c →
    Voted hist j t c' → c = c') ?_ ?_ hw
  · rintro j t c c' ⟨o, ho, _⟩ _
    exact absurd ho (by simp)
  · intro w o hr ih hf
    have heff := effect_of_fires hf
    -- a new vote agrees with any old one of the same node in the same term
    have hnew : ∀ {t c c'}, votes o = some (t, c) → Voted w.history o.node t c' → c = c' := by
      rintro t c c' hv ⟨o', ho', hnode, hv'⟩
      obtain ⟨hle, hrec⟩ := recorded_of_repeats hr o' ho' t c' hv'
      rw [hnode, ← hf.before_eq] at hle hrec
      obtain ⟨hterm, _, hfree⟩ := heff.votes hv
      have hsame : o.before.currentTerm = t := le_antisymm (hterm ▸ heff.term_mono) hle
      rcases hfree hsame with hnone | hsome
      · exact absurd ((hrec hsame.symm).symm.trans hnone) (by simp)
      · exact Option.some.inj (hsome.symm.trans (hrec hsame.symm))
    rintro j t c c' ⟨o₁, ho₁, hnode₁, hv₁⟩ ⟨o₂, ho₂, hnode₂, hv₂⟩
    rcases List.mem_cons.mp ho₁ with rfl | hold₁
    · rcases List.mem_cons.mp ho₂ with rfl | hold₂
      · rw [hv₁, Option.some.injEq, Prod.mk.injEq] at hv₂
        exact hv₂.2
      · exact hnew hv₁ ⟨o₂, hold₂, hnode₂.trans hnode₁.symm, hv₂⟩
    · rcases List.mem_cons.mp ho₂ with rfl | hold₂
      · exact (hnew hv₂ ⟨o₁, hold₁, hnode₁.trans hnode₂.symm, hv₁⟩).symm
      · exact ih ⟨o₁, hold₁, hnode₁, hv₁⟩ ⟨o₂, hold₂, hnode₂, hv₂⟩

/-- **One vote per term.** -/
theorem voted_unique (hw : (system n cfg rngs).Reach ok w) {j : NodeId} {t : ℕ} {c c' : NodeId}
    (h : Voted w.history j t c) (h' : Voted w.history j t c') : c = c' :=
  unique_of_repeats hw.repeats h h'

/-- Whether node `i` stands for election in term `t` in a step. -/
def standsAt (i : NodeId) (t : ℕ) (o : NodeStep RaftState) : Bool :=
  o.node = i ∧ stands o = some t

/-- A node stands once in a term. -/
theorem standsAt_le (hw : (system n cfg rngs).Reach ok w) (i : NodeId) (t : ℕ) :
    w.history.countP (standsAt i t) ≤ 1 := by
  refine System.Reach.induct (N := fun _ hist => hist.countP (standsAt i t) ≤ 1) ?_ ?_ hw
  · simp
  · intro w o hr ih _ hf
    rw [List.countP_cons]
    by_cases hs : standsAt i t o = true
    · -- no earlier step reached the term in which the node stands now
      have hzero : w.history.countP (standsAt i t) = 0 := by
        rw [List.countP_eq_zero]
        intro o' ho' hs'
        simp only [standsAt, decide_eq_true_eq] at hs hs'
        have hle := (voted_recorded hr o' ho' t o'.node
          (votes_eq_some.mpr (.inl ⟨hs'.2, rfl⟩))).1
        have hnow := (stands_eq_some.mp hs.2).2.2.2
        rw [hs'.1, ← hs.1, ← hf.before_eq] at hle
        omega
      rw [hzero, if_pos hs]
    · rw [if_neg hs]
      exact ih

/-! ### Counting votes -/

/-- Whether `m` asks node `j` to vote for `i` in term `t`. -/
def asksVote (i j : NodeId) (t : ℕ) (m : NetworkMessage) : Bool :=
  match m.payload with
  | .raft (.requestVote t' c _ _) => m.target = j ∧ t' = t ∧ c = i
  | _ => false

/-- Whether `m` gives node `i` a vote of term `t`. -/
def givesVote (i : NodeId) (t : ℕ) (m : NetworkMessage) : Bool :=
  m.target = i ∧ m.payload = .raft (.requestVoteResponse t true)

/-- Whether `m` gives node `i` the vote of node `j` of term `t`. -/
def givesVoteOf (j i : NodeId) (t : ℕ) (m : NetworkMessage) : Bool :=
  m.sender = j ∧ givesVote i t m

omit [Sha256] in
/-- The requests of a candidate. -/
theorem asksVote_iff {i j : NodeId} {t : ℕ} {m : NetworkMessage} : asksVote i j t m = true ↔
    m.target = j ∧ ∃ li lt, m.payload = .raft (.requestVote t i li lt) := by
  unfold asksVote
  split
  · rename_i t' c li lt hm
    rw [decide_eq_true_eq, hm]
    constructor
    · rintro ⟨hj, rfl, rfl⟩; exact ⟨hj, li, lt, rfl⟩
    · rintro ⟨hj, li', lt', h⟩; cases h; exact ⟨hj, rfl, rfl⟩
  · rename_i hm
    constructor
    · intro h; exact absurd h (by decide)
    · rintro ⟨_, li, lt, h⟩; exact absurd h (hm t i li lt)

omit [Sha256] in
/-- The votes for a candidate. -/
theorem givesVote_iff {i : NodeId} {t : ℕ} {m : NetworkMessage} : givesVote i t m = true ↔
    m.target = i ∧ m.payload = .raft (.requestVoteResponse t true) := by
  rw [givesVote, decide_eq_true_eq]

/-- What asks for votes for `i` in term `t` was sent by node `i`, when it stood. -/
theorem asked_by (hw : (system n {} rngs).Reach ok w) {o : NodeStep RaftState}
    (hf : (system n {} rngs).Fires w o) {m : NetworkMessage} (hc : o.cause = .recv m) {t : ℕ}
    {i : NodeId} {li lt : ℕ} (hm : m.payload = .raft (.requestVote t i li lt)) :
    m.sender = i ∧ i ≠ o.node ∧ i < n ∧ ∃ o₀ ∈ w.history, o₀.node = i ∧ stands o₀ = some t ∧
      li = o₀.before.log.length ∧ lt = lastTerm o₀.before.log := by
  obtain ⟨htarget, o₀, ho₀, _, hsender, hn, x, hx, hsaid⟩ := recv_source hw hf hc
  rw [hm] at hx
  cases hx
  cases hsaid with
  | requestVote hcall hr h0 hj =>
    refine ⟨hsender, ?_, hn, o₀, ho₀, rfl, ?_, rfl, rfl⟩
    · rw [← htarget]
      exact hj.symm
    · exact stands_eq_some.mpr ⟨hcall, hr, h0, rfl⟩
  | appendEntries _ _ hx =>
    have hpl := congrArg NetworkMessage.payload hx
    exact absurd hpl (by simp [buildAppendEntries, msgTo])

/-- A step asks node `j` for a vote of term `t` at most once, and only if it stands. -/
theorem asksVote_sent {o : NodeStep RaftState} (hf : (system n cfg rngs).Fires w o)
    (i j : NodeId) (t : ℕ) :
    o.sent.countP (asksVote i j t) ≤ if standsAt i t o then 1 else 0 := by
  by_cases hz : o.sent.countP (asksVote i j t) = 0
  · rw [hz]; exact Nat.zero_le _
  · obtain ⟨m, hm, hask⟩ := List.countP_pos_iff.mp (Nat.pos_of_ne_zero hz)
    obtain ⟨_, li, lt, hpl⟩ := asksVote_iff.mp hask
    have heff := effect_of_fires hf
    obtain ⟨k, x, rfl, hsaid⟩ := heff.sent_said hm
    cases hpl
    cases hsaid with
    | requestVote hc hr h0 hj =>
      rw [hc] at heff
      have hstands : standsAt o.node (o.before.currentTerm + 1) o = true := by
        rw [standsAt, decide_eq_true_eq]
        exact ⟨rfl, stands_eq_some.mpr ⟨hc, hr, h0, rfl⟩⟩
      rw [if_pos hstands, (heff.stand_inv hr h0).2, List.countP_map]
      exact countP_peerIds_le fun k hk => (asksVote_iff.mp hk).1
    | appendEntries _ _ hx =>
      have hpl := congrArg NetworkMessage.payload hx
      exact absurd hpl (by simp [buildAppendEntries, msgTo])

/-- A step that gives a vote received the request for it. -/
theorem givesVote_said (hw : (system n {} rngs).Reach ok w) {o : NodeStep RaftState}
    (hf : (system n {} rngs).Fires w o) {m : NetworkMessage} (hm : m ∈ o.sent) {i : NodeId}
    {t : ℕ} (hgive : givesVote i t m = true) : m.sender = o.node ∧ o.node ≠ i ∧
      grants o = some (t, i) ∧ o.sent = [m] ∧
      ∃ m', o.cause = .recv m' ∧ asksVote i o.node t m' = true := by
  obtain ⟨htarget, hpl⟩ := givesVote_iff.mp hgive
  have heff := effect_of_fires hf
  obtain ⟨k, x, rfl, hsaid⟩ := heff.sent_said hm
  cases hpl
  cases hsaid with
  | grant m' t cd li lt hc hm' hg hj =>
    obtain ⟨hsender, hne, _, _⟩ := asked_by hw hf hc hm'
    have hcd : cd = i := by
      rw [← hsender, ← hj]
      exact htarget
    subst hcd
    refine ⟨rfl, hne.symm, grants_eq_some.mpr ⟨m', li, lt, hc, hm', hg⟩, ?_, m', hc, ?_⟩
    · rw [hc] at heff
      rcases heff.requestVote_inv hm' with ⟨_, _, hout⟩ | ⟨hno, _⟩
      · rw [hout, List.mem_singleton] at hm
        rw [hout, hm]
      · exact absurd hg hno
    · exact asksVote_iff.mpr ⟨(recv_source hw hf hc).1, li, lt, hm'⟩
  | appendEntries _ _ hx =>
    have hpl := congrArg NetworkMessage.payload hx
    exact absurd hpl (by simp [buildAppendEntries, msgTo])

/-- **One vote of each node arrives**: node `i` receives at most one vote of term `t` from
    node `j`. -/
theorem givesVoteOf_received (hw : (system n {} rngs).Reach ok w) (i j : NodeId) (t : ℕ) :
    System.receivedCount (givesVoteOf j i t) w.history ≤ 1 := by
  have hcarry : ∀ (p : NetworkMessage → Bool) m m', m' ∈ (system n {} rngs).carry m → p m' → p m :=
    fun p m m' hm hp => by
      obtain rfl : m' = m := List.mem_singleton.mp (FaultConfig.tamper_none m ▸ hm)
      exact hp
  -- every vote answers a request that arrived, and every request belongs to an election
  have hgiven : System.sentCount (givesVoteOf j i t) w.history ≤
      System.receivedCount (asksVote i j t) w.history := by
    refine System.sentCount_le_countP _ fun o ho => ?_
    obtain ⟨w₀, hr₀, _, hf₀, _⟩ := hw.fired o ho
    by_cases hz : o.sent.countP (givesVoteOf j i t) = 0
    · rw [hz]; exact Nat.zero_le _
    · obtain ⟨m, hm, hp⟩ := List.countP_pos_iff.mp (Nat.pos_of_ne_zero hz)
      rw [givesVoteOf, decide_eq_true_eq] at hp
      obtain ⟨hsender, _, _, hsent, m', hc, hask⟩ := givesVote_said hr₀ hf₀ hm hp.2
      rw [hc, if_pos (by rw [← hp.1, hsender]; exact hask), hsent]
      exact List.countP_le_length
  have hasked : System.sentCount (asksVote i j t) w.history ≤ w.history.countP (standsAt i t) := by
    refine System.sentCount_le_countP _ fun o ho => ?_
    obtain ⟨w₀, _, _, hf₀, _⟩ := hw.fired o ho
    exact asksVote_sent hf₀ i j t
  calc System.receivedCount (givesVoteOf j i t) w.history
      ≤ System.sentCount (givesVoteOf j i t) w.history := hw.receivedCount_le _ (hcarry _)
    _ ≤ System.receivedCount (asksVote i j t) w.history := hgiven
    _ ≤ System.sentCount (asksVote i j t) w.history := hw.receivedCount_le _ (hcarry _)
    _ ≤ w.history.countP (standsAt i t) := hasked
    _ ≤ 1 := standsAt_le hw i t

/-- A received vote was cast. -/
theorem voted_of_received (hw : (system n {} rngs).Reach ok w) {o : NodeStep RaftState}
    (ho : o ∈ w.history) {m : NetworkMessage} (hc : o.cause = .recv m) {i : NodeId} {t : ℕ}
    (hgive : givesVote i t m = true) :
    m.sender ≠ i ∧ m.sender < n ∧ Voted w.history m.sender t i := by
  obtain ⟨w₀, hr₀, _, hf₀, hsuf⟩ := hw.fired o ho
  obtain ⟨_, o₁, ho₁, hmo, hsender, hn, _⟩ := recv_source hr₀ hf₀ hc
  have ho₁w : o₁ ∈ w.history := hsuf.subset (List.mem_cons_of_mem _ ho₁)
  obtain ⟨w₁, hr₁, _, hf₁, _⟩ := hw.fired o₁ ho₁w
  obtain ⟨_, hne, hgrants, _⟩ := givesVote_said hr₁ hf₁ hmo hgive
  rw [hsender]
  exact ⟨hne, hn, o₁, ho₁w, rfl, votes_eq_some.mpr (.inr hgrants)⟩

/-- Whether node `i` receives a vote of term `t` in a step. -/
def receivesVote (i : NodeId) (t : ℕ) (o : NodeStep RaftState) : Bool :=
  match o.cause with
  | .recv m => givesVote i t m
  | .call _ => false

/-- The sender of the message received in a step. -/
def senderOf (o : NodeStep RaftState) : NodeId :=
  match o.cause with
  | .recv m => m.sender
  | .call _ => 0

/-- **The received votes are votes of different nodes**, none of them the receiver. -/
theorem voters_card (hw : (system n {} rngs).Reach ok w) (i : NodeId) (t : ℕ) :
    ∃ V : Finset NodeId, V.card = System.receivedCount (givesVote i t) w.history ∧
      ∀ j ∈ V, j ≠ i ∧ j < n ∧ Voted w.history j t i := by
  -- the votes are counted by their senders, each of which sends one
  let l := w.history.filter (receivesVote i t)
  have hkeys : ∀ j, l.countP (fun o => senderOf o = j) ≤ 1 := by
    intro j
    have heq : l.countP (fun o => senderOf o = j) =
        System.receivedCount (givesVoteOf j i t) w.history := by
      rw [List.countP_filter]
      apply List.countP_congr
      rintro ⟨i', c, s, s', out⟩ _
      cases c with
      | call a => simp [senderOf, receivesVote]
      | recv m =>
        show (decide (m.sender = j) && givesVote i t m) = true ↔
          decide (m.sender = j ∧ givesVote i t m = true) = true
        simp only [Bool.and_eq_true, decide_eq_true_eq]
    rw [heq]
    exact givesVoteOf_received hw i j t
  refine ⟨(l.map senderOf).toFinset, ?_, fun j hj => ?_⟩
  · rw [card_keys hkeys, ← List.countP_eq_length_filter]
    apply List.countP_congr
    rintro ⟨i', c, s, s', out⟩ _
    cases c <;> rfl
  · rw [List.mem_toFinset, List.mem_map] at hj
    obtain ⟨o, ho, rfl⟩ := hj
    obtain ⟨ho, hrec⟩ := List.mem_filter.mp ho
    unfold receivesVote at hrec
    unfold senderOf
    cases hc : o.cause with
    | call a => rw [hc] at hrec; exact absurd hrec (by simp)
    | recv m =>
      rw [hc] at hrec
      exact voted_of_received hw ho hc hrec

/-! ### Winning an election -/

/-- A candidate counts no vote of an earlier term. -/
def CountsCurrentVote (s : RaftState) : Cause Call NetworkMessage → Prop
  | .recv ⟨_, _, .raft (.requestVoteResponse t true)⟩ => s.role = .candidate → s.currentTerm ≤ t
  | _ => True

omit [Sha256] in
instance (s : RaftState) : DecidablePred (CountsCurrentVote s)
  | .recv ⟨_, _, .raft (.requestVoteResponse _ true)⟩ => inferInstanceAs (Decidable (_ → _))
  | .recv ⟨_, _, .raft (.requestVoteResponse _ false)⟩ => .isTrue trivial
  | .recv ⟨_, _, .raft (.requestVote ..)⟩ => .isTrue trivial
  | .recv ⟨_, _, .raft (.appendEntries ..)⟩ => .isTrue trivial
  | .recv ⟨_, _, .raft (.appendEntriesResponse ..)⟩ => .isTrue trivial
  | .recv ⟨_, _, .pbft _⟩ => .isTrue trivial
  | .recv ⟨_, _, .hotStuff _⟩ => .isTrue trivial
  | .call _ => .isTrue trivial

omit [Sha256] in
/-- The votes that are counted are of no earlier term. -/
theorem CountsCurrentVote.le {s : RaftState} {c : Cause Call NetworkMessage}
    (h : CountsCurrentVote s c) {m : NetworkMessage} {t : ℕ} (hc : c = .recv m)
    (hm : m.payload = .raft (.requestVoteResponse t true)) (hr : s.role = .candidate) :
    s.currentTerm ≤ t := by
  obtain ⟨i, j, pl⟩ := m
  cases hm
  subst hc
  exact h hr

/-- Candidates have voted for themselves, and count no more votes than they received. -/
theorem candidate_votes (hok : ∀ w i c, ok w i c → CountsCurrentVote (w.nodes i) c)
    (hw : (system n {} rngs).Reach ok w) : ∀ i, (w.nodes i).role = .candidate →
      Voted w.history i (w.nodes i).currentTerm i ∧ (w.nodes i).votesReceived ≤
        1 + System.receivedCount (givesVote i (w.nodes i).currentTerm) w.history := by
  have hcount : ∀ p o (h : History RaftState),
      System.receivedCount p h ≤ System.receivedCount p (o :: h) :=
    fun p o h => (List.sublist_cons_self _ _).countP_le
  refine hw.induct_party (I := fun i s h => s.role = .candidate → Voted h i s.currentTerm i ∧
    s.votesReceived ≤ 1 + System.receivedCount (givesVote i s.currentTerm) h) ?_ ?_ ?_
  · intro i hi
    exact absurd hi (by simp [system, newSeeded])
  · intro w o hr ih hg hf hi
    rcases (effect_of_fires hf).role_candidate hi with
      ⟨hc, hl, h0, hs⟩ | ⟨hrole, hterm, _, hvotes⟩
    · rw [hs]
      refine ⟨⟨o, List.mem_cons_self, rfl, votes_eq_some.mpr (.inl ⟨?_, rfl⟩)⟩, ?_⟩
      · exact stands_eq_some.mpr ⟨hc, hl, h0, rfl⟩
      · exact Nat.le_add_right 1 _
    · obtain ⟨hself, hle⟩ := ih hrole
      rw [hterm]
      refine ⟨hself.cons o, ?_⟩
      rcases hvotes with heq | ⟨m, t, hc, hm, ht, heq⟩
      · rw [heq]
        exact le_trans hle (Nat.add_le_add_left (hcount _ _ _) 1)
      · -- the counted vote is of the current term, so it is one more received
        have hlate : o.before.currentTerm ≤ t := by
          rw [hf.before_eq] at hrole ⊢
          exact (hok w o.node o.cause hg).le hc hm hrole
        have hcur : t = o.before.currentTerm := le_antisymm ht hlate
        have hgive : givesVote o.node o.before.currentTerm m = true :=
          givesVote_iff.mpr ⟨(recv_source hr hf hc).1, hcur ▸ hm⟩
        have hmore : System.receivedCount (givesVote o.node o.before.currentTerm)
            (o :: w.history) = System.receivedCount
              (givesVote o.node o.before.currentTerm) w.history + 1 := by
          rw [System.receivedCount, List.countP_cons, if_pos (by rw [hc]; exact hgive)]
          rfl
        rw [heq, hmore]
        omega
  · intro i s o h _ ih hi
    obtain ⟨hself, hle⟩ := ih hi
    exact ⟨hself.cons o, le_trans hle (Nat.add_le_add_left (hcount _ _ _) 1)⟩

/-- A majority has voted for `i` in term `t`. -/
def Elected (n : ℕ) (h : History RaftState) (i : NodeId) (t : ℕ) : Prop :=
  ∃ V, Majority (Finset.range n) V ∧ ∀ j ∈ V, Voted h j t i

omit [Sha256] in
/-- Who was elected stays so in any larger history. -/
theorem Elected.mono {h h' : History RaftState} {i : NodeId} {t : ℕ} (he : Elected n h i t)
    (hsub : h ⊆ h') : Elected n h' i t := by
  obtain ⟨V, hmaj, hV⟩ := he
  exact ⟨V, hmaj, fun j hj => (hV j hj).mono hsub⟩

/-- **A candidate wins with the votes of a majority.** -/
theorem win_majority (hok : ∀ w i c, ok w i c → CountsCurrentVote (w.nodes i) c)
    (hw : (system n {} rngs).Reach ok w) {o : NodeStep RaftState}
    (hg : ok w o.node o.cause) (hf : (system n {} rngs).Fires w o) {m : NetworkMessage} {t : ℕ}
    (hc : o.cause = .recv m) (hm : m.payload = .raft (.requestVoteResponse t true))
    (ht : t ≤ o.before.currentTerm) (hr : o.before.role = .candidate)
    (hq : (node n o.node).majority ≤ o.before.votesReceived + 1) :
    Elected n (o :: w.history) o.node o.before.currentTerm := by
  rw [hf.before_eq] at ht hr hq ⊢
  have hcur : t = (w.nodes o.node).currentTerm :=
    le_antisymm ht ((hok w o.node o.cause hg).le hc hm hr)
  obtain ⟨hself, hle⟩ := candidate_votes hok hw o.node hr
  obtain ⟨w', hw', _, hhist⟩ := hw.next hg hf
  obtain ⟨V, hcard, hV⟩ := voters_card hw' o.node (w.nodes o.node).currentTerm
  rw [hhist] at hcard hV
  have hgive : givesVote o.node (w.nodes o.node).currentTerm m = true :=
    givesVote_iff.mpr ⟨(recv_source hw hf hc).1, hcur ▸ hm⟩
  have hmore : System.receivedCount (givesVote o.node (w.nodes o.node).currentTerm)
      (o :: w.history) = System.receivedCount
        (givesVote o.node (w.nodes o.node).currentTerm) w.history + 1 := by
    rw [System.receivedCount, List.countP_cons, if_pos (by rw [hc]; exact hgive)]
    rfl
  have hmem : o.node < n := Finset.mem_range.mp hf.node_mem
  refine ⟨insert o.node V, ⟨fun j hj => ?_, ?_⟩, fun j hj => ?_⟩
  · rcases Finset.mem_insert.mp hj with rfl | hj
    · exact Finset.mem_range.mpr hmem
    · exact Finset.mem_range.mpr (hV j hj).2.1
  · have hnotin : o.node ∉ V := fun hin => (hV _ hin).1 rfl
    have hmaj : n / 2 + 1 ≤ (w.nodes o.node).votesReceived + 1 := hq
    rw [Finset.card_range, Finset.card_insert_of_notMem hnotin, hcard, hmore]
    omega
  · rcases Finset.mem_insert.mp hj with rfl | hj
    · exact hself.cons o
    · exact (hV j hj).2.2

/-- Whoever leads was elected. -/
theorem leader_elected (hok : ∀ w i c, ok w i c → CountsCurrentVote (w.nodes i) c)
    (hw : (system n {} rngs).Reach ok w) :
    ∀ i, (w.nodes i).role = .leader → Elected n w.history i (w.nodes i).currentTerm := by
  refine hw.induct_party (I := fun i s h => s.role = .leader → Elected n h i s.currentTerm)
    ?_ ?_ ?_
  · intro i hi
    exact absurd hi (by simp [system, newSeeded])
  · intro w o hr ih hg hf hl
    rcases (effect_of_fires hf).role_leader hl with
      ⟨hl, hterm⟩ | ⟨m, t, hc, hm, ht, hcand, hq, hs⟩
    · rw [hterm]
      exact (ih hl).mono (List.subset_cons_self _ _)
    · rw [hs]
      exact win_majority hok hr hg hf hc hm ht hcand hq
  · intro i s o h _ ih hl
    exact (ih hl).mono (List.subset_cons_self _ _)

/-- Whoever led was elected. -/
theorem was_elected (hok : ∀ w i c, ok w i c → CountsCurrentVote (w.nodes i) c)
    (hw : (system n {} rngs).Reach ok w) : ∀ o ∈ w.history, o.after.role = .leader →
      Elected n w.history o.node o.after.currentTerm := by
  intro o ho hl
  obtain ⟨w', hr', hnow, hsuf⟩ := hw.reached o ho
  rw [← hnow] at hl ⊢
  exact (leader_elected hok hr' o.node hl).mono hsuf.subset

/-- Two nodes elected in one term are one. -/
theorem elected_unique (hw : (system n {} rngs).Reach ok w) {i j : NodeId} {t : ℕ}
    (hi : Elected n w.history i t) (hj : Elected n w.history j t) : i = j := by
  obtain ⟨V, hV, hvi⟩ := hi
  obtain ⟨V', hV', hvj⟩ := hj
  obtain ⟨k, hk, hk'⟩ := hV.exists_common hV'
  exact voted_unique hw (hvi k hk) (hvj k hk')

/-! ### Election safety -/

/-- Node `i` has been the leader of term `t`. -/
def WasLeader (h : History RaftState) (i : NodeId) (t : ℕ) : Prop :=
  ∃ o ∈ h, o.node = i ∧ o.after.role = .leader ∧ o.after.currentTerm = t

omit [Sha256] in
instance (h : History RaftState) (i : NodeId) (t : ℕ) : Decidable (WasLeader h i t) :=
  inferInstanceAs (Decidable (∃ o ∈ h, _))

/-- Nobody else leads a term that a node leads, if no candidate counts a vote of an earlier
    term. -/
theorem leaders_unique (hok : ∀ w i c, ok w i c → CountsCurrentVote (w.nodes i) c)
    (hw : (system n {} rngs).Reach ok w) {t : ℕ} {i j : NodeId} (hi : WasLeader w.history i t)
    (hj : WasLeader w.history j t) : i = j := by
  have helected := was_elected hok hw
  obtain ⟨o, ho, rfl, hl, ht⟩ := hi
  obtain ⟨o', ho', rfl, hl', ht'⟩ := hj
  have h := helected o ho hl
  have h' := helected o' ho' hl'
  rw [ht] at h
  rw [ht'] at h'
  exact elected_unique hw h h'

/-- **Election safety**, in the runs in which no candidate counts a vote of an earlier term:
    at most one node is ever leader of a term. -/
theorem one_leader_per_term
    (hw : (system n {} rngs).Reach (System.locally CountsCurrentVote) w)
    (t : ℕ) (i j : NodeId) (hi : WasLeader w.history i t) (hj : WasLeader w.history j t) :
    i = j :=
  leaders_unique (fun _ _ _ h => h) hw hi hj

omit [Sha256] in
/-- Node `0` of three stands for term `1` and wins with the vote of node `1`. -/
theorem one_leader_per_term_three : ∃ w,
    (@system Sha256.sample 3 {} fun _ => ⟨fun _ => 0⟩).Reach
      (System.locally CountsCurrentVote) w ∧ WasLeader w.history 0 1 ∧
    ∀ t i j, WasLeader w.history i t → WasLeader w.history j t → i = j := by
  obtain ⟨w, hw, hlocal, hlead⟩ := System.Reach.exists_of_run
    (S := @system Sha256.sample 3 {} fun _ => ⟨fun _ => 0⟩)
    (P := fun w => (∀ o ∈ w.history, CountsCurrentVote o.before o.cause) ∧
      WasLeader w.history 0 1)
    (List.replicate 16 (.call 0 .tick) ++ [0, 1].map .deliver) (by decide +kernel)
  have hrun := hw.locally hlocal
  exact ⟨w, hrun, hlead, @one_leader_per_term Sha256.sample 3 _ w hrun⟩

omit [Sha256] in
/-- Node `0` of three stands in terms `1` and `2`, and counts the vote of node `2` of term `1`
    in term `2`, for which node `2` votes for node `1`. -/
theorem stale_vote_elects_two_leaders : ∃ w,
    (@system Sha256.sample 3 {} fun _ => ⟨fun _ => 0⟩).Reach System.anyStep w ∧
    ¬ ∀ t i j, WasLeader w.history i t → WasLeader w.history j t → i = j := by
  obtain ⟨w, hw, h0, h1⟩ := System.Reach.exists_of_run
    (S := @system Sha256.sample 3 {} fun _ => ⟨fun _ => 0⟩)
    (P := fun w => WasLeader w.history 0 2 ∧ WasLeader w.history 1 2)
    (List.replicate 16 (.call 0 .tick) ++ .deliver 1 :: List.replicate 16 (.call 0 .tick) ++
      List.replicate 32 (.call 1 .tick) ++ [7, 7, 1].map .deliver) (by decide +kernel)
  refine ⟨w, hw, fun hone => ?_⟩
  exact absurd (hone 2 0 1 h0 h1) (by decide)

end System

end Raft

end ConsensusBench
