import ConsensusBench.Raft.Election

namespace ConsensusBench

/-!
# Raft votes

What becomes of a vote after it is cast.

* `one_candidate_per_term` — a node grants its vote of a term to one candidate, whatever is
  lost, delayed or delivered repeatedly.
* `vote_of_current_term` — the vote a node holds is one of its current term, in the runs in
  which no response or `AppendEntries` of a later term reaches a node that has voted.  Only a
  `RequestVote` of a later term resets the vote (`old_vote_kept`).
-/

open AsyncNet RaftNode

namespace Raft

instance (h : History RaftState) (j : NodeId) (t : ℕ) (c : NodeId) : Decidable (Voted h j t c) :=
  inferInstanceAs (Decidable (∃ o ∈ h, _))

/-! ### One candidate per term -/

section Granted

variable [Sha256] {n : ℕ} {cfg : FaultConfig} {rngs : NodeId → StdRng}
variable {w : World NodeId RaftState Call NetworkMessage}

/-- Whoever is told that it has a vote was granted it in that step. -/
theorem grants_of_sent {o : NodeStep RaftState} (hf : (system n cfg rngs).Fires w o)
    (hsaid : ∀ o₀ ∈ w.history, Effect (node n o₀.node) o₀.before o₀.cause o₀.after o₀.sent)
    {m : NetworkMessage} (hm : m ∈ o.sent) {t : ℕ}
    (hp : m.payload = .raft (.requestVoteResponse t true)) : grants o = some (t, m.target) := by
  obtain ⟨j, x, rfl, hsays⟩ := (effect_of_fires hf).sent_said hm
  cases hp
  cases hsays with
  | grant m' t c li lt hc hm' hg hj =>
    obtain ⟨hcand, _⟩ := candidate_eq_sender hf hsaid hc hm'
    apply grants_eq_some.mpr
    refine ⟨m', li, lt, hc, ?_, ?_⟩
    · rw [hm', hcand, ← hj]
    · show canGrant o.before t j li lt
      rwa [hj, ← hcand]
  | appendEntries x hr hx =>
    have hpl := congrArg NetworkMessage.payload hx
    exact absurd hpl (by simp [buildAppendEntries, msgTo])

/-- What a node says of its vote is what it voted. -/
theorem voted_of_sent (hw : (system n cfg rngs).Repeats w) {o : NodeStep RaftState}
    (ho : o ∈ w.history) {m : NetworkMessage} (hm : m ∈ o.sent) {t : ℕ}
    (hp : m.payload = .raft (.requestVoteResponse t true)) :
    Voted w.history o.node t m.target := by
  obtain ⟨w₀, hr₀, hf₀, _⟩ := hw.fired o ho
  have hsaid : ∀ o₀ ∈ w₀.history,
      Effect (node n o₀.node) o₀.before o₀.cause o₀.after o₀.sent := by
    intro o₀ ho₀
    obtain ⟨_, _, hf, _⟩ := hr₀.fired o₀ ho₀
    exact effect_of_fires hf
  exact ⟨o, ho, rfl, votes_eq_some.mpr (.inr (grants_of_sent hf₀ hsaid hm hp))⟩

/-- **One candidate per term**, under all faults and with repeated delivery: all grants of a
    node in a term go to one candidate, which is the node itself if it stood in that term. -/
theorem one_candidate_per_term (hw : (system n cfg rngs).Repeats w) (i : NodeId) (t : ℕ) :
    ∃ c, (∀ o ∈ w.history, o.node = i → ∀ m ∈ o.sent,
        m.payload = .raft (.requestVoteResponse t true) → m.target = c) ∧
      ((∃ o ∈ w.history, o.node = i ∧ stands o = some t) → c = i) := by
  by_cases hvoted : ∃ c, Voted w.history i t c
  · obtain ⟨c, hc⟩ := hvoted
    refine ⟨c, ?_, ?_⟩
    · rintro o ho rfl m hm hp
      exact unique_of_repeats hw (voted_of_sent hw ho hm hp) hc
    · rintro ⟨o, ho, rfl, hs⟩
      exact unique_of_repeats hw hc ⟨o, ho, rfl, votes_eq_some.mpr (.inl ⟨hs, rfl⟩)⟩
  · -- the node has not voted in this term at all
    refine ⟨i, ?_, fun _ => rfl⟩
    rintro o ho rfl m hm hp
    exact absurd ⟨_, voted_of_sent hw ho hm hp⟩ hvoted

omit [Sha256] in
/-- Node `1` is asked twice by node `0` and grants twice; then node `2`, which stood in the
    same term, is denied. -/
theorem one_candidate_per_term_three : ∃ w,
    (@system Sha256.sample 3 {} fun _ => ⟨fun _ => 0⟩).Repeats w ∧
    w.inFlight.countP (givesVoteOf 1 0 1) = 2 ∧
    ∀ i t, ∃ c, (∀ o ∈ w.history, o.node = i → ∀ m ∈ o.sent,
        m.payload = .raft (.requestVoteResponse t true) → m.target = c) ∧
      ((∃ o ∈ w.history, o.node = i ∧ stands o = some t) → c = i) := by
  obtain ⟨w, hw, htwice⟩ := System.Repeats.exists_of_run
    (S := @system Sha256.sample 3 {} fun _ => ⟨fun _ => 0⟩)
    (P := fun w => w.inFlight.countP (givesVoteOf 1 0 1) = 2)
    (List.replicate 16 (.call 0 .tick) ++ List.replicate 16 (.call 2 .tick) ++
      [0, 0, 3].map .deliver) (by decide +kernel)
  exact ⟨w, hw, htwice, @one_candidate_per_term Sha256.sample 3 _ _ w hw⟩

end Granted

/-! ### The recorded vote -/

/-- The term of a message that raises the term of a node and leaves its vote alone. -/
def voteKeepingTerm : ProtocolMessage → Option ℕ
  | .raft (.requestVoteResponse t _) => some t
  | .raft (.appendEntries t _ _ _ _ _) => some t
  | .raft (.appendEntriesResponse t _ _) => some t
  | _ => none

/-- A node that has voted processes no response and no `AppendEntries` of a later term. -/
def VoteStaysInTerm (s : RaftState) : Cause Call NetworkMessage → Prop
  | .recv m => ∀ t ∈ voteKeepingTerm m.payload, s.votedFor ≠ none → t ≤ s.currentTerm
  | .call _ => True

instance (s : RaftState) : DecidablePred (VoteStaysInTerm s)
  | .recv m => inferInstanceAs (Decidable (∀ t ∈ voteKeepingTerm m.payload, _))
  | .call _ => inferInstanceAs (Decidable True)

/-- A recorded vote is cast in this step, or was recorded before: then the term is the same, or
    it is the one of a message that leaves the vote alone. -/
theorem Effect.votedFor_inv {n : ℕ} {i : NodeId} {s s' : RaftState} {c : Cause Call NetworkMessage}
    {out : List NetworkMessage} (h : Effect (node n i) s c s' out) {x : NodeId}
    (hx : s'.votedFor = some x) :
    Raft.votes ⟨i, c, s, s', out⟩ = some (s'.currentTerm, x) ∨
    (s.votedFor = some x ∧ (s'.currentTerm = s.currentTerm ∨ ∃ m, c = .recv m ∧
      s'.currentTerm ∈ voteKeepingTerm m.payload ∧ s.currentTerm ≤ s'.currentTerm)) := by
  cases h with
  | stand hr h0 =>
    cases hx
    exact .inl (votes_eq_some.mpr (.inl ⟨stands_eq_some.mpr ⟨rfl, hr, h0, rfl⟩, rfl⟩))
  | grant m t c li lt hm hg =>
    cases hx
    have hterm : (observe s t).currentTerm = t := by
      rw [observe_currentTerm]
      exact max_eq_right hg.1
    apply Or.inl
    show Raft.votes _ = some ((observe s t).currentTerm, x)
    rw [hterm]
    exact votes_eq_some.mpr (.inr (grants_eq_some.mpr ⟨m, li, lt, rfl, hm, hg⟩))
  | deny m t c li lt hm hno =>
    -- a later term would have reset the vote
    unfold observe at *
    split at hx
    · exact absurd hx (by simp)
    · rename_i hle
      rw [if_neg hle]
      exact .inr ⟨hx, .inl rfl⟩
  | stepDown m t hm ht =>
    refine .inr ⟨hx, .inr ⟨m, rfl, ?_, le_of_lt ht⟩⟩
    rcases hm with ⟨g, hm⟩ | ⟨b, mi, hm⟩
    · rw [hm]; rfl
    · rw [hm]; rfl
  | miss m t l pi pt es lc hm ht =>
    exact .inr ⟨hx, .inr ⟨m, rfl, by rw [hm]; rfl, ht⟩⟩
  | conflict m t l pi pt es lc e hm ht =>
    exact .inr ⟨hx, .inr ⟨m, rfl, by rw [hm]; rfl, ht⟩⟩
  | accept m t l pi pt es lc log s' hm ht hprev hlog hs =>
    rw [accept_eq hs] at hx ⊢
    exact .inr ⟨hx, .inr ⟨m, rfl, by rw [hm]; rfl, ht⟩⟩
  | commit m t mi k s' hm ht hr hk hs =>
    rw [commitUpTo_eq hs] at hx ⊢
    exact .inr ⟨hx, .inl rfl⟩
  | retry m t mi hm ht hr =>
    rw [backOff_votedFor] at hx
    exact .inr ⟨hx, .inl (backOff_currentTerm s _)⟩
  | _ => exact .inr ⟨hx, .inl rfl⟩

/-- Accepting entries leaves the term and the vote alone. -/
theorem acceptEntries_vote {self : RaftNode} {s : RaftState} {sender : NodeId}
    {es : List LogEntry} {lc : ℕ} {r : RaftState × List NetworkMessage}
    (h : self.acceptEntries s sender es lc = some r) :
    r.1.currentTerm = s.currentTerm ∧ r.1.votedFor = s.votedFor := by
  unfold acceptEntries at h
  rw [Option.bind_eq_some_iff] at h
  obtain ⟨log, _, h⟩ := h
  rw [Option.map_eq_some_iff] at h
  obtain ⟨s', hs, rfl⟩ := h
  split at hs
  · rw [commitUpTo_eq hs]
    exact ⟨rfl, rfl⟩
  · cases hs
    exact ⟨rfl, rfl⟩

/-- A message of a later term that leaves the vote alone takes the node into that term. -/
theorem handleMessage_voteKeeping {self : RaftNode} {s : RaftState} {m : NetworkMessage}
    {r : RaftState × List NetworkMessage} (h : self.handleMessage s m = some r) {t : ℕ}
    (hm : t ∈ voteKeepingTerm m.payload) (ht : s.currentTerm < t) :
    r.1.currentTerm = t ∧ r.1.votedFor = s.votedFor := by
  obtain ⟨i, j, pl⟩ := m
  cases pl with
  | raft x =>
    cases x with
    | requestVote => exact absurd hm (by simp [voteKeepingTerm])
    | requestVoteResponse t' g =>
      cases hm
      have hform : some (self.handleRequestVoteResponse s t g) = some r := h
      rw [handleRequestVoteResponse, if_pos ht] at hform
      cases hform
      exact ⟨rfl, rfl⟩
    | appendEntries t' l pi pt es lc =>
      cases hm
      have hform : self.handleAppendEntries s i t l pi pt es lc = some r := h
      rw [handleAppendEntries, if_neg (not_lt.mpr (le_of_lt ht))] at hform
      dsimp only at hform
      -- whatever becomes of the entries, the node follows the sender in the term `t`
      split at hform
      · split at hform
        · cases hform
          exact ⟨rfl, rfl⟩
        · split at hform
          · cases hform
            exact ⟨rfl, rfl⟩
          · exact acceptEntries_vote hform
      · exact acceptEntries_vote hform
    | appendEntriesResponse t' b mi =>
      cases hm
      have hform : self.handleAppendEntriesResponse s i t b mi = some r := h
      rw [handleAppendEntriesResponse, if_pos ht] at hform
      cases hform
      exact ⟨rfl, rfl⟩
  | _ => exact absurd hm (by simp [voteKeepingTerm])

/-- **The recorded votes are votes of the current terms**: a node that records a vote cast it
    in the term it is in, and refuses an up-to-date candidate only when it voted for another
    one in its term. -/
structure VotesCurrent (n : ℕ) (w : World NodeId RaftState Call NetworkMessage) : Prop where
  recorded : ∀ i c, (w.nodes i).votedFor = some c → Voted w.history i (w.nodes i).currentTerm c
  refused : ∀ o ∈ w.history, ∀ m t c li lt, o.cause = .recv m →
    m.payload = .raft (.requestVote t c li lt) → UpToDate o.before.log li lt →
    o.before.currentTerm ≤ t →
    (node n o.node).msgTo m.sender (.raft (.requestVoteResponse t false)) ∈ o.sent →
    ∃ c', c' ≠ c ∧ Voted w.history o.node t c'

/-- What an up-to-date candidate is refused for: another vote of the term. -/
theorem recorded_of_not_canGrant {s : RaftState} {t : ℕ} {c : NodeId} {li lt : ℕ}
    (hno : ¬ canGrant s t c li lt) (hlog : UpToDate s.log li lt) (ht : s.currentTerm ≤ t) :
    s.currentTerm = t ∧ ∃ c', c' ≠ c ∧ s.votedFor = some c' := by
  have hvoted : ¬ ((observe s t).votedFor = none ∨ (observe s t).votedFor = some c) :=
    fun h => hno ⟨ht, h, hlog⟩
  unfold observe at hvoted
  split at hvoted
  · exact absurd (.inl rfl) hvoted
  · rename_i hle
    obtain ⟨hsome, hne⟩ := not_or.mp hvoted
    obtain ⟨c', hc'⟩ := Option.ne_none_iff_exists'.mp hsome
    refine ⟨by omega, c', ?_, hc'⟩
    rintro rfl
    exact hne hc'

section Recorded

variable [Sha256] {n : ℕ} {rngs : NodeId → StdRng}
variable {ok : System.Guard NodeId RaftState Call NetworkMessage}
variable {w : World NodeId RaftState Call NetworkMessage}

/-- A recorded vote was cast in the current term, if every step keeps votes in their term. -/
theorem recorded_voted {cfg : FaultConfig}
    (hok : ∀ w i c, ok w i c → VoteStaysInTerm (w.nodes i) c)
    (hw : (system n cfg rngs).Reach ok w) :
    ∀ i c, (w.nodes i).votedFor = some c → Voted w.history i (w.nodes i).currentTerm c := by
  refine hw.induct_party (I := fun i s h => ∀ c, s.votedFor = some c → Voted h i s.currentTerm c)
    ?_ ?_ ?_
  · intro i c hc
    exact absurd hc (by simp [system, newSeeded])
  · intro w o hr ih hg hf x hx
    rcases (effect_of_fires hf).votedFor_inv hx with hnew | ⟨hold, hterm⟩
    · exact ⟨o, List.mem_cons_self, rfl, hnew⟩
    · have hsame : o.after.currentTerm = o.before.currentTerm := by
        rcases hterm with heq | ⟨m, hc, hmem, hle⟩
        · exact heq
        · have hstays := hok w o.node o.cause hg
          rw [hc, ← hf.before_eq] at hstays
          exact le_antisymm (hstays _ hmem (by rw [hold]; simp)) hle
      rw [hsame]
      exact (ih x hold).cons o
  · intro i s o h _ ih c hc
    exact (ih c hc).cons o

/-- **The recorded vote belongs to the current term**, in the runs in which no response and no
    `AppendEntries` of a later term reaches a node that has voted. -/
theorem vote_of_current_term (hw : (system n {} rngs).Reach (System.locally VoteStaysInTerm) w) :
    VotesCurrent n w := by
  refine ⟨recorded_voted (fun _ _ _ h => h) hw, ?_⟩
  intro o ho m t c li lt hc hm hlog ht hrefused
  obtain ⟨w₀, hr₀, _, hf₀, hsuf⟩ := hw.fired o ho
  have heff := effect_of_fires hf₀
  rw [hc] at heff
  rcases heff.requestVote_inv hm with ⟨_, _, hout⟩ | ⟨hno, _, _⟩
  · rw [hout, List.mem_singleton] at hrefused
    exact absurd (congrArg NetworkMessage.payload hrefused) (by simp [msgTo])
  · obtain ⟨hterm, c', hne, hvoted⟩ := recorded_of_not_canGrant hno hlog ht
    rw [hf₀.before_eq] at hterm hvoted
    have hcast := recorded_voted (fun _ _ _ h => h) hr₀ o.node c' hvoted
    rw [hterm] at hcast
    exact ⟨c', hne, hcast.mono fun o' ho' => hsuf.subset (List.mem_cons_of_mem _ ho')⟩

omit [Sha256] in
/-- Nodes `0` and `1` stand in term `1`; node `2` votes for node `0` and refuses node `1`. -/
theorem vote_of_current_term_three : ∃ w,
    (@system Sha256.sample 3 {} fun _ => ⟨fun _ => 0⟩).Reach
      (System.locally VoteStaysInTerm) w ∧
    (w.nodes 2).votedFor = some 0 ∧ (⟨2, 1, .raft (.requestVoteResponse 1 false)⟩ :
      NetworkMessage) ∈ w.inFlight ∧ VotesCurrent 3 w := by
  obtain ⟨w, hw, hlocal, hvoted, hrefused⟩ := System.Reach.exists_of_run
    (S := @system Sha256.sample 3 {} fun _ => ⟨fun _ => 0⟩)
    (P := fun w => (∀ o ∈ w.history, VoteStaysInTerm o.before o.cause) ∧
      (w.nodes 2).votedFor = some 0 ∧ (⟨2, 1, .raft (.requestVoteResponse 1 false)⟩ :
        NetworkMessage) ∈ w.inFlight)
    (List.replicate 16 (.call 0 .tick) ++ List.replicate 16 (.call 1 .tick) ++
      [1, 2].map .deliver) (by decide +kernel)
  have hrun := hw.locally hlocal
  exact ⟨w, hrun, hvoted, hrefused, @vote_of_current_term Sha256.sample 3 _ w hrun⟩

omit [Sha256] in
/-- Node `1` votes for itself in term `1`; then node `0` wins term `2`, and its `AppendEntries`
    takes node `1` there, which still holds its vote and refuses node `0`. -/
theorem old_vote_refuses_candidate : ∃ w,
    (@system Sha256.sample 3 {} fun _ => ⟨fun _ => 0⟩).Reach System.anyStep w ∧
    ¬ VotesCurrent 3 w := by
  obtain ⟨w, hw, hvoted, hterm, hnot⟩ := System.Reach.exists_of_run
    (S := @system Sha256.sample 3 {} fun _ => ⟨fun _ => 0⟩)
    (P := fun w => (w.nodes 1).votedFor = some 1 ∧ (w.nodes 1).currentTerm = 2 ∧
      ¬ Voted w.history 1 2 1)
    (List.replicate 16 (.call 1 .tick) ++ List.replicate 32 (.call 0 .tick) ++
      [5, 5, 5, 4].map .deliver) (by decide +kernel)
  refine ⟨w, hw, fun h => ?_⟩
  have hcast := h.recorded 1 1 hvoted
  rw [hterm] at hcast
  exact hnot hcast

/-- **Otherwise the vote is kept**: a response or `AppendEntries` of a later term that reaches a
    node that has voted leaves it with a vote that it did not cast in its term. -/
theorem old_vote_kept {cfg : FaultConfig} (hw : (system n cfg rngs).Reach ok w)
    {o : NodeStep RaftState} (hf : (system n cfg rngs).Fires w o)
    (hno : ¬ VoteStaysInTerm o.before o.cause) :
    ∃ c, o.after.votedFor = some c ∧
      ¬ Voted (o :: w.history) o.node o.after.currentTerm c := by
  have hvotes := voted_recorded hw
  cases hf with
  | call i a hi => exact absurd trivial hno
  | recv m m' s out hm hsent hcarry hmem hrecv =>
    have hlater : ∃ t ∈ voteKeepingTerm m'.payload, (w.nodes m'.target).votedFor ≠ none ∧
        (w.nodes m'.target).currentTerm < t := by
      by_contra hall
      refine hno fun t ht hvoted => not_lt.mp fun hlt => hall ⟨t, ht, hvoted, hlt⟩
    obtain ⟨t, ht, hvoted, hlt⟩ := hlater
    obtain ⟨c, hc⟩ := Option.ne_none_iff_exists'.mp hvoted
    obtain ⟨hterm, hkept⟩ := handleMessage_voteKeeping hrecv ht hlt
    refine ⟨c, hkept.trans hc, ?_⟩
    rintro ⟨o, ho, hnode, hv⟩
    rcases List.mem_cons.mp ho with rfl | hold
    · -- the step itself casts no vote
      rcases votes_eq_some.mp hv with ⟨hs, _⟩ | hg
      · exact absurd (stands_eq_some.mp hs).1 (by simp)
      · obtain ⟨_, _, _, hcause, hp, _⟩ := grants_eq_some.mp hg
        cases hcause
        rw [hp] at ht
        exact absurd ht (by simp [voteKeepingTerm])
    · have hle := (hvotes o hold _ c hv).1
      rw [hnode] at hle
      exact absurd (hterm ▸ hle) (not_le.mpr hlt)

end Recorded

end Raft

end ConsensusBench
