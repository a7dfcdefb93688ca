import ConsensusBench.Pbft.Crash
import ConsensusBench.Timed

namespace ConsensusBench

/-!
# PBFT clusters that have nothing to do

A backup suspects its primary after `VIEW_CHANGE_TIMEOUT` ticks without a `PrePrepare`, whether
there was anything to propose or not.  So a cluster that is left alone goes from view to view, and
stops where the next primary has crashed.

* `viewAfter` — the view after a number of timeouts.
* `Idle`, `Voting` — a node that waits for its timeout, and one that has voted for the next view.
* `Rotating` — the cluster while a view change is under way; `Answer` is what a delivery does to it.
* `turning` — one round.
-/

open AsyncNet PbftNode

namespace Pbft

/-- The view after `t` timeouts, if the nodes of `I` have crashed. -/
def viewAfter (n : ℕ) (I : Finset NodeId) : ℕ → ViewNumber
  | 0 => 0
  | t + 1 => if (viewAfter n I t + 1) % n ∈ I then viewAfter n I t else viewAfter n I t + 1

theorem viewAfter_le (n : ℕ) (I : Finset NodeId) (t : ℕ) : viewAfter n I t ≤ t := by
  induction t with
  | zero => exact le_refl 0
  | succ t ih =>
    rw [viewAfter]
    split
    · exact Nat.le_succ_of_le ih
    · exact Nat.succ_le_succ ih

/-- If all timeouts have led to the next view, then no primary has crashed so far. -/
theorem live_of_viewAfter {n : ℕ} {I : Finset NodeId} {t : ℕ} (h : viewAfter n I t = t) :
    ∀ u < t, (u + 1) % n ∉ I := by
  induction t with
  | zero => exact fun u hu => absurd hu (Nat.not_lt_zero u)
  | succ t ih =>
    intro u hu
    have hle := viewAfter_le n I t
    rw [viewAfter] at h
    split at h
    · rw [h] at hle
      exact absurd hle (Nat.not_succ_le_self t)
    · rename_i hp
      have hbefore := Nat.succ.inj h
      rw [hbefore] at hp
      rcases Nat.lt_succ_iff_lt_or_eq.mp hu with hu | rfl
      · exact ih hbefore u hu
      · exact hp

/-- Sooner or later it is the turn of a node that has crashed. -/
theorem viewAfter_ne {n : ℕ} {I : Finset NodeId} {i : NodeId} (hi : i < n) (hiI : i ∈ I) {t : ℕ}
    (ht : n ≤ t) : viewAfter n I t ≠ t := by
  intro h
  rcases Nat.eq_zero_or_pos i with rfl | hpos
  · refine live_of_viewAfter h (n - 1) (lt_of_lt_of_le (Nat.sub_lt hi Nat.one_pos) ht) ?_
    rw [Nat.sub_add_cancel hi, Nat.mod_self]
    exact hiI
  · refine live_of_viewAfter h (i - 1) (lt_of_le_of_lt (Nat.sub_le i 1) (lt_of_lt_of_le hi ht)) ?_
    rw [Nat.sub_add_cancel hpos, Nat.mod_eq_of_lt hi]
    exact hiI

/-- The primary of the next view is another one. -/
theorem mod_succ_ne {n v : ℕ} (hn : 2 ≤ n) : v % n ≠ (v + 1) % n := by
  intro heq
  have hone := Nat.sub_mod_eq_zero_of_mod_eq heq.symm
  rw [Nat.add_sub_cancel_left, Nat.mod_eq_of_lt hn] at hone
  exact absurd hone Nat.one_ne_zero

/-- The votes for a view that a node has. -/
def ballot (s : PbftState) (v : ViewNumber) : Finset NodeId := (s.viewChangeVotes.lookup v).getD ∅

theorem ballot_insert {s s' : PbftState} {v : ViewNumber} {votes : Finset NodeId}
    (h : s'.viewChangeVotes = s.viewChangeVotes.insert v votes) (u : ViewNumber) :
    ballot s' u = if u = v then votes else ballot s u := by
  unfold ballot
  rw [h]
  by_cases hu : u = v
  · rw [hu, AList.lookup_insert, if_pos rfl, Option.getD_some]
  · rw [AList.lookup_insert_ne hu, if_neg hu]

/-- The state with other votes for `v`. -/
def withBallot (s : PbftState) (v : ViewNumber) (votes : Finset NodeId) : PbftState :=
  { s with viewChangeVotes := s.viewChangeVotes.insert v votes }

/-- A node in view `v` that times out in `τ` ticks, unless it is the primary. -/
structure Idle (n : ℕ) (v : ViewNumber) (τ : ℕ) (i : NodeId) (s : PbftState) : Prop where
  view : s.view = v
  progress : s.viewChangeInProgress = false
  timer : v % n ≠ i → s.viewChangeTimeout = τ
  ballots : ∀ u, v < u → ballot s u = ∅

/-- A node in view `v` that has voted for the next view, or the primary, which votes when others
    have. -/
structure Voting (n : ℕ) (v : ViewNumber) (i : NodeId) (s : PbftState) : Prop where
  view : s.view = v
  progress : v % n = i → s.viewChangeInProgress = false
  suspects : v % n ≠ i → s.viewChangeInProgress = true ∧ i ∈ ballot s (v + 1)
  joined : (ballot s (v + 1)).Nonempty → i ∈ ballot s (v + 1)
  ballots : ∀ u, v + 1 < u → ballot s u = ∅

section Ticks

variable {n v τ : ℕ} {i : NodeId} {s : PbftState}

/-- A tick before the timeout. -/
theorem Idle.tick_down (h : Idle n v (τ + 1) i s) :
    Idle n v τ i ((node n i).tick s).1 ∧ ((node n i).tick s).2 = [] := by
  by_cases hp : v % n = i
  · have hprimary : (node n i).primaryForView s.view = (node n i).id := by rw [h.view]; exact hp
    rw [tick, if_pos hprimary]
    exact ⟨⟨h.view, h.progress, fun hne => absurd hp hne, h.ballots⟩, rfl⟩
  · have hprimary : (node n i).primaryForView s.view ≠ (node n i).id := by rw [h.view]; exact hp
    rw [Pbft.tick_down hprimary h.progress (by rw [h.timer hp]; exact Nat.succ_pos τ)]
    refine ⟨⟨h.view, h.progress, fun _ => ?_, h.ballots⟩, rfl⟩
    show s.viewChangeTimeout - 1 = τ
    rw [h.timer hp, Nat.add_sub_cancel]

/-- The tick at the timeout: all but the primary vote for the next view, and tell all others. -/
theorem Idle.tick_vote (h : Idle n v 0 i s) :
    Voting n v i ((node n i).tick s).1 ∧ ballot ((node n i).tick s).1 (v + 1) ⊆ {i} ∧
      (i ∉ ballot ((node n i).tick s).1 (v + 1) ∧ ((node n i).tick s).2 = [] ∨
        ((node n i).tick s).2 =
          (node n i).broadcastPbft (.viewChange (v + 1) i s.highestCommittedSeq)) := by
  have hnone : ballot s (v + 1) = ∅ := h.ballots _ (Nat.lt_succ_self v)
  by_cases hp : v % n = i
  · have hprimary : (node n i).primaryForView s.view = (node n i).id := by rw [h.view]; exact hp
    rw [tick, if_pos hprimary]
    refine ⟨⟨h.view, fun _ => h.progress, fun hne => absurd hp hne, fun hne => ?_, fun u hu =>
      h.ballots u (Nat.lt_of_succ_lt hu)⟩, ?_, .inl ⟨?_, rfl⟩⟩
    · rw [hnone] at hne
      exact absurd hne Finset.not_nonempty_empty
    · rw [hnone]
      exact Finset.empty_subset _
    · rw [hnone]
      exact Finset.notMem_empty i
  · have hprimary : (node n i).primaryForView s.view ≠ (node n i).id := by rw [h.view]; exact hp
    have hstep : (node n i).tick s = ({ s with
        viewChangeInProgress := true
        viewChangeVotes := s.viewChangeVotes.insert (s.view + 1)
          (insert i (ballot s (s.view + 1))) },
        (node n i).broadcastPbft (.viewChange (s.view + 1) i s.highestCommittedSeq)) := by
      rw [tick, if_neg hprimary, h.progress, if_neg Bool.false_ne_true, if_pos (h.timer hp)]
      rfl
    have hs := congrArg Prod.fst hstep
    have hout := congrArg Prod.snd hstep
    have hvotes := congrArg PbftState.viewChangeVotes hs
    dsimp only at hs hout hvotes
    rw [h.view] at hout hvotes
    rw [hnone] at hvotes
    have hballot := ballot_insert hvotes
    have hself : ballot ((node n i).tick s).1 (v + 1) = {i} := by
      rw [hballot, if_pos rfl]
      rfl
    have hmem : i ∈ ballot ((node n i).tick s).1 (v + 1) := by
      rw [hself]
      exact Finset.mem_singleton_self i
    refine ⟨⟨?_, fun heq => absurd heq hp, fun _ => ⟨?_, hmem⟩, fun _ => hmem, fun u hu => ?_⟩, ?_,
      .inr hout⟩
    · rw [hs]
      exact h.view
    · rw [hs]
    · rw [hballot, if_neg (Nat.ne_of_gt hu)]
      exact h.ballots u (Nat.lt_of_succ_lt hu)
    · rw [hself]

/-- Nothing happens to a node that waits for the next view. -/
theorem Voting.tick_eq (h : Voting n v i s) : (node n i).tick s = (s, []) := by
  by_cases hp : v % n = i
  · have hprimary : (node n i).primaryForView s.view = (node n i).id := by rw [h.view]; exact hp
    rw [tick, if_pos hprimary]
  · have hprimary : (node n i).primaryForView s.view ≠ (node n i).id := by rw [h.view]; exact hp
    rw [tick, if_neg hprimary, (h.suspects hp).1, if_pos rfl]

end Ticks

/-! ### A view change under way -/

/-- What is sent in the change to view `v`: votes, and the news that its primary has installed
    it. -/
def Speaks (v : ViewNumber) (m : NetworkMessage) : Prop :=
  (∃ l, m.payload = .pbft (.viewChange v m.sender l)) ∨ ∃ ns, m.payload = .pbft (.newView v ns)

/-- What a live node `j` of view `v` makes of a message in the change to view `v + 1`. -/
structure Answer (n : ℕ) (v : ViewNumber) (j : NodeId) (s : PbftState) (m : NetworkMessage)
    (s' : PbftState) (out : List NetworkMessage) : Prop where
  stage : Voting n v j s' ∨ Idle n (v + 1) VIEW_CHANGE_TIMEOUT j s'
  -- if it stays in view `v`
  grows : s'.view = v → s.view = v ∧ ballot s (v + 1) ⊆ ballot s' (v + 1)
  counts : s'.view = v → ∀ l, m.payload = .pbft (.viewChange (v + 1) m.sender l) →
    m.sender ∈ ballot s' (v + 1)
  stays : s'.view = v → ∀ ns, m.payload ≠ .pbft (.newView (v + 1) ns)
  votes : s'.view = v → j ∈ ballot s' (v + 1) → j ∈ ballot s (v + 1) ∨
    ∀ k < n, k ≠ j → ∃ l, ⟨j, k, .pbft (.viewChange (v + 1) j l)⟩ ∈ out
  few : s'.view = v → (v + 1) % n = j → ballot s (v + 1) ⊆ {j} ∨
    (ballot s (v + 1)).card < 2 * ((n - 1) / 3) + 1 → ballot s' (v + 1) ⊆ {j} ∨
      (ballot s' (v + 1)).card < 2 * ((n - 1) / 3) + 1
  -- if it leaves
  installs : v < s'.view → v < s.view ∨ (∃ ns, m.payload = .pbft (.newView (v + 1) ns)) ∨
    (v + 1) % n = j ∧ ∀ k < n, k ≠ j → ∃ ns, ⟨j, k, .pbft (.newView (v + 1) ns)⟩ ∈ out
  sent : ∀ m' ∈ out, m'.sender = j ∧ m'.target < n ∧ m'.target ≠ j ∧
    ((∃ l, m'.payload = .pbft (.viewChange (v + 1) j l)) ∨
      (∃ ns, m'.payload = .pbft (.newView (v + 1) ns)) ∧ (v + 1) % n = j ∧ v < s'.view)

section Answers

variable {n v : ℕ} {j : NodeId} {s : PbftState} {m : NetworkMessage}

/-- A node that has left view `v` ignores all of it. -/
theorem Idle.answer (h : Idle n (v + 1) VIEW_CHANGE_TIMEOUT j s) (hm : Speaks (v + 1) m) :
    (node n j).handleMessage s m = (s, []) ∧ Answer n v j s m s [] := by
  have hle : v + 1 ≤ s.view := h.view.ge
  have hleft : s.view ≠ v := by
    rw [h.view]
    exact Nat.succ_ne_self v
  refine ⟨?_, .inr h, fun he => absurd he hleft, fun he => absurd he hleft,
    fun he => absurd he hleft, fun he => absurd he hleft, fun he => absurd he hleft, .inl,
    fun m' hm' => absurd hm' List.not_mem_nil⟩
  rcases hm with ⟨l, hm⟩ | ⟨ns, hm⟩
  · rw [handleMessage, hm]
    exact if_pos hle
  · rw [handleMessage, hm]
    exact if_pos hle

/-- The news of view `v + 1` makes a node enter it. -/
theorem Voting.answer_news (h : Voting n v j s) {ns : SequenceNumber}
    (hm : m.payload = .pbft (.newView (v + 1) ns)) :
    Answer n v j s m ((node n j).handleMessage s m).1 ((node n j).handleMessage s m).2 := by
  have hlt : ¬ v + 1 ≤ s.view := by
    rw [h.view]
    exact Nat.not_succ_le_self v
  rw [handleMessage, hm]
  dsimp only
  rw [handleNewView, if_neg hlt]
  have hleft : v + 1 ≠ v := Nat.succ_ne_self v
  exact ⟨.inr ⟨rfl, rfl, fun _ => rfl, h.ballots⟩, fun he => absurd he hleft,
    fun he => absurd he hleft, fun he => absurd he hleft, fun he => absurd he hleft,
    fun he => absurd he hleft, fun _ => .inr (.inl ⟨ns, hm⟩), fun m' hm' =>
    absurd hm' List.not_mem_nil⟩

/-- What a vote for a later view does, in terms of the votes for it. -/
theorem handleViewChange_eq {r : NodeId} (hlt : s.view < v) :
    (node n j).handleViewChange s v r =
      if j ∉ insert r (ballot s v) then
        if 2 * ((n - 1) / 3) + 1 ≤ (insert j (insert r (ballot s v))).card ∧ v % n = j then
          (((node n j).installView (withBallot s v (insert j (insert r (ballot s v)))) v).1,
            (node n j).broadcastPbft (.viewChange v j s.highestCommittedSeq) ++
              ((node n j).installView (withBallot s v (insert j (insert r (ballot s v)))) v).2)
        else (withBallot s v (insert j (insert r (ballot s v))),
          (node n j).broadcastPbft (.viewChange v j s.highestCommittedSeq))
      else if 2 * ((n - 1) / 3) + 1 ≤ (insert r (ballot s v)).card ∧ v % n = j then
        (node n j).installView (withBallot s v (insert r (ballot s v))) v
      else (withBallot s v (insert r (ballot s v)), []) := by
  rw [handleViewChange, if_neg (not_le.mpr hlt)]
  rfl

/-- The votes of a node of view `v` that has other votes for the next view. -/
theorem Voting.ballot_withBallot (h : Voting n v j s) (votes : Finset NodeId) :
    ballot (withBallot s (v + 1) votes) (v + 1) = votes ∧
      ∀ u, v + 1 < u → ballot (withBallot s (v + 1) votes) u = ∅ := by
  have hballot : ∀ u, ballot (withBallot s (v + 1) votes) u =
      if u = v + 1 then votes else ballot s u := ballot_insert rfl
  refine ⟨by rw [hballot, if_pos rfl], fun u hu => ?_⟩
  rw [hballot, if_neg (Nat.ne_of_gt hu)]
  exact h.ballots u hu

/-- A node whose view stays the same stays in view `v`. -/
theorem Voting.not_left (h : Voting n v j s) : ¬ v < s.view := by
  rw [h.view]
  exact lt_irrefl v

/-- The next primary installs its view, as it has a quorum of votes. -/
theorem Voting.answer_installs (h : Voting n v j s) (hp : (v + 1) % n = j)
    (votes : Finset NodeId) :
    Answer n v j s m ((node n j).installView (withBallot s (v + 1) votes) (v + 1)).1
      ((node n j).installView (withBallot s (v + 1) votes) (v + 1)).2 := by
  have hleft : v + 1 ≠ v := Nat.succ_ne_self v
  have hrest := (h.ballot_withBallot votes).2
  refine ⟨.inr ⟨rfl, rfl, fun _ => rfl, hrest⟩, fun he => absurd he hleft,
    fun he => absurd he hleft, fun he => absurd he hleft, fun he => absurd he hleft,
    fun he => absurd he hleft, fun _ => .inr (.inr ⟨hp, fun k hk hkj => ⟨_,
      mem_broadcastPbft.mpr ⟨k, hk, hkj, rfl⟩⟩⟩), fun m' hm' => ?_⟩
  obtain ⟨k, hk, hkj, rfl⟩ := mem_broadcastPbft.mp hm'
  exact ⟨rfl, hk, hkj, .inr ⟨⟨_, rfl⟩, hp, Nat.lt_succ_self v⟩⟩

/-- A node that has voted counts a vote that makes no quorum for it to install. -/
theorem Voting.answer_counts (h : Voting n v j s) {l : SequenceNumber}
    (hm : m.payload = .pbft (.viewChange (v + 1) m.sender l)) (hmem : j ∈ ballot s (v + 1))
    (hfew : ¬ (2 * ((n - 1) / 3) + 1 ≤ (insert m.sender (ballot s (v + 1))).card ∧
      (v + 1) % n = j)) :
    Answer n v j s m (withBallot s (v + 1) (insert m.sender (ballot s (v + 1)))) [] := by
  obtain ⟨hnow, hrest⟩ := h.ballot_withBallot (insert m.sender (ballot s (v + 1)))
  have hvoted : j ∈ ballot (withBallot s (v + 1) (insert m.sender (ballot s (v + 1)))) (v + 1) := by
    rw [hnow]
    exact Finset.mem_insert_of_mem hmem
  refine ⟨.inl ⟨h.view, h.progress, fun hp => ⟨(h.suspects hp).1, hvoted⟩, fun _ => hvoted, hrest⟩,
    fun _ => ⟨h.view, ?_⟩, fun _ l _ => ?_, fun _ ns hm' => ?_, fun _ _ => .inl hmem,
    fun _ hp _ => .inr ?_, fun hv => absurd hv h.not_left,
    fun m' hm' => absurd hm' List.not_mem_nil⟩
  · rw [hnow]
    exact Finset.subset_insert _ _
  · rw [hnow]
    exact Finset.mem_insert_self _ _
  · rw [hm] at hm'
    cases hm'
  · rw [hnow]
    exact not_le.mp fun hq => hfew ⟨hq, hp⟩

/-- The primary of view `v` counts the first vote that it gets and votes as well. -/
theorem Voting.answer_joins (h : Voting n v j s) {l l' : SequenceNumber}
    (hm : m.payload = .pbft (.viewChange (v + 1) m.sender l)) (hprimary : v % n = j)
    (hother : (v + 1) % n ≠ j) :
    Answer n v j s m (withBallot s (v + 1) (insert j (insert m.sender (ballot s (v + 1)))))
      ((node n j).broadcastPbft (.viewChange (v + 1) j l')) := by
  obtain ⟨hnow, hrest⟩ := h.ballot_withBallot (insert j (insert m.sender (ballot s (v + 1))))
  have hvoted : j ∈ ballot (withBallot s (v + 1) (insert j (insert m.sender
      (ballot s (v + 1))))) (v + 1) := by
    rw [hnow]
    exact Finset.mem_insert_self _ _
  refine ⟨.inl ⟨h.view, h.progress, fun hp => absurd hprimary hp, fun _ => hvoted, hrest⟩,
    fun _ => ⟨h.view, ?_⟩, fun _ l _ => ?_, fun _ ns hm' => ?_, fun _ _ => .inr fun k hk hkj =>
      ⟨_, mem_broadcastPbft.mpr ⟨k, hk, hkj, rfl⟩⟩, fun _ hp => absurd hp hother,
    fun hv => absurd hv h.not_left, fun m' hm' => ?_⟩
  · rw [hnow]
    exact (Finset.subset_insert _ _).trans (Finset.subset_insert _ _)
  · rw [hnow]
    exact Finset.mem_insert_of_mem (Finset.mem_insert_self _ _)
  · rw [hm] at hm'
    cases hm'
  · obtain ⟨k, hk, hkj, rfl⟩ := mem_broadcastPbft.mp hm'
    exact ⟨rfl, hk, hkj, .inl ⟨_, rfl⟩⟩

/-- **A vote** is counted.  The primary of `v` joins in; that of `v + 1` installs its view as soon
    as it has a quorum. -/
theorem Voting.answer_vote (hn : 2 ≤ n) (h : Voting n v j s) {l : SequenceNumber}
    (hm : m.payload = .pbft (.viewChange (v + 1) m.sender l)) (hne : m.sender ≠ j) :
    Answer n v j s m ((node n j).handleMessage s m).1 ((node n j).handleMessage s m).2 := by
  have hlt : s.view < v + 1 := by
    rw [h.view]
    exact Nat.lt_succ_self v
  rw [handleMessage, hm]
  dsimp only
  rw [handleViewChange_eq hlt]
  by_cases hself : j ∈ insert m.sender (ballot s (v + 1))
  · rw [if_neg (not_not.mpr hself)]
    by_cases hfull : 2 * ((n - 1) / 3) + 1 ≤ (insert m.sender (ballot s (v + 1))).card ∧
        (v + 1) % n = j
    · rw [if_pos hfull]
      exact h.answer_installs hfull.2 _
    · rw [if_neg hfull]
      exact h.answer_counts hm ((Finset.mem_insert.mp hself).resolve_left (Ne.symm hne)) hfull
  · -- only the primary of `v` has not voted yet
    have hprimary : v % n = j := by
      by_contra hp
      exact hself (Finset.mem_insert_of_mem (h.suspects hp).2)
    have hother : (v + 1) % n ≠ j := fun hp => mod_succ_ne hn (hprimary.trans hp.symm)
    rw [if_pos hself, if_neg fun hfull => hother hfull.2]
    exact h.answer_joins hm hprimary hother

end Answers

/-- A cluster in the change from view `v` to the next, with the messages `q` still to be delivered;
    the nodes of `I` have crashed. -/
structure Rotating (n : ℕ) (I : Finset NodeId) (v : ViewNumber) (nodes : NodeId → PbftState)
    (q : List NetworkMessage) : Prop where
  stage : ∀ i < n, i ∉ I → Voting n v i (nodes i) ∨
    Idle n (v + 1) VIEW_CHANGE_TIMEOUT i (nodes i)
  -- votes were counted, or are on the way
  voted : ∀ i < n, i ∉ I → ∀ j < n, j ∉ I → i ≠ j → (nodes i).view = v → (nodes j).view = v →
    i ∈ ballot (nodes i) (v + 1) → i ∈ ballot (nodes j) (v + 1) ∨
      ∃ l, ⟨i, j, .pbft (.viewChange (v + 1) i l)⟩ ∈ q
  -- the next primary waits for a quorum
  waits : ∀ i < n, i ∉ I → (nodes i).view = v → (v + 1) % n = i →
    ballot (nodes i) (v + 1) ⊆ {i} ∨ (ballot (nodes i) (v + 1)).card < 2 * ((n - 1) / 3) + 1
  -- it is the first to leave view `v`, and tells the others
  first : ∀ i < n, i ∉ I → v < (nodes i).view →
    (v + 1) % n ∉ I ∧ v < (nodes ((v + 1) % n)).view
  told : (v + 1) % n ∉ I → v < (nodes ((v + 1) % n)).view → ∀ j < n, j ∉ I →
    (nodes j).view = v → ∃ ns, ⟨(v + 1) % n, j, .pbft (.newView (v + 1) ns)⟩ ∈ q
  content : ∀ m ∈ q, m.sender ∉ I → m.sender < n ∧ m.target < n ∧ m.sender ≠ m.target ∧
    ((∃ l, m.payload = .pbft (.viewChange (v + 1) m.sender l)) ∨
      (∃ ns, m.payload = .pbft (.newView (v + 1) ns)) ∧ (v + 1) % n ∉ I ∧
        v < (nodes ((v + 1) % n)).view)

namespace Rotating

variable {n : ℕ} {I : Finset NodeId} {v : ViewNumber} {nodes : NodeId → PbftState}
variable {m : NetworkMessage} {q out : List NetworkMessage}

/-- A message from or to a crashed node is lost. -/
theorem lose (h : Rotating n I v nodes (m :: q)) (hm : m.sender ∈ I ∨ m.target ∈ I) :
    Rotating n I v nodes q := by
  have hkeep : ∀ {i j : NodeId} {x : ProtocolMessage}, i ∉ I → j ∉ I →
      (⟨i, j, x⟩ : NetworkMessage) ∈ m :: q → ⟨i, j, x⟩ ∈ q := by
    intro i j x hi hj hmem
    rcases List.mem_cons.mp hmem with rfl | hmem
    · rcases hm with hm | hm
      · exact absurd hm hi
      · exact absurd hm hj
    · exact hmem
  refine ⟨h.stage, fun i hi hiI j hj hjI hij hvi hvj hvote => ?_, h.waits, h.first,
    fun hp hleft j hj hjI hvj => ?_, fun m' hm' => h.content m' (List.mem_cons_of_mem _ hm')⟩
  · rcases h.voted i hi hiI j hj hjI hij hvi hvj hvote with hold | ⟨l, hmem⟩
    · exact .inl hold
    · exact .inr ⟨l, hkeep hiI hjI hmem⟩
  · obtain ⟨ns, hmem⟩ := h.told hp hleft j hj hjI hvj
    exact ⟨ns, hkeep hp hjI hmem⟩

section Deliver

variable {s' : PbftState} {i j : NodeId}

/-- What is on the way to another node than the target of a delivery stays on the way. -/
theorem mem_deliver {m' : NetworkMessage} (hmem : m' ∈ m :: q) (hne : m'.target ≠ m.target) :
    m' ∈ q ++ out := by
  refine List.mem_append_left _ ((List.mem_cons.mp hmem).resolve_left ?_)
  rintro rfl
  exact hne rfl

/-- Nobody goes back by a delivery. -/
theorem leaves_deliver (hanswer : Answer n v m.target (nodes m.target) m s' out)
    (hi : v < (nodes i).view) : v < (Function.update nodes m.target s' i).view := by
  by_cases hit : i = m.target
  · subst hit
    rw [Function.update_self]
    rcases hanswer.stage with hs | hs
    · exact absurd ((hanswer.grows hs.view).1 ▸ hi) (lt_irrefl v)
    · rw [hs.view]
      exact Nat.lt_succ_self v
  · rw [Function.update_of_ne hit]
    exact hi

/-- Who is in view `v` behind a delivery was in it before. -/
theorem view_of_deliver (hanswer : Answer n v m.target (nodes m.target) m s' out)
    (hi : (Function.update nodes m.target s' i).view = v) : (nodes i).view = v := by
  by_cases hit : i = m.target
  · subst hit
    rw [Function.update_self] at hi
    exact (hanswer.grows hi).1
  · rwa [Function.update_of_ne hit] at hi

/-- The vote of the node that a message is delivered to is counted by the others, or on the way. -/
theorem cast_deliver (h : Rotating n I v nodes (m :: q))
    (hanswer : Answer n v m.target (nodes m.target) m s' out) (hi : m.target < n)
    (hiI : m.target ∉ I) (hj : j < n) (hjI : j ∉ I) (hij : m.target ≠ j) (hvi : s'.view = v)
    (hvj : (nodes j).view = v) (hvote : m.target ∈ ballot s' (v + 1)) :
    m.target ∈ ballot (nodes j) (v + 1) ∨
      ∃ l, ⟨m.target, j, .pbft (.viewChange (v + 1) m.target l)⟩ ∈ q ++ out := by
  rcases hanswer.votes hvi hvote with hold | hnew
  · rcases h.voted _ hi hiI j hj hjI hij (hanswer.grows hvi).1 hvj hold with hgot | ⟨l, hmem⟩
    · exact .inl hgot
    · exact .inr ⟨l, mem_deliver hmem (Ne.symm hij)⟩
  · obtain ⟨l, hmem⟩ := hnew j hj (Ne.symm hij)
    exact .inr ⟨l, List.mem_append_right _ hmem⟩

/-- The node that a message is delivered to counts the votes of the others, or they are on the
    way. -/
theorem count_deliver (h : Rotating n I v nodes (m :: q))
    (hanswer : Answer n v m.target (nodes m.target) m s' out) (hi : i < n) (hiI : i ∉ I)
    (hj : m.target < n) (hjI : m.target ∉ I) (hij : i ≠ m.target) (hvi : (nodes i).view = v)
    (hvj : s'.view = v) (hvote : i ∈ ballot (nodes i) (v + 1)) :
    i ∈ ballot s' (v + 1) ∨
      ∃ l, ⟨i, m.target, .pbft (.viewChange (v + 1) i l)⟩ ∈ q ++ out := by
  obtain ⟨hold, hsub⟩ := hanswer.grows hvj
  rcases h.voted i hi hiI _ hj hjI hij hvi hold hvote with hgot | ⟨l, hmem⟩
  · exact .inl (hsub hgot)
  · rcases List.mem_cons.mp hmem with heq | hmem
    · -- this is the vote that is delivered
      have hsi : m.sender = i := by rw [← heq]
      have hcount := hanswer.counts hvj l (by rw [hsi, ← heq])
      rw [hsi] at hcount
      exact .inl hcount
    · exact .inr ⟨l, List.mem_append_left _ hmem⟩

/-- Votes are counted or on the way behind a delivery. -/
theorem voted_deliver (h : Rotating n I v nodes (m :: q))
    (hanswer : Answer n v m.target (nodes m.target) m s' out) (hi : i < n) (hiI : i ∉ I)
    (hj : j < n) (hjI : j ∉ I) (hij : i ≠ j)
    (hvi : (Function.update nodes m.target s' i).view = v)
    (hvj : (Function.update nodes m.target s' j).view = v)
    (hvote : i ∈ ballot (Function.update nodes m.target s' i) (v + 1)) :
    i ∈ ballot (Function.update nodes m.target s' j) (v + 1) ∨
      ∃ l, ⟨i, j, .pbft (.viewChange (v + 1) i l)⟩ ∈ q ++ out := by
  by_cases hit : i = m.target
  · subst hit
    rw [Function.update_self] at hvi hvote
    rw [Function.update_of_ne (Ne.symm hij)] at hvj ⊢
    exact h.cast_deliver hanswer hi hiI hj hjI hij hvi hvj hvote
  · rw [Function.update_of_ne hit] at hvi hvote
    by_cases hjt : j = m.target
    · subst hjt
      rw [Function.update_self] at hvj ⊢
      exact h.count_deliver hanswer hi hiI hj hjI hij hvi hvj hvote
    · rw [Function.update_of_ne hjt] at hvj ⊢
      rcases h.voted i hi hiI j hj hjI hij hvi hvj hvote with hgot | ⟨l, hmem⟩
      · exact .inl hgot
      · exact .inr ⟨l, mem_deliver hmem hjt⟩

/-- The news that is delivered was sent by the next primary, from behind view `v`. -/
theorem first_of_news (h : Rotating n I v nodes (m :: q)) (hsender : m.sender ∉ I)
    {ns : SequenceNumber} (hm : m.payload = .pbft (.newView (v + 1) ns)) :
    (v + 1) % n ∉ I ∧ v < (nodes ((v + 1) % n)).view := by
  obtain ⟨_, _, _, hcontent⟩ := h.content m List.mem_cons_self hsender
  rcases hcontent with ⟨l, hm'⟩ | ⟨_, hfirst⟩
  · rw [hm] at hm'
    cases hm'
  · exact hfirst

/-- The next primary is still the first to leave view `v` behind a delivery. -/
theorem first_deliver (h : Rotating n I v nodes (m :: q)) (hsender : m.sender ∉ I)
    (hanswer : Answer n v m.target (nodes m.target) m s' out) (hi : i < n) (hiI : i ∉ I)
    (hvi : v < (Function.update nodes m.target s' i).view) :
    (v + 1) % n ∉ I ∧ v < (Function.update nodes m.target s' ((v + 1) % n)).view := by
  have hold : v < (nodes i).view → (v + 1) % n ∉ I ∧
      v < (Function.update nodes m.target s' ((v + 1) % n)).view := by
    intro hlt
    obtain ⟨hpI, hlt'⟩ := h.first i hi hiI hlt
    exact ⟨hpI, leaves_deliver hanswer hlt'⟩
  by_cases hit : i = m.target
  · subst hit
    rw [Function.update_self] at hvi
    rcases hanswer.installs hvi with hlt | ⟨ns, hm⟩ | ⟨hpt, _⟩
    · exact hold hlt
    · obtain ⟨hpI, hlt⟩ := h.first_of_news hsender hm
      exact ⟨hpI, leaves_deliver hanswer hlt⟩
    · rw [hpt, Function.update_self]
      exact ⟨hiI, hvi⟩
  · rw [Function.update_of_ne hit] at hvi
    exact hold hvi

/-- A node that installs the next view upon a delivery tells the others. -/
theorem tells_deliver (h : Rotating n I v nodes (m :: q)) (hsender : m.sender ∉ I)
    (hanswer : Answer n v m.target (nodes m.target) m s' out)
    (hstays : ¬ v < (nodes ((v + 1) % n)).view) (hpt : (v + 1) % n = m.target) (hleft : v < s'.view)
    (hj : j < n) (hjt : j ≠ m.target) :
    ∃ ns, ⟨(v + 1) % n, j, .pbft (.newView (v + 1) ns)⟩ ∈ q ++ out := by
  rcases hanswer.installs hleft with hlt | ⟨ns, hm⟩ | ⟨_, hall⟩
  · rw [hpt] at hstays
    exact absurd hlt hstays
  · exact absurd (h.first_of_news hsender hm).2 hstays
  · obtain ⟨ns, hmem⟩ := hall j hj hjt
    rw [hpt]
    exact ⟨ns, List.mem_append_right _ hmem⟩

/-- Who is still in view `v` behind a delivery has the news on the way, if there are any. -/
theorem told_deliver (h : Rotating n I v nodes (m :: q)) (hsender : m.sender ∉ I)
    (hanswer : Answer n v m.target (nodes m.target) m s' out) (hpI : (v + 1) % n ∉ I)
    (hpleft : v < (Function.update nodes m.target s' ((v + 1) % n)).view) (hj : j < n)
    (hjI : j ∉ I) (hvj : (Function.update nodes m.target s' j).view = v) :
    ∃ ns, ⟨(v + 1) % n, j, .pbft (.newView (v + 1) ns)⟩ ∈ q ++ out := by
  by_cases hold : v < (nodes ((v + 1) % n)).view
  · obtain ⟨ns, hmem⟩ := h.told hpI hold j hj hjI (view_of_deliver hanswer hvj)
    rcases List.mem_cons.mp hmem with heq | hmem
    · -- whoever gets the news leaves view `v`
      have hjt : j = m.target := by rw [← heq]
      subst hjt
      rw [Function.update_self] at hvj
      exact absurd (by rw [← heq]) (hanswer.stays hvj ns)
    · exact ⟨ns, List.mem_append_left _ hmem⟩
  · have hpt : (v + 1) % n = m.target := by
      by_contra hne
      rw [Function.update_of_ne hne] at hpleft
      exact hold hpleft
    rw [hpt, Function.update_self] at hpleft
    refine h.tells_deliver hsender hanswer hold hpt hpleft hj ?_
    rintro rfl
    rw [Function.update_self] at hvj
    exact absurd (hvj ▸ hpleft) (lt_irrefl v)

/-- What is on the way behind a delivery. -/
theorem content_deliver (h : Rotating n I v nodes (m :: q)) (htlt : m.target < n)
    (htarget : m.target ∉ I) (hanswer : Answer n v m.target (nodes m.target) m s' out)
    {m' : NetworkMessage} (hm' : m' ∈ q ++ out) (hm'I : m'.sender ∉ I) :
    m'.sender < n ∧ m'.target < n ∧ m'.sender ≠ m'.target ∧
      ((∃ l, m'.payload = .pbft (.viewChange (v + 1) m'.sender l)) ∨
        (∃ ns, m'.payload = .pbft (.newView (v + 1) ns)) ∧ (v + 1) % n ∉ I ∧
          v < (Function.update nodes m.target s' ((v + 1) % n)).view) := by
  rcases List.mem_append.mp hm' with hm' | hm'
  · obtain ⟨hs, ht, hst, hsay⟩ := h.content m' (List.mem_cons_of_mem _ hm') hm'I
    refine ⟨hs, ht, hst, ?_⟩
    rcases hsay with hvote | ⟨hnews, hpI, hlt⟩
    · exact .inl hvote
    · exact .inr ⟨hnews, hpI, leaves_deliver hanswer hlt⟩
  · obtain ⟨hs, ht, htne, hsay⟩ := hanswer.sent m' hm'
    rw [hs]
    refine ⟨htlt, ht, Ne.symm htne, ?_⟩
    rcases hsay with hvote | ⟨hnews, hpt, hlt⟩
    · exact .inl hvote
    · rw [hpt, Function.update_self]
      exact .inr ⟨hnews, htarget, hlt⟩

/-- **One delivery** to a live node. -/
theorem deliver (h : Rotating n I v nodes (m :: q)) (hsender : m.sender ∉ I)
    (htarget : m.target ∉ I) (hanswer : Answer n v m.target (nodes m.target) m s' out) :
    Rotating n I v (Function.update nodes m.target s') (q ++ out) where
  stage i hi hiI := by
    by_cases hit : i = m.target
    · subst hit
      rw [Function.update_self]
      exact hanswer.stage
    · rw [Function.update_of_ne hit]
      exact h.stage i hi hiI
  voted i hi hiI j hj hjI := h.voted_deliver hanswer hi hiI hj hjI
  waits i hi hiI hvi hpi := by
    by_cases hit : i = m.target
    · subst hit
      rw [Function.update_self] at hvi ⊢
      exact hanswer.few hvi hpi (h.waits _ hi hiI (hanswer.grows hvi).1 hpi)
    · rw [Function.update_of_ne hit] at hvi ⊢
      exact h.waits i hi hiI hvi hpi
  first i := h.first_deliver hsender hanswer
  told hpI hpleft j := h.told_deliver hsender hanswer hpI hpleft
  content m' := h.content_deliver (h.content m List.mem_cons_self hsender).2.1 htarget hanswer

end Deliver

/-- **The end of a view change**: when nothing is left to deliver, all have entered the next view,
    or its primary has crashed and all wait for it. -/
theorem settle (hn : 2 ≤ n) (hI : I.card ≤ (n - 1) / 3) (h : Rotating n I v nodes []) :
    ((v + 1) % n ∉ I → ∀ i < n, i ∉ I → Idle n (v + 1) VIEW_CHANGE_TIMEOUT i (nodes i)) ∧
    ((v + 1) % n ∈ I → ∀ i < n, i ∉ I → Voting n v i (nodes i)) := by
  have hlater : ∀ {i}, Idle n (v + 1) VIEW_CHANGE_TIMEOUT i (nodes i) → v < (nodes i).view := by
    intro i hi
    rw [hi.view]
    exact Nat.lt_succ_self v
  refine ⟨fun hpI => ?_, fun hpI i hi hiI => ?_⟩
  · have hp : (v + 1) % n < n := Nat.mod_lt _ (by omega)
    -- otherwise nobody has left, and the next primary has the votes of all live nodes
    have hleft : v < (nodes ((v + 1) % n)).view := by
      by_contra hstays
      have hvoting : ∀ i < n, i ∉ I → Voting n v i (nodes i) := fun i hi hiI =>
        (h.stage i hi hiI).resolve_right fun hidle => hstays (h.first i hi hiI (hlater hidle)).2
      have hown := ((hvoting _ hp hpI).suspects (mod_succ_ne hn)).2
      have hcount : ∀ {i j}, i < n → i ∉ I → j < n → j ∉ I → i ≠ j →
          i ∈ ballot (nodes i) (v + 1) → i ∈ ballot (nodes j) (v + 1) := by
        intro i j hi hiI hj hjI hij hvote
        refine (h.voted i hi hiI j hj hjI hij (hvoting i hi hiI).view (hvoting j hj hjI).view
          hvote).resolve_right ?_
        rintro ⟨l, hmem⟩
        exact absurd hmem List.not_mem_nil
      have hall : Finset.range n \ I ⊆ ballot (nodes ((v + 1) % n)) (v + 1) := by
        intro i hi
        obtain ⟨hi, hiI⟩ := Finset.mem_sdiff.mp hi
        replace hi := Finset.mem_range.mp hi
        by_cases hip : i = (v + 1) % n
        · rw [hip]
          exact hown
        · have hheard := hcount hp hpI hi hiI (Ne.symm hip) hown
          exact hcount hi hiI hp hpI hip ((hvoting i hi hiI).joined ⟨_, hheard⟩)
      have hcard := Finset.card_le_card hall
      rcases h.waits _ hp hpI (hvoting _ hp hpI).view rfl with halone | hfew
      · have hone := Finset.card_le_card halone
        rw [Finset.card_singleton] at hone
        have htwo := two_le_live hn hI
        omega
      · have hquorum := quorum_le_live hn hI
        omega
    intro i hi hiI
    refine (h.stage i hi hiI).resolve_left fun hvoting => ?_
    obtain ⟨ns, hmem⟩ := h.told hpI hleft i hi hiI hvoting.view
    exact absurd hmem List.not_mem_nil
  · exact (h.stage i hi hiI).resolve_right fun hidle => (h.first i hi hiI (hlater hidle)).1 hpI

end Rotating

/-! ### Rounds -/

section Rounds

variable [Sha256] {n : ℕ} {faults : NetworkFaults}

/-- The view after `t` rounds. -/
abbrev viewAt (n : ℕ) (I : Finset NodeId) (t : ℕ) : ViewNumber :=
  viewAfter n I (t / (VIEW_CHANGE_TIMEOUT + 1))

/-- The live nodes after `t` rounds: they wait for the next timeout, as all timeouts so far have led
    to the next view, or for a primary that has crashed. -/
def At (n : ℕ) (I : Finset NodeId) (t : ℕ) (nodes : NodeId → PbftState) : Prop :=
  (viewAt n I t = t / (VIEW_CHANGE_TIMEOUT + 1) ∧ ∀ i < n, i ∉ I →
    Idle n (viewAt n I t) (VIEW_CHANGE_TIMEOUT - t % (VIEW_CHANGE_TIMEOUT + 1)) i (nodes i)) ∨
  (viewAt n I t + 1) % n ∈ I ∧ ∀ i < n, i ∉ I → Voting n (viewAt n I t) i (nodes i)

omit [Sha256] in
theorem At.view {I : Finset NodeId} {t : ℕ} {nodes : NodeId → PbftState} (h : At n I t nodes)
    {i : NodeId} (hi : i < n) (hiI : i ∉ I) : (nodes i).view = viewAt n I t := by
  rcases h with ⟨_, h⟩ | ⟨_, h⟩
  · exact (h i hi hiI).view
  · exact (h i hi hiI).view

omit [Sha256] in
/-- In the end all live nodes wait for one that has crashed. -/
theorem At.stuck {I : Finset NodeId} {t : ℕ} {nodes : NodeId → PbftState} (h : At n I t nodes)
    {i : NodeId} (hi : i < n) (hiI : i ∈ I) (ht : n * (VIEW_CHANGE_TIMEOUT + 1) ≤ t) :
    (viewAt n I t + 1) % n ∈ I ∧ ∀ i < n, i ∉ I → Voting n (viewAt n I t) i (nodes i) := by
  refine h.resolve_left fun ⟨hall, _⟩ => viewAfter_ne hi hiI ?_ hall
  exact (Nat.le_div_iff_mul_le (Nat.succ_pos _)).mpr ht

omit [Sha256] in
/-- Its primary is not in a view change. -/
theorem At.primary {I : Finset NodeId} {t : ℕ} {nodes : NodeId → PbftState} (h : At n I t nodes)
    {i : NodeId} (hi : i < n) (hiI : i ∉ I) (hp : viewAt n I t % n = i) :
    (nodes i).viewChangeInProgress = false := by
  rcases h with ⟨_, h⟩ | ⟨_, h⟩
  · exact (h i hi hiI).progress
  · exact (h i hi hiI).progress hp

/-- The nodes and the messages in round `t`. -/
def Turn (n : ℕ) (I : Finset NodeId) (t : ℕ) (nodes : NodeId → PbftState)
    (q : List NetworkMessage) : Prop :=
  (At n I (t + 1) nodes ∧ ∀ m ∈ q, m.sender ∈ I) ∨
  (t % (VIEW_CHANGE_TIMEOUT + 1) = VIEW_CHANGE_TIMEOUT ∧
    viewAt n I t = t / (VIEW_CHANGE_TIMEOUT + 1)) ∧ Rotating n I (viewAt n I t) nodes q

omit [Sha256] in
/-- Once the next primary has crashed, no timeout changes the view. -/
theorem viewAt_succ {I : Finset NodeId} {t : ℕ} (h : (viewAt n I t + 1) % n ∈ I) :
    viewAt n I (t + 1) = viewAt n I t := by
  unfold viewAt at h ⊢
  by_cases hlast : t % (VIEW_CHANGE_TIMEOUT + 1) + 1 = VIEW_CHANGE_TIMEOUT + 1
  · rw [(clock_turn hlast).1, viewAfter, if_pos h]
  · have hlt : t % (VIEW_CHANGE_TIMEOUT + 1) + 1 < VIEW_CHANGE_TIMEOUT + 1 :=
      lt_of_le_of_ne (Nat.mod_lt t (Nat.succ_pos _)) hlast
    rw [(clock_tick hlt).1]

/-- **The tick of a round.** -/
theorem At.tick {I : Finset NodeId} {t : ℕ} {nodes : NodeId → PbftState} (h : At n I t nodes) :
    Turn n I t (fun i => if i < n then ((node n i).tick (nodes i)).1 else nodes i)
      ((List.range n).flatMap fun i => ((node n i).tick (nodes i)).2) := by
  rcases h with ⟨hall, hidle⟩ | ⟨hp, hvoting⟩
  · by_cases hlast : t % (VIEW_CHANGE_TIMEOUT + 1) = VIEW_CHANGE_TIMEOUT
    · -- all of them time out
      right
      refine ⟨⟨hlast, hall⟩, ?_⟩
      rw [hlast, Nat.sub_self] at hidle
      generalize viewAt n I t = v at hidle ⊢
      have hview : ∀ i < n, i ∉ I → (if i < n then ((node n i).tick (nodes i)).1 else
          nodes i).view = v := by
        intro i hi hiI
        rw [if_pos hi]
        exact (hidle i hi hiI).tick_vote.1.view
      refine ⟨fun i hi hiI => ?_, fun i hi hiI j hj hjI hij _ _ hvote => ?_,
        fun i hi hiI _ _ => ?_, fun i hi hiI hlt => ?_, fun hpI hlt j hj hjI _ => ?_,
        fun m hm hmI => ?_⟩
      · rw [if_pos hi]
        exact .inl (hidle i hi hiI).tick_vote.1
      · rw [if_pos hi] at hvote
        rcases (hidle i hi hiI).tick_vote.2.2 with ⟨hnot, _⟩ | hout
        · exact absurd hvote hnot
        · refine .inr ⟨(nodes i).highestCommittedSeq,
            List.mem_flatMap.mpr ⟨i, List.mem_range.mpr hi, ?_⟩⟩
          rw [hout]
          exact mem_broadcastPbft.mpr ⟨j, hj, Ne.symm hij, rfl⟩
      · rw [if_pos hi]
        exact .inl (hidle i hi hiI).tick_vote.2.1
      · rw [hview i hi hiI] at hlt
        exact absurd hlt (lt_irrefl v)
      · have hpn : (v + 1) % n < n := Nat.mod_lt _ (Nat.zero_lt_of_lt hj)
        rw [hview _ hpn hpI] at hlt
        exact absurd hlt (lt_irrefl v)
      · obtain ⟨i, hi, hmi⟩ := List.mem_flatMap.mp hm
        have hs : m.sender = i := (Pbft.signs n i).tick _ m hmi
        replace hi := List.mem_range.mp hi
        rcases (hidle i hi (hs ▸ hmI)).tick_vote.2.2 with ⟨_, hnil⟩ | hout
        · rw [hnil] at hmi
          exact absurd hmi List.not_mem_nil
        · rw [hout] at hmi
          obtain ⟨k, hk, hki, rfl⟩ := mem_broadcastPbft.mp hmi
          exact ⟨hi, hk, Ne.symm hki, .inl ⟨_, rfl⟩⟩
    · have hle : t % (VIEW_CHANGE_TIMEOUT + 1) ≤ VIEW_CHANGE_TIMEOUT :=
        Nat.lt_succ_iff.mp (Nat.mod_lt t (Nat.succ_pos _))
      have hlt := lt_of_le_of_ne hle hlast
      obtain ⟨hdiv, hmod⟩ := clock_tick (Nat.succ_lt_succ hlt)
      have hview : viewAt n I (t + 1) = viewAt n I t := by rw [viewAt, hdiv]
      have hone : VIEW_CHANGE_TIMEOUT - t % (VIEW_CHANGE_TIMEOUT + 1) =
          VIEW_CHANGE_TIMEOUT - (t % (VIEW_CHANGE_TIMEOUT + 1) + 1) + 1 := by omega
      rw [hone] at hidle
      refine .inl ⟨.inl ⟨by rw [hview, hdiv, hall], fun i hi hiI => ?_⟩,
        Cluster.sender_of_silent (Pbft.signs n) fun i hi hiI => (hidle i hi hiI).tick_down.2⟩
      dsimp only
      rw [hview, hmod, if_pos hi]
      exact (hidle i hi hiI).tick_down.1
  · -- all of them wait already
    refine .inl ⟨.inr ?_, Cluster.sender_of_silent (Pbft.signs n) fun i hi hiI =>
      congrArg Prod.snd (hvoting i hi hiI).tick_eq⟩
    rw [viewAt_succ hp]
    refine ⟨hp, fun i hi hiI => ?_⟩
    dsimp only
    rw [if_pos hi, (hvoting i hi hiI).tick_eq]
    exact hvoting i hi hiI

/-- **A delivery of a round.** -/
theorem Turn.receive (hn : 2 ≤ n) (hhonest : ∀ i, faults.isByzantine i = false) {t : ℕ}
    {nodes : NodeId → PbftState} {m : NetworkMessage} {q : List NetworkMessage}
    (h : Turn n faults.isolatedNodes t nodes (m :: q)) : ∃ nodes' out,
      Cluster.receive (code n) n faults nodes m = some (nodes', out) ∧
        Turn n faults.isolatedNodes t nodes' (q ++ out) := by
  rcases h with ⟨hat, hfrom⟩ | ⟨hlast, hrot⟩
  · rcases NetworkFaults.carried_cases (hhonest m.sender) with ⟨_, hcarried⟩ | ⟨hsender, _⟩
    · refine ⟨nodes, [], Cluster.receive_of_lost hcarried nodes, .inl ⟨hat, fun m' hm' => ?_⟩⟩
      rw [List.append_nil] at hm'
      exact hfrom m' (List.mem_cons_of_mem _ hm')
    · exact absurd (hfrom m List.mem_cons_self) hsender
  · rcases NetworkFaults.carried_cases (hhonest m.sender) with
      ⟨hm, hcarried⟩ | ⟨hsender, htarget, hcarried⟩
    · refine ⟨nodes, [], Cluster.receive_of_lost hcarried nodes, .inr ⟨hlast, ?_⟩⟩
      rw [List.append_nil]
      exact hrot.lose hm
    · obtain ⟨_, htlt, hne, hsaid⟩ := hrot.content m List.mem_cons_self hsender
      have hanswer : Answer n (viewAt n faults.isolatedNodes t) m.target (nodes m.target) m
          ((node n m.target).handleMessage (nodes m.target) m).1
          ((node n m.target).handleMessage (nodes m.target) m).2 := by
        rcases hrot.stage m.target htlt htarget with hvoting | hidle
        · rcases hsaid with ⟨l, hvote⟩ | ⟨⟨ns, hnews⟩, _⟩
          · exact hvoting.answer_vote hn hvote hne
          · exact hvoting.answer_news hnews
        · obtain ⟨hsame, hans⟩ := hidle.answer (hsaid.imp id And.left)
          rw [hsame]
          exact hans
      exact ⟨_, _, Cluster.receive_of_handled hcarried htlt rfl,
        .inr ⟨hlast, hrot.deliver hsender htarget hanswer⟩⟩

/-- **One round** of a cluster that nobody proposes to. -/
theorem turning (hn : 2 ≤ n) (hI : faults.isolatedNodes.card ≤ (n - 1) / 3)
    (hhonest : ∀ i, faults.isByzantine i = false) :
    Cluster.Turning (code n) n faults (At n faults.isolatedNodes)
      (Turn n faults.isolatedNodes) := by
  refine ⟨fun t nodes hat => hat.tick, fun t nodes m q hturn => hturn.receive hn hhonest,
    fun t nodes hturn => ?_⟩
  rcases hturn with ⟨hat, _⟩ | ⟨hlast, hrot⟩
  · exact hat
  · obtain ⟨hlast, hall⟩ := hlast
    obtain ⟨hdiv, hmod⟩ := clock_turn (congrArg (· + 1) hlast)
    obtain ⟨hmoved, hstuck⟩ := hrot.settle hn hI
    unfold At
    by_cases hp : (viewAt n faults.isolatedNodes t + 1) % n ∈ faults.isolatedNodes
    · rw [viewAt_succ hp]
      exact .inr ⟨hp, hstuck hp⟩
    · have hview : viewAt n faults.isolatedNodes (t + 1) =
          viewAt n faults.isolatedNodes t + 1 := by
        rw [viewAt, hdiv, viewAfter, if_neg hp]
      rw [hview, hdiv, hmod, hall]
      rw [hall] at hp hmoved
      exact .inl ⟨rfl, hmoved hp⟩

end Rounds

/-! ### The first round -/

section Start

variable [Sha256] {n : ℕ} {cfg : FaultConfig} {w : World NodeId PbftState Call NetworkMessage}

/-- Nobody but the clock starts a timer. -/
theorem Effect.timer_inv {i : NodeId} {s s' : PbftState} {c : Cause Call NetworkMessage}
    {out : List NetworkMessage} (h : Effect (node n i) s c s' out) (hc : c ≠ .call .tick) :
    (s'.viewChangeInProgress = s.viewChangeInProgress ∨ s'.viewChangeInProgress = false) ∧
      (s'.viewChangeTimeout = s.viewChangeTimeout ∨
        s'.viewChangeTimeout = VIEW_CHANGE_TIMEOUT) := by
  cases h with
  | tickDown => exact absurd rfl hc
  | timeout => exact absurd rfl hc
  | accept => exact ⟨.inl rfl, .inr rfl⟩
  | install => exact ⟨.inr rfl, .inr rfl⟩
  | adopt => exact ⟨.inr rfl, .inr rfl⟩
  | _ => exact ⟨.inl rfl, .inl rfl⟩

/-- **Before the first tick** all nodes wait for their first timeout. -/
theorem idle_of_called (hw : (system n cfg).Reach System.anyStep w)
    (hcalled : ∀ o ∈ w.history, o.cause ≠ .call .tick) (i : NodeId) :
    Idle n 0 VIEW_CHANGE_TIMEOUT i (w.nodes i) := by
  have htimer : (w.nodes i).viewChangeInProgress = false ∧
      (w.nodes i).viewChangeTimeout = VIEW_CHANGE_TIMEOUT := by
    refine System.Reach.induct (N := fun nodes hist => (∀ o ∈ hist, o.cause ≠ .call .tick) →
      ∀ i, (nodes i).viewChangeInProgress = false ∧
        (nodes i).viewChangeTimeout = VIEW_CHANGE_TIMEOUT) (fun _ _ => ⟨rfl, rfl⟩) ?_ hw hcalled i
    intro w o _ ih _ hf hno j
    have hold := ih fun o' ho' => hno o' (List.mem_cons_of_mem _ ho')
    by_cases hj : j = o.node
    · subst hj
      rw [Function.update_self]
      obtain ⟨hprog, htime⟩ := (effect_of_fires hf).timer_inv (hno o List.mem_cons_self)
      obtain ⟨hprog₀, htime₀⟩ := hold o.node
      rw [← hf.before_eq] at hprog₀ htime₀
      exact ⟨hprog.elim (fun h => h.trans hprog₀) id, htime.elim (fun h => h.trans htime₀) id⟩
    · rw [Function.update_of_ne hj]
      exact hold j
  -- whoever votes or leaves the first view has seen a timeout
  have hjust := justified hw
  have hnever : ∀ {v}, ¬ TimedOut n w.history v := by
    rintro v ⟨o, ho, htick, _⟩
    exact hcalled o ho htick
  refine ⟨?_, htimer.1, fun _ => htimer.2, fun u hu => ?_⟩
  · by_contra hne
    obtain ⟨V, _, hp, hV⟩ := hjust.now i (Nat.pos_of_ne_zero hne)
    exact hnever (hjust.timed _ _ (hV _ hp).2 _ (Nat.pos_of_ne_zero hne) le_rfl)
  · unfold ballot
    cases hS : (w.nodes i).viewChangeVotes.lookup u with
    | none => rfl
    | some S =>
      rw [Option.getD_some]
      refine Finset.eq_empty_of_forall_notMem fun r hr => ?_
      exact hnever (hjust.timed _ _ (hjust.counted i u S hS r hr).2 u hu le_rfl)

end Start

end Pbft

end ConsensusBench
