import ConsensusBench.Raft.Reign

namespace ConsensusBench

/-!
# A Raft election without rivals

Node `l` stands for term `t`, no other live node has seen that term before, and all live nodes have
its log.

* `Stands`, `Campaign` — the candidate, and the cluster: every vote is still to be asked for, on the
  way, or counted.
* `Campaign.receive` — a delivery, after which the campaign goes on or the reign of `l` has begun.
* `Campaign.won` — a campaign does not end otherwise, if the live nodes are a majority.
-/

open AsyncNet RaftNode

namespace Raft

/-- The candidate `l` of term `t` with the log `M`, without a majority yet. -/
structure Stands (n : ℕ) (l : NodeId) (t : ℕ) (M : List LogEntry) (s : RaftState) : Prop where
  role : s.role = .candidate
  term : s.currentTerm = t
  log : s.log = M
  commit : s.commitIndex ≤ M.length
  counts : ∀ j x, s.matchIndex.lookup j = some x → j ∈ peerIds l n
  few : s.votesReceived < n / 2 + 1

section Candidates

variable {n : ℕ} {l j : NodeId} {t : ℕ} {M : List LogEntry} {s : RaftState}

/-- **A vote** is counted; with a majority the candidate leads, and tells all others. -/
theorem Stands.count (h : Stands n l t M s) (hterms : ∀ e ∈ M, e.term < t) : ∃ s' out,
    (node n l).handleMessage s (voteAnswer l t true j) = some (s', out) ∧ s'.log = s.log ∧
      ((Stands n l t M s' ∧ s'.votesReceived = s.votesReceived + 1 ∧ out = []) ∨
        (Rules n l t M s' ∧ out = (node n l).broadcastAppendEntries s' ∧
          ∀ i ∈ peerIds l n, nextFor s' i = M.length + 1)) := by
  have hcall : (node n l).handleMessage s (voteAnswer l t true j) =
      some ((node n l).handleRequestVoteResponse s t true) := rfl
  rw [hcall, handleRequestVoteResponse, if_neg (not_lt.mpr h.term.ge), if_pos ⟨rfl, h.role⟩]
  dsimp only
  split
  · -- the counts of a new leader start at zero, and no entry is of its term
    refine ⟨_, _, rfl, rfl, .inr ⟨⟨rfl, h.term, h.log, rfl, rfl, h.commit, fun i x hx => ?_,
      fun k hlt hle hown => ?_⟩, rfl, fun i hi => ?_⟩⟩
    · rw [initIndices, HashMap.lookup_foldl_insert] at hx
      split at hx
      · rw [← Option.some.inj hx]
        exact Nat.zero_le _
      · rename_i hno
        exact absurd (h.counts i x hx) hno
    · have hk : k - 1 < M.length := by omega
      rw [List.getElem?_eq_getElem hk, Option.all_some, decide_eq_true_eq] at hown
      exact absurd hown (ne_of_lt (hterms _ (List.getElem_mem hk)))
    · rw [nextFor, initIndices, HashMap.lookup_foldl_insert, if_pos hi, Option.getD_some]
      dsimp only
      rw [h.log]
  · rename_i hno
    exact ⟨_, _, rfl, rfl, .inl ⟨⟨h.role, h.term, h.log, h.commit, h.counts, not_le.mp hno⟩, rfl,
      rfl⟩⟩

end Candidates

/-! ### Deliveries -/

/-- A node whose vote `l` can have: it has not seen the term, or has voted for `l` in it. -/
structure Votes (l : NodeId) (t : ℕ) (M : List LogEntry) (s : RaftState) : Prop where
  member : Member t M M s
  free : s.currentTerm < t ∨ s.votedFor = some l

/-- What candidates and voters say to each other. -/
inductive Poll (l : NodeId) (t : ℕ) (M : List LogEntry) : NetworkMessage → Prop
  | request (j : NodeId) (hj : j ≠ l) : Poll l t M (voteRequest l t M j)
  | grant (j : NodeId) (hj : j ≠ l) : Poll l t M (voteAnswer l t true j)

/-- Both ends of the message are live. -/
abbrev Between (I : Finset NodeId) (m : NetworkMessage) : Prop := m.sender ∉ I ∧ m.target ∉ I

/-- The live nodes of a cluster in which `l` stands, and what is on the way between them.  Nobody
    refuses, so every live node has voted, or a request or a vote is on the way. -/
structure Campaign (init : NodeId → RaftState) (n : ℕ) (I : Finset NodeId) (l : NodeId) (t : ℕ)
    (M : List LogEntry) (nodes : NodeId → RaftState) (q : List NetworkMessage) : Prop where
  stands : Stands n l t M (nodes l)
  member : ∀ i < n, i ∉ I → i ≠ l → Votes l t M (nodes i)
  talk : ∀ m ∈ q, Between I m → m.target < n ∧ Poll l t M m
  votes : (nodes l).votesReceived + q.countP (fun m => Between I m) = (Finset.range n \ I).card
  queue : ∀ i < n, i ∉ I → Queued (init i) (nodes i)

section Deliveries

variable {init : NodeId → RaftState} {n : ℕ} {I : Finset NodeId} {l j : NodeId} {t : ℕ}
variable {M : List LogEntry} {nodes : NodeId → RaftState} {q : List NetworkMessage}
variable {m : NetworkMessage}

/-- A message that does not arrive. -/
theorem Campaign.lose (h : Campaign init n I l t M nodes (m :: q)) (hm : ¬ Between I m) :
    Campaign init n I l t M nodes q := by
  refine ⟨h.stands, h.member, fun m' hm' => h.talk m' (List.mem_cons_of_mem _ hm'), ?_, h.queue⟩
  have hvotes := h.votes
  rwa [List.countP_cons_of_neg (by simpa using hm)] at hvotes

/-- **A campaign does not end without a winner.** -/
theorem Campaign.won (hmajority : n / 2 + 1 ≤ (Finset.range n \ I).card) :
    ¬ Campaign init n I l t M nodes [] := by
  intro h
  have hvotes := h.votes
  have hfew := h.stands.few
  rw [List.countP_nil, Nat.add_zero] at hvotes
  omega

/-- A delivery that leaves the log of its node alone leaves the queues as they should be. -/
theorem Campaign.queued (h : Campaign init n I l t M nodes (m :: q)) (htn : m.target < n)
    (htI : m.target ∉ I) {s' : RaftState} {out : List NetworkMessage}
    (hr : (node n m.target).handleMessage (nodes m.target) m = some (s', out))
    (hlog : s'.log = (nodes m.target).log) :
    ∀ i < n, i ∉ I → Queued (init i) (Function.update nodes m.target s' i) := by
  intro i hi hiI
  by_cases ht : i = m.target
  · subst ht
    rw [Function.update_self]
    exact (h.queue _ htn htI).step (handleMessage_effect _ _ hr) (by simp)
      (hlog ▸ List.prefix_refl _)
  · rw [Function.update_of_ne ht]
    exact h.queue i hi hiI

/-- **A request** is answered by a vote, which takes its place on the way. -/
theorem Campaign.asked (hl : l < n) (hlI : l ∉ I)
    (h : Campaign init n I l t M nodes (voteRequest l t M j :: q)) (hj : j ≠ l) (hjn : j < n)
    (hjI : j ∉ I) : ∃ s',
      (node n j).handleMessage (nodes j) (voteRequest l t M j) =
        some (s', [voteAnswer l t true j]) ∧
      Campaign init n I l t M (Function.update nodes j s') (q ++ [voteAnswer l t true j]) := by
  have hvoter := h.member j hjn hjI hj
  obtain ⟨s', b, hr, hmember, hlog, _, hgrant⟩ := hvoter.member.vote (n := n) (l := l) (j := j) M
  have hown : (nodes j).log = M :=
    hvoter.member.upto.eq_of_length (le_antisymm hvoter.member.upto.length_le
      hvoter.member.base.length_le)
  obtain ⟨rfl, _, hvoted⟩ := hgrant hvoter.free hown
  have hstays : Function.update nodes j s' l = nodes l := Function.update_of_ne (Ne.symm hj) _ _
  refine ⟨s', hr, ?_, fun i hi hiI hil => ?_, fun m' hm' hb => ?_, ?_, h.queued hjn hjI hr hlog⟩
  · rw [hstays]
    exact h.stands
  · by_cases hij : i = j
    · subst hij
      rw [Function.update_self]
      exact ⟨hmember, .inr hvoted⟩
    · rw [Function.update_of_ne hij]
      exact h.member i hi hiI hil
  · rcases List.mem_append.mp hm' with hm' | hm'
    · exact h.talk m' (List.mem_cons_of_mem _ hm') hb
    · rw [List.mem_singleton.mp hm']
      exact ⟨hl, .grant j hj⟩
  · have hvotes := h.votes
    have hthere : Between I (voteRequest l t M j) := ⟨hlI, hjI⟩
    have hback : Between I (voteAnswer l t true j) := ⟨hjI, hlI⟩
    rw [List.countP_cons_of_pos (by simpa using hthere)] at hvotes
    rw [hstays, List.countP_append, List.countP_cons_of_pos (by simpa using hback),
      List.countP_nil]
    exact hvotes

/-- **A vote** that does not win the election is counted. -/
theorem Campaign.counted (h : Campaign init n I l t M nodes (voteAnswer l t true j :: q))
    (hl : l < n) (hlI : l ∉ I) (hjI : j ∉ I) {s' : RaftState} {out : List NetworkMessage}
    (hr : (node n l).handleMessage (nodes l) (voteAnswer l t true j) = some (s', out))
    (hlog : s'.log = (nodes l).log) (hstands : Stands n l t M s')
    (hcount : s'.votesReceived = (nodes l).votesReceived + 1) :
    Campaign init n I l t M (Function.update nodes l s') q := by
  refine ⟨?_, fun i hi hiI hil => ?_, fun m' hm' => h.talk m' (List.mem_cons_of_mem _ hm'), ?_,
    h.queued hl hlI hr hlog⟩
  · rw [Function.update_self]
    exact hstands
  · rw [Function.update_of_ne hil]
    exact h.member i hi hiI hil
  · have hvotes := h.votes
    have hbetween : Between I (voteAnswer l t true j) := ⟨hjI, hlI⟩
    rw [List.countP_cons_of_pos (by simpa using hbetween)] at hvotes
    rw [Function.update_self, hcount, ← hvotes]
    omega

/-- **The vote that wins** the election begins the reign of the candidate. -/
theorem Campaign.wins (h : Campaign init n I l t M nodes (voteAnswer l t true j :: q))
    (hl : l < n) (hlI : l ∉ I) {s' : RaftState}
    (hr : (node n l).handleMessage (nodes l) (voteAnswer l t true j) =
      some (s', (node n l).broadcastAppendEntries s')) (hlog : s'.log = (nodes l).log)
    (hleads : Rules n l t M s') (hnext : ∀ i ∈ peerIds l n, nextFor s' i = M.length + 1) :
    Reign init n I l t (fun _ => M) M False (Function.update nodes l s')
      (q ++ (node n l).broadcastAppendEntries s') := by
  have hentries : ∀ i < n, i ≠ l → ∃ pt, prevMatches M M.length pt ∧
      (node n l).buildAppendEntries s' i = entriesFor l t M M pt s'.commitIndex i :=
    fun i hi hil => hleads.entries (List.prefix_refl M) (hnext i (mem_peerIds.mpr ⟨hi, hil⟩))
  refine ⟨?_, fun i hi hiI hil => ?_, fun m' hm' hs ht => ?_, fun i hi hiI hil => ?_,
    h.queued hl hlI hr hlog⟩
  · rw [Function.update_self]
    exact hleads
  · rw [Function.update_of_ne hil]
    exact (h.member i hi hiI hil).member
  · rcases List.mem_append.mp hm' with hm' | hm'
    · obtain ⟨htn', hpoll⟩ := h.talk m' (List.mem_cons_of_mem _ hm') ⟨hs, ht⟩
      cases hpoll with
      | request j hj => exact ⟨htn', .request M j hj⟩
      | grant j hj => exact ⟨htn', .answer true j hj⟩
    · obtain ⟨i, hi, hil, rfl⟩ := mem_broadcastAppendEntries.mp hm'
      obtain ⟨pt, hprev, hbuild⟩ := hentries i hi hil
      rw [hbuild]
      exact ⟨hi, .entries pt _ i hil hprev⟩
  · left
    obtain ⟨pt, _, hbuild⟩ := hentries i hi hil
    exact ⟨_, List.mem_append_right _ (mem_broadcastAppendEntries.mpr ⟨i, hi, hil, rfl⟩), pt,
      s'.commitIndex, hbuild, False.elim⟩

variable [Sha256] {faults : NetworkFaults}

/-- **A delivery.** -/
theorem Campaign.receive (hhonest : ∀ i, faults.isByzantine i = false) (hl : l < n)
    (hterms : ∀ e ∈ M, e.term < t)
    (h : Campaign init n faults.isolatedNodes l t M nodes (m :: q)) : ∃ nodes' out,
      Cluster.receive (code n) n faults nodes m = some (nodes', out) ∧
        (Campaign init n faults.isolatedNodes l t M nodes' (q ++ out) ∨
          Reign init n faults.isolatedNodes l t (fun _ => M) M False nodes' (q ++ out)) ∧
        ∀ m' ∈ out, followUps m'.payload < followUps m.payload := by
  rcases NetworkFaults.carried_cases (hhonest m.sender) with
    ⟨hm, hcarried⟩ | ⟨hsender, htarget, hcarried⟩
  · refine ⟨nodes, [], Cluster.receive_of_lost hcarried nodes, .inl ?_, by simp⟩
    rw [List.append_nil]
    exact h.lose fun hbetween => hm.elim hbetween.1 hbetween.2
  · obtain ⟨htn, hpoll⟩ := h.talk m List.mem_cons_self ⟨hsender, htarget⟩
    cases hpoll with
    | request j hj =>
      obtain ⟨s', hr, hgoes⟩ := h.asked hl hsender hj htn htarget
      refine ⟨_, _, Cluster.receive_of_handled hcarried htn hr, .inl hgoes, fun m' hm' => ?_⟩
      rw [List.mem_singleton.mp hm']
      exact Nat.lt_succ_self 2
    | grant j hj =>
      obtain ⟨s', out, hr, hlog, hcases⟩ := h.stands.count (j := j) hterms
      rcases hcases with ⟨hstands, hcount, rfl⟩ | ⟨hleads, rfl, hnext⟩
      · refine ⟨_, _, Cluster.receive_of_handled hcarried htn hr, .inl ?_, by simp⟩
        rw [List.append_nil]
        exact h.counted hl htarget hsender hr hlog hstands hcount
      · refine ⟨_, _, Cluster.receive_of_handled hcarried htn hr,
          .inr (h.wins hl htarget hr hlog hleads hnext), fun m' hm' => ?_⟩
        obtain ⟨i, _, _, rfl⟩ := mem_broadcastAppendEntries.mp hm'
        exact Nat.lt_succ_self 1

end Deliveries

end Raft

end ConsensusBench
