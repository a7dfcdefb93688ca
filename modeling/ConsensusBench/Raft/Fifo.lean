import ConsensusBench.Lib.Relay
import ConsensusBench.Raft.Feed

namespace ConsensusBench

/-!
# Raft under the orchestrator

A cluster that is driven by `propose` and `step` keeps its leader.  On the FIFO queue the entries
that are on the way to a follower grow, and so do its acknowledgements on the way back: the log
lengths of leader, follower and the leader's record of the follower are a `Relay.Link`.

* `Streams` — the invariant, kept by proposals (`Streams.propose`) and deliveries
  (`Streams.receive`).
* `Streams.drained` — when nothing is pending the nodes that are not isolated have all entries,
  and the leader has committed them.
* `Beat` — what one tick then adds: the news of the commit index is on the way to all followers.
* `live_majority_replicates` — so they all commit everything.
-/

open RaftNode Relay

namespace Raft

/-- The methods of Raft node `i` of `n`. -/
def code (n : ℕ) (i : NodeId) : ConsensusNode RaftState where
  propose := (node n i).propose
  handleMessage := (node n i).handleMessage
  tick := (node n i).tick

/-- `Cluster::new_raft`; the nodes are seeded with `rngs`. -/
def newCluster (n : ℕ) (rngs : NodeId → StdRng) (rng : ℕ → ℚ) : Cluster RaftState :=
  Cluster.new n (fun i => (RaftNode.newSeeded i n (rngs i)).2) rng

/-- `Cluster::new_raft_with_leader`; the nodes are seeded with `rngs`. -/
def newClusterWithLeader (n : ℕ) (rngs : NodeId → StdRng) (rng : ℕ → ℚ) : Cluster RaftState :=
  Cluster.new n (fun i =>
    let state := (RaftNode.newSeeded i n (rngs i)).2
    if i = 0 then (node n i).forceLeader state else state) rng

/-! ### Messages on the way -/

/-- The messages of a cluster whose leader has the log of `ps`, and to which `a j` entries of node
    `j` were acknowledged. -/
inductive Legit (n : ℕ) (ps : List Payload) (a : NodeId → ℕ) : NetworkMessage → Prop
  | feed {m prev : ℕ} (lc : ℕ) {j : NodeId} (hj : j ∈ peerIds 0 n) (ha : prev ≤ a j)
      (hprev : prev ≤ m) (hm : m ≤ ps.length) : Legit n ps a (feed (ps.take m) prev lc j)
  | report (m : ℕ) {j : NodeId} (hj : j ∈ peerIds 0 n) : Legit n ps a (report m j)

/-- How many entries node `i` has after an `AppendEntries` for it. -/
def offer (i : NodeId) (msg : NetworkMessage) : Option ℕ :=
  match msg.payload with
  | .raft (.appendEntries _ _ prev _ entries _) =>
      if msg.target = i then some (prev + entries.length) else none
  | _ => none

/-- How many entries node `i` acknowledges. -/
def answer (i : NodeId) (msg : NetworkMessage) : Option ℕ :=
  match msg.payload with
  | .raft (.appendEntriesResponse _ _ m) => if msg.sender = i then some m else none
  | _ => none

section Messages

variable {ps : List Payload} {m prev lc : ℕ} (i j : NodeId)

/-- Entries offer their target the whole log. -/
theorem offer_feed (hprev : prev ≤ ps.length) :
    offer i (feed ps prev lc j) = if j = i then some ps.length else none := by
  have hlen : prev + ((logOf ps).drop prev).length = ps.length := by
    rw [List.length_drop, length_logOf]
    omega
  show (if j = i then some (prev + ((logOf ps).drop prev).length) else none) = _
  rw [hlen]

/-- Entries offer their target as much of the log as the sender had. -/
theorem offer_feed_take (hprev : prev ≤ m) (hm : m ≤ ps.length) :
    offer i (feed (ps.take m) prev lc j) = if j = i then some m else none := by
  have hlen : (ps.take m).length = m := by rw [List.length_take, Nat.min_eq_left hm]
  rw [offer_feed i j (by rw [hlen]; exact hprev), hlen]

@[simp] theorem answer_feed : answer i (feed ps prev lc j) = none := rfl

@[simp] theorem offer_report : offer i (report m j) = none := rfl

@[simp] theorem answer_report : answer i (report m j) = if j = i then some m else none := rfl

variable {i}

/-- One of the entries of a list is picked once. -/
private theorem filterMap_eq_singleton {l : List NodeId} (hl : l.Nodup) (hi : i ∈ l) (v : ℕ) :
    (l.filterMap fun j => if j = i then some v else none) = [v] := by
  induction l with
  | nil => exact absurd hi (by simp)
  | cons j l ih =>
    obtain ⟨hj, hl⟩ := List.nodup_cons.mp hl
    rcases List.mem_cons.mp hi with rfl | hi
    · have hnone : (l.filterMap fun j => if j = i then some v else none) = [] := by
        refine List.filterMap_eq_nil_iff.mpr fun j' hj' => if_neg ?_
        rintro rfl
        exact hj hj'
      simp only [List.filterMap_cons, if_true, hnone]
    · have hne : j ≠ i := by
        rintro rfl
        exact hj hi
      simp only [List.filterMap_cons, hne, if_false]
      exact ih hl hi

/-- Of what the leader sends to all, one message is for a peer. -/
theorem filterMap_offer {n : ℕ} {a : NodeId → ℕ} (ha : ∀ j, a j ≤ ps.length)
    (hi : i ∈ peerIds 0 n) :
    ((peerIds 0 n).map fun j => feed ps (a j) lc j).filterMap (offer i) = [ps.length] := by
  rw [List.filterMap_map]
  have hpick : offer i ∘ (fun j => feed ps (a j) lc j) = fun j =>
      if j = i then some ps.length else none := by
    funext j
    exact offer_feed i j (ha j)
  rw [hpick]
  exact filterMap_eq_singleton (nodup_peerIds 0 n) hi _

/-- A broadcast of entries answers nothing. -/
theorem filterMap_answer {n : ℕ} {a : NodeId → ℕ} :
    ((peerIds 0 n).map fun j => feed ps (a j) lc j).filterMap (answer i) = [] := by
  rw [List.filterMap_map]
  exact List.filterMap_eq_nil_iff.mpr fun j _ => rfl

end Messages

/-! ### The invariant -/

/-- The nodes and the queue of a cluster after the proposals `ps`: node `j` has `b j` entries, and
    the leader knows of `a j` of them. -/
structure Streams (n : ℕ) (faults : NetworkFaults) (ps : List Payload) (a b : NodeId → ℕ)
    (nodes : NodeId → RaftState) (q : List NetworkMessage) : Prop where
  leader : LeaderHolds n ps a (nodes 0)
  followers : ∀ i, i ≠ 0 → FollowerHolds ps (b i) (nodes i)
  legit : ∀ m ∈ q, Legit n ps a m
  links : ∀ i ∈ peerIds 0 n, faults.isIsolated i = false →
    Link (a i) (q.filterMap (answer i)) (b i) (q.filterMap (offer i)) ps.length

/-- What a delivery does to the nodes, and what they send. -/
inductive Delivered (faults : NetworkFaults) (ps : List Payload) (nodes : NodeId → RaftState) :
    NetworkMessage → (NodeId → RaftState) → List NetworkMessage → Prop
  | lost (m : NetworkMessage)
      (h : (faults.isIsolated m.sender || faults.isIsolated m.target) = true) :
      Delivered faults ps nodes m nodes []
  | append {m prev lc : ℕ} {j : NodeId} (st : RaftState) (hj : j ≠ 0) (hprev : prev ≤ m)
      (hm : m ≤ ps.length) (hindex : st.commitIndex = max (nodes j).commitIndex (min lc m))
      (htime : ELECTION_TIMEOUT_MIN ≤ st.electionTicksRemaining) :
      Delivered faults ps nodes (feed (ps.take m) prev lc j) (Function.update nodes j st)
        [report m j]
  | hear {m : ℕ} {j : NodeId} (st : RaftState)
      (hindex : (nodes 0).commitIndex ≤ st.commitIndex)
      (hbeat : st.heartbeatTicksRemaining = (nodes 0).heartbeatTicksRemaining) :
      Delivered faults ps nodes (report m j) (Function.update nodes 0 st) []

section Run

variable [Sha256] {n : ℕ} {faults : NetworkFaults} {ps : List Payload} {a b : NodeId → ℕ}
variable {nodes : NodeId → RaftState} {q : List NetworkMessage} {m : NetworkMessage}

omit [Sha256] in
/-- The leader accepts every proposal, and sends its log to all peers. -/
theorem Streams.propose (h : Streams n faults ps a b nodes q) (hn : 2 ≤ n) (p : Payload) :
    ∃ st out, (code n 0).propose (nodes 0) p = (.accepted, st, out) ∧
      (∃ lc, out = (peerIds 0 n).map fun j => feed (ps ++ [p]) (a j) lc j) ∧
      st.heartbeatTicksRemaining = (nodes 0).heartbeatTicksRemaining ∧
      Streams n faults (ps ++ [p]) a b (Function.update nodes 0 st) (q ++ out) := by
  obtain ⟨st, hacc, hleader, hbeat⟩ := h.leader.propose hn p
  have hgrow : (ps ++ [p]).length = ps.length + 1 := by rw [List.length_append]; rfl
  refine ⟨st, _, hacc, ⟨_, rfl⟩, hbeat, ?_, fun i hi => ?_, fun m hm => ?_, fun i hi hiso => ?_⟩
  · rw [Function.update_self]
    exact hleader
  · rw [Function.update_of_ne hi]
    exact (h.followers i hi).concat p
  · rcases List.mem_append.mp hm with hm | hm
    · cases h.legit m hm with
      | report m hj => exact .report m hj
      -- what was cut from the shorter log is a part of the longer one
      | @feed m₀ prev lc j hj ha hprev hle =>
        have hsame : (ps ++ [p]).take m₀ = ps.take m₀ := List.take_append_of_le_length hle
        rw [← hsame]
        exact .feed lc hj ha hprev (by rw [hgrow]; exact Nat.le_succ_of_le hle)
    · obtain ⟨j, hj, rfl⟩ := List.mem_map.mp hm
      have hfeed := Legit.feed (n := n) (m := (ps ++ [p]).length) st.commitIndex hj (le_refl (a j))
        (hleader.le j) le_rfl
      rw [List.take_length] at hfeed
      exact hfeed
  -- each follower is offered the whole log, and what it answers is still to come
  · have hlink := (h.links i hi hiso).grow (Nat.le_succ ps.length)
    rw [List.filterMap_append, List.filterMap_append, filterMap_offer hleader.le hi,
      filterMap_answer, List.append_nil, hgrow]
    exact hlink

omit [Sha256] in
/-- More acknowledgements do not change what messages are on the way. -/
theorem Legit.mono {a' : NodeId → ℕ} (h : Legit n ps a m) (ha : ∀ j, a j ≤ a' j) :
    Legit n ps a' m := by
  cases h with
  | report m hj => exact .report m hj
  | feed lc hj hprev hle hm => exact .feed lc hj (hprev.trans (ha _)) hle hm

omit [Sha256] in
/-- A message of an isolated node says nothing about the others. -/
theorem Legit.lost (h : Legit n ps a m) (h0 : faults.isIsolated 0 = false)
    (hiso : (faults.isIsolated m.sender || faults.isIsolated m.target) = true) {i : NodeId}
    (hi : faults.isIsolated i = false) : offer i m = none ∧ answer i m = none := by
  cases h with
  | feed lc hj ha hprev hm =>
    refine ⟨?_, rfl⟩
    rw [offer_feed_take i _ hprev hm, if_neg]
    rintro rfl
    rw [sender_feed, target_feed, h0, hi] at hiso
    exact absurd hiso (by simp)
  | report m' hj =>
    refine ⟨rfl, ?_⟩
    rw [answer_report, if_neg]
    rintro rfl
    rw [sender_report, target_report, h0, hi] at hiso
    exact absurd hiso (by simp)

omit [Sha256] in
/-- Entries reach a follower. -/
theorem Streams.append {m prev lc : ℕ} {j : NodeId}
    (h : Streams n faults ps a b nodes (feed (ps.take m) prev lc j :: q))
    (hj : j ∈ peerIds 0 n) (hiso : faults.isIsolated j = false) (ha : prev ≤ a j)
    (hprev : prev ≤ m) (hm : m ≤ ps.length) :
    ∃ st, (node n j).handleMessage (nodes j) (feed (ps.take m) prev lc j) =
        some (st, [report m j]) ∧
      Delivered faults ps nodes (feed (ps.take m) prev lc j) (Function.update nodes j st)
        [report m j] ∧
      Streams n faults ps a (Function.update b j m) (Function.update nodes j st)
        (q ++ [report m j]) := by
  have hne : j ≠ 0 := (mem_peerIds.mp hj).2
  have hlink := h.links j hj hiso
  rw [List.filterMap_cons_none (answer_feed j j),
    List.filterMap_cons_some ((offer_feed_take j j hprev hm).trans (if_pos rfl))] at hlink
  -- of the two directions, only the offers of follower `j` lose their first one
  obtain ⟨hb, hlink'⟩ := hlink.forward
  obtain ⟨st, hhandle, hholds, hindex, htime⟩ :=
    (h.followers j hne).append (n := n) j lc (ha.trans hlink.back.le) hb hm
  refine ⟨st, hhandle, .append st hne hprev hm hindex htime, ?_, fun i hi => ?_, fun m' hm' => ?_,
    fun i hi hlive => ?_⟩
  · rw [Function.update_of_ne (Ne.symm hne)]
    exact h.leader
  · by_cases hij : i = j
    · subst hij
      rw [Function.update_self, Function.update_self]
      exact hholds
    · rw [Function.update_of_ne hij, Function.update_of_ne hij]
      exact h.followers i hi
  · rcases List.mem_append.mp hm' with hm' | hm'
    · exact h.legit m' (List.mem_cons_of_mem _ hm')
    · rw [List.mem_singleton.mp hm']
      exact .report m hj
  · rw [List.filterMap_append, List.filterMap_append]
    by_cases hij : i = j
    · subst hij
      rw [Function.update_self]
      simp only [List.filterMap_cons, List.filterMap_nil, answer_report, offer_report, if_true,
        List.append_nil]
      exact hlink'
    · have hsame := h.links i hi hlive
      rw [List.filterMap_cons_none (answer_feed i j), List.filterMap_cons_none
        ((offer_feed_take i j hprev hm).trans (if_neg (Ne.symm hij)))] at hsame
      rw [Function.update_of_ne hij]
      simp only [List.filterMap_cons, List.filterMap_nil, answer_report, offer_report,
        if_neg (Ne.symm hij), List.append_nil]
      exact hsame

omit [Sha256] in
/-- An acknowledgement reaches the leader. -/
theorem Streams.hear {m : ℕ} {j : NodeId} (h : Streams n faults ps a b nodes (report m j :: q))
    (hj : j ∈ peerIds 0 n) (hiso : faults.isIsolated j = false) :
    ∃ st, (node n 0).handleMessage (nodes 0) (report m j) = some (st, []) ∧
      Delivered faults ps nodes (report m j) (Function.update nodes 0 st) [] ∧
      Streams n faults ps (Function.update a j m) b (Function.update nodes 0 st) (q ++ []) := by
  have hlink := h.links j hj hiso
  rw [List.filterMap_cons_none (offer_report j j),
    List.filterMap_cons_some ((answer_report j j).trans (if_pos rfl))] at hlink
  obtain ⟨ha, hlink'⟩ := hlink.hear
  -- nobody has acknowledged more than was proposed
  have hm : m ≤ ps.length := hlink'.back.le.trans hlink'.forth.le
  obtain ⟨st, hhandle, hholds, hindex, hbeat⟩ := h.leader.hear hj hm
  have hmono : ∀ i, a i ≤ Function.update a j m i := by
    intro i
    rw [Function.update_apply]
    split
    · rename_i hij
      rw [hij]
      exact ha
    · exact le_rfl
  rw [List.append_nil]
  refine ⟨st, hhandle, .hear st hindex hbeat, ?_, fun i hi => ?_, fun m' hm' => ?_,
    fun i hi hlive => ?_⟩
  · rw [Function.update_self]
    exact hholds
  · rw [Function.update_of_ne hi]
    exact h.followers i hi
  · exact (h.legit m' (List.mem_cons_of_mem _ hm')).mono hmono
  · by_cases hij : i = j
    · subst hij
      rw [Function.update_self]
      exact hlink'
    · have hsame := h.links i hi hlive
      rw [List.filterMap_cons_none (offer_report i j),
        List.filterMap_cons_none ((answer_report i j).trans (if_neg (Ne.symm hij)))] at hsame
      rw [Function.update_of_ne hij]
      exact hsame

/-- **The first pending message is delivered.** -/
theorem Streams.receive (h : Streams n faults ps a b nodes (m :: q))
    (hhonest : ∀ i, faults.isByzantine i = false) (h0 : faults.isIsolated 0 = false) :
    ∃ nodes' out, Cluster.receive (code n) n faults nodes m = some (nodes', out) ∧
      Delivered faults ps nodes m nodes' out ∧
      ∃ a' b', Streams n faults ps a' b' nodes' (q ++ out) := by
  have hm := h.legit m List.mem_cons_self
  have hcarried := NetworkFaults.carried_of_honest (hhonest m.sender)
  -- messages from and to isolated nodes are lost, and nobody else waits for them
  by_cases hiso : (faults.isIsolated m.sender || faults.isIsolated m.target) = true
  · rw [if_pos hiso] at hcarried
    refine ⟨nodes, [], Cluster.receive_of_lost hcarried nodes, .lost m hiso, a, b, h.leader,
      h.followers, fun m' hm' => ?_, fun i hi hlive => ?_⟩
    · rw [List.append_nil] at hm'
      exact h.legit m' (List.mem_cons_of_mem _ hm')
    · obtain ⟨hoffer, hanswer⟩ := hm.lost h0 hiso hlive
      have hsame := h.links i hi hlive
      rw [List.filterMap_cons_none hanswer, List.filterMap_cons_none hoffer] at hsame
      rw [List.append_nil]
      exact hsame
  · rw [if_neg hiso] at hcarried
    rw [Bool.or_eq_true, not_or, Bool.not_eq_true, Bool.not_eq_true] at hiso
    cases hm with
    | feed lc hj ha hprev hle =>
      obtain ⟨st, hhandle, hdel, hnew⟩ := h.append hj hiso.2 ha hprev hle
      exact ⟨_, _, Cluster.receive_of_handled hcarried (mem_peerIds.mp hj).1 hhandle, hdel, _, _,
        hnew⟩
    | report m' hj =>
      obtain ⟨st, hhandle, hdel, hnew⟩ := h.hear hj hiso.1
      have hpos : 0 < n := Nat.zero_lt_of_lt (mem_peerIds.mp hj).1
      exact ⟨_, _, Cluster.receive_of_handled hcarried hpos hhandle, hdel, _, _, hnew⟩

/-! ### Runs without ticks -/

/-- Nobody has counted a tick yet. -/
structure Rested (nodes : NodeId → RaftState) : Prop where
  heartbeat : (nodes 0).heartbeatTicksRemaining = 0
  timeout : ∀ i, i ≠ 0 → ELECTION_TIMEOUT_MIN ≤ (nodes i).electionTicksRemaining

omit [Sha256] in
/-- A delivery leaves the nodes rested. -/
theorem Rested.delivered {nodes' : NodeId → RaftState} {out : List NetworkMessage}
    (h : Rested nodes) (hd : Delivered faults ps nodes m nodes' out) : Rested nodes' := by
  cases hd with
  | lost => exact h
  | append st hj hprev hm hindex htime =>
    refine ⟨?_, fun i hi => ?_⟩
    · rw [Function.update_of_ne (Ne.symm hj)]
      exact h.heartbeat
    · rw [Function.update_apply]
      split
      · exact htime
      · exact h.timeout i hi
  | hear st hindex hbeat =>
    refine ⟨?_, fun i hi => ?_⟩
    · rw [Function.update_self, hbeat]
      exact h.heartbeat
    · rw [Function.update_of_ne hi]
      exact h.timeout i hi

omit [Sha256] in
/-- The nodes start rested. -/
theorem rested_start (n : ℕ) (rngs : NodeId → StdRng) (rng : ℕ → ℚ) :
    Rested (newClusterWithLeader n rngs rng).nodes where
  heartbeat := rfl
  timeout i hi := by
    show ELECTION_TIMEOUT_MIN ≤ (if i = 0 then _ else _ : RaftState).electionTicksRemaining
    rw [if_neg hi]
    exact Nat.le_add_right _ _

omit [Sha256] in
/-- Nothing is on the way at the start. -/
theorem streams_start (n : ℕ) (faults : NetworkFaults) (rngs : NodeId → StdRng) (rng : ℕ → ℚ) :
    Streams n faults [] (fun _ => 0) (fun _ => 0) (newClusterWithLeader n rngs rng).nodes [] where
  leader := by
    refine ⟨rfl, rfl, rfl, le_rfl, rfl, fun _ => le_rfl, fun j hj => ?_, fun j => ?_,
      fun m hlt hle => absurd (lt_of_lt_of_le hlt hle) (lt_irrefl 0)⟩
    · exact (lookup_initIndices_next (node n 0) _ j).trans (if_pos hj)
    · exact lookup_initIndices_match (node n 0) _ j
  followers i hi := by
    show FollowerHolds [] 0 (if i = 0 then _ else _ : RaftState)
    rw [if_neg hi]
    exact ⟨Nat.zero_le 1, rfl, rfl, le_rfl, le_rfl, rfl⟩
  legit m hm := absurd hm (by simp)
  links i _ _ := Link.start 0

omit [Sha256] in
/-- **When nothing is pending** the leader has committed everything, and the followers have it. -/
theorem Streams.drained (h : Streams n faults ps a b nodes []) (h0 : 0 ∉ faults.isolatedNodes)
    (hmaj : n / 2 + 1 ≤ n - faults.isolatedNodes.card) :
    (nodes 0).commitIndex = ps.length ∧
      ∀ i ∈ peerIds 0 n, i ∉ faults.isolatedNodes → b i = ps.length := by
  have hlink : ∀ i ∈ peerIds 0 n, i ∉ faults.isolatedNodes →
      a i = ps.length ∧ b i = ps.length := fun i hi hlive =>
    (h.links i hi (decide_eq_false hlive)).drained
  refine ⟨h.leader.committed_all h0 hmaj fun j hj hlive hne => ?_, fun i hi hlive =>
    (hlink i hi hlive).2⟩
  exact (hlink j (mem_peerIds.mpr ⟨hj, hne⟩) hlive).1

omit [Sha256] in
/-- What a node has committed is among the proposals. -/
theorem Streams.committed_eq (h : Streams n faults ps a b nodes q) (i : NodeId) :
    (nodes i).committed = numbered (ps.take (nodes i).commitIndex) := by
  by_cases hi : i = 0
  · rw [hi]
    exact h.leader.committed
  · exact (h.followers i hi).committed

/-! ### A tick and what follows -/

/-- The leader has committed everything, and the news of it is with every follower that is not
    isolated, or on the way. -/
structure Beat (n : ℕ) (faults : NetworkFaults) (ps : List Payload) (nodes : NodeId → RaftState)
    (q : List NetworkMessage) : Prop where
  streams : ∃ a b, Streams n faults ps a b nodes q
  leader : (nodes 0).commitIndex = ps.length
  told : ∀ i ∈ peerIds 0 n, faults.isIsolated i = false →
    (nodes i).commitIndex = ps.length ∨ ∃ prev, feed ps prev ps.length i ∈ q

/-- How far a message is from the leader. -/
def hops (msg : NetworkMessage) : ℕ :=
  match msg.payload with
  | .raft (.appendEntries _ _ _ _ _ _) => 0
  | _ => 1

omit [Sha256] in
/-- A message is at most one hop from the leader. -/
theorem hops_le_one (msg : NetworkMessage) : hops msg ≤ 1 := by
  unfold hops
  split
  · exact Nat.zero_le 1
  · exact le_rfl

omit [Sha256] in
/-- What a delivery sends is one hop further. -/
theorem Delivered.hops {nodes' : NodeId → RaftState} {out : List NetworkMessage}
    (h : Delivered faults ps nodes m nodes' out) : ∀ m' ∈ out, hops m' = Raft.hops m + 1 := by
  cases h with
  | lost => simp
  | hear => simp
  | append st hj hprev hm hindex htime =>
    intro m' hm'
    rw [List.mem_singleton.mp hm']
    rfl

omit [Sha256] in
/-- Two messages of a leader to its peers that are the same. -/
private theorem feed_inj {m prev prev' lc lc' : ℕ} {i j : NodeId} (hprev : prev ≤ m)
    (hm : m ≤ ps.length) (h : feed ps prev' lc' i = feed (ps.take m) prev lc j) :
    i = j ∧ lc' = lc ∧ m = ps.length := by
  unfold feed at h
  simp only [NetworkMessage.mk.injEq, ProtocolMessage.raft.injEq, RaftMessage.appendEntries.injEq,
    true_and] at h
  obtain ⟨hij, hpp, _, hentries, hlc⟩ := h
  have hlen := congrArg List.length hentries
  rw [List.length_drop, List.length_drop, length_logOf, length_logOf, List.length_take] at hlen
  refine ⟨hij, hlc, ?_⟩
  omega

omit [Sha256] in
/-- A delivery takes no commit index back. -/
theorem Delivered.commitIndex_mono {nodes' : NodeId → RaftState} {out : List NetworkMessage}
    (h : Delivered faults ps nodes m nodes' out) (i : NodeId) :
    (nodes i).commitIndex ≤ (nodes' i).commitIndex := by
  cases h with
  | lost => exact le_rfl
  | append st hj hprev hm hindex =>
    rw [Function.update_apply]
    split
    · rename_i hij
      rw [hij, hindex]
      exact Nat.le_max_left _ _
    · exact le_rfl
  | hear st hindex =>
    rw [Function.update_apply]
    split
    · rename_i hi
      rw [hi]
      exact hindex
    · exact le_rfl

omit [Sha256] in
/-- The news that arrives is taken over. -/
theorem Delivered.arrived {nodes' : NodeId → RaftState} {prev : ℕ} {i : NodeId}
    {out : List NetworkMessage}
    (h : Delivered faults ps nodes (feed ps prev ps.length i) nodes' out)
    (h0 : faults.isIsolated 0 = false) (hlive : faults.isIsolated i = false) :
    ps.length ≤ (nodes' i).commitIndex := by
  generalize hm : feed ps prev ps.length i = m at h
  cases h with
  | lost m hiso =>
    rw [← hm, sender_feed, target_feed, h0, hlive] at hiso
    exact absurd hiso (by simp)
  | hear => exact absurd (congrArg NetworkMessage.payload hm) (by simp [feed, report])
  | append st hj hprev hle hindex =>
    obtain ⟨rfl, hlc, hall⟩ := feed_inj hprev hle hm
    rw [Function.update_self, hindex, ← hlc, hall, Nat.min_self]
    exact Nat.le_max_right _ _

/-- **The news travels**: every delivery keeps it with the followers, or on the way. -/
theorem Beat.receive (h : Beat n faults ps nodes (m :: q))
    (hhonest : ∀ i, faults.isByzantine i = false) (h0 : faults.isIsolated 0 = false) :
    ∃ nodes' out, Cluster.receive (code n) n faults nodes m = some (nodes', out) ∧
      (∀ m' ∈ out, hops m' = hops m + 1) ∧ Beat n faults ps nodes' (q ++ out) := by
  obtain ⟨a, b, hstreams⟩ := h.streams
  obtain ⟨nodes', out, hr, hdel, a', b', hnew⟩ := hstreams.receive hhonest h0
  refine ⟨nodes', out, hr, hdel.hops, ⟨a', b', hnew⟩, ?_, fun i hi hlive => ?_⟩
  · have hmono := hdel.commitIndex_mono 0
    rw [h.leader] at hmono
    exact le_antisymm hnew.leader.commit_le hmono
  · have hfollower := hnew.followers i (mem_peerIds.mp hi).2
    have hbound : (nodes' i).commitIndex ≤ ps.length := hfollower.commit_le.trans hfollower.le
    rcases h.told i hi hlive with hdone | ⟨prev, hmem⟩
    · have hmono := hdel.commitIndex_mono i
      rw [hdone] at hmono
      exact .inl (le_antisymm hbound hmono)
    · rcases List.mem_cons.mp hmem with rfl | hmem
      · exact .inl (le_antisymm hbound (hdel.arrived h0 hlive))
      · exact .inr ⟨prev, List.mem_append_left _ hmem⟩

omit [Sha256] in
/-- When nothing is pending the news has arrived everywhere. -/
theorem Beat.committed (h : Beat n faults ps nodes []) {i : NodeId} (hi : i < n)
    (hlive : i ∉ faults.isolatedNodes) : (nodes i).committed = numbered ps := by
  obtain ⟨a, b, hstreams⟩ := h.streams
  have hindex : (nodes i).commitIndex = ps.length := by
    by_cases hne : i = 0
    · rw [hne]
      exact h.leader
    · rcases h.told i (mem_peerIds.mpr ⟨hi, hne⟩) (decide_eq_false hlive) with hdone | ⟨_, hmem⟩
      · exact hdone
      · exact absurd hmem (by simp)
  rw [hstreams.committed_eq i, hindex, List.take_length]

omit [Sha256] in
/-- **A tick** makes the leader tell its commit index. -/
theorem Streams.tick {c : Cluster RaftState} (h : Streams n faults ps a b c.nodes c.pending)
    (hrest : Rested c.nodes) (hempty : c.pending = []) (hn : 2 ≤ n) (hsize : c.size = n)
    (hindex : (c.nodes 0).commitIndex = ps.length) :
    Beat n faults ps (c.tick (code n)).nodes (c.tick (code n)).pending ∧
      Cluster.Alike c (c.tick (code n)) := by
  obtain ⟨halike, hnodes, hpending⟩ := Cluster.tick_eq (code n) c
  obtain ⟨st, hbeat, hleader, hcommit⟩ := h.leader.tick hrest.heartbeat
  rw [hindex] at hbeat hcommit
  have hbeat : (code n 0).tick (c.nodes 0) = (st, _) := hbeat
  -- the followers count one tick of their election timeout down
  have hwait : ∀ i, i ≠ 0 → ∃ st', (code n i).tick (c.nodes i) = (st', []) ∧
      FollowerHolds ps (b i) st' := fun i hi =>
    (h.followers i hi).tick i (Nat.lt_of_lt_of_le (by decide) (hrest.timeout i hi))
  -- only the leader's heartbeat is due
  have hsent : (c.tick (code n)).pending =
      (peerIds 0 n).map fun j => feed ps (a j) ps.length j := by
    have hrange : List.range c.size = 0 :: (List.range (n - 1)).map Nat.succ := by
      rw [hsize, ← List.range_succ_eq_map]
      congr 1
      omega
    have hrest : ((List.range (n - 1)).map Nat.succ).flatMap
        (fun i => ((code n i).tick (c.nodes i)).2) = [] := by
      refine List.flatMap_eq_nil_iff.mpr fun i hi => ?_
      obtain ⟨k, _, rfl⟩ := List.mem_map.mp hi
      obtain ⟨st', htick, _⟩ := hwait _ (Nat.succ_ne_zero k)
      rw [htick]
    rw [hpending, hempty, List.nil_append, hrange, List.flatMap_cons, hrest, List.append_nil, hbeat]
  have hzero : (c.tick (code n)).nodes 0 = st := by
    rw [hnodes, hsize, if_pos (Nat.lt_of_lt_of_le Nat.zero_lt_two hn), hbeat]
  rw [hsent]
  refine ⟨⟨⟨a, b, ?_, fun i hi => ?_, fun m hm => ?_, fun i hi hlive => ?_⟩, ?_, fun i hi _ => ?_⟩,
    halike⟩
  · rw [hzero]
    exact hleader
  · rw [hnodes]
    split
    · obtain ⟨st', htick, hholds⟩ := hwait i hi
      rw [htick]
      exact hholds
    · exact h.followers i hi
  · obtain ⟨j, hj, rfl⟩ := List.mem_map.mp hm
    have hfeed := Legit.feed (n := n) (m := ps.length) ps.length hj (le_refl (a j)) (hleader.le j)
      le_rfl
    rw [List.take_length] at hfeed
    exact hfeed
  · have hlink := h.links i hi hlive
    rw [hempty] at hlink
    rw [filterMap_offer hleader.le hi, filterMap_answer]
    exact hlink.grow le_rfl
  · rw [hzero]
    exact hcommit
  · exact .inr ⟨a i, List.mem_map.mpr ⟨i, hi, rfl⟩⟩

/-- A step takes every message one hop further. -/
theorem Beat.step {c : Cluster RaftState} (h : Beat n faults ps c.nodes c.pending)
    (hfaults : c.faults = faults) (hsize : c.size = n) (hlossless : faults.Lossless)
    (hhonest : ∀ i, faults.isByzantine i = false) (h0 : faults.isIsolated 0 = false) {k : ℕ}
    (hhops : ∀ m ∈ c.pending, k ≤ hops m) :
    ∃ c', c.step (code n) = some c' ∧ Cluster.Alike c c' ∧ Beat n faults ps c'.nodes c'.pending ∧
      ∀ m ∈ c'.pending, k + 1 ≤ hops m := by
  obtain ⟨c', hc', halike, hbeat, _, hnew⟩ := Cluster.step_of_batch (code n)
    (I := fun nodes q sent => Beat n faults ps nodes (q ++ sent) ∧ (∀ m ∈ q, k ≤ hops m) ∧
      ∀ m ∈ sent, k + 1 ≤ hops m) (hfaults ▸ hlossless)
    (fun nodes m q sent ⟨hb, hq, hs⟩ => by
      obtain ⟨nodes', out, hr, hout, hb'⟩ := hb.receive hhonest h0
      rw [hsize, hfaults]
      refine ⟨nodes', out, hr, by rw [← List.append_assoc]; exact hb',
        fun m' hm' => hq m' (List.mem_cons_of_mem _ hm'), fun m' hm' => ?_⟩
      rcases List.mem_append.mp hm' with hm' | hm'
      · exact hs m' hm'
      · rw [hout m' hm']
        exact Nat.succ_le_succ (hq m List.mem_cons_self))
    ⟨by rw [List.append_nil]; exact h, hhops, by simp⟩
  exact ⟨c', hc', halike, hbeat, hnew⟩

/-- So after two steps nothing is pending. -/
theorem Beat.steps (hlossless : faults.Lossless) (hhonest : ∀ i, faults.isByzantine i = false)
    (h0 : faults.isIsolated 0 = false) (t : ℕ) :
    ∀ (c : Cluster RaftState) (k : ℕ), Beat n faults ps c.nodes c.pending → c.faults = faults →
      c.size = n → (∀ m ∈ c.pending, k ≤ hops m) →
      ∃ c', c.run (code n) (List.replicate t .step) = some ([], c') ∧
        Beat n faults ps c'.nodes c'.pending ∧ ∀ m ∈ c'.pending, k + t ≤ hops m := by
  induction t with
  | zero => exact fun c k h _ _ hhops => ⟨c, rfl, h, hhops⟩
  | succ t ih =>
    intro c k h hfaults hsize hhops
    obtain ⟨c₁, hc₁, halike, hbeat, hhops₁⟩ := h.step hfaults hsize hlossless hhonest h0 hhops
    obtain ⟨c', hrun, hbeat', hhops'⟩ := ih c₁ (k + 1) hbeat (halike.faults.trans hfaults)
      (halike.size.trans hsize) hhops₁
    refine ⟨c', ?_, hbeat', fun m hm => ?_⟩
    · rw [List.replicate_succ, Cluster.run, hc₁]
      exact hrun
    · have hle := hhops' m hm
      omega

/-- **Raft replicates everything to a live majority.** -/
theorem live_majority_replicates (n : ℕ) (hn : 2 ≤ n) (rngs : NodeId → StdRng) (rng : ℕ → ℚ)
    (faults : NetworkFaults) (hlossless : faults.Lossless)
    (hhonest : ∀ i, faults.isByzantine i = false) (h0 : 0 ∉ faults.isolatedNodes)
    (hmaj : n / 2 + 1 ≤ n - faults.isolatedNodes.card) (calls : List ClusterCall)
    (hcalls : .tick ∉ calls) :
    ∃ results c, ((newClusterWithLeader n rngs rng).setFaults faults).run (code n) calls =
        some (results, c) ∧
      (∀ r ∈ results, r = .accepted) ∧
      (c.pending = [] →
        (∀ i < n, i ∉ faults.isolatedNodes →
          (c.nodes i).log.map LogEntry.payload = Cluster.proposals calls ∧
          (c.nodes i).committed <+: numbered (Cluster.proposals calls)) ∧
        (c.nodes 0).committed = numbered (Cluster.proposals calls) ∧
        ∀ t, ∃ c', c.run (code n) (.tick :: List.replicate t .step) = some ([], c') ∧
          (c'.pending = [] → ∀ i < n, i ∉ faults.isolatedNodes →
            (c'.nodes i).committed = numbered (Cluster.proposals calls)) ∧
          (2 ≤ t → c'.pending = [])) := by
  have hlive : faults.isIsolated 0 = false := decide_eq_false h0
  obtain ⟨results, c, hrun, halike, hres, hrest, a, b, h⟩ := Cluster.run_of_front (code n)
    (I := fun ps nodes q => Rested nodes ∧ ∃ a b, Streams n faults ps a b nodes q)
    (Nat.lt_of_lt_of_le Nat.zero_lt_two hn) hlossless hlive
    (fun ps nodes q p ⟨hrest, a, b, h⟩ => by
      obtain ⟨st, out, hacc, _, hbeat, hnew⟩ := h.propose hn p
      refine ⟨st, out, hacc, ⟨?_, fun i hi => ?_⟩, a, b, hnew⟩
      · rw [Function.update_self, hbeat]
        exact hrest.heartbeat
      · rw [Function.update_of_ne hi]
        exact hrest.timeout i hi)
    (fun ps nodes m q ⟨hrest, a, b, h⟩ => by
      obtain ⟨nodes', out, hr, hdel, a', b', hnew⟩ := h.receive hhonest hlive
      exact ⟨nodes', out, hr, hrest.delivered hdel, a', b', hnew⟩)
    calls hcalls [] ((newClusterWithLeader n rngs rng).setFaults faults) rfl rfl
    ⟨rested_start n rngs rng, _, _, streams_start n faults rngs rng⟩
  refine ⟨results, c, hrun, hres, fun hempty => ?_⟩
  rw [List.nil_append] at h
  have hquiet : Streams n faults (Cluster.proposals calls) a b c.nodes [] := hempty ▸ h
  -- all live followers have acknowledged everything
  obtain ⟨hindex, hall⟩ := hquiet.drained h0 hmaj
  refine ⟨fun i hi hiI => ⟨?_, ?_⟩, ?_, fun t => ?_⟩
  · by_cases hne : i = 0
    · rw [hne, h.leader.log, map_payload_logOf]
    · rw [(h.followers i hne).log, hall i (mem_peerIds.mpr ⟨hi, hne⟩) hiI, List.take_length,
        map_payload_logOf]
  · rw [h.committed_eq i]
    exact numbered_take_le _ _
  · rw [h.committed_eq 0, hindex, List.take_length]
  · have hsize : c.size = n := halike.size
    have hfaults : c.faults = faults := halike.faults
    -- the heartbeat is one hop, the acknowledgements are another
    obtain ⟨hbeat, halike'⟩ := h.tick hrest hempty hn hsize hindex
    obtain ⟨c', hrun', hbeat', hhops⟩ := Beat.steps hlossless hhonest hlive t (c.tick (code n)) 0
      hbeat (halike'.faults.trans hfaults) (halike'.size.trans hsize) fun m _ => Nat.zero_le _
    refine ⟨c', hrun', fun hnil i hi hiI => ?_, fun ht => ?_⟩
    · rw [hnil] at hbeat'
      exact hbeat'.committed hi hiI
    · refine List.eq_nil_iff_forall_not_mem.mpr fun m hm => ?_
      have hle := hhops m hm
      have hone := hops_le_one m
      omega

/-- Node `2` is isolated. -/
def isolatedFollower : NetworkFaults where
  isolatedNodes := {2}
  rng _ := 0

/-- Two proposals, the second of which is made while the first is under way. -/
def overlapping : List ClusterCall :=
  [.propose ⟨[0x70]⟩, .step, .propose ⟨[0x71]⟩, .step, .step]

omit [Sha256] in
/-- A leader and a live follower, which commits both proposals behind the next heartbeat. -/
theorem live_majority_replicates_three : ∃ results c c',
    @Cluster.run _ (code 3) Sha256.sample
      ((newClusterWithLeader 3 (fun _ => ⟨fun _ => 0⟩) fun _ => 0).setFaults isolatedFollower)
      overlapping = some (results, c) ∧
      (∀ r ∈ results, r = .accepted) ∧ c.pending = [] ∧
      (c.nodes 0).committed = [⟨1, ⟨[0x70]⟩⟩, ⟨2, ⟨[0x71]⟩⟩] ∧
      (c.nodes 1).log.map LogEntry.payload = [⟨[0x70]⟩, ⟨[0x71]⟩] ∧
      @Cluster.run _ (code 3) Sha256.sample c [.tick, .step, .step] = some ([], c') ∧
      c'.pending = [] ∧ (c'.nodes 1).committed = [⟨1, ⟨[0x70]⟩⟩, ⟨2, ⟨[0x71]⟩⟩] := by
  obtain ⟨results, c, hrun, hres, hall⟩ := @live_majority_replicates Sha256.sample 3 (by decide)
    (fun _ => ⟨fun _ => 0⟩) (fun _ => 0) isolatedFollower ⟨rfl, rfl⟩ (fun i => rfl) (by decide)
    (by decide) overlapping (by decide)
  have hpending : (@Cluster.run _ (code 3) Sha256.sample
      ((newClusterWithLeader 3 (fun _ => ⟨fun _ => 0⟩) fun _ => 0).setFaults isolatedFollower)
      overlapping).map (fun r => r.2.pending) = some [] := by
    decide +kernel
  rw [hrun, Option.map_some, Option.some.injEq] at hpending
  obtain ⟨hlogs, hleader, hticked⟩ := hall hpending
  obtain ⟨c', hrun', hcomm, hdrained⟩ := hticked 2
  exact ⟨results, c, c', hrun, hres, hpending, hleader, (hlogs 1 (by decide) (by decide)).1, hrun',
    hdrained le_rfl, hcomm (hdrained le_rfl) 1 (by decide) (by decide)⟩

end Run

end Raft

end ConsensusBench
