import ConsensusBench.Raft.Fifo
import ConsensusBench.Raft.Stream
import ConsensusBench.Schedule

namespace ConsensusBench

/-!
# Raft's view of the leader

`is_leader` reads `leader_id_atomic`, a copy that is kept beside the state.  It is written when a
node wins, when it is made the leader and when it hears of one; it is not written when a node
steps down for a later term.  So `is_leader` agrees with the role as long as no leader steps down
that way (`leader_view_agrees`).
-/

open AsyncNet

namespace RaftNode

/-- `ConsensusNode::is_leader`. -/
def isLeader (self : RaftNode) (state : RaftState) : Bool := leader state = some self.id

theorem isLeader_iff {self : RaftNode} (hid : self.id ≠ Raft.NO_LEADER) {state : RaftState} :
    self.isLeader state = true ↔ state.leaderIdAtomic = self.id := by
  unfold isLeader leader
  rw [decide_eq_true_eq]
  split
  · rename_i hnone
    rw [hnone]
    constructor
    · intro h
      exact absurd h (by simp)
    · intro h
      exact absurd h.symm hid
  · exact Option.some_inj

end RaftNode

open RaftNode

namespace Raft

/-! ### Leaving office -/

/-- The term of a message that may depose a leader without naming another one. -/
def deposingTerm : ProtocolMessage → Option ℕ
  | .raft (.requestVote t _ _ _) => some t
  | .raft (.requestVoteResponse t _) => some t
  | .raft (.appendEntriesResponse t _ _) => some t
  | _ => none

/-- A leader processes no `RequestVote` and no response of a later term. -/
def KeepsOffice (s : RaftState) : Cause Call NetworkMessage → Prop
  | .recv m => ∀ t ∈ deposingTerm m.payload, s.role = .leader → t ≤ s.currentTerm
  | .call _ => True

instance (s : RaftState) : DecidablePred (KeepsOffice s)
  | .recv m => inferInstanceAs (Decidable (∀ t ∈ deposingTerm m.payload, _))
  | .call _ => inferInstanceAs (Decidable True)

/-- A node that sees a later term becomes a follower, and keeps the copy. -/
theorem observe_cases (s : RaftState) (t : ℕ) : observe s t = s ∨ (s.currentTerm < t ∧
    (observe s t).leaderIdAtomic = s.leaderIdAtomic ∧ (observe s t).role ≠ .leader) := by
  unfold observe
  split
  · rename_i hlt
    exact .inr ⟨hlt, rfl, by simp⟩
  · exact .inl rfl

/-- What a step does to the copy of the leader's id, and to the role. -/
theorem Effect.view_cases {self : RaftNode} {s s' : RaftState} {c : Cause Call NetworkMessage}
    {out : List NetworkMessage} (h : Effect self s c s' out) :
    (s'.leaderIdAtomic = s.leaderIdAtomic ∧ (s'.role = .leader ↔ s.role = .leader)) ∨
    (s'.leaderIdAtomic = self.id ∧ s'.role = .leader) ∨
    (∃ m t l pi pt es lc, c = .recv m ∧ m.payload = .raft (.appendEntries t l pi pt es lc) ∧
      s'.leaderIdAtomic = l ∧ s'.role ≠ .leader) ∨
    (∃ m, ∃ t ∈ deposingTerm m.payload, c = .recv m ∧ s.currentTerm < t ∧
      s'.leaderIdAtomic = s.leaderIdAtomic ∧ s'.role ≠ .leader) := by
  cases h with
  | win => exact .inr (.inl ⟨rfl, rfl⟩)
  | stand hr h0 => exact .inl ⟨rfl, iff_of_false (by simp [Raft.stand, resetElectionTimeout]) hr⟩
  | countVote m t hm ht hr => exact .inl ⟨rfl, Iff.rfl⟩
  | deny m t c li lt hm hno =>
    rcases observe_cases s t with heq | ⟨hlt, hid, hrole⟩
    · rw [heq]
      exact .inl ⟨rfl, Iff.rfl⟩
    · exact .inr (.inr (.inr ⟨m, t, by rw [hm]; rfl, rfl, hlt, hid, hrole⟩))
  | grant m t c li lt hm hg =>
    rcases observe_cases s t with heq | ⟨hlt, hid, hrole⟩
    · rw [heq]
      exact .inl ⟨rfl, Iff.rfl⟩
    · exact .inr (.inr (.inr ⟨m, t, by rw [hm]; rfl, rfl, hlt, hid, hrole⟩))
  | stepDown m t hm ht =>
    refine .inr (.inr (.inr ⟨m, t, ?_, rfl, ht, rfl, by simp [Raft.stepDown]⟩))
    rcases hm with ⟨g, hm⟩ | ⟨b, mi, hm⟩
    · rw [hm]; rfl
    · rw [hm]; rfl
  | miss m t l pi pt es lc hm ht hpi hnone =>
    exact .inr (.inr (.inl ⟨m, t, l, pi, pt, es, lc, rfl, hm, rfl,
      by simp [follow, resetElectionTimeout]⟩))
  | conflict m t l pi pt es lc e hm ht hpi he hne =>
    exact .inr (.inr (.inl ⟨m, t, l, pi, pt, es, lc, rfl, hm, rfl,
      by simp [follow, resetElectionTimeout]⟩))
  | accept m t l pi pt es lc log s' hm ht hprev hlog hs =>
    rw [accept_eq hs]
    exact .inr (.inr (.inl ⟨m, t, l, pi, pt, es, lc, rfl, hm, rfl,
      by simp [follow, resetElectionTimeout]⟩))
  | commit m t mi k s' hm ht hr hk hs =>
    rw [commitUpTo_eq hs]
    exact .inl ⟨rfl, Iff.rfl⟩
  | retry m t mi hm ht hr => exact .inl ⟨backOff_leaderIdAtomic s _, by rw [backOff_role]⟩
  | _ => exact .inl ⟨rfl, Iff.rfl⟩

/-- A deposing message of a later term leaves a node that does not lead, with the copy it had. -/
theorem handleMessage_deposing {self : RaftNode} {s : RaftState} {m : NetworkMessage}
    {r : RaftState × List NetworkMessage} (h : self.handleMessage s m = some r) {t : ℕ}
    (hm : t ∈ deposingTerm m.payload) (ht : s.currentTerm < t) :
    r.1.leaderIdAtomic = s.leaderIdAtomic ∧ r.1.role ≠ .leader := by
  obtain ⟨i, j, pl⟩ := m
  cases pl with
  | raft x =>
    cases x with
    | requestVote t' x li lt =>
      cases hm
      cases h
      have hobserve : (observe s t).leaderIdAtomic = s.leaderIdAtomic ∧
          (observe s t).role ≠ .leader := by
        unfold observe
        rw [if_pos ht]
        exact ⟨rfl, by simp⟩
      have heff : Effect self s (.recv ⟨i, j, .raft (.requestVote t x li lt)⟩)
          (self.handleRequestVote s i t x li lt).1 (self.handleRequestVote s i t x li lt).2 :=
        handleRequestVote_effect self s rfl
      -- granted or denied, the copy is the one that the node had
      rcases heff.requestVote_inv rfl with ⟨_, hs, _⟩ | ⟨_, hs, _⟩
      · rw [hs]
        exact hobserve
      · rw [hs]
        exact hobserve
    | requestVoteResponse t' g =>
      cases hm
      have hform : some (self.handleRequestVoteResponse s t g) = some r := h
      rw [handleRequestVoteResponse, if_pos ht] at hform
      cases hform
      exact ⟨rfl, by simp⟩
    | appendEntries => exact absurd hm (by simp [deposingTerm])
    | appendEntriesResponse t' b mi =>
      cases hm
      have hform : self.handleAppendEntriesResponse s i t b mi = some r := h
      rw [handleAppendEntriesResponse, if_pos ht] at hform
      cases hform
      exact ⟨rfl, by simp⟩
  | _ => exact absurd hm (by simp [deposingTerm])

/-! ### Agreement -/

variable [Sha256] {n : ℕ} {cfg : FaultConfig} {rngs : NodeId → StdRng} {forced : Finset NodeId}
variable {ok : System.Guard NodeId RaftState Call NetworkMessage}
variable {w : World NodeId RaftState Call NetworkMessage}

/-- The cluster of `new_seeded` nodes on some of which `force_leader` was called. -/
def systemForced (n : ℕ) (cfg : FaultConfig) (rngs : NodeId → StdRng) (forced : Finset NodeId) :
    System NodeId RaftState Call NetworkMessage :=
  { system n cfg rngs with
    init := fun i =>
      let state := (RaftNode.newSeeded i n (rngs i)).2
      if i ∈ forced then (node n i).forceLeader state else state }

theorem fires_forced {o : NodeStep RaftState} (h : (systemForced n cfg rngs forced).Fires w o) :
    (system n cfg rngs).Fires w o := by
  cases h with
  | call i a hi => exact .call i a hi
  | recv m m' s out hm hsent hcarry hmem hrecv => exact .recv m m' s out hm hsent hcarry hmem hrecv

/-- A received `AppendEntries` names another node as the leader. -/
theorem leader_ne (hw : (systemForced n cfg rngs forced).Reach ok w) {o : NodeStep RaftState}
    (hf : (systemForced n cfg rngs forced).Fires w o) {m : NetworkMessage}
    (hc : o.cause = .recv m) {t : ℕ} {l : NodeId} {pi pt : ℕ} {es : List LogEntry} {lc : ℕ}
    (hm : m.payload = .raft (.appendEntries t l pi pt es lc)) : l ≠ o.node := by
  have hS : ∀ w o, (systemForced n cfg rngs forced).Fires w o → (system n cfg rngs).Fires w o :=
    fun _ _ h => fires_forced h
  obtain ⟨hdst, o₀, ho₀, _, x, hmo, hskel, hsays⟩ :=
    tampered_source (hS w o hf) (said_of_reach hS hw) hc
  have hpeer := sent_to_peer_of hS hw o₀ ho₀ _ hmo
  rw [hdst, mem_peerIds] at hpeer
  obtain ⟨es₀, hx, _⟩ := appendEntries_of_skeleton hskel hm
  cases hx
  cases hsays with
  | appendEntries _ _ hbuild =>
    have hpl := congrArg NetworkMessage.payload hbuild
    simp only [buildAppendEntries, msgTo, ProtocolMessage.raft.injEq,
      RaftMessage.appendEntries.injEq] at hpl
    rw [← hpl.2.1]
    exact hpeer.2.symm

omit [Sha256] in
theorem id_ne_noLeader (hn : n < 2 ^ 64) {i : ℕ} (hi : i < n) :
    (node n i).id ≠ NO_LEADER := by
  apply Ne.symm
  show 2 ^ 64 - 1 ≠ i
  omega

/-- The copy names the node itself exactly if it leads, as long as the leaders keep office. -/
theorem atomic_iff (hn : n < 2 ^ 64) (hok : ∀ w i c, ok w i c → KeepsOffice (w.nodes i) c)
    (hw : (systemForced n cfg rngs forced).Reach ok w) :
    ∀ i < n, (w.nodes i).leaderIdAtomic = i ↔ (w.nodes i).role = .leader := by
  refine hw.everywhere (I := fun i s => i < n → (s.leaderIdAtomic = i ↔ s.role = .leader)) ?_ ?_
  · intro i hi
    by_cases hforced : i ∈ forced
    · simp [systemForced, hforced, forceLeader, initIndices]
    · have hne : NO_LEADER ≠ i := (id_ne_noLeader hn hi).symm
      simp [systemForced, hforced, newSeeded, hne]
  · intro w o hr ih hg hf hi
    have hold := ih hi
    -- the copy stays with the role, is written with it, or names the leader that is followed
    rcases (effect_of_fires (fires_forced hf)).view_cases with
      ⟨hid, hrole⟩ | ⟨hid, hrole⟩ | ⟨m, t, l, pi, pt, es, lc, hc, hm, hid, hrole⟩ |
      ⟨m, t, ht, hc, hlt, hid, hrole⟩
    · rw [hid, hrole]
      exact hold
    · exact iff_of_true hid hrole
    · rw [hid]
      exact iff_of_false (leader_ne hr hf hc hm) hrole
    · -- only a node that is not the leader is deposed
      rw [hid, hold]
      refine iff_of_false (fun hl => ?_) hrole
      have hkeeps := hok w o.node o.cause hg
      rw [hc, ← hf.before_eq] at hkeeps
      exact absurd (hkeeps t ht hl) (not_le.mpr hlt)

/-- **The view of the leader agrees with the state**: `is_leader` tells the role, and whoever
    `wait_for_leader` returns accepts a proposal. -/
structure LeaderViewAgrees (n : ℕ) (w : World NodeId RaftState Call NetworkMessage) : Prop where
  view : ∀ i < n, (node n i).isLeader (w.nodes i) = true ↔ (w.nodes i).role = .leader
  awaited : ∀ (c c' : Cluster RaftState) (maxTicks : ℕ) (i : NodeId), c'.size = n →
    c'.nodes = w.nodes → c.waitForLeader (code n) (fun j => (node n j).isLeader) maxTicks =
      some (some i, c') → ∀ p, ((node n i).propose (c'.nodes i) p).1 = .accepted

/-- **The lock-free view agrees**, in the runs in which no leader is deposed by a `RequestVote`
    or a response of a later term. -/
theorem leader_view_agrees (hn : n < 2 ^ 64)
    (hw : (systemForced n cfg rngs forced).Reach (System.locally KeepsOffice) w) :
    LeaderViewAgrees n w := by
  have hview : ∀ i < n, (node n i).isLeader (w.nodes i) = true ↔ (w.nodes i).role = .leader := by
    intro i hi
    rw [isLeader_iff (id_ne_noLeader hn hi)]
    exact atomic_iff hn (fun _ _ _ h => h) hw i hi
  refine ⟨hview, ?_⟩
  intro c c' maxTicks i hsize hnodes hwait p
  obtain ⟨hi, hleads, _⟩ := Cluster.waitForLeader_inv hwait
  rw [hsize] at hi
  rw [hnodes] at hleads ⊢
  rw [propose, if_neg (not_not.mpr ((hview i hi).mp hleads))]

/-- **Otherwise it does not agree**: a leader that is deposed by such a message still takes
    itself for the leader. -/
theorem deposed_view (hn : n < 2 ^ 64) {o : NodeStep RaftState}
    (hf : (systemForced n cfg rngs forced).Fires w o)
    (hview : (node n o.node).isLeader o.before = true ↔ o.before.role = .leader)
    (hno : ¬ KeepsOffice o.before o.cause) :
    (node n o.node).isLeader o.after = true ∧ o.after.role ≠ .leader := by
  have hi : o.node < n := Finset.mem_range.mp hf.node_mem
  rw [isLeader_iff (id_ne_noLeader hn hi)] at hview ⊢
  cases hf with
  | call i a hi => exact absurd trivial hno
  | recv m m' s out hm hsent hcarry hmem hrecv =>
    have hdeposed : ∃ t ∈ deposingTerm m'.payload, (w.nodes m'.target).role = .leader ∧
        (w.nodes m'.target).currentTerm < t := by
      by_contra hall
      exact hno fun t ht hl => not_lt.mp fun hlt => hall ⟨t, ht, hl, hlt⟩
    obtain ⟨t, ht, hl, hlt⟩ := hdeposed
    obtain ⟨hkept, hrole⟩ := handleMessage_deposing hrecv ht hlt
    exact ⟨hkept.trans (hview.mpr hl), hrole⟩

/-- The methods of the nodes are the steps of the system. -/
theorem parties : Cluster.Parties (code n) (systemForced n cfg rngs forced) n cfg where
  members := rfl
  propose _ _ _ := rfl
  tick _ _ := rfl
  recv _ _ _ := rfl
  dst _ := rfl
  carry _ := rfl
  quiet i s p r hr := by
    by_cases hl : s.role = .leader
    · exact absurd hr (by simp [code, RaftNode.propose, hl])
    · simp [code, RaftNode.propose, hl]

/-- **Waiting for a leader ends in a reachable world**, so that the view agrees there if its
    steps kept every leader in office. -/
theorem waitForLeader_reach (hw : (systemForced n cfg rngs forced).Reach System.anyStep w)
    {c c' : Cluster RaftState} {maxTicks : ℕ} {found : Option NodeId}
    (hshow : Cluster.Shows n cfg c c.pending w)
    (hwait : c.waitForLeader (code n) (fun j => (node n j).isLeader) maxTicks =
      some (found, c')) :
    ∃ w', (systemForced n cfg rngs forced).Reach System.anyStep w' ∧
      Cluster.Shows n cfg c' c'.pending w' := by
  obtain ⟨w', hsteps, hshow'⟩ := Cluster.waitForLeader_scheduled parties maxTicks hshow hwait
  exact ⟨w', hw.trans hsteps, hshow'⟩

/-- A cluster that waits finds its bootstrapped leader after one tick. -/
example : (@Cluster.waitForLeader _ (code 3) Sha256.sample (fun j => (node 3 j).isLeader)
    (newClusterWithLeader 3 (fun _ => ⟨fun _ => 0⟩) fun _ => 0) 1).map Prod.fst =
      some (some 0) := by
  decide +kernel

omit [Sha256] in
/-- Node `0` was made the leader; node `1` stands in term `2`, wins it with the vote of node `2`,
    and its `AppendEntries` reaches node `0`. -/
theorem leader_view_agrees_three : ∃ w,
    (@systemForced Sha256.sample 3 {} (fun _ => ⟨fun _ => 0⟩) {0}).Reach
      (System.locally KeepsOffice) w ∧
    (w.nodes 1).role = .leader ∧ (w.nodes 0).leaderIdAtomic = 1 ∧
    @LeaderViewAgrees Sha256.sample 3 w := by
  obtain ⟨w, hw, hlocal, hlead, hheard⟩ := System.Reach.exists_of_run
    (S := @systemForced Sha256.sample 3 {} (fun _ => ⟨fun _ => 0⟩) {0})
    (P := fun w => (∀ o ∈ w.history, KeepsOffice o.before o.cause) ∧
      (w.nodes 1).role = .leader ∧ (w.nodes 0).leaderIdAtomic = 1)
    ([.call 0 .tick, .deliver 0] ++ List.replicate 16 (.call 1 .tick) ++ [3, 3, 3].map .deliver)
    (by decide +kernel)
  have hrun := hw.locally hlocal
  exact ⟨w, hrun, hlead, hheard,
    @leader_view_agrees Sha256.sample 3 {} _ {0} w (by decide) hrun⟩

omit [Sha256] in
/-- Node `1` asks the leader for its vote in term `2`; the leader steps down, but `is_leader`
    stays true. -/
theorem deposed_leader_in_view : ∃ w,
    (@systemForced Sha256.sample 3 {} (fun _ => ⟨fun _ => 0⟩) {0}).Reach System.anyStep w ∧
    ¬ @LeaderViewAgrees Sha256.sample 3 w := by
  obtain ⟨w, hw, hview, hrole⟩ := System.Reach.exists_of_run
    (S := @systemForced Sha256.sample 3 {} (fun _ => ⟨fun _ => 0⟩) {0})
    (P := fun w => (node 3 0).isLeader (w.nodes 0) = true ∧ (w.nodes 0).role ≠ .leader)
    ([.call 0 .tick, .deliver 0] ++ List.replicate 16 (.call 1 .tick) ++ [.deliver 2])
    (by decide +kernel)
  refine ⟨w, hw, fun h => ?_⟩
  exact hrole ((@LeaderViewAgrees.view Sha256.sample 3 w h 0 (by decide)).mp hview)

end Raft

end ConsensusBench
