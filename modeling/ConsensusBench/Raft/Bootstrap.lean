import ConsensusBench.Raft.Stream
import ConsensusBench.Raft.Voting

namespace ConsensusBench

/-!
# Raft with a bootstrapped leader

`force_leader` makes node `0` the leader of term `1` without an election: no node, not even node
`0`, records a vote of that term.  So node `0` owns its term only as long as nobody votes in it
(`first_term_owned`), and a node whose timeout expires before it hears of node `0` may win the
same term (`first_term_shared`).
-/

open AsyncNet RaftNode

namespace Raft

/-- No vote is granted in term `1`. -/
def GrantsNoFirstTerm (s : RaftState) : Cause Call NetworkMessage → Prop
  | .recv ⟨_, _, .raft (.requestVote t c li lt)⟩ => t = 1 → ¬ canGrant s t c li lt
  | _ => True

instance (s : RaftState) : DecidablePred (GrantsNoFirstTerm s)
  | .recv ⟨_, _, .raft (.requestVote ..)⟩ => inferInstanceAs (Decidable (_ → ¬ _))
  | .recv ⟨_, _, .raft (.requestVoteResponse ..)⟩ => .isTrue trivial
  | .recv ⟨_, _, .raft (.appendEntries ..)⟩ => .isTrue trivial
  | .recv ⟨_, _, .raft (.appendEntriesResponse ..)⟩ => .isTrue trivial
  | .recv ⟨_, _, .pbft _⟩ => .isTrue trivial
  | .recv ⟨_, _, .hotStuff _⟩ => .isTrue trivial
  | .call _ => .isTrue trivial

theorem GrantsNoFirstTerm.ne_one {s : RaftState} {c : Cause Call NetworkMessage}
    (h : GrantsNoFirstTerm s c) {m : NetworkMessage} {t : ℕ} {x : NodeId} {li lt : ℕ}
    (hc : c = .recv m) (hm : m.payload = .raft (.requestVote t x li lt))
    (hg : canGrant s t x li lt) : t ≠ 1 := by
  obtain ⟨i, j, pl⟩ := m
  cases hm
  subst hc
  exact fun ht => h ht hg

theorem requestVoteResponse_of_skeleton {x : RaftMessage} {t : ℕ} {g : Bool}
    (h : FaultConfig.skeleton (.raft (.requestVoteResponse t g)) =
      FaultConfig.skeleton (.raft x)) : x = .requestVoteResponse t g := by
  cases x with
  | requestVoteResponse t' g' =>
    cases h
    rfl
  | _ => exact absurd h (by simp [FaultConfig.skeleton])

variable [Sha256] {n : ℕ} {cfg : FaultConfig} {rngs : NodeId → StdRng}
variable {ok : System.Guard NodeId RaftState Call NetworkMessage}
variable {w : World NodeId RaftState Call NetworkMessage}

/-- Every granted vote is one of a term after the first, if none is granted in it. -/
theorem granted_later (hok : ∀ w i c, ok w i c → GrantsNoFirstTerm (w.nodes i) c)
    (hw : (systemWithLeader n cfg rngs).Reach ok w) : ∀ o ∈ w.history, ∀ m ∈ o.sent, ∀ t,
      m.payload = .raft (.requestVoteResponse t true) → 1 < t := by
  intro o ho m hm t hp
  obtain ⟨w₀, hr₀, hg₀, hf₀, _⟩ := hw.fired o ho
  have hfires := fires_withLeader hf₀
  have hsaid := said_of_reach (fun _ _ h => fires_withLeader h) hr₀
  obtain ⟨m', li, lt, hc, hm', hcan⟩ :=
    grants_eq_some.mp (grants_of_sent hfires hsaid hm hp)
  have hpos := (candidate_eq_sender hfires hsaid hc hm').2
  rw [hf₀.before_eq] at hcan
  have hne := (hok w₀ o.node o.cause hg₀).ne_one hc hm' hcan
  omega

/-- **The bootstrapped leader owns term `1`**, in the runs in which no node grants its vote in
    term `1`. -/
theorem first_term_owned
    (hw : (systemWithLeader n cfg rngs).Reach (System.locally GrantsNoFirstTerm) w) :
    ∀ i, (w.nodes i).role = .leader → (w.nodes i).currentTerm = 1 → i = 0 := by
  -- nobody leads term `0` either, so that the term of a leader need not be followed
  have hle : ∀ i, (w.nodes i).role = .leader → (w.nodes i).currentTerm ≤ 1 → i = 0 := by
    refine hw.everywhere (I := fun i s => s.role = .leader → s.currentTerm ≤ 1 → i = 0) ?_ ?_
    · intro i hl _
      by_contra hi
      exact absurd hl (by simp [systemWithLeader, newSeeded, hi])
    · intro w o hr ih _ hf hl hterm
      have hfires := fires_withLeader hf
      rcases (effect_of_fires hfires).role_leader hl with
        ⟨hold, hsame⟩ | ⟨m, t, hc, hm, ht, _, _, hs⟩
      · rw [hsame] at hterm
        exact ih hold hterm
      · -- a vote that is counted in term `1` was granted in it
        obtain ⟨_, o₀, ho₀, _, x, hmo, hskel, _⟩ :=
          tampered_source hfires (said_of_reach (fun _ _ h => fires_withLeader h) hr) hc
        rw [hm] at hskel
        rw [requestVoteResponse_of_skeleton hskel] at hmo
        have hlater := granted_later (fun _ _ _ h => h) hr o₀ ho₀ _ hmo t rfl
        have hnow : o.after.currentTerm = o.before.currentTerm := by
          rw [hs]
          rfl
        omega
  exact fun i hl hterm => hle i hl (le_of_eq hterm)

omit [Sha256] in
/-- Node `1` hears of node `0` in time; it stands in term `2` only, and wins it. -/
theorem first_term_owned_two : ∃ w,
    (@systemWithLeader Sha256.sample 2 {} fun _ => ⟨fun _ => 0⟩).Reach
      (System.locally GrantsNoFirstTerm) w ∧
    (w.nodes 1).role = .leader ∧ (w.nodes 1).currentTerm = 2 ∧
    ∀ i, (w.nodes i).role = .leader → (w.nodes i).currentTerm = 1 → i = 0 := by
  obtain ⟨w, hw, hlocal, hlead, hterm⟩ := System.Reach.exists_of_run
    (S := @systemWithLeader Sha256.sample 2 {} fun _ => ⟨fun _ => 0⟩)
    (P := fun w => (∀ o ∈ w.history, GrantsNoFirstTerm o.before o.cause) ∧
      (w.nodes 1).role = .leader ∧ (w.nodes 1).currentTerm = 2)
    ([.call 0 .tick, .deliver 0] ++ List.replicate 16 (.call 1 .tick) ++ [1, 1].map .deliver)
    (by decide +kernel)
  have hrun := hw.locally hlocal
  exact ⟨w, hrun, hlead, hterm, @first_term_owned Sha256.sample 2 _ _ w hrun⟩

omit [Sha256] in
/-- Node `1` stands in term `1` before it hears of node `0`, which grants it its vote. -/
theorem first_term_shared : ∃ w,
    (@systemWithLeader Sha256.sample 2 {} fun _ => ⟨fun _ => 0⟩).Reach System.anyStep w ∧
    ¬ ∀ i, (w.nodes i).role = .leader → (w.nodes i).currentTerm = 1 → i = 0 := by
  obtain ⟨w, hw, hlead, hterm⟩ := System.Reach.exists_of_run
    (S := @systemWithLeader Sha256.sample 2 {} fun _ => ⟨fun _ => 0⟩)
    (P := fun w => (w.nodes 1).role = .leader ∧ (w.nodes 1).currentTerm = 1)
    (List.replicate 16 (.call 1 .tick) ++ [0, 0].map .deliver) (by decide +kernel)
  exact ⟨w, hw, fun h => absurd (h 1 hlead hterm) (by decide)⟩

end Raft

end ConsensusBench
