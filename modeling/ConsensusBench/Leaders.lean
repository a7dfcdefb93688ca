import ConsensusBench.Conservation

namespace ConsensusBench

/-!
# Who takes a proposal

`propose` of the orchestrator asks the nodes in order.  It skips those that are isolated, but
follows the first hint to a member of the cluster wherever it points, and takes the answer it
gets there for the last.

* `Answers` — whether a node accepts a proposal, and whom it names if not, read off its state.
* `Cluster.propose_eq` — the one node whose answer `propose` returns: `Cluster.asked`.
* `Cluster.propose_reaches_iff` — when that is a leader that is not isolated.
* `propose_reaches_leaders` — the three protocols.
-/

variable {σ : Type}

/-- A node accepts proposals if it leads, and is changed by them.  If it does not, it names
    whomever it takes for the leader, and is not. -/
structure Answers (code : NodeId → ConsensusNode σ) (leads : NodeId → σ → Bool)
    (hint : NodeId → σ → Option NodeId) : Prop where
  accept : ∀ i s p, leads i s = true →
    ((code i).propose s p).1 = .accepted ∧ ((code i).propose s p).2.1 ≠ s
  reject : ∀ i s p, leads i s = false → (code i).propose s p = (.notLeader (hint i s), s, [])

namespace Answers

variable {code : NodeId → ConsensusNode σ} {leads : NodeId → σ → Bool}
variable {hint : NodeId → σ → Option NodeId} (h : Answers code leads hint)

include h

theorem accepted_iff (i : NodeId) (s : σ) (p : Payload) :
    ((code i).propose s p).1 = .accepted ↔ leads i s = true := by
  constructor
  · intro hacc
    by_contra hno
    rw [h.reject i s p (Bool.eq_false_iff.mpr hno)] at hacc
    exact absurd hacc (by simp)
  · exact fun hl => (h.accept i s p hl).1

end Answers

namespace Cluster

variable (code : NodeId → ConsensusNode σ) (c : Cluster σ) (payload : Payload)

/-- Node `i` is in the cluster and not isolated. -/
def Live (i : NodeId) : Prop := i < c.size ∧ c.faults.isIsolated i = false

/-- **`propose` reaches exactly the live leaders**: it leaves isolated nodes alone, is accepted if
    and only if a live node would accept, and changes at most one node. -/
structure ReachesLeaders : Prop where
  isolated : ∀ i, c.faults.isIsolated i = true →
    (c.propose code payload).2.nodes i = c.nodes i
  accepted : (c.propose code payload).1 = .accepted ↔
    ∃ i, c.Live i ∧ ((code i).propose (c.nodes i) payload).1 = .accepted
  single : ∃ j, ∀ i, i ≠ j → (c.propose code payload).2.nodes i = c.nodes i

/-! ### The node that is asked last -/

/-- Ask node `i`, and queue what it sends. -/
def ask (i : NodeId) : ProposeResult × Cluster σ :=
  let (result, state, outgoing) := (code i).propose (c.nodes i) payload
  (result, (c.setNode i state).enqueue outgoing)

variable (leads : NodeId → σ → Bool) (hint : NodeId → σ → Option NodeId)

/-- Where node `i` sends a proposal: to itself if it leads, or else to the member it names. -/
def refers (i : NodeId) : Option NodeId :=
  if leads i (c.nodes i) then some i
  else (hint i (c.nodes i)).filter fun leader => leader < c.size

/-- Where the first live node that refers to anyone sends a proposal. -/
def asked : Option NodeId :=
  ((List.range c.size).filter fun i => !c.faults.isIsolated i).findSome? (c.refers leads hint)

/-- The node that is asked last leads and is not isolated, or no live node leads. -/
def WellDirected : Prop :=
  ∀ i, c.asked leads hint = some i →
    (leads i (c.nodes i) = true → c.faults.isIsolated i = false) ∧
    (leads i (c.nodes i) = false → ∀ j, c.Live j → leads j (c.nodes j) = false)

variable {code c payload leads hint}

/-- A node that is asked and not changed leaves the cluster as it was. -/
theorem setNode_self (i : NodeId) : c.setNode i (c.nodes i) = c := by
  rw [setNode, Function.update_eq_self]

theorem refers_of_leads {i : NodeId} (h : leads i (c.nodes i) = true) :
    c.refers leads hint i = some i := by
  rw [refers, h, if_pos rfl]

theorem refers_of_not_leads {i : NodeId} (h : leads i (c.nodes i) = false) :
    c.refers leads hint i = (hint i (c.nodes i)).filter fun leader => leader < c.size := by
  rw [refers, h]
  rfl

/-- **The loop** asks the first node of the list that refers to anyone, and whom it refers to. -/
theorem tryPropose_eq (h : Answers code leads hint) (ids : List NodeId) :
    tryPropose code payload c ids =
      match (ids.filter fun i => !c.faults.isIsolated i).findSome? (c.refers leads hint) with
      | some i => c.ask code payload i
      | none => (.notLeader none, c) := by
  induction ids with
  | nil => rfl
  | cons i ids ih =>
    rw [tryPropose]
    by_cases hiso : c.faults.isIsolated i = true
    · rw [if_pos hiso, List.filter_cons_of_neg (by simp [hiso])]
      exact ih
    · rw [if_neg hiso, List.filter_cons_of_pos (by simp [hiso]), List.findSome?_cons]
      cases hl : leads i (c.nodes i) with
      | true =>
        have hacc := (h.accept i (c.nodes i) payload hl).1
        rw [refers_of_leads hl]
        dsimp only [ask]
        rw [hacc]
      | false =>
        rw [refers_of_not_leads hl, h.reject i (c.nodes i) payload hl]
        simp only [setNode_self]
        cases hhint : hint i (c.nodes i) with
        | none => exact ih
        | some leader =>
          by_cases hlt : leader < c.size
          · simp only [hlt, if_true, Option.filter_some, decide_true]
            rfl
          · simp only [hlt, if_false, Option.filter_some, decide_false, Bool.false_eq_true]
            exact ih

variable (payload) in
/-- **Whose answer `propose` returns.** -/
theorem propose_eq (h : Answers code leads hint) : c.propose code payload =
    match c.asked leads hint with
    | some i => { c with commitLog := c.commitLog.recordProposal payload }.ask code payload i
    | none => (.notLeader none, { c with commitLog := c.commitLog.recordProposal payload }) :=
  tryPropose_eq h _

/-- Whoever is asked last is a member. -/
theorem asked_lt {i : NodeId} (h : c.asked leads hint = some i) : i < c.size := by
  obtain ⟨j, hj, hrefers⟩ := List.exists_of_findSome?_eq_some h
  rw [refers] at hrefers
  split at hrefers
  · cases hrefers
    exact List.mem_range.mp (List.mem_filter.mp hj).1
  · exact of_decide_eq_true (Option.filter_eq_some_iff.mp hrefers).2

/-- A live leader refers to itself, so someone is asked. -/
theorem asked_ne_none {j : NodeId} (hj : c.Live j) (hl : leads j (c.nodes j) = true) :
    c.asked leads hint ≠ none := by
  intro hnone
  have hmem : j ∈ (List.range c.size).filter fun i => !c.faults.isIsolated i :=
    List.mem_filter.mpr ⟨List.mem_range.mpr hj.1, by simp [hj.2]⟩
  have hrefers := List.findSome?_eq_none_iff.mp hnone j hmem
  rw [refers_of_leads hl] at hrefers
  exact absurd hrefers (by simp)

/-- All live nodes refer to `l`. -/
theorem asked_of_refers {l : NodeId} (hl : c.Live l) (hleads : leads l (c.nodes l) = true)
    (hrefers : ∀ i, c.Live i → c.refers leads hint i = some l) : c.asked leads hint = some l := by
  cases h : c.asked leads hint with
  | none => exact absurd h (asked_ne_none hl hleads)
  | some i =>
    obtain ⟨j, hj, hji⟩ := List.exists_of_findSome?_eq_some h
    obtain ⟨hj, hlive⟩ := List.mem_filter.mp hj
    rw [hrefers j ⟨List.mem_range.mp hj, by simpa using hlive⟩] at hji
    exact hji.symm

/-- The first live node refers to `l`. -/
theorem asked_of_first {j l : NodeId} (hj : c.Live j) (hfirst : ∀ i < j, ¬ c.Live i)
    (hrefers : c.refers leads hint j = some l) : c.asked leads hint = some l := by
  obtain ⟨d, hd⟩ := Nat.exists_eq_add_of_le (Nat.succ_le_of_lt hj.1)
  have hnone : (List.range j).filter (fun i => !c.faults.isIsolated i) = [] := by
    refine List.filter_eq_nil_iff.mpr fun i hi hlive => ?_
    have hij := List.mem_range.mp hi
    exact hfirst i hij ⟨hij.trans hj.1, by simpa using hlive⟩
  have hsome : (!c.faults.isIsolated j) = true := by rw [hj.2, Bool.not_false]
  rw [asked, hd, List.range_add, List.range_succ, List.filter_append, List.filter_append, hnone,
    List.nil_append, List.filter_cons_of_pos (p := fun i => !c.faults.isIsolated i) hsome,
    List.filter_nil, List.singleton_append, List.findSome?_cons_of_isSome (by rw [hrefers]; rfl),
    hrefers]

/-- **A proposal reaches** the node that is asked last, if it leads. -/
theorem propose_of_asked (hanswers : Answers code leads hint) {l : NodeId}
    (hleads : leads l (c.nodes l) = true) (hasked : c.asked leads hint = some l) (p : Payload) :
    (c.propose code p).1 = .accepted ∧ ∀ i, i ≠ l → (c.propose code p).2.nodes i = c.nodes i := by
  rw [propose_eq p hanswers, hasked]
  refine ⟨(hanswers.accept l (c.nodes l) p hleads).1, fun i hi => ?_⟩
  exact Function.update_of_ne hi _ _

/-- **When proposals reach exactly the live leaders.** -/
theorem propose_reaches_iff (h : Answers code leads hint) :
    c.ReachesLeaders code payload ↔ c.WellDirected leads hint := by
  constructor
  · intro hreach i hi
    have heq := propose_eq payload h (c := c)
    rw [hi] at heq
    constructor
    · intro hl
      by_contra hiso
      -- the isolated node has changed
      have hsame := hreach.isolated i (eq_true_of_ne_false hiso)
      rw [heq] at hsame
      apply (h.accept i (c.nodes i) payload hl).2
      have hset : ((c.ask code payload i).2.nodes i) = ((code i).propose (c.nodes i) payload).2.1 :=
        Function.update_self i _ _
      exact hset.symm.trans hsame
    · intro hno j hj
      by_contra hlead
      have hacc := hreach.accepted.mpr
        ⟨j, hj, (h.accept j (c.nodes j) payload (eq_true_of_ne_false hlead)).1⟩
      rw [heq] at hacc
      have hself := (h.accepted_iff i (c.nodes i) payload).mp hacc
      exact absurd (hno.symm.trans hself) (by simp)
  · intro hdir
    cases hasked : c.asked leads hint with
    | none =>
      have heq := propose_eq payload h (c := c)
      rw [hasked] at heq
      refine ⟨fun i _ => by rw [heq], ?_, 0, fun i _ => by rw [heq]⟩
      rw [heq]
      constructor
      · intro hacc
        exact absurd hacc (by simp)
      · rintro ⟨j, hj, hacc⟩
        exact absurd hasked (asked_ne_none hj ((h.accepted_iff j _ payload).mp hacc))
    | some i =>
      have heq := propose_eq payload h (c := c)
      rw [hasked] at heq
      have hothers : ∀ j, j ≠ i → (c.propose code payload).2.nodes j = c.nodes j := by
        intro j hj
        rw [heq]
        exact Function.update_of_ne hj _ _
      obtain ⟨hlive, hnone⟩ := hdir i hasked
      refine ⟨fun j hj => ?_, ?_, i, hothers⟩
      · by_cases hji : j = i
        · -- an isolated node that is asked does not lead
          subst hji
          have hno : leads j (c.nodes j) = false := by
            by_contra hl
            exact absurd ((hlive (eq_true_of_ne_false hl)).symm.trans hj) (by simp)
          have hset : (c.propose code payload).2.nodes j =
              ((code j).propose (c.nodes j) payload).2.1 := by
            rw [heq]
            exact Function.update_self j _ _
          rw [hset, h.reject j (c.nodes j) payload hno]
        · exact hothers j hji
      · have hresult : (c.propose code payload).1 = .accepted ↔ leads i (c.nodes i) = true := by
          rw [heq]
          exact h.accepted_iff i (c.nodes i) payload
        rw [hresult]
        constructor
        · intro hl
          exact ⟨i, ⟨asked_lt hasked, hlive hl⟩, (h.accept i _ payload hl).1⟩
        · rintro ⟨j, hj, hacc⟩
          by_contra hno
          have hlead := (h.accepted_iff j _ payload).mp hacc
          have hnot := hnone (Bool.eq_false_iff.mpr hno) j hj
          exact absurd (hnot.symm.trans hlead) (by simp)

end Cluster

/-! ### The protocols -/

section Protocols

variable (n : ℕ)

/-- The primary of its own view, unless that view is about to change. -/
def Pbft.leads (i : NodeId) (s : PbftState) : Bool := canPropose (node n i) s

def Pbft.hint (i : NodeId) (s : PbftState) : Option NodeId :=
  if (node n i).primaryForView s.view ≠ i then some ((node n i).primaryForView s.view) else none

/-- The leader of its own view. -/
def HotStuff.leads (i : NodeId) (s : HotStuffState) : Bool := canPropose (node n i) s

def HotStuff.hint (i : NodeId) (s : HotStuffState) : Option NodeId :=
  some ((node n i).leaderForView s.view)

def Raft.leads (_ : NodeId) (s : RaftState) : Bool := s.role = .leader

def Raft.hint (_ : NodeId) (s : RaftState) : Option NodeId := s.leaderId

theorem Pbft.answers [Sha256] : Answers (Pbft.code n) (Pbft.leads n) (Pbft.hint n) where
  accept i s p hl := by
    have hacc : (Pbft.code n i).propose s p = _ :=
      propose_of_canPropose (of_decide_eq_true hl) p
    rw [hacc]
    refine ⟨rfl, fun hsame => ?_⟩
    have hnext := congrArg PbftState.nextSequence hsame
    exact absurd hnext (Nat.succ_ne_self _)
  reject i s p hl := by
    have hno : ¬ canPropose (Pbft.node n i) s := of_decide_eq_false hl
    show PbftNode.propose (Pbft.node n i) s p = _
    unfold PbftNode.propose Pbft.hint
    by_cases hprimary : (Pbft.node n i).primaryForView s.view = i
    · have hview : s.viewChangeInProgress = true :=
        eq_true_of_ne_false fun hv => hno ⟨hprimary, hv⟩
      have hself : ¬ (Pbft.node n i).primaryForView s.view ≠ (Pbft.node n i).id :=
        not_not.mpr hprimary
      rw [if_neg hself, if_pos hview, if_neg (not_not.mpr hprimary)]
    · rw [if_pos hprimary]
      exact if_pos hprimary

theorem HotStuff.answers [Sha256] :
    Answers (HotStuff.code n) (HotStuff.leads n) (HotStuff.hint n) where
  accept i s p hl := by
    have hleader : (HotStuff.node n i).leaderForView s.view = i := of_decide_eq_true hl
    have hacc : (HotStuff.code n i).propose s p = _ := if_neg (not_not.mpr hleader)
    rw [hacc]
    refine ⟨rfl, fun hsame => ?_⟩
    have hnext := congrArg HotStuffState.nextSequence hsame
    exact absurd hnext (Nat.succ_ne_self _)
  reject i s p hl := by
    have hleader : (HotStuff.node n i).leaderForView s.view ≠ i := of_decide_eq_false hl
    exact if_pos hleader

theorem Raft.answers : Answers (Raft.code n) Raft.leads Raft.hint where
  accept i s p hl := by
    have hrole : s.role = .leader := of_decide_eq_true hl
    have hacc : (Raft.code n i).propose s p = _ := if_neg (not_not.mpr hrole)
    rw [hacc]
    refine ⟨rfl, fun hsame => ?_⟩
    have hlog := congrArg (fun s => s.log.length) hsame
    simp at hlog
  reject i s p hl := if_pos (of_decide_eq_false hl)

/-- **Proposals reach exactly the live leaders** if and only if they are well directed, in any
    cluster of any protocol under any faults. -/
theorem propose_reaches_leaders [Sha256] :
    (∀ (c : Cluster PbftState) (p : Payload), c.ReachesLeaders (Pbft.code c.size) p ↔
      c.WellDirected (Pbft.leads c.size) (Pbft.hint c.size)) ∧
    (∀ (c : Cluster HotStuffState) (p : Payload), c.ReachesLeaders (HotStuff.code c.size) p ↔
      c.WellDirected (HotStuff.leads c.size) (HotStuff.hint c.size)) ∧
    ∀ (c : Cluster RaftState) (p : Payload), c.ReachesLeaders (Raft.code c.size) p ↔
      c.WellDirected Raft.leads Raft.hint :=
  ⟨fun c _ => Cluster.propose_reaches_iff (Pbft.answers c.size),
    fun c _ => Cluster.propose_reaches_iff (HotStuff.answers c.size),
    fun c _ => Cluster.propose_reaches_iff (Raft.answers c.size)⟩

end Protocols

/-! ### Misdirected proposals -/

/-- Four nodes, the first of which is isolated at once. -/
def beheadCalls : List OrchestratorCall := [.setFaults { isolatedNodes := {0}, rng := fun _ => 0 }]

/-- Generators by which node `1` stands first, and then node `2`. -/
def staggered (i : NodeId) : Raft.StdRng := ⟨fun _ => if i = 1 then 0 else if i = 2 then 2 else 9⟩

/-- Node `1` leads the first term, and node `2` the next, which node `0` does not hear of. -/
def overthrowCalls : List OrchestratorCall :=
  List.replicate 16 .tick ++
    [.runToCompletion 10, .setFaults { partitions := {(1, 2)}, rng := fun _ => 0 }] ++
    List.replicate 17 .tick ++
    [.runToCompletion 10, .tick, .setFaults { isolatedNodes := {0}, rng := fun _ => 0 },
      .runToCompletion 10, .clearFaults fun _ => 0]

/-- A proposal changes an isolated primary, and another misses a leader that is not isolated. -/
theorem proposals_misdirected :
    (∃ c, @Cluster.perform _ (@Pbft.code Sha256.sample 4) Sha256.sample
        (Pbft.newCluster 4 fun _ => 0) beheadCalls = some c ∧
      c.faults.isIsolated 0 = true ∧
      ¬ c.ReachesLeaders (@Pbft.code Sha256.sample 4) ⟨[0x70]⟩) ∧
    ∃ c, @Cluster.perform _ (Raft.code 3) Sha256.sample
        (Raft.newCluster 3 staggered fun _ => 0) overthrowCalls = some c ∧
      (c.propose (Raft.code 3) ⟨[0x70]⟩).1 = .notLeader (some 2) ∧ (c.nodes 2).role = .leader ∧
      ¬ c.ReachesLeaders (Raft.code 3) ⟨[0x70]⟩ := by
  constructor
  · refine ⟨_, rfl, rfl, fun hreach => ?_⟩
    have hsame := congrArg PbftState.nextSequence (hreach.isolated 0 rfl)
    exact absurd hsame (by decide +kernel)
  · have hfinal : (@Cluster.perform _ (Raft.code 3) Sha256.sample
        (Raft.newCluster 3 staggered fun _ => 0) overthrowCalls).map (fun c =>
          ((c.propose (Raft.code 3) ⟨[0x70]⟩).1, (c.nodes 2).role, c.size,
            c.faults.isIsolated 2)) = some (.notLeader (some 2), .leader, 3, false) := by
      decide +kernel
    obtain ⟨c, hc, hfacts⟩ := Option.map_eq_some_iff.mp hfinal
    simp only [Prod.mk.injEq] at hfacts
    obtain ⟨hresult, hrole, hsize, hiso⟩ := hfacts
    refine ⟨c, hc, hresult, hrole, fun hreach => ?_⟩
    have hlive : c.Live 2 := ⟨by rw [hsize]; decide, hiso⟩
    have hacc := hreach.accepted.mpr
      ⟨2, hlive, ((Raft.answers 3).accepted_iff 2 _ _).mpr (decide_eq_true hrole)⟩
    rw [hresult] at hacc
    exact absurd hacc (by simp)

end ConsensusBench
