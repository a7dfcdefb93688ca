import ConsensusBench.Conservation
import ConsensusBench.Invariant
import ConsensusBench.Raft.LeaderView

namespace ConsensusBench

/-!
# Collecting and checking what a cluster commits

What tests and benchmarks do with a cluster besides driving it: they wait for a leader, drain the
queues of committed entries, record these in the commit log, and have the log checked.

* `Cluster.collectWith` — both ways of draining the queues, and what they leave behind.
* `Upheld` — an invariant of the nodes, of what is recorded for them and of the messages between
  them; it survives every call, whatever faults are set on the way (`Upholds.drive`).
* `drive_scheduled` — as long as the same nodes are Byzantine, a driven cluster takes a run of the
  message-passing system, and what is recorded or queued is what the nodes commit in it.
-/

open AsyncNet

/-- A node with the methods that look at it from outside. -/
structure PolledNode (σ : Type) extends ConsensusNode σ where
  isLeader : σ → Bool
  pollCommitted : σ → List CommittedEntry × σ

/-- The methods that the orchestrator calls. -/
abbrev consensus {σ : Type} (code : NodeId → PolledNode σ) (i : NodeId) : ConsensusNode σ :=
  (code i).toConsensusNode

/-- The calls of a test or a benchmark on a cluster. -/
inductive HarnessCall where
  | call (call : OrchestratorCall)
  | waitForLeader (maxTicks : ℕ)
  | collectCommitted
  | collectAndRecordCommits

/-- The call makes the nodes take the call `a`. -/
def HarnessCall.Makes (a : Call) : HarnessCall → Prop
  | .call (.propose payload) => a = .propose payload
  | .call .tick => a = .tick
  | .call _ => False
  | .waitForLeader _ => a = .tick
  | .collectCommitted => a = .pollCommitted
  | .collectAndRecordCommits => a = .pollCommitted

/-- The payload that a call proposes. -/
def HarnessCall.proposal : HarnessCall → Option Payload
  | .call (.propose payload) => some payload
  | _ => none

/-- Only a `propose` makes a node propose. -/
theorem HarnessCall.Makes.proposal {call : HarnessCall} {p : Payload}
    (h : call.Makes (.propose p)) : call.proposal = some p := by
  cases call with
  | call call =>
    cases call with
    | propose q =>
      cases h
      rfl
    | tick => cases h
    | _ => exact h.elim
  | _ => cases h

namespace Cluster

variable {σ : Type} (code : NodeId → PolledNode σ)

/-! ### Collecting -/

/-- One round of the loop of both ways to collect: drain the queue of node `i`, and note down what
    was in it unless it was empty. -/
def collectNode (note : Cluster σ → NodeId → List CommittedEntry → Cluster σ)
    (acc : List (NodeId × List CommittedEntry) × Cluster σ) (i : NodeId) :
    List (NodeId × List CommittedEntry) × Cluster σ :=
  let (results, c) := acc
  let (committed, state) := (code i).pollCommitted (c.nodes i)
  let c := c.setNode i state
  if committed.isEmpty then (results, c) else (results ++ [(i, committed)], note c i committed)

/-- The loop, over all nodes in order. -/
def collectWith (note : Cluster σ → NodeId → List CommittedEntry → Cluster σ) (c : Cluster σ) :
    List (NodeId × List CommittedEntry) × Cluster σ :=
  (List.range c.size).foldl (collectNode code note) ([], c)

/-- `Cluster::collect_committed`. -/
def collectCommitted (c : Cluster σ) : List (NodeId × List CommittedEntry) × Cluster σ :=
  collectWith code (fun c _ _ => c) c

/-- `Cluster::collect_and_record_commits`. -/
def collectAndRecordCommits (c : Cluster σ) : List (NodeId × List CommittedEntry) × Cluster σ :=
  collectWith code (fun c i committed =>
    { c with commitLog := c.commitLog.recordCommits i committed }) c

/-- The nodes whose commits are checked: those that are neither Byzantine nor isolated. -/
def honestNodes (c : Cluster σ) : HashSet NodeId :=
  ((List.range c.size).filter fun i =>
    !c.faults.isByzantine i && !c.faults.isIsolated i).foldl (fun s i => s.insert i ()) ∅

/-- The nodes that the checks look at: neither Byzantine nor isolated. -/
theorem mem_honestNodes {c : Cluster σ} {i : NodeId} : i ∈ c.honestNodes ↔
    i < c.size ∧ c.faults.isByzantine i = false ∧ c.faults.isIsolated i = false := by
  have hmem : i ∈ (List.range c.size).filter (fun i =>
      !c.faults.isByzantine i && !c.faults.isIsolated i) ↔
      i < c.size ∧ c.faults.isByzantine i = false ∧ c.faults.isIsolated i = false := by
    simp [List.mem_filter]
  rw [← hmem, honestNodes, ← AList.lookup_isSome, HashMap.lookup_foldl_insert]
  by_cases h : i ∈ (List.range c.size).filter (fun i =>
      !c.faults.isByzantine i && !c.faults.isIsolated i)
  · simp only [h, if_true, Option.isSome_some]
  · simp only [h, if_false, AList.lookup_empty, Option.isSome_none, Bool.false_eq_true]

/-- `Cluster::check_invariants`. -/
def checkInvariants (order : Iteration) (c : Cluster σ) (expectedCount : ℕ) : InvariantResult :=
  c.commitLog.check order c.honestNodes expectedCount

/-! ### Driving -/

variable [Sha256]

/-- One call; `none` where a node panics. -/
def harness (c : Cluster σ) : HarnessCall → Option (Cluster σ)
  | .call call => c.call (consensus code) call
  | .waitForLeader maxTicks =>
    (waitForLeader (consensus code) (fun i => (code i).isLeader) c maxTicks).map Prod.snd
  | .collectCommitted => some (collectCommitted code c).2
  | .collectAndRecordCommits => some (collectAndRecordCommits code c).2

/-- The cluster after a list of calls. -/
def drive (c : Cluster σ) (calls : List HarnessCall) : Option (Cluster σ) :=
  calls.foldlM (harness code) c

variable {code}

/-- A driven cluster takes its calls one after the other. -/
theorem drive_cons {c c' : Cluster σ} {call : HarnessCall} {calls : List HarnessCall}
    (h : c.drive code (call :: calls) = some c') :
    ∃ c₁, c.harness code call = some c₁ ∧ c₁.drive code calls = some c' := by
  rw [drive, List.foldlM_cons] at h
  exact Option.bind_eq_some_iff.mp h

/-! ### What collecting does -/

omit [Sha256]

/-- What is noted down for a node goes to the commit log only: `f` of what was in its queue. -/
structure Notes (note : Cluster σ → NodeId → List CommittedEntry → Cluster σ)
    (f : List CommittedEntry → List CommittedEntry) : Prop where
  nil : f [] = []
  alike : ∀ c i es, Alike c (note c i es)
  nodes : ∀ c i es, (note c i es).nodes = c.nodes
  pending : ∀ c i es, (note c i es).pending = c.pending
  stats : ∀ c i es, (note c i es).stats = c.stats
  proposed : ∀ c i es, (note c i es).commitLog.proposed = c.commitLog.proposed
  recorded : ∀ c i es j, (note c i es).commitLog.recorded j =
    c.commitLog.recorded j ++ if i = j then f es else []

/-- The cluster `c'` is `c` with the queues of the first `k` nodes drained, and noted down. -/
structure Drained (code : NodeId → PolledNode σ) (f : List CommittedEntry → List CommittedEntry)
    (c : Cluster σ) (k : ℕ) (c' : Cluster σ) : Prop where
  alike : Alike c c'
  pending : c'.pending = c.pending
  stats : c'.stats = c.stats
  proposed : c'.commitLog.proposed = c.commitLog.proposed
  nodes : ∀ i, c'.nodes i = if i < k then ((code i).pollCommitted (c.nodes i)).2 else c.nodes i
  recorded : ∀ i, c'.commitLog.recorded i = c.commitLog.recorded i ++
    if i < k then f ((code i).pollCommitted (c.nodes i)).1 else []

section Collecting

variable {note : Cluster σ → NodeId → List CommittedEntry → Cluster σ}
variable {f : List CommittedEntry → List CommittedEntry}

/-- One round drains one more queue. -/
theorem Drained.next (hnote : Notes note f) {c c' : Cluster σ} {k : ℕ} (h : Drained code f c k c')
    (r : List (NodeId × List CommittedEntry)) :
    Drained code f c (k + 1) (collectNode code note (r, c') k).2 := by
  have hiff : ∀ {i}, i ≠ k → (i < k + 1 ↔ i < k) := fun hi =>
    ⟨fun hlt => lt_of_le_of_ne (Nat.le_of_lt_succ hlt) hi, Nat.lt_succ_of_lt⟩
  have hk : c'.nodes k = c.nodes k := by rw [h.nodes, if_neg (lt_irrefl k)]
  have hnodes : ∀ i, Function.update c'.nodes k ((code k).pollCommitted (c.nodes k)).2 i =
      if i < k + 1 then ((code i).pollCommitted (c.nodes i)).2 else c.nodes i := by
    intro i
    by_cases hi : i = k
    · subst hi
      rw [Function.update_self, if_pos (Nat.lt_succ_self i)]
    · rw [Function.update_of_ne hi, h.nodes]
      simp only [hiff hi]
  have hrecorded : ∀ i, c'.commitLog.recorded i ++
        (if k = i then f ((code k).pollCommitted (c.nodes k)).1 else []) =
      c.commitLog.recorded i ++
        if i < k + 1 then f ((code i).pollCommitted (c.nodes i)).1 else [] := by
    intro i
    rw [h.recorded, List.append_assoc]
    congr 1
    by_cases hi : i = k
    · subst hi
      simp
    · simp [hiff hi, Ne.symm hi]
  unfold collectNode
  simp only [hk]
  split
  · -- nothing is noted down for an empty queue
    rename_i hempty
    have hnil := List.isEmpty_iff.mp hempty
    refine ⟨⟨h.alike.size, h.alike.faults⟩, h.pending, h.stats, h.proposed, hnodes, fun i => ?_⟩
    rw [← hrecorded, hnil, hnote.nil, ite_self, List.append_nil]
    rfl
  · have halike := hnote.alike (c'.setNode k ((code k).pollCommitted (c.nodes k)).2) k
      ((code k).pollCommitted (c.nodes k)).1
    refine ⟨⟨halike.size.trans h.alike.size, halike.faults.trans h.alike.faults⟩,
      (hnote.pending _ _ _).trans h.pending, (hnote.stats _ _ _).trans h.stats,
      (hnote.proposed _ _ _).trans h.proposed, fun i => ?_, fun i => ?_⟩
    · rw [hnote.nodes]
      exact hnodes i
    · rw [hnote.recorded]
      exact hrecorded i

/-- **Collecting** drains every queue once. -/
theorem collectWith_drained (hnote : Notes note f) (c : Cluster σ) :
    Drained code f c c.size (collectWith code note c).2 := by
  have hloop : ∀ k,
      Drained code f c k ((List.range k).foldl (collectNode code note) ([], c)).2 := by
    intro k
    induction k with
    | zero => exact ⟨⟨rfl, rfl⟩, rfl, rfl, rfl, fun i => by simp, fun i => by simp⟩
    | succ k ih =>
      rw [List.range_succ, List.foldl_append]
      exact ih.next hnote _
  exact hloop c.size

variable (code) in
/-- Collecting without recording takes the entries away. -/
theorem collectCommitted_drained (c : Cluster σ) :
    Drained code (fun _ => []) c c.size (collectCommitted code c).2 := by
  have hnotes : Notes (fun (c : Cluster σ) _ _ => c) fun _ => [] :=
    ⟨rfl, fun _ _ _ => ⟨rfl, rfl⟩, fun _ _ _ => rfl, fun _ _ _ => rfl, fun _ _ _ => rfl,
      fun _ _ _ => rfl, fun _ _ _ _ => by simp⟩
  exact collectWith_drained hnotes c

variable (code) in
/-- Collecting records all entries that it takes. -/
theorem collectAndRecordCommits_drained (c : Cluster σ) :
    Drained code (fun es => es) c c.size (collectAndRecordCommits code c).2 := by
  have hnotes : Notes (fun (c : Cluster σ) i committed =>
      { c with commitLog := c.commitLog.recordCommits i committed }) fun es => es :=
    ⟨rfl, fun _ _ _ => ⟨rfl, rfl⟩, fun _ _ _ => rfl, fun _ _ _ => rfl, fun _ _ _ => rfl,
      fun _ _ _ => rfl, fun c i es j => c.commitLog.recorded_recordCommits i j es⟩
  exact collectWith_drained hnotes c

end Collecting

/-! ### What the network leaves alone -/

/-- Two clusters that differ in their nodes, pending messages, statistics and the generator of the
    rolls only. -/
structure Same (c c' : Cluster σ) : Prop where
  size : c'.size = c.size
  commitLog : c'.commitLog = c.commitLog
  faults : ∃ rng, c'.faults = { c.faults with rng := rng }

namespace Same

variable {c c' c'' : Cluster σ}

/-- The relation is reflexive. -/
theorem refl (c : Cluster σ) : Same c c := ⟨rfl, rfl, c.faults.rng, rfl⟩

/-- The relation is transitive. -/
theorem trans (h : Same c c') (h' : Same c' c'') : Same c c'' := by
  obtain ⟨rng, hrng⟩ := h'.faults
  obtain ⟨rng₀, hrng₀⟩ := h.faults
  refine ⟨h'.size.trans h.size, h'.commitLog.trans h.commitLog, rng, ?_⟩
  rw [hrng, hrng₀]

/-- The Byzantine part of the faults is no roll of the dice. -/
theorem toFaultConfig (h : Same c c') : c'.faults.toFaultConfig = c.faults.toFaultConfig := by
  obtain ⟨rng, hrng⟩ := h.faults
  rw [hrng]

/-- The same nodes are isolated. -/
theorem isIsolated (h : Same c c') (i : NodeId) :
    c'.faults.isIsolated i = c.faults.isIsolated i := by
  obtain ⟨rng, hrng⟩ := h.faults
  rw [hrng]
  rfl

/-- A list of changes, each of which leaves these alone. -/
theorem foldl {α : Type} {f : Cluster σ → α → Cluster σ} (hf : ∀ c a, Same c (f c a))
    (l : List α) : ∀ c, Same c (l.foldl f c) := by
  induction l with
  | nil => exact refl
  | cons a l ih => exact fun c => (hf c a).trans (ih _)

end Same

section Frame

variable {inner : NodeId → ConsensusNode σ} {c c' : Cluster σ}

/-- Proposing changes nodes and messages only. -/
theorem tryPropose_same (p : Payload) (ids : List NodeId) :
    ∀ c : Cluster σ, Same c (tryPropose inner p c ids).2 := by
  induction ids with
  | nil => exact Same.refl
  | cons i ids ih =>
    intro c
    rw [tryPropose]
    split
    · exact ih c
    · dsimp only
      split
      · exact ⟨rfl, rfl, c.faults.rng, rfl⟩
      · split
        · exact ⟨rfl, rfl, c.faults.rng, rfl⟩
        · refine Same.trans ?_ (ih _)
          exact ⟨rfl, rfl, c.faults.rng, rfl⟩
      · refine Same.trans ?_ (ih _)
        exact ⟨rfl, rfl, c.faults.rng, rfl⟩

/-- Ticking changes nodes and messages only. -/
theorem tick_same (c : Cluster σ) : Same c (c.tick inner) := by
  refine Same.foldl (fun c i => ?_) _ c
  exact ⟨rfl, rfl, c.faults.rng, rfl⟩

/-- Deciding on a delivery uses the generator only. -/
theorem shouldDeliver_same (faults : NetworkFaults) (msg : NetworkMessage) :
    ∃ rng, (faults.shouldDeliver msg).2 = { faults with rng := rng } := by
  unfold NetworkFaults.shouldDeliver
  split
  · exact ⟨faults.rng, rfl⟩
  · split
    · exact ⟨faults.rng, rfl⟩
    · split
      · exact ⟨_, rfl⟩
      · exact ⟨faults.rng, rfl⟩

variable [Sha256]

omit [Sha256] in
/-- Handing a message over changes its node only. -/
theorem handOver_same {sent sent' : List NetworkMessage} {m : NetworkMessage}
    (h : handOver inner (c, sent) m = some (c', sent')) : Same c c' := by
  unfold handOver at h
  by_cases ht : m.target < c.size
  · simp only [ht, if_true, Option.map_eq_some_iff] at h
    obtain ⟨r, _, heq⟩ := h
    cases heq
    exact ⟨rfl, rfl, c.faults.rng, rfl⟩
  · simp only [ht, if_false, Option.some.injEq, Prod.mk.injEq] at h
    obtain ⟨rfl, rfl⟩ := h
    exact Same.refl c

/-- A delivery changes its node, the statistics and the generator only. -/
theorem deliverOne_same {sent sent' : List NetworkMessage} {m : NetworkMessage}
    (h : deliverOne inner (c, sent) m = some (c', sent')) : Same c c' := by
  have hrng := shouldDeliver_same c.countSent.faults m
  unfold deliverOne at h
  dsimp only at h
  split at h
  · cases h
    exact ⟨rfl, rfl, hrng⟩
  · rcases System.eq_nil_or_singleton
        (FaultConfig.tamper_length_le (c.countSent.faults.shouldDeliver m).2.toFaultConfig m)
      with hnil | ⟨tmsg, hone⟩
    · rw [hnil, List.isEmpty_nil, if_pos rfl] at h
      cases h
      exact ⟨rfl, rfl, hrng⟩
    · simp only [hone, List.isEmpty_cons, Bool.false_eq_true, if_false, List.foldlM_cons,
        List.foldlM_nil, Option.bind_eq_bind, Option.pure_def, Option.bind_fun_some] at h
      split at h
      · refine Same.trans ?_ (handOver_same h)
        exact ⟨rfl, rfl, hrng⟩
      · refine Same.trans ?_ (handOver_same h)
        exact ⟨rfl, rfl, hrng⟩

/-- **A step leaves the commit log and the faults alone.** -/
theorem step_same (h : c.step inner = some c') : Same c c' := by
  have hloop : ∀ (batch sent : List NetworkMessage) (c c' : Cluster σ)
      (sent' : List NetworkMessage),
      batch.foldlM (deliverOne inner) (c, sent) = some (c', sent') → Same c c' := by
    intro batch
    induction batch with
    | nil =>
      intro sent c c' sent' hfold
      cases hfold
      exact Same.refl _
    | cons m batch ih =>
      intro sent c c' sent' hfold
      rw [List.foldlM_cons, Option.bind_eq_bind, Option.bind_eq_some_iff] at hfold
      obtain ⟨⟨c₁, sent₁⟩, hone, hrest⟩ := hfold
      exact (deliverOne_same hone).trans (ih sent₁ c₁ c' sent' hrest)
  rw [step, Option.map_eq_some_iff] at h
  obtain ⟨⟨c₁, sent⟩, hfold, rfl⟩ := h
  have hbatch := hloop c.pending [] { c with pending := [] } c₁ sent hfold
  exact ⟨hbatch.size, hbatch.commitLog, hbatch.faults⟩

section Rule

omit [Sha256] in
/-- What is delivered is neither from an isolated node nor for one. -/
theorem isIsolated_of_delivered {faults : NetworkFaults} {msg : NetworkMessage}
    (h : (faults.shouldDeliver msg).1 = true) :
    faults.isIsolated msg.sender = false ∧ faults.isIsolated msg.target = false := by
  unfold NetworkFaults.shouldDeliver at h
  split at h
  · exact absurd h (by simp)
  · rename_i hno
    rw [not_or] at hno
    exact ⟨decide_eq_false hno.1, decide_eq_false hno.2⟩

/-- What can reach a node in place of `m`. -/
structure Passes (faults : NetworkFaults) (m m' : NetworkMessage) : Prop where
  sender : faults.isIsolated m.sender = false
  target : faults.isIsolated m.target = false
  tampered : m' ∈ faults.tamper m

/-- Rolls do not change what can reach a node. -/
theorem Same.passes {m m' : NetworkMessage} (h : Same c c') :
    Passes c'.faults m m' ↔ Passes c.faults m m' := by
  obtain ⟨rng, hrng⟩ := h.faults
  rw [hrng]
  exact ⟨fun hp => ⟨hp.sender, hp.target, hp.tampered⟩,
    fun hp => ⟨hp.sender, hp.target, hp.tampered⟩⟩

variable {J : (NodeId → σ) → List NetworkMessage → Prop} {sent sent' : List NetworkMessage}

omit [Sha256] in
/-- **Rule for handing over**: what handling a message keeps is kept. -/
theorem handOver_rule {m : NetworkMessage} (hJ : J c.nodes sent)
    (hhandle : ∀ r, m.target < c.size →
      (inner m.target).handleMessage (c.nodes m.target) m = some r →
      J (Function.update c.nodes m.target r.1) (sent ++ r.2))
    (h : handOver inner (c, sent) m = some (c', sent')) :
    J c'.nodes sent' ∧ c'.pending = c.pending := by
  unfold handOver at h
  by_cases ht : m.target < c.size
  · simp only [ht, if_true, Option.map_eq_some_iff] at h
    obtain ⟨r, hr, heq⟩ := h
    cases heq
    exact ⟨hhandle r ht hr, rfl⟩
  · simp only [ht, if_false, Option.some.injEq, Prod.mk.injEq] at h
    obtain ⟨rfl, rfl⟩ := h
    exact ⟨hJ, rfl⟩

/-- **Rule for a delivery**: what holds of the nodes and of what they send is kept, if it is by
    handling whatever can arrive. -/
theorem deliverOne_rule {m : NetworkMessage} (hJ : J c.nodes sent)
    (hhandle : ∀ m' r, Passes c.faults m m' → m'.target < c.size →
      (inner m'.target).handleMessage (c.nodes m'.target) m' = some r →
      J (Function.update c.nodes m'.target r.1) (sent ++ r.2))
    (h : deliverOne inner (c, sent) m = some (c', sent')) :
    J c'.nodes sent' ∧ c'.pending = c.pending := by
  have hcfg : (c.countSent.faults.shouldDeliver m).2.toFaultConfig = c.faults.toFaultConfig :=
    shouldDeliver_cfg c.faults m
  unfold deliverOne at h
  dsimp only at h
  split at h
  · cases h
    exact ⟨hJ, rfl⟩
  · rename_i hdelivered
    have hconnected := isIsolated_of_delivered (by simpa [countSent] using hdelivered)
    rw [hcfg] at h
    rcases System.eq_nil_or_singleton (c.faults.tamper_length_le m) with hnil | ⟨tmsg, hsingle⟩
    · rw [hnil, List.isEmpty_nil, if_pos rfl] at h
      cases h
      exact ⟨hJ, rfl⟩
    · have htmsg : Passes c.faults m tmsg :=
        ⟨hconnected.1, hconnected.2, by rw [hsingle]; exact List.mem_singleton_self tmsg⟩
      simp only [hsingle, List.isEmpty_cons, Bool.false_eq_true, if_false, List.foldlM_cons,
        List.foldlM_nil, Option.bind_eq_bind, Option.pure_def, Option.bind_fun_some] at h
      have hhand : ∀ {c₀ : Cluster σ}, handOver inner (c₀, sent) tmsg = some (c', sent') →
          c₀.size = c.size → c₀.nodes = c.nodes → c₀.pending = c.pending →
          J c'.nodes sent' ∧ c'.pending = c.pending := by
        intro c₀ hhand hsize hnodes hpending
        rw [← hpending]
        refine handOver_rule (by rw [hnodes]; exact hJ) (fun r ht hr => ?_) hhand
        rw [hnodes] at hr ⊢
        exact hhandle tmsg r htmsg (hsize ▸ ht) hr
      -- counting the message as tampered changes the statistics only
      split at h
      · exact hhand h rfl rfl rfl
      · exact hhand h rfl rfl rfl

/-- **The rule of a step**: `J` of the nodes and of what they have sent so far holds behind it, if
    the handling of what reaches a node in place of a pending message keeps it. -/
theorem step_rule (hJ : J c.nodes [])
    (hhandle : ∀ nodes sent m m' r, J nodes sent → m ∈ c.pending → Passes c.faults m m' →
      m'.target < c.size → (inner m'.target).handleMessage (nodes m'.target) m' = some r →
      J (Function.update nodes m'.target r.1) (sent ++ r.2))
    (h : c.step inner = some c') : J c'.nodes c'.pending := by
  have hloop : ∀ (batch sent : List NetworkMessage) (c₀ c₁ : Cluster σ)
      (sent₁ : List NetworkMessage), (∀ m ∈ batch, m ∈ c.pending) → Same c c₀ → c₀.pending = [] →
      J c₀.nodes sent → batch.foldlM (deliverOne inner) (c₀, sent) = some (c₁, sent₁) →
      J c₁.nodes sent₁ ∧ c₁.pending = [] := by
    intro batch
    induction batch with
    | nil =>
      intro sent c₀ c₁ sent₁ _ _ hnil hJ₀ hfold
      cases hfold
      exact ⟨hJ₀, hnil⟩
    | cons m batch ih =>
      intro sent c₀ c₁ sent₁ hbatch hsame hnil hJ₀ hfold
      rw [List.foldlM_cons, Option.bind_eq_bind, Option.bind_eq_some_iff] at hfold
      obtain ⟨⟨c₂, sent₂⟩, hone, hrest⟩ := hfold
      obtain ⟨hJ₂, hpending⟩ := deliverOne_rule hJ₀ (fun m' r hm' ht hr => by
        rw [hsame.size] at ht
        exact hhandle c₀.nodes sent m m' r hJ₀ (hbatch m List.mem_cons_self)
          (hsame.passes.mp hm') ht hr) hone
      exact ih sent₂ c₂ c₁ sent₁ (fun m' hm' => hbatch m' (List.mem_cons_of_mem _ hm'))
        (hsame.trans (deliverOne_same hone)) (hpending.trans hnil) hJ₂ hrest
  rw [step, Option.map_eq_some_iff] at h
  obtain ⟨⟨c₁, sent₁⟩, hfold, rfl⟩ := h
  have hstart : Same c { c with pending := [] } := ⟨rfl, rfl, c.faults.rng, rfl⟩
  obtain ⟨hJ₁, hnil⟩ := hloop c.pending [] _ c₁ sent₁ (fun _ hm => hm) hstart rfl hJ hfold
  show J c₁.nodes (c₁.pending ++ sent₁)
  rw [hnil, List.nil_append]
  exact hJ₁

end Rule

/-- Running to completion leaves the commit log and the faults alone. -/
theorem runToCompletion_same (maxSteps : ℕ) : ∀ {c c' : Cluster σ} {steps : ℕ},
    runToCompletion inner c maxSteps = some (steps, c') → Same c c' := by
  intro c c' steps h
  refine runToCompletion_rule (P := Same c) (fun c₁ c₂ hsame hstep => ?_) maxSteps (Same.refl c) h
  exact hsame.trans (step_same hstep)

/-- Waiting for a leader leaves the commit log and the faults alone. -/
theorem waitForLeader_same {isLeader : NodeId → σ → Bool} (maxTicks : ℕ) :
    ∀ {c c' : Cluster σ} {found : Option NodeId},
      waitForLeader inner isLeader c maxTicks = some (found, c') → Same c c' := by
  intro c c' found h
  refine waitForLeader_rule (P := Same c) (fun c₁ hsame => ?_) (fun c₁ c₂ hsame hstep => ?_)
    maxTicks (Same.refl c) h
  · exact hsame.trans (tick_same c₁)
  · exact hsame.trans (step_same hstep)

variable {code : NodeId → PolledNode σ}

/-- **What is driven keeps its size**, and its log has the payloads of the proposals in order. -/
theorem harness_frame {call : HarnessCall} (h : c.harness code call = some c') :
    c'.size = c.size ∧
      c'.commitLog.proposed = c.commitLog.proposed ++ call.proposal.toList := by
  have hsame : Same c c' → call.proposal = none → c'.size = c.size ∧
      c'.commitLog.proposed = c.commitLog.proposed ++ call.proposal.toList := by
    intro hs hnone
    rw [hnone, hs.commitLog]
    exact ⟨hs.size, (List.append_nil _).symm⟩
  cases call with
  | call call =>
    cases call with
    | propose p =>
      cases h
      have hs : Same { c with commitLog := c.commitLog.recordProposal p }
          (c.propose (consensus code) p).2 := tryPropose_same p (List.range c.size) _
      exact ⟨hs.size, congrArg CommitLog.proposed hs.commitLog⟩
    | step => exact hsame (step_same h) rfl
    | tick =>
      cases h
      exact hsame (tick_same c) rfl
    | runToCompletion maxSteps =>
      obtain ⟨⟨steps, c₁⟩, hrun, rfl⟩ := Option.map_eq_some_iff.mp h
      exact hsame (runToCompletion_same _ hrun) rfl
    | setFaults faults =>
      cases h
      exact ⟨rfl, (List.append_nil _).symm⟩
    | clearFaults entropy =>
      cases h
      exact ⟨rfl, (List.append_nil _).symm⟩
  | waitForLeader maxTicks =>
    obtain ⟨⟨found, c₁⟩, hwait, rfl⟩ := Option.map_eq_some_iff.mp h
    exact hsame (waitForLeader_same _ hwait) rfl
  | collectCommitted =>
    cases h
    have hdrained := collectCommitted_drained code c
    exact ⟨hdrained.alike.size, hdrained.proposed.trans (List.append_nil _).symm⟩
  | collectAndRecordCommits =>
    cases h
    have hdrained := collectAndRecordCommits_drained code c
    exact ⟨hdrained.alike.size, hdrained.proposed.trans (List.append_nil _).symm⟩

/-- **The proposals that are recorded are those of the calls**, in their order. -/
theorem drive_frame (calls : List HarnessCall) : ∀ {c : Cluster σ}, c.drive code calls = some c' →
    c'.size = c.size ∧
      c'.commitLog.proposed = c.commitLog.proposed ++ calls.filterMap HarnessCall.proposal := by
  induction calls with
  | nil =>
    intro c h
    cases h
    exact ⟨rfl, (List.append_nil _).symm⟩
  | cons call calls ih =>
    intro c h
    obtain ⟨c₁, hfirst, hrest⟩ := drive_cons h
    obtain ⟨hsize, hproposed⟩ := harness_frame hfirst
    obtain ⟨hsize', hproposed'⟩ := ih hrest
    refine ⟨hsize'.trans hsize, ?_⟩
    rw [hproposed', hproposed, List.append_assoc]
    cases hp : call.proposal with
    | none => rw [List.filterMap_cons_none hp]; rfl
    | some p => rw [List.filterMap_cons_some hp]; rfl

end Frame

end Cluster

/-! ### Invariants under all faults -/

/-- A call proposes a payload that satisfies `P`, or sets faults that satisfy `B`, or does
    neither. -/
def HarnessCall.Within (P : Payload → Prop) (B : NetworkFaults → Prop) : HarnessCall → Prop
  | .call (.propose payload) => P payload
  | .call (.setFaults faults) => B faults
  | .call (.clearFaults entropy) => B { rng := entropy }
  | _ => True

variable {σ : Type} [Sha256]

/-- What `n` nodes that are handed payloads of `P` keep under faults of `B`: `N` of each node
    together with what was recorded for it, `M` of what they send, and `M'` of what reaches them. -/
structure Upheld (n : ℕ) (code : NodeId → PolledNode σ) (P : Payload → Prop)
    (B : NetworkFaults → Prop) (N : NodeId → σ → List CommittedEntry → Prop)
    (M M' : NetworkMessage → Prop) : Prop where
  propose : ∀ i s es p, i < n → P p → N i s es → N i ((code i).propose s p).2.1 es ∧
    ∀ m ∈ ((code i).propose s p).2.2, M m
  handle : ∀ s es m r, m.target < n → N m.target s es → M' m →
    (code m.target).handleMessage s m = some r → N m.target r.1 es ∧ ∀ m' ∈ r.2, M m'
  tick : ∀ i s es, i < n → N i s es → N i ((code i).tick s).1 es ∧
    ∀ m ∈ ((code i).tick s).2, M m
  record : ∀ i s es, i < n → N i s es →
    N i ((code i).pollCommitted s).2 (es ++ ((code i).pollCommitted s).1)
  deliver : ∀ faults m m', B faults → M m → Cluster.Passes faults m m' → M' m'
  rolls : ∀ faults rng, B faults → B { faults with rng := rng }

omit [Sha256] in
/-- The cluster is one of `n` nodes in which all nodes satisfy `N` and all pending messages `M`. -/
structure Upholds (n : ℕ) (B : NetworkFaults → Prop) (N : NodeId → σ → List CommittedEntry → Prop)
    (M : NetworkMessage → Prop) (c : Cluster σ) : Prop where
  size : c.size = n
  faults : B c.faults
  nodes : ∀ i, N i (c.nodes i) (c.commitLog.recorded i)
  pending : ∀ m ∈ c.pending, M m

namespace Upholds

open Cluster

variable {code : NodeId → PolledNode σ} {P : Payload → Prop} {B : NetworkFaults → Prop}
variable {N : NodeId → σ → List CommittedEntry → Prop} {M M' : NetworkMessage → Prop}
variable {n : ℕ} {c c' : Cluster σ} {sent : List NetworkMessage}

omit [Sha256] in
/-- A node that satisfies `N` may take the place of another. -/
theorem setNode (h : Upholds n B N M c) {i : NodeId} {s : σ}
    (hs : N i s (c.commitLog.recorded i)) : Upholds n B N M (c.setNode i s) := by
  refine ⟨h.size, h.faults, fun j => ?_, h.pending⟩
  show N j (Function.update c.nodes i s j) (c.commitLog.recorded j)
  by_cases hj : j = i
  · subst hj
    rw [Function.update_self]
    exact hs
  · rw [Function.update_of_ne hj]
    exact h.nodes j

omit [Sha256] in
/-- Messages that satisfy `M` may be added. -/
theorem enqueue (h : Upholds n B N M c) (hsent : ∀ m ∈ sent, M m) :
    Upholds n B N M (c.enqueue sent) := by
  refine ⟨h.size, h.faults, h.nodes, fun m hm => ?_⟩
  rcases List.mem_append.mp hm with hm | hm
  · exact h.pending m hm
  · exact hsent m hm

variable (hcode : Upheld n code P B N M M')

include hcode

/-- Proposing to one node after the other. -/
theorem tryPropose {p : Payload} (hp : P p) (ids : List NodeId) (hids : ∀ i ∈ ids, i < n) :
    ∀ {c : Cluster σ}, Upholds n B N M c →
      Upholds n B N M (tryPropose (consensus code) p c ids).2 := by
  induction ids with
  | nil => exact fun h => h
  | cons i ids ih =>
    intro c h
    have hrest : ∀ {c : Cluster σ}, Upholds n B N M c →
        Upholds n B N M (Cluster.tryPropose (consensus code) p c ids).2 :=
      ih fun j hj => hids j (List.mem_cons_of_mem _ hj)
    rw [Cluster.tryPropose]
    split
    · exact hrest h
    · -- the node in turn and the one it names are asked alike
      have hask : ∀ {c : Cluster σ} (j : NodeId), j < n → Upholds n B N M c →
          Upholds n B N M (c.setNode j ((code j).propose (c.nodes j) p).2.1) ∧
          ∀ m ∈ ((code j).propose (c.nodes j) p).2.2, M m := by
        intro c j hj h
        obtain ⟨hnode, hsent⟩ := hcode.propose j _ _ p hj hp (h.nodes j)
        exact ⟨h.setNode hnode, hsent⟩
      obtain ⟨hset, hsent⟩ := hask i (hids i List.mem_cons_self) h
      dsimp only
      split
      · exact hset.enqueue hsent
      · split
        · rename_i leader _ hlt
          obtain ⟨hset', hsent'⟩ := hask leader (hset.size ▸ hlt) hset
          exact hset'.enqueue hsent'
        · exact hrest hset
      · exact hrest hset

/-- A proposal. -/
theorem propose {p : Payload} (hp : P p) (h : Upholds n B N M c) :
    Upholds n B N M (c.propose (consensus code) p).2 :=
  tryPropose hcode hp _ (fun _ hi => h.size ▸ List.mem_range.mp hi)
    ⟨h.size, h.faults, h.nodes, h.pending⟩

/-- A tick of all nodes. -/
theorem tick (h : Upholds n B N M c) : Upholds n B N M (c.tick (consensus code)) := by
  have hloop : ∀ (ids : List NodeId) (c : Cluster σ), (∀ i ∈ ids, i < n) → Upholds n B N M c →
      Upholds n B N M (ids.foldl (fun c i => (c.setNode i ((code i).tick (c.nodes i)).1).enqueue
        ((code i).tick (c.nodes i)).2) c) := by
    intro ids
    induction ids with
    | nil => exact fun c _ h => h
    | cons i ids ih =>
      intro c hids h
      obtain ⟨hnode, hsent⟩ := hcode.tick i _ _ (hids i List.mem_cons_self) (h.nodes i)
      exact ih _ (fun j hj => hids j (List.mem_cons_of_mem _ hj)) ((h.setNode hnode).enqueue hsent)
  exact hloop _ c (fun i hi => h.size ▸ List.mem_range.mp hi) h

/-- **A step**: messages are delivered only in a form that satisfies `M'`. -/
theorem step (h : Upholds n B N M c) (hstep : c.step (consensus code) = some c') :
    Upholds n B N M c' := by
  have hsame := step_same hstep
  have hrule : (∀ i, N i (c'.nodes i) (c.commitLog.recorded i)) ∧ ∀ m ∈ c'.pending, M m := by
    refine step_rule (J := fun nodes sent => (∀ i, N i (nodes i) (c.commitLog.recorded i)) ∧
      ∀ m ∈ sent, M m) ⟨h.nodes, by simp⟩ ?_ hstep
    rintro nodes sent m m' r ⟨hnodes, hsent⟩ hm hm' ht hr
    rw [h.size] at ht
    have hreached := hcode.deliver _ m m' h.faults (h.pending m hm) hm'
    obtain ⟨hnode, hout⟩ := hcode.handle _ _ m' r ht (hnodes m'.target) hreached hr
    refine ⟨fun i => ?_, fun x hx => ?_⟩
    · by_cases hi : i = m'.target
      · subst hi
        rw [Function.update_self]
        exact hnode
      · rw [Function.update_of_ne hi]
        exact hnodes i
    · rcases List.mem_append.mp hx with hx | hx
      · exact hsent x hx
      · exact hout x hx
  refine ⟨hsame.size.trans h.size, ?_, ?_, hrule.2⟩
  · obtain ⟨rng, hrng⟩ := hsame.faults
    rw [hrng]
    exact hcode.rolls _ rng h.faults
  · rw [hsame.commitLog]
    exact hrule.1

/-- Any number of steps. -/
theorem runToCompletion (maxSteps : ℕ) : ∀ {c c' : Cluster σ} {steps : ℕ}, Upholds n B N M c →
    runToCompletion (consensus code) c maxSteps = some (steps, c') → Upholds n B N M c' :=
  runToCompletion_rule (fun _ _ h hstep => step hcode h hstep) maxSteps

/-- Any number of ticks and steps. -/
theorem waitForLeader (isLeader : NodeId → σ → Bool) (maxTicks : ℕ) :
    ∀ {c c' : Cluster σ} {found : Option NodeId}, Upholds n B N M c →
      waitForLeader (consensus code) isLeader c maxTicks = some (found, c') →
      Upholds n B N M c' :=
  waitForLeader_rule (fun _ h => tick hcode h) (fun _ _ h hstep => step hcode h hstep) maxTicks

/-- **Every call of the harness upholds the invariant**, and so does one that takes entries away, if
    that leaves `N` intact. -/
theorem harness {call : HarnessCall} (h : Upholds n B N M c) (hcall : call.Within P B)
    (hdrop : call = .collectCommitted → ∀ i s es, i < n → N i s es →
      N i ((code i).pollCommitted s).2 es)
    (hrun : c.harness code call = some c') : Upholds n B N M c' := by
  cases call with
  | call call =>
    cases call with
    | propose p =>
      cases hrun
      exact h.propose hcode hcall
    | step => exact h.step hcode hrun
    | tick =>
      cases hrun
      exact h.tick hcode
    | runToCompletion maxSteps =>
      obtain ⟨⟨steps, c₁⟩, hcomplete, rfl⟩ := Option.map_eq_some_iff.mp hrun
      exact h.runToCompletion hcode maxSteps hcomplete
    | setFaults faults =>
      cases hrun
      exact ⟨h.size, hcall, h.nodes, h.pending⟩
    | clearFaults entropy =>
      cases hrun
      exact ⟨h.size, hcall, h.nodes, h.pending⟩
  | waitForLeader maxTicks =>
    obtain ⟨⟨found, c₁⟩, hwait, rfl⟩ := Option.map_eq_some_iff.mp hrun
    exact h.waitForLeader hcode _ maxTicks hwait
  | collectCommitted =>
    cases hrun
    have hdrained := collectCommitted_drained code c
    refine ⟨hdrained.alike.size.trans h.size, by rw [hdrained.alike.faults]; exact h.faults,
      fun i => ?_, by rw [hdrained.pending]; exact h.pending⟩
    rw [hdrained.nodes, hdrained.recorded, ite_self, List.append_nil]
    split
    · rename_i hi
      exact hdrop rfl i _ _ (h.size ▸ hi) (h.nodes i)
    · exact h.nodes i
  | collectAndRecordCommits =>
    cases hrun
    have hdrained := collectAndRecordCommits_drained code c
    refine ⟨hdrained.alike.size.trans h.size, by rw [hdrained.alike.faults]; exact h.faults,
      fun i => ?_, by rw [hdrained.pending]; exact h.pending⟩
    rw [hdrained.nodes, hdrained.recorded]
    by_cases hi : i < c.size
    · rw [if_pos hi, if_pos hi]
      exact hcode.record i _ _ (h.size ▸ hi) (h.nodes i)
    · rw [if_neg hi, if_neg hi, List.append_nil]
      exact h.nodes i

/-- **What nodes and messages keep, every driven cluster keeps.**  `collect_committed` takes entries
    away unrecorded, which not every invariant survives. -/
theorem drive (calls : List HarnessCall) (hcalls : ∀ call ∈ calls, call.Within P B)
    (hdrop : .collectCommitted ∈ calls →
      ∀ i s es, i < n → N i s es → N i ((code i).pollCommitted s).2 es) :
    ∀ {c : Cluster σ}, Upholds n B N M c → c.drive code calls = some c' → Upholds n B N M c' := by
  induction calls with
  | nil =>
    intro c h hrun
    cases hrun
    exact h
  | cons call calls ih =>
    intro c h hrun
    obtain ⟨c₁, hfirst, hrest⟩ := drive_cons hrun
    refine ih (fun call' hmem => hcalls call' (List.mem_cons_of_mem _ hmem))
      (fun hmem => hdrop (List.mem_cons_of_mem _ hmem)) ?_ hrest
    refine h.harness hcode (hcalls call List.mem_cons_self) (fun heq => hdrop ?_) hfirst
    rw [heq]
    exact List.mem_cons_self

end Upholds

/-! ### Runs of the system -/

/-- Polling the nodes drains the queues of the parties of `S`, and nothing else takes anything out
    of a queue. -/
structure Polls [CommitQueue σ] (code : NodeId → PolledNode σ)
    (S : System NodeId σ Call NetworkMessage) : Prop where
  act : ∀ i s, S.act i s .pollCommitted = (((code i).pollCommitted s).2, [])
  taken : ∀ i s, ((code i).pollCommitted s).1 = CommitQueue.committed s
  emptied : ∀ i s, CommitQueue.committed ((code i).pollCommitted s).2 = []
  grows : ∀ w o, S.Fires w o → o.cause ≠ .call .pollCommitted →
    ∃ es, CommitQueue.committed o.after = CommitQueue.committed o.before ++ es

section Runs

open Cluster

variable [CommitQueue σ] {code : NodeId → PolledNode σ} {n : ℕ} {cfg : FaultConfig}
variable {S : System NodeId σ Call NetworkMessage} {w w' : World NodeId σ Call NetworkMessage}

omit [Sha256] in
/-- **As long as nobody polls**, a queue grows by what its node commits. -/
theorem Polls.committedBy_of_unpolled (hP : Polls code S) (hw : S.Reach System.anyStep w)
    {A : Call → Prop} (hA : ¬ A .pollCommitted) (h : S.Steps (calling A) w w') (i : NodeId) :
    ∃ es, CommitQueue.committed (w'.nodes i) = CommitQueue.committed (w.nodes i) ++ es ∧
      committedBy w'.history i = committedBy w.history i ++ es := by
  induction h with
  | refl => exact ⟨[], (List.append_nil _).symm, (List.append_nil _).symm⟩
  | @tail w₁ w₂ e hs hok he ih =>
    obtain ⟨es, hqueue, hhist⟩ := ih
    -- a step that is booked
    have hrecord : ∀ o : NodeStep σ, S.Fires w₁ o → o.cause ≠ .call .pollCommitted →
        ∃ es, CommitQueue.committed (Function.update w₁.nodes o.node o.after i) =
            CommitQueue.committed (w.nodes i) ++ es ∧
          committedBy (o :: w₁.history) i = committedBy w.history i ++ es := by
      intro o hf hcause
      by_cases hi : o.node = i
      · obtain ⟨es', hes'⟩ := hP.grows w₁ o hf hcause
        subst hi
        refine ⟨es ++ es', ?_, ?_⟩
        · rw [Function.update_self, hes', hf.before_eq, hqueue, List.append_assoc]
        · rw [committedBy_cons, if_pos rfl, emitted_eq hes', hhist, List.append_assoc]
      · refine ⟨es, ?_, ?_⟩
        · rw [Function.update_of_ne (Ne.symm hi), hqueue]
        · rw [committedBy_cons, if_neg hi, List.append_nil, hhist]
    have hr : S.Reach System.anyStep w₁ := hw.trans (hs.mono fun _ _ _ _ => trivial)
    rcases System.step_cases he with ⟨k, _, rfl⟩ | ⟨j, a, hj, hin, rfl⟩ |
      ⟨k, m, m', s, out, hk, hc, hd, hin, hrecv, rfl⟩
    · exact ⟨es, hqueue, hhist⟩
    · refine hrecord _ (.call j a hj) fun hpoll => ?_
      exact hA (hok _ _ hin _ hpoll)
    · have hm : m ∈ w₁.inFlight := List.mem_of_getElem? hk
      exact hrecord _ (.recv m m' s out hm (System.Reach.sent_of_mem hr m hm) hc hd hrecv)
        (by simp)

omit [Sha256] [CommitQueue σ] in
/-- The calls of a run are those of its beginning and of what was added to it. -/
theorem called_of_steps {A Q : Call → Prop} (hA : ∀ a, A a → Q a) (h : S.Steps (calling A) w w')
    (hw : ∀ o ∈ w.history, ∀ a, o.cause = .call a → Q a) :
    ∀ o ∈ w'.history, ∀ a, o.cause = .call a → Q a := by
  induction h with
  | refl => exact hw
  | @tail w₁ w₂ e hs hok he ih =>
    rcases System.step_cases he with ⟨k, _, rfl⟩ | ⟨j, b, hj, hin, rfl⟩ |
      ⟨k, m, m', s, out, hk, hc, hd, hin, hrecv, rfl⟩
    · exact ih
    · intro o ho a hcause
      rcases List.mem_cons.mp ho with rfl | ho
      · exact hA a (hok _ _ hin a hcause)
      · exact ih o ho a hcause
    · intro o ho a hcause
      rcases List.mem_cons.mp ho with rfl | ho
      · exact absurd hcause (by simp)
      · exact ih o ho a hcause

omit [Sha256] in
/-- Polling the first `k` nodes. -/
theorem Polls.poll_all (hP : Polls code S) (hmem : S.members = Finset.range n) (k : ℕ)
    (hk : k ≤ n) : ∃ w', S.Steps (calling (· = .pollCommitted)) w w' ∧ w'.inFlight = w.inFlight ∧
      (∀ i, w'.nodes i = if i < k then ((code i).pollCommitted (w.nodes i)).2 else w.nodes i) ∧
      ∀ i, committedBy w'.history i = committedBy w.history i := by
  induction k with
  | zero => exact ⟨w, .refl w, rfl, fun i => rfl, fun i => rfl⟩
  | succ k ih =>
    obtain ⟨w₁, hsteps, hflight, hnodes, hhist⟩ := ih (Nat.le_of_succ_le hk)
    have hold : w₁.nodes k = w.nodes k := by rw [hnodes, if_neg (lt_irrefl k)]
    have hin : k ∈ S.members := by
      rw [hmem]
      exact Finset.mem_range.mpr hk
    have hstep : S.step w₁ (.call k .pollCommitted) = some (w₁.record k (.call .pollCommitted)
        ((code k).pollCommitted (w.nodes k)).2 []) := by
      rw [System.step, if_pos hin, hold, hP.act]
    refine ⟨_, hsteps.trans (steps_single _ hstep), ?_, fun i => ?_, fun i => ?_⟩
    · show w₁.inFlight ++ [] = w.inFlight
      rw [List.append_nil, hflight]
    · rw [World.record_nodes]
      by_cases hi : i = k
      · subst hi
        rw [Function.update_self, if_pos (Nat.lt_succ_self i)]
      · rw [Function.update_of_ne hi, hnodes]
        have hiff : i < k + 1 ↔ i < k :=
          ⟨fun h => lt_of_le_of_ne (Nat.le_of_lt_succ h) hi, Nat.lt_succ_of_lt⟩
        simp only [hiff]
    · -- a poll commits nothing
      rw [World.record_history, committedBy_cons, hhist]
      have hnone : emitted (⟨k, .call .pollCommitted, w₁.nodes k,
          ((code k).pollCommitted (w.nodes k)).2, []⟩ : NodeStep σ) = [] := by
        rw [emitted, hP.emptied, List.drop_nil]
      rw [hnone, ite_self, List.append_nil]

/-- The world `w` of a run of `S` shows the cluster `c`; the nodes were called as `Q` says, and `R`
    holds of what is recorded or queued for a node and what it has committed in the run. -/
structure Tracks (S : System NodeId σ Call NetworkMessage) (Q : Call → Prop)
    (R : List CommittedEntry → List CommittedEntry → Prop) (n : ℕ) (cfg : FaultConfig)
    (c : Cluster σ) (w : World NodeId σ Call NetworkMessage) : Prop where
  reach : S.Reach System.anyStep w
  shows : Cluster.Shows n cfg c c.pending w
  called : ∀ o ∈ w.history, ∀ a, o.cause = .call a → Q a
  recorded : ∀ i, R (c.commitLog.recorded i ++ CommitQueue.committed (c.nodes i))
    (committedBy w.history i)

variable {Q : Call → Prop} {R : List CommittedEntry → List CommittedEntry → Prop}
variable {c c' : Cluster σ}

omit [Sha256] in
/-- What the network does while nobody polls. -/
theorem Tracks.unpolled (h : Tracks S Q R n cfg c w) (hP : Polls code S)
    (hR : ∀ a b es, R a b → R (a ++ es) (b ++ es)) (hlog : c'.commitLog = c.commitLog)
    {A : Call → Prop} (hA : ∀ a, A a → Q a ∧ a ≠ .pollCommitted)
    (hsteps : S.Steps (calling A) w w') (hshows : Cluster.Shows n cfg c' c'.pending w') :
    Tracks S Q R n cfg c' w' := by
  refine ⟨h.reach.trans (hsteps.mono fun _ _ _ _ => trivial), hshows,
    called_of_steps (fun a ha => (hA a ha).1) hsteps h.called, fun i => ?_⟩
  obtain ⟨es, hqueue, hhist⟩ :=
    hP.committedBy_of_unpolled h.reach (fun hpoll => (hA _ hpoll).2 rfl) hsteps i
  rw [← hshows.nodes, hqueue, h.shows.nodes, hlog, hhist, ← List.append_assoc]
  exact hR _ _ es (h.recorded i)

omit [Sha256] in
/-- What collecting does. -/
theorem Tracks.collect (h : Tracks S Q R n cfg c w) (hP : Polls code S)
    (hmem : S.members = Finset.range n) (hQ : Q .pollCommitted)
    {f : List CommittedEntry → List CommittedEntry}
    (hf : ∀ i, R (c.commitLog.recorded i ++ f (CommitQueue.committed (c.nodes i)))
      (committedBy w.history i))
    (hc : Drained code f c c.size c') : ∃ w', Tracks S Q R n cfg c' w' := by
  obtain ⟨w', hsteps, hflight, hnodes, hhist⟩ := hP.poll_all hmem n le_rfl
  have hsize := h.shows.size
  refine ⟨w', h.reach.trans (hsteps.mono fun _ _ _ _ => trivial),
    ⟨hc.alike.size.trans hsize, ?_, ?_, ?_⟩, called_of_steps ?_ hsteps h.called, fun i => ?_⟩
  · rw [hc.alike.faults]
    exact h.shows.faults
  · funext i
    rw [hnodes, hc.nodes, h.shows.nodes, hsize]
  · rw [hflight, h.shows.inFlight, hc.pending]
  · rintro a rfl
    exact hQ
  · rw [hc.nodes, hc.recorded, hhist]
    by_cases hi : i < c.size
    · rw [if_pos hi, if_pos hi, hP.emptied, List.append_nil, hP.taken]
      exact hf i
    · rw [if_neg hi, if_neg hi, List.append_nil]
      exact h.recorded i

/-- **One call** takes the nodes through a run of the system. -/
theorem Tracks.harness (hS : Parties (consensus code) S n cfg) (hP : Polls code S)
    (hR : ∀ a b es, R a b → R (a ++ es) (b ++ es)) {call : HarnessCall}
    (hcall : call.Within (fun _ => True) (·.toFaultConfig = cfg)) (hQ : ∀ a, call.Makes a → Q a)
    (hdrop : call = .collectCommitted → ∀ r q b, R (r ++ q) b → R r b)
    (h : Tracks S Q R n cfg c w) (hrun : c.harness code call = some c') :
    ∃ w', Tracks S Q R n cfg c' w' := by
  have hnone : ∀ a : Call, False → Q a ∧ a ≠ .pollCommitted := fun _ hno => hno.elim
  have htick : Q .tick → ∀ a : Call, a = .tick → Q a ∧ a ≠ .pollCommitted := by
    rintro hq a rfl
    exact ⟨hq, by simp⟩
  cases call with
  | call call =>
    cases call with
    | propose p =>
      cases hrun
      obtain ⟨w', hsteps, hshows⟩ := propose_scheduled hS h.shows p
      have hset : Tracks S Q R n cfg { c with commitLog := c.commitLog.recordProposal p } w :=
        ⟨h.reach, ⟨h.shows.size, h.shows.faults, h.shows.nodes, h.shows.inFlight⟩, h.called,
          h.recorded⟩
      refine ⟨w', hset.unpolled hP hR (tryPropose_same p _ _).commitLog ?_ hsteps hshows⟩
      rintro a rfl
      exact ⟨hQ _ rfl, by simp⟩
    | step =>
      obtain ⟨w', hsteps, hshows⟩ := step_scheduled hS h.shows hrun
      exact ⟨w', h.unpolled hP hR (step_same hrun).commitLog hnone hsteps hshows⟩
    | tick =>
      cases hrun
      obtain ⟨w', hsteps, hshows⟩ := tick_scheduled hS h.shows
      exact ⟨w', h.unpolled hP hR (tick_same c).commitLog (htick (hQ _ rfl)) hsteps hshows⟩
    | runToCompletion maxSteps =>
      obtain ⟨⟨steps, c₁⟩, hcomplete, rfl⟩ := Option.map_eq_some_iff.mp hrun
      obtain ⟨w', hsteps, hshows⟩ := runToCompletion_scheduled hS maxSteps h.shows hcomplete
      exact ⟨w', h.unpolled hP hR (runToCompletion_same _ hcomplete).commitLog hnone hsteps hshows⟩
    | setFaults faults =>
      cases hrun
      exact ⟨w, h.reach, ⟨h.shows.size, hcall, h.shows.nodes, h.shows.inFlight⟩, h.called,
        h.recorded⟩
    | clearFaults entropy =>
      cases hrun
      exact ⟨w, h.reach, ⟨h.shows.size, hcall, h.shows.nodes, h.shows.inFlight⟩, h.called,
        h.recorded⟩
  | waitForLeader maxTicks =>
    obtain ⟨⟨found, c₁⟩, hwait, rfl⟩ := Option.map_eq_some_iff.mp hrun
    obtain ⟨w', hsteps, hshows⟩ := waitForLeader_calling hS maxTicks h.shows hwait
    exact ⟨w', h.unpolled hP hR (waitForLeader_same _ hwait).commitLog (htick (hQ _ rfl)) hsteps
      hshows⟩
  | collectCommitted =>
    cases hrun
    refine h.collect hP hS.members (hQ _ rfl) (fun i => ?_) (collectCommitted_drained _ c)
    rw [List.append_nil]
    exact hdrop rfl _ _ _ (h.recorded i)
  | collectAndRecordCommits =>
    cases hrun
    exact h.collect hP hS.members (hQ _ rfl) h.recorded (collectAndRecordCommits_drained _ c)

/-- **Every driven cluster takes a run of the system**, as long as the same nodes are Byzantine. -/
theorem Tracks.drive (hS : Parties (consensus code) S n cfg) (hP : Polls code S)
    (hR : ∀ a b es, R a b → R (a ++ es) (b ++ es)) (calls : List HarnessCall)
    (hcalls : ∀ call ∈ calls, call.Within (fun _ => True) (·.toFaultConfig = cfg))
    (hQ : ∀ call ∈ calls, ∀ a, call.Makes a → Q a)
    (hdrop : .collectCommitted ∈ calls → ∀ r q b, R (r ++ q) b → R r b) :
    ∀ {c : Cluster σ} {w : World NodeId σ Call NetworkMessage}, Tracks S Q R n cfg c w →
      c.drive code calls = some c' → ∃ w', Tracks S Q R n cfg c' w' := by
  induction calls with
  | nil =>
    intro c w h hrun
    cases hrun
    exact ⟨w, h⟩
  | cons call calls ih =>
    intro c w h hrun
    obtain ⟨c₁, hfirst, hrest⟩ := drive_cons hrun
    obtain ⟨w₁, h₁⟩ := h.harness hS hP hR (hcalls call List.mem_cons_self)
      (hQ call List.mem_cons_self) (fun heq => hdrop (by rw [heq]; exact List.mem_cons_self)) hfirst
    exact ih (fun call' hmem => hcalls call' (List.mem_cons_of_mem _ hmem))
      (fun call' hmem => hQ call' (List.mem_cons_of_mem _ hmem))
      (fun hmem => hdrop (List.mem_cons_of_mem _ hmem)) h₁ hrest

end Runs

/-! ### The nodes of the protocols -/

namespace PbftNode

/-- `ConsensusNode::is_leader`. -/
def isLeader (self : PbftNode) (state : PbftState) : Bool := self.leader state = some self.id

end PbftNode

namespace HotStuffNode

/-- `ConsensusNode::is_leader`. -/
def isLeader (self : HotStuffNode) (state : HotStuffState) : Bool :=
  self.leader state = some self.id

end HotStuffNode

/-- All methods of PBFT node `i` of `n`. -/
def Pbft.polled (n : ℕ) (i : NodeId) : PolledNode PbftState :=
  { Pbft.code n i with
    isLeader := (Pbft.node n i).isLeader
    pollCommitted := PbftNode.pollCommitted }

/-- All methods of HotStuff node `i` of `n`. -/
def HotStuff.polled (n : ℕ) (i : NodeId) : PolledNode HotStuffState :=
  { HotStuff.code n i with
    isLeader := (HotStuff.node n i).isLeader
    pollCommitted := HotStuffNode.pollCommitted }

/-- All methods of Raft node `i` of `n`. -/
def Raft.polled (n : ℕ) (i : NodeId) : PolledNode RaftState :=
  { Raft.code n i with
    isLeader := (Raft.node n i).isLeader
    pollCommitted := RaftNode.pollCommitted }

end ConsensusBench
