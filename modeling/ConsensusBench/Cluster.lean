import ConsensusBench.Fault
import Mathlib.Data.Rat.Init

namespace ConsensusBench

/-!
# The orchestrator

`Cluster` of the source: the nodes, one queue of pending messages, the fault configuration and
the statistics.  `step` empties the queue: it hands the messages to their targets in order, and
what the nodes send on the way forms the next queue.

Rates and rolls are rational numbers, and the generator behind them is the stream of the rolls
it will give.

* `step_of_front` — without random drops and partitions, `step` is as many deliveries of the
  first pending message as there are messages, and counts each of them.
* `run_counted` — the rule for clusters that are driven by `propose` and `step`, and whose node
  `0` accepts all proposals; `run_of_front` is the rule without the count.
-/

/-! ### Faults of the network -/

/-- Fault injection configuration for the simulated cluster. -/
structure NetworkFaults extends FaultConfig where
  dropRate : ℚ := 0
  partitions : Finset (NodeId × NodeId) := ∅
  isolatedNodes : Finset NodeId := ∅
  rng : ℕ → ℚ

namespace NetworkFaults

variable (faults : NetworkFaults)

/-- Whether a node is completely isolated from the network. -/
def isIsolated (node : NodeId) : Bool := node ∈ faults.isolatedNodes

/-- Whether a message should be delivered, and the configuration with the generator used. -/
def shouldDeliver (msg : NetworkMessage) : Bool × NetworkFaults :=
  -- isolated nodes can't send or receive
  if msg.sender ∈ faults.isolatedNodes ∨ msg.target ∈ faults.isolatedNodes then (false, faults)
  else if (msg.sender, msg.target) ∈ faults.partitions then (false, faults)
  else if faults.dropRate > 0 then
    (decide ¬ faults.rng 0 < faults.dropRate, { faults with rng := fun k => faults.rng (k + 1) })
  else (true, faults)

/-- No message is dropped at random or for a partition. -/
structure Lossless : Prop where
  dropRate : faults.dropRate = 0
  partitions : faults.partitions = ∅

variable {faults}

/-- Without loss, only isolation stops a message, and no roll is made. -/
theorem Lossless.shouldDeliver (h : faults.Lossless) (msg : NetworkMessage) :
    faults.shouldDeliver msg =
      (!(faults.isIsolated msg.sender || faults.isIsolated msg.target), faults) := by
  rw [NetworkFaults.shouldDeliver, h.partitions, h.dropRate]
  by_cases hs : msg.sender ∈ faults.isolatedNodes
  · simp [hs, isIsolated]
  · by_cases ht : msg.target ∈ faults.isolatedNodes
    · simp [hs, ht, isIsolated]
    · simp [hs, ht, isIsolated]

/-- What reaches the target in place of `msg`, if no message is lost otherwise. -/
def carried [Sha256] (faults : NetworkFaults) (msg : NetworkMessage) : List NetworkMessage :=
  if faults.isIsolated msg.sender || faults.isIsolated msg.target then [] else faults.tamper msg

/-- What an honest node sends arrives as it is, unless isolation stops it. -/
theorem carried_of_honest [Sha256] {msg : NetworkMessage}
    (h : faults.isByzantine msg.sender = false) : faults.carried msg =
      if faults.isIsolated msg.sender || faults.isIsolated msg.target then [] else [msg] := by
  rw [carried, faults.tamper_of_honest h]

/-- Only nodes of `F` are isolated or Byzantine, and no message is lost otherwise. -/
structure ConfinedTo (faults : NetworkFaults) (F : Finset NodeId) : Prop extends
    Lossless faults where
  isolated : ∀ i, faults.isIsolated i = true → i ∈ F
  byzantine : ∀ i, faults.isByzantine i = true → i ∈ F

variable {F : Finset NodeId} {i : NodeId}

/-- Nodes outside `F` are not isolated. -/
theorem ConfinedTo.isIsolated_eq (h : faults.ConfinedTo F) (hi : i ∉ F) :
    faults.isIsolated i = false :=
  Bool.eq_false_iff.mpr fun hiso => hi (h.isolated i hiso)

/-- Nodes outside `F` are honest. -/
theorem ConfinedTo.isByzantine_eq (h : faults.ConfinedTo F) (hi : i ∉ F) :
    faults.isByzantine i = false :=
  Bool.eq_false_iff.mpr fun hbyz => hi (h.byzantine i hbyz)

end NetworkFaults

/-! ### The cluster -/

/-- The methods of a node that the orchestrator calls; `handle_message` is `none` where the
    source panics. -/
structure ConsensusNode (σ : Type) where
  propose : σ → Payload → ProposeResult × σ × List NetworkMessage
  handleMessage : σ → NetworkMessage → Option (σ × List NetworkMessage)
  tick : σ → σ × List NetworkMessage

structure ClusterStats where
  messagesSent : ℕ := 0
  messagesDelivered : ℕ := 0
  messagesDropped : ℕ := 0
  messagesTampered : ℕ := 0
  totalSteps : ℕ := 0
  deriving DecidableEq, Repr

/-- What the cluster keeps for the checks of its invariants. -/
structure CommitLog where
  proposed : List Payload := []
  commits : HashMap NodeId (List CommittedEntry) := ∅

/-- `CommitLog::record_proposal`. -/
def CommitLog.recordProposal (log : CommitLog) (payload : Payload) : CommitLog :=
  { log with proposed := log.proposed ++ [payload] }

/-- Payloads as the commits of sequences `1, 2, …` -/
def numbered (ps : List Payload) : List CommittedEntry :=
  ps.mapIdx fun k p => ⟨k + 1, p⟩

/-- One more payload gets the next number. -/
theorem numbered_concat (ps : List Payload) (p : Payload) :
    numbered (ps ++ [p]) = numbered ps ++ [⟨ps.length + 1, p⟩] :=
  List.mapIdx_concat

/-- One payload more of a numbered list. -/
theorem numbered_take_succ {ps : List Payload} {m : ℕ} {p : Payload} (h : ps[m]? = some p) :
    numbered (ps.take (m + 1)) = numbered (ps.take m) ++ [⟨m + 1, p⟩] := by
  have hlt : m < ps.length := (List.getElem?_eq_some_iff.mp h).1
  rw [List.take_add_one, h, Option.toList_some, numbered_concat, List.length_take,
    Nat.min_eq_left hlt.le]

/-- The first payloads of a list are numbered as they are in all of it. -/
theorem numbered_take_le (ps : List Payload) (m : ℕ) :
    numbered (ps.take m) <+: numbered ps := by
  have happend : numbered ps = numbered (ps.take m) ++
      (ps.drop m).mapIdx fun k p => ⟨k + (ps.take m).length + 1, p⟩ := by
    rw [numbered, numbered, ← List.mapIdx_append, List.take_append_drop]
  rw [happend]
  exact List.prefix_append _ _

/-- A cluster of the nodes `0, …, size - 1`, which are in the states `nodes`. -/
structure Cluster (σ : Type) where
  size : ℕ
  nodes : NodeId → σ
  pending : List NetworkMessage
  faults : NetworkFaults
  stats : ClusterStats
  commitLog : CommitLog

/-- The calls on a cluster. -/
inductive ClusterCall where
  | propose (payload : Payload)
  | step
  | tick
  deriving DecidableEq

namespace Cluster

variable {σ : Type}

/-- A cluster of `n` nodes in their initial states. -/
def new (n : ℕ) (init : NodeId → σ) (rng : ℕ → ℚ) : Cluster σ where
  size := n
  nodes := init
  pending := []
  faults := { rng := rng }
  stats := {}
  commitLog := {}

/-- Apply a fault configuration. -/
def setFaults (c : Cluster σ) (faults : NetworkFaults) : Cluster σ := { c with faults := faults }

def enqueue (c : Cluster σ) (messages : List NetworkMessage) : Cluster σ :=
  { c with pending := c.pending ++ messages }

def setNode (c : Cluster σ) (i : NodeId) (state : σ) : Cluster σ :=
  { c with nodes := Function.update c.nodes i state }

def countSent (c : Cluster σ) : Cluster σ :=
  { c with stats.messagesSent := c.stats.messagesSent + 1 }

def countDelivered (c : Cluster σ) : Cluster σ :=
  { c with stats.messagesDelivered := c.stats.messagesDelivered + 1 }

def countDropped (c : Cluster σ) : Cluster σ :=
  { c with stats.messagesDropped := c.stats.messagesDropped + 1 }

def countTampered (c : Cluster σ) : Cluster σ :=
  { c with stats.messagesTampered := c.stats.messagesTampered + 1 }

/-! ### Proposing -/

variable (code : NodeId → ConsensusNode σ)

/-- Propose to the nodes of a list in order, until one accepts or names a leader. -/
def tryPropose (payload : Payload) (c : Cluster σ) : List NodeId → ProposeResult × Cluster σ
  | [] => (.notLeader none, c)
  | i :: rest =>
    -- skip isolated nodes: a real client can't reach them
    if c.faults.isIsolated i then tryPropose payload c rest
    else
      let (result, state, outgoing) := (code i).propose (c.nodes i) payload
      let c := c.setNode i state
      match result with
      | .accepted => (.accepted, c.enqueue outgoing)
      | .notLeader (some leader) =>
        -- try the suggested leader
        if leader < c.size then
          let (r, state, out) := (code leader).propose (c.nodes leader) payload
          (r, (c.setNode leader state).enqueue out)
        else tryPropose payload c rest
      | .notLeader none => tryPropose payload c rest

/-- `Cluster::propose`. -/
def propose (c : Cluster σ) (payload : Payload) : ProposeResult × Cluster σ :=
  tryPropose code payload { c with commitLog := c.commitLog.recordProposal payload }
    (List.range c.size)

/-! ### Stepping -/

variable [Sha256]

/-- Hand one message to its target; `acc` is the cluster and what the nodes have sent so far. -/
def handOver (acc : Cluster σ × List NetworkMessage) (tmsg : NetworkMessage) :
    Option (Cluster σ × List NetworkMessage) :=
  let (c, newMessages) := acc
  if tmsg.target < c.size then
    let c := c.countDelivered
    ((code tmsg.target).handleMessage (c.nodes tmsg.target) tmsg).map fun (state, outgoing) =>
      (c.setNode tmsg.target state, newMessages ++ outgoing)
  else some (c, newMessages)

/-- One message of the batch of `step`. -/
def deliverOne (acc : Cluster σ × List NetworkMessage) (msg : NetworkMessage) :
    Option (Cluster σ × List NetworkMessage) :=
  let (c, newMessages) := acc
  let c := c.countSent
  let (deliver, faults) := c.faults.shouldDeliver msg
  let c := { c with faults := faults }
  if !deliver then some (c.countDropped, newMessages)
  else
    let isByzantine := c.faults.isByzantine msg.sender
    let tampered := c.faults.tamper msg
    if tampered.isEmpty then some (c.countDropped, newMessages)
    else tampered.foldlM (fun (c, newMessages) tmsg =>
      handOver code (if isByzantine then c.countTampered else c, newMessages) tmsg)
      (c, newMessages)

/-- `Cluster::step`. -/
def step (c : Cluster σ) : Option (Cluster σ) :=
  (c.pending.foldlM (deliverOne code) ({ c with pending := [] }, [])).map fun (c, newMessages) =>
    { c.enqueue newMessages with stats.totalSteps := c.stats.totalSteps + 1 }

omit [Sha256] in
/-- `Cluster::tick`. -/
def tick (c : Cluster σ) : Cluster σ :=
  (List.range c.size).foldl (fun c i =>
    let (state, outgoing) := (code i).tick (c.nodes i)
    (c.setNode i state).enqueue outgoing) c

/-- The cluster after a list of calls, and the results of its proposals. -/
def run (c : Cluster σ) : List ClusterCall → Option (List ProposeResult × Cluster σ)
  | [] => some ([], c)
  | .propose payload :: calls =>
    let (result, c) := c.propose code payload
    (run c calls).map fun r => (result :: r.1, r.2)
  | .step :: calls => (c.step code).bind fun c => run c calls
  | .tick :: calls => run (c.tick code) calls

omit [Sha256] in
/-- The payloads that a list of calls proposes. -/
def proposals (calls : List ClusterCall) : List Payload :=
  calls.filterMap fun call => match call with
    | .propose payload => some payload
    | _ => none

omit [Sha256] in
/-- A call of `propose` is a proposal. -/
@[simp] theorem proposals_cons_propose (p : Payload) (calls : List ClusterCall) :
    proposals (.propose p :: calls) = p :: proposals calls := rfl

/-! ### The first pending message -/

/-- What one message does to the nodes, and what they send. -/
def receive (size : ℕ) (faults : NetworkFaults) (nodes : NodeId → σ) (msg : NetworkMessage) :
    Option ((NodeId → σ) × List NetworkMessage) :=
  match faults.carried msg with
  | [] => some (nodes, [])
  | tmsg :: _ =>
    if tmsg.target < size then
      ((code tmsg.target).handleMessage (nodes tmsg.target) tmsg).map fun (state, outgoing) =>
        (Function.update nodes tmsg.target state, outgoing)
    else some (nodes, [])

variable {code}

/-- A message that is lost changes nothing. -/
theorem receive_of_lost {size : ℕ} {faults : NetworkFaults} {msg : NetworkMessage}
    (h : faults.carried msg = []) (nodes : NodeId → σ) :
    receive code size faults nodes msg = some (nodes, []) := by
  rw [receive, h]

/-- A message that arrives is handled by its target. -/
theorem receive_of_handled {size : ℕ} {faults : NetworkFaults} {nodes : NodeId → σ}
    {msg tmsg : NetworkMessage} {state : σ} {outgoing : List NetworkMessage}
    (h : faults.carried msg = [tmsg]) (ht : tmsg.target < size)
    (hhandle : (code tmsg.target).handleMessage (nodes tmsg.target) tmsg =
      some (state, outgoing)) :
    receive code size faults nodes msg =
      some (Function.update nodes tmsg.target state, outgoing) := by
  rw [receive, h]
  simp only [ht, if_true, hhandle, Option.map_some]

/-- Two clusters that differ in their nodes, pending messages and counts only. -/
structure Alike (c c' : Cluster σ) : Prop where
  size : c'.size = c.size
  faults : c'.faults = c.faults

omit [Sha256] in
/-- The relation is transitive. -/
theorem Alike.trans {c c' c'' : Cluster σ} (h : Alike c c') (h' : Alike c' c'') : Alike c c'' :=
  ⟨h'.size.trans h.size, h'.faults.trans h.faults⟩

omit [Sha256] in
/-- Handing a message over does to the nodes what `receive` says. -/
theorem handOver_eq (c : Cluster σ) (newMessages : List NetworkMessage)
    (tmsg : NetworkMessage) {nodes : NodeId → σ} {out : List NetworkMessage}
    (h : (if tmsg.target < c.size then
        ((code tmsg.target).handleMessage (c.nodes tmsg.target) tmsg).map fun (state, outgoing) =>
          (Function.update c.nodes tmsg.target state, outgoing)
      else some (c.nodes, [])) = some (nodes, out)) :
    ∃ c', handOver code (c, newMessages) tmsg = some (c', newMessages ++ out) ∧ Alike c c' ∧
      c'.nodes = nodes ∧ c'.pending = c.pending ∧
      c'.stats.messagesSent = c.stats.messagesSent := by
  unfold handOver
  by_cases ht : tmsg.target < c.size
  · rw [if_pos ht] at h
    obtain ⟨⟨state, outgoing⟩, hhandle, hr⟩ := Option.map_eq_some_iff.mp h
    rw [Prod.mk.injEq] at hr
    obtain ⟨rfl, rfl⟩ := hr
    simp only [ht, if_true, countDelivered, hhandle]
    exact ⟨_, rfl, ⟨rfl, rfl⟩, rfl, rfl, rfl⟩
  · rw [if_neg ht, Option.some.injEq, Prod.mk.injEq] at h
    obtain ⟨rfl, rfl⟩ := h
    simp only [ht, if_false, List.append_nil]
    exact ⟨_, rfl, ⟨rfl, rfl⟩, rfl, rfl, rfl⟩

/-- A message of the batch does what `receive` says. -/
theorem deliverOne_eq {c : Cluster σ} (hfaults : c.faults.Lossless)
    (newMessages : List NetworkMessage) {msg : NetworkMessage} {nodes : NodeId → σ}
    {out : List NetworkMessage} (h : receive code c.size c.faults c.nodes msg = some (nodes, out)) :
    ∃ c', deliverOne code (c, newMessages) msg = some (c', newMessages ++ out) ∧ Alike c c' ∧
      c'.nodes = nodes ∧ c'.pending = c.pending ∧
      c'.stats.messagesSent = c.stats.messagesSent + 1 := by
  have hsent : c.countSent.faults = c.faults := rfl
  simp only [deliverOne, hsent, hfaults.shouldDeliver, Bool.not_not]
  unfold receive NetworkFaults.carried at h
  -- the branches of `step`: isolated, dropped by a Byzantine sender, handed over
  by_cases hiso : (c.faults.isIsolated msg.sender || c.faults.isIsolated msg.target) = true
  · rw [if_pos hiso, Option.some.injEq, Prod.mk.injEq] at h
    obtain ⟨rfl, rfl⟩ := h
    rw [if_pos hiso, List.append_nil]
    exact ⟨_, rfl, ⟨rfl, rfl⟩, rfl, rfl, rfl⟩
  · rw [if_neg hiso] at h
    rw [if_neg hiso]
    by_cases hdrop : c.faults.drops msg.sender msg.payload = true
    · have hnil : c.faults.tamper msg = [] := by rw [FaultConfig.tamper_eq, if_pos hdrop]
      rw [hnil, Option.some.injEq, Prod.mk.injEq] at h
      obtain ⟨rfl, rfl⟩ := h
      rw [hnil, if_pos List.isEmpty_nil, List.append_nil]
      exact ⟨_, rfl, ⟨rfl, rfl⟩, rfl, rfl, rfl⟩
    · have hone : c.faults.tamper msg = [c.faults.alter msg] := by
        rw [FaultConfig.tamper_eq, if_neg hdrop]
      rw [hone] at h
      rw [hone, if_neg (by simp), List.foldlM_cons]
      -- counting the message as tampered changes nothing that `receive` looks at
      obtain ⟨c₁, hc₁, hsize, hf₁, hn₁, hp₁, hk₁⟩ : ∃ c₁ : Cluster σ,
          (if c.faults.isByzantine msg.sender then c.countSent.countTampered else c.countSent) =
            c₁ ∧ c₁.size = c.size ∧ c₁.faults = c.faults ∧ c₁.nodes = c.nodes ∧
          c₁.pending = c.pending ∧ c₁.stats.messagesSent = c.stats.messagesSent + 1 := by
        by_cases hb : c.faults.isByzantine msg.sender = true
        · exact ⟨_, if_pos hb, rfl, rfl, rfl, rfl, rfl⟩
        · exact ⟨_, if_neg hb, rfl, rfl, rfl, rfl, rfl⟩
      rw [← hsize, ← hn₁] at h
      obtain ⟨c', hc', halike, hnodes, hpending, hcount⟩ :=
        handOver_eq c₁ newMessages (c.faults.alter msg) h
      refine ⟨c', ?_, ⟨halike.size.trans hsize, halike.faults.trans hf₁⟩, hnodes,
        hpending.trans hp₁, hcount.trans hk₁⟩
      show (handOver code (if c.faults.isByzantine msg.sender
          then c.countSent.countTampered else c.countSent, newMessages) _).bind _ = _
      rw [hc₁, hc']
      rfl

variable (code) in
/-- **A step is one delivery for each pending message.**  `I` is about the nodes, what is left of
    the batch, what was sent in this step so far, and how many messages were counted as sent. -/
theorem step_counted
    {I : (NodeId → σ) → List NetworkMessage → List NetworkMessage → ℕ → Prop}
    {c : Cluster σ} (hfaults : c.faults.Lossless)
    (hI : ∀ nodes m q sent k, I nodes (m :: q) sent k → ∃ nodes' out,
      receive code c.size c.faults nodes m = some (nodes', out) ∧ I nodes' q (sent ++ out) (k + 1))
    (h : I c.nodes c.pending [] c.stats.messagesSent) :
    ∃ c', c.step code = some c' ∧ Alike c c' ∧ I c'.nodes [] c'.pending c'.stats.messagesSent := by
  have hloop : ∀ (ms : List NetworkMessage) (c₁ : Cluster σ) (newMessages : List NetworkMessage),
      Alike c c₁ → c₁.pending = [] → I c₁.nodes ms newMessages c₁.stats.messagesSent →
      ∃ c₂ newMessages', ms.foldlM (deliverOne code) (c₁, newMessages) = some (c₂, newMessages') ∧
        Alike c c₂ ∧ c₂.pending = [] ∧ I c₂.nodes [] newMessages' c₂.stats.messagesSent := by
    -- the accumulator of the fold: the cluster, and what was sent so far
    intro ms
    induction ms with
    | nil => exact fun c₁ newMessages ha hp hi => ⟨c₁, newMessages, rfl, ha, hp, hi⟩
    | cons m ms ih =>
      intro c₁ newMessages ha hp hi
      obtain ⟨nodes', out, hr, hi'⟩ := hI _ m ms newMessages _ hi
      rw [← ha.size, ← ha.faults] at hr
      obtain ⟨c₂, hc₂, ha₂, hn₂, hp₂, hk₂⟩ :=
        deliverOne_eq (by rw [ha.faults]; exact hfaults) newMessages hr
      rw [← hn₂, ← hk₂] at hi'
      obtain ⟨c₃, newMessages', hfold, hrest⟩ :=
        ih c₂ (newMessages ++ out) (ha.trans ha₂) (hp₂.trans hp) hi'
      refine ⟨c₃, newMessages', ?_, hrest⟩
      rw [List.foldlM_cons, hc₂]
      exact hfold
  obtain ⟨c₂, newMessages', hfold, ha, hp, hi⟩ :=
    hloop c.pending { c with pending := [] } [] ⟨rfl, rfl⟩ rfl h
  refine ⟨{ c₂.enqueue newMessages' with stats.totalSteps := c₂.stats.totalSteps + 1 }, ?_, ?_, ?_⟩
  · rw [step, hfold]
    rfl
  · exact ⟨ha.size, ha.faults⟩
  · show I c₂.nodes [] (c₂.pending ++ newMessages') c₂.stats.messagesSent
    rw [hp]
    exact hi

variable (code) in
/-- A step, without the count. -/
theorem step_of_batch {I : (NodeId → σ) → List NetworkMessage → List NetworkMessage → Prop}
    {c : Cluster σ} (hfaults : c.faults.Lossless)
    (hI : ∀ nodes m q sent, I nodes (m :: q) sent → ∃ nodes' out,
      receive code c.size c.faults nodes m = some (nodes', out) ∧ I nodes' q (sent ++ out))
    (h : I c.nodes c.pending []) :
    ∃ c', c.step code = some c' ∧ Alike c c' ∧ I c'.nodes [] c'.pending :=
  step_counted code (I := fun nodes q sent _ => I nodes q sent) hfaults
    (fun nodes m q sent _ hi => hI nodes m q sent hi) h

variable (code) in
/-- A step delivers the first pending message, again and again. -/
theorem step_of_front {I : (NodeId → σ) → List NetworkMessage → ℕ → Prop} {c : Cluster σ}
    (hfaults : c.faults.Lossless)
    (hI : ∀ nodes m q k, I nodes (m :: q) k → ∃ nodes' out,
      receive code c.size c.faults nodes m = some (nodes', out) ∧ I nodes' (q ++ out) (k + 1))
    (h : I c.nodes c.pending c.stats.messagesSent) :
    ∃ c', c.step code = some c' ∧ Alike c c' ∧ I c'.nodes c'.pending c'.stats.messagesSent := by
  refine step_counted code (I := fun nodes q sent k => I nodes (q ++ sent) k) hfaults
    (fun nodes m q sent k hi => ?_) (by rw [List.append_nil]; exact h)
  obtain ⟨nodes', out, hr, hi'⟩ := hI nodes m (q ++ sent) k hi
  exact ⟨nodes', out, hr, by rw [← List.append_assoc]; exact hi'⟩

omit [Sha256] in
variable (code) in
/-- **A tick** is one of every node, in order. -/
theorem tick_eq (c : Cluster σ) : Alike c (c.tick code) ∧
    (∀ i, (c.tick code).nodes i =
      if i < c.size then ((code i).tick (c.nodes i)).1 else c.nodes i) ∧
    (c.tick code).pending =
      c.pending ++ (List.range c.size).flatMap fun i => ((code i).tick (c.nodes i)).2 := by
  have hloop : ∀ k, ∃ c', (List.range k).foldl (fun c i =>
      ((c : Cluster σ).setNode i ((code i).tick (c.nodes i)).1).enqueue
        ((code i).tick (c.nodes i)).2) c = c' ∧ Alike c c' ∧
      (∀ i, c'.nodes i = if i < k then ((code i).tick (c.nodes i)).1 else c.nodes i) ∧
      c'.pending = c.pending ++ (List.range k).flatMap fun i => ((code i).tick (c.nodes i)).2 := by
    -- after `k` rounds of the loop the first `k` nodes have ticked
    intro k
    induction k with
    | zero => exact ⟨c, rfl, ⟨rfl, rfl⟩, fun i => rfl, (List.append_nil _).symm⟩
    | succ k ih =>
      obtain ⟨c', hfold, halike, hnodes, hpending⟩ := ih
      have hk : c'.nodes k = c.nodes k := by rw [hnodes, if_neg (lt_irrefl k)]
      refine ⟨(c'.setNode k ((code k).tick (c'.nodes k)).1).enqueue ((code k).tick (c'.nodes k)).2,
        by rw [List.range_succ, List.foldl_append, hfold]; rfl, ⟨halike.size, halike.faults⟩,
        fun i => ?_, ?_⟩
      · show Function.update c'.nodes k ((code k).tick (c'.nodes k)).1 i = _
        by_cases hi : i = k
        · subst hi
          rw [Function.update_self, hk, if_pos (Nat.lt_succ_self i)]
        · rw [Function.update_of_ne hi, hnodes]
          have hiff : i < k + 1 ↔ i < k :=
            ⟨fun h => lt_of_le_of_ne (Nat.le_of_lt_succ h) hi, Nat.lt_succ_of_lt⟩
          simp only [hiff]
      · show c'.pending ++ ((code k).tick (c'.nodes k)).2 = _
        rw [hpending, hk, List.range_succ, List.flatMap_append, List.append_assoc]
        simp
  obtain ⟨c', hfold, halike, hnodes, hpending⟩ := hloop c.size
  have htick : c.tick code = c' := hfold
  rw [htick]
  exact ⟨halike, hnodes, hpending⟩

omit [Sha256] in
/-- A proposal that node `0` accepts. -/
theorem propose_of_accepted {c : Cluster σ} (hpos : 0 < c.size) (h0 : c.faults.isIsolated 0 = false)
    {p : Payload} {s : σ} {out : List NetworkMessage}
    (h : (code 0).propose (c.nodes 0) p = (.accepted, s, out)) :
    ∃ c', c.propose code p = (.accepted, c') ∧ Alike c c' ∧
      c'.nodes = Function.update c.nodes 0 s ∧ c'.pending = c.pending ++ out ∧
      c'.stats = c.stats := by
  -- node `0` is asked first
  have hrange : List.range c.size = 0 :: (List.range (c.size - 1)).map Nat.succ := by
    rw [← List.range_succ_eq_map]
    congr 1
    omega
  rw [propose, hrange, tryPropose, if_neg (by simp [h0])]
  simp only [h]
  exact ⟨_, rfl, ⟨rfl, rfl⟩, rfl, rfl, rfl⟩

variable (code) in
/-- **Driving a cluster.**  What survives the proposals to node `0` and the deliveries of the first
    pending message, each of which is counted, survives every list of calls of `propose` and
    `step`, and all proposals are accepted. -/
theorem run_counted {I : List Payload → (NodeId → σ) → List NetworkMessage → ℕ → Prop}
    {size : ℕ} {faults : NetworkFaults} (hpos : 0 < size) (hfaults : faults.Lossless)
    (h0 : faults.isIsolated 0 = false)
    (hpropose : ∀ ps nodes q k p, I ps nodes q k → ∃ s out,
      (code 0).propose (nodes 0) p = (.accepted, s, out) ∧
        I (ps ++ [p]) (Function.update nodes 0 s) (q ++ out) k)
    (hfront : ∀ ps nodes m q k, I ps nodes (m :: q) k → ∃ nodes' out,
      receive code size faults nodes m = some (nodes', out) ∧ I ps nodes' (q ++ out) (k + 1))
    (calls : List ClusterCall) (hcalls : .tick ∉ calls) :
    ∀ ps (c : Cluster σ), c.size = size → c.faults = faults →
      I ps c.nodes c.pending c.stats.messagesSent →
      ∃ results c', c.run code calls = some (results, c') ∧ Alike c c' ∧
        (∀ r ∈ results, r = .accepted) ∧
        I (ps ++ proposals calls) c'.nodes c'.pending c'.stats.messagesSent := by
  induction calls with
  | nil =>
    intro ps c _ _ h
    exact ⟨[], c, rfl, ⟨rfl, rfl⟩, by simp, by rwa [proposals, List.filterMap_nil, List.append_nil]⟩
  | cons call calls ih =>
    intro ps c hsize hf h
    have hrest : .tick ∉ calls := fun hmem => hcalls (List.mem_cons_of_mem _ hmem)
    cases call with
    | tick => exact absurd List.mem_cons_self hcalls
    | propose p =>
      obtain ⟨s, out, hacc, hi⟩ := hpropose ps c.nodes c.pending _ p h
      obtain ⟨c₁, hc₁, ha, hn, hp, hk⟩ :=
        propose_of_accepted (by rw [hsize]; exact hpos) (by rw [hf]; exact h0) hacc
      obtain ⟨results, c', hrun, ha', hres, hi'⟩ := ih hrest (ps ++ [p]) c₁ (ha.size.trans hsize)
        (ha.faults.trans hf) (by rw [hn, hp, hk]; exact hi)
      refine ⟨.accepted :: results, c', ?_, ha.trans ha', ?_, ?_⟩
      · simp only [run, hc₁, hrun, Option.map_some]
      · intro r hr
        rcases List.mem_cons.mp hr with rfl | hr
        · rfl
        · exact hres r hr
      · rw [List.append_assoc] at hi'
        exact hi'
    | step =>
      obtain ⟨c₁, hc₁, ha, hi⟩ := step_of_front code (I := I ps) (by rw [hf]; exact hfaults)
        (by rw [hsize, hf]; exact hfront ps) h
      obtain ⟨results, c', hrun, ha', hres, hi'⟩ := ih hrest ps c₁ (ha.size.trans hsize)
        (ha.faults.trans hf) hi
      refine ⟨results, c', ?_, ha.trans ha', hres, hi'⟩
      rw [run, hc₁]
      exact hrun

variable (code) in
/-- A driven cluster, without the count. -/
theorem run_of_front {I : List Payload → (NodeId → σ) → List NetworkMessage → Prop}
    {size : ℕ} {faults : NetworkFaults} (hpos : 0 < size) (hfaults : faults.Lossless)
    (h0 : faults.isIsolated 0 = false)
    (hpropose : ∀ ps nodes q p, I ps nodes q → ∃ s out,
      (code 0).propose (nodes 0) p = (.accepted, s, out) ∧
        I (ps ++ [p]) (Function.update nodes 0 s) (q ++ out))
    (hfront : ∀ ps nodes m q, I ps nodes (m :: q) → ∃ nodes' out,
      receive code size faults nodes m = some (nodes', out) ∧ I ps nodes' (q ++ out))
    (calls : List ClusterCall) (hcalls : .tick ∉ calls) (ps : List Payload) (c : Cluster σ)
    (hsize : c.size = size) (hf : c.faults = faults) (h : I ps c.nodes c.pending) :
    ∃ results c', c.run code calls = some (results, c') ∧ Alike c c' ∧
      (∀ r ∈ results, r = .accepted) ∧ I (ps ++ proposals calls) c'.nodes c'.pending :=
  run_counted code (I := fun ps nodes q _ => I ps nodes q) hpos hfaults h0
    (fun ps nodes q _ p hi => hpropose ps nodes q p hi)
    (fun ps nodes m q _ hi => hfront ps nodes m q hi) calls hcalls ps c hsize hf h

end Cluster

end ConsensusBench
