import ConsensusBench.Schedule
import ConsensusBench.Pbft.Fifo
import ConsensusBench.HotStuff.Fifo
import ConsensusBench.Raft.Fifo

namespace ConsensusBench

/-!
# Conservation of messages

The statistics of the orchestrator against its queue.  `Audit` is a cluster together with a count
that the source does not keep: that of all messages ever enqueued.  Its operations are those of
the cluster, with the count at every `enqueue`.

* `Audit.perform_cluster` — the count changes nothing: an audited run is the run of the cluster.
* `Cluster.Addresses` — nodes send to members of the cluster only.
* `Audit.Sound` — the invariant, kept by every call (`Audit.Sound.call`), under all faults.
* `message_conservation` — so the books of all three protocols balance.
-/

variable {σ : Type}

/-! ### Calls with faults -/

/-- The calls on a cluster, with those that exchange its faults.  `clear_faults` takes a generator
    with fresh entropy. -/
inductive OrchestratorCall where
  | propose (payload : Payload)
  | step
  | tick
  | runToCompletion (maxSteps : ℕ)
  | setFaults (faults : NetworkFaults)
  | clearFaults (entropy : ℕ → ℚ)

namespace Cluster

/-- `Cluster::clear_faults`. -/
def clearFaults (c : Cluster σ) (entropy : ℕ → ℚ) : Cluster σ :=
  { c with faults := { rng := entropy } }

variable (code : NodeId → ConsensusNode σ) [Sha256]

/-- One call; `none` where a node panics. -/
def call (c : Cluster σ) : OrchestratorCall → Option (Cluster σ)
  | .propose payload => some (c.propose code payload).2
  | .step => c.step code
  | .tick => some (c.tick code)
  | .runToCompletion maxSteps => (runToCompletion code c maxSteps).map Prod.snd
  | .setFaults faults => some (c.setFaults faults)
  | .clearFaults entropy => some (c.clearFaults entropy)

/-- The cluster after a list of calls. -/
def perform (c : Cluster σ) (calls : List OrchestratorCall) : Option (Cluster σ) :=
  calls.foldlM (call code) c

end Cluster

/-! ### Audited clusters -/

/-- A cluster with the number of messages that were ever enqueued. -/
structure Audit (σ : Type) where
  cluster : Cluster σ
  enqueued : ℕ

namespace Audit

/-- The audit of a cluster in which nothing was enqueued yet. -/
def start (c : Cluster σ) : Audit σ := ⟨c, 0⟩

/-- `Cluster::enqueue`, counted. -/
def enqueue (a : Audit σ) (messages : List NetworkMessage) : Audit σ where
  cluster := a.cluster.enqueue messages
  enqueued := a.enqueued + messages.length

/-- A change of the cluster that enqueues nothing. -/
def update (a : Audit σ) (f : Cluster σ → Cluster σ) : Audit σ := { a with cluster := f a.cluster }

variable (code : NodeId → ConsensusNode σ)

/-- `tryPropose`, counted. -/
def tryPropose (payload : Payload) (a : Audit σ) : List NodeId → Audit σ
  | [] => a
  | i :: rest =>
    if a.cluster.faults.isIsolated i then tryPropose payload a rest
    else
      let (result, state, outgoing) := (code i).propose (a.cluster.nodes i) payload
      let a := a.update fun c => c.setNode i state
      match result with
      | .accepted => a.enqueue outgoing
      | .notLeader (some leader) =>
        if leader < a.cluster.size then
          let (_, state, out) := (code leader).propose (a.cluster.nodes leader) payload
          (a.update fun c => c.setNode leader state).enqueue out
        else tryPropose payload a rest
      | .notLeader none => tryPropose payload a rest

/-- `Cluster::propose`, counted. -/
def propose (a : Audit σ) (payload : Payload) : Audit σ :=
  tryPropose code payload
    (a.update fun c => { c with commitLog := c.commitLog.recordProposal payload })
    (List.range a.cluster.size)

/-- `Cluster::tick`, counted. -/
def tick (a : Audit σ) : Audit σ :=
  (List.range a.cluster.size).foldl (fun a i =>
    let (state, outgoing) := (code i).tick (a.cluster.nodes i)
    (a.update fun c => c.setNode i state).enqueue outgoing) a

variable [Sha256]

/-- `Cluster::step`, counted: what the nodes answer is enqueued at its end. -/
def step (a : Audit σ) : Option (Audit σ) :=
  (a.cluster.pending.foldlM (Cluster.deliverOne code) ({ a.cluster with pending := [] }, [])).map
    fun (c, newMessages) =>
      ((a.update fun _ => c).enqueue newMessages).update
        fun c => { c with stats.totalSteps := c.stats.totalSteps + 1 }

/-- `Cluster::run_to_completion`, counted. -/
def runToCompletion (a : Audit σ) : ℕ → Option (Audit σ)
  | 0 => some a
  | maxSteps + 1 =>
    if a.cluster.pending.isEmpty then some a
    else (a.step code).bind fun a => runToCompletion a maxSteps

/-- One call, counted. -/
def call (a : Audit σ) : OrchestratorCall → Option (Audit σ)
  | .propose payload => some (a.propose code payload)
  | .step => a.step code
  | .tick => some (a.tick code)
  | .runToCompletion maxSteps => runToCompletion code a maxSteps
  | .setFaults faults => some (a.update fun c => c.setFaults faults)
  | .clearFaults entropy => some (a.update fun c => c.clearFaults entropy)

/-- A list of calls, counted. -/
def perform (a : Audit σ) (calls : List OrchestratorCall) : Option (Audit σ) :=
  calls.foldlM (call code) a

/-! ### The count changes nothing -/

section Erasure

variable {code}

omit [Sha256] in
/-- Proposing to one node after the other, audited. -/
theorem tryPropose_cluster (payload : Payload) (ids : List NodeId) (a : Audit σ) :
    (tryPropose code payload a ids).cluster =
      (Cluster.tryPropose code payload a.cluster ids).2 := by
  induction ids generalizing a with
  | nil => rfl
  | cons i ids ih =>
    rw [tryPropose, Cluster.tryPropose]
    split
    · exact ih a
    · obtain ⟨result, state, outgoing⟩ := (code i).propose (a.cluster.nodes i) payload
      dsimp only
      cases result with
      | accepted => rfl
      | notLeader redirect =>
        cases redirect with
        | none => exact ih _
        | some leader =>
          by_cases hlt : leader < a.cluster.size
          · simp only [update, enqueue, Cluster.setNode, hlt, if_true]
          · simp only [update, Cluster.setNode, hlt, if_false]
            exact ih _

omit [Sha256] in
/-- Proposing, audited. -/
theorem propose_cluster (a : Audit σ) (payload : Payload) :
    (a.propose code payload).cluster = (a.cluster.propose code payload).2 :=
  tryPropose_cluster payload _ _

omit [Sha256] in
/-- Ticking, audited. -/
theorem tick_cluster (a : Audit σ) : (a.tick code).cluster = a.cluster.tick code := by
  have hloop : ∀ (ids : List NodeId) (a : Audit σ),
      (ids.foldl (fun a i => (a.update fun c =>
        c.setNode i ((code i).tick (a.cluster.nodes i)).1).enqueue
          ((code i).tick (a.cluster.nodes i)).2) a).cluster =
      ids.foldl (fun c i => (c.setNode i ((code i).tick (c.nodes i)).1).enqueue
        ((code i).tick (c.nodes i)).2) a.cluster := by
    intro ids
    induction ids with
    | nil => exact fun a => rfl
    | cons i ids ih => exact fun a => ih _
  exact hloop _ a

/-- A step, audited. -/
theorem step_cluster (a : Audit σ) : (a.step code).map cluster = a.cluster.step code := by
  rw [step, Cluster.step, Option.map_map]
  rfl

/-- Running to completion, audited. -/
theorem runToCompletion_cluster (maxSteps : ℕ) (a : Audit σ) :
    (runToCompletion code a maxSteps).map cluster =
      (Cluster.runToCompletion code a.cluster maxSteps).map Prod.snd := by
  induction maxSteps generalizing a with
  | zero => rfl
  | succ maxSteps ih =>
    rw [runToCompletion, Cluster.runToCompletion]
    split
    · rfl
    · rw [← step_cluster, Option.map_bind, Option.map_bind, Option.bind_map]
      congr 1
      funext a'
      show (runToCompletion code a' maxSteps).map cluster =
        ((Cluster.runToCompletion code a'.cluster maxSteps).map _).map Prod.snd
      rw [ih, Option.map_map]
      rfl

/-- **An audit does not change what a call does to the cluster.** -/
theorem call_cluster (a : Audit σ) (call : OrchestratorCall) :
    (a.call code call).map cluster = a.cluster.call code call := by
  cases call with
  | propose payload => exact congrArg some (propose_cluster a payload)
  | step => exact step_cluster a
  | tick => exact congrArg some (tick_cluster a)
  | runToCompletion maxSteps => exact runToCompletion_cluster maxSteps a
  | setFaults faults => rfl
  | clearFaults entropy => rfl

/-- **An audited run is the run of the cluster.** -/
theorem perform_cluster (calls : List OrchestratorCall) (a : Audit σ) :
    (a.perform code calls).map cluster = a.cluster.perform code calls := by
  induction calls generalizing a with
  | nil => rfl
  | cons call calls ih =>
    rw [perform, Cluster.perform, List.foldlM_cons, List.foldlM_cons, ← call_cluster]
    show ((a.call code call).bind fun a' => a'.perform code calls).map cluster =
      ((a.call code call).map cluster).bind fun c => c.perform code calls
    rw [Option.map_bind, Option.bind_map]
    congr 1
    funext a'
    exact ih a'

end Erasure

end Audit

/-! ### Members of the cluster -/

/-- The message is one between members of a cluster of `n`. -/
structure Internal (n : ℕ) (m : NetworkMessage) : Prop where
  sender : m.sender < n
  target : m.target < n

/-- A message on the way stays one between members, whatever a Byzantine sender does to it. -/
theorem Internal.tamper [Sha256] {n : ℕ} {m m' : NetworkMessage} {cfg : FaultConfig}
    (h : Internal n m) (hm : m' ∈ cfg.tamper m) : Internal n m' := by
  obtain ⟨hsender, htarget, _⟩ := cfg.frame_of_mem hm
  constructor
  · rw [hsender]
    exact h.sender
  · rw [htarget]
    exact h.target

/-- What the members of a cluster of `n` send is for members, if what reaches them is. -/
structure Cluster.Addresses (code : NodeId → ConsensusNode σ) (n : ℕ) : Prop where
  propose : ∀ i < n, ∀ s p, ∀ m ∈ ((code i).propose s p).2.2, Internal n m
  handle : ∀ i < n, ∀ s msg r, Internal n msg → (code i).handleMessage s msg = some r →
    ∀ m ∈ r.2, Internal n m
  tick : ∀ i < n, ∀ s, ∀ m ∈ ((code i).tick s).2, Internal n m

/-- Members of a cluster are found in a list with more messages between members. -/
private theorem internal_append {n : ℕ} {l l' : List NetworkMessage} (h : ∀ m ∈ l, Internal n m)
    (h' : ∀ m ∈ l', Internal n m) : ∀ m ∈ l ++ l', Internal n m := by
  intro m hm
  rcases List.mem_append.mp hm with hm | hm
  · exact h m hm
  · exact h' m hm

/-! ### The balance of a batch -/

/-- Every message that left the queue was delivered or dropped, and the tampered ones are among
    those delivered. -/
structure ClusterStats.Settled (s : ClusterStats) : Prop where
  sent : s.messagesSent = s.messagesDelivered + s.messagesDropped
  tampered : s.messagesTampered ≤ s.messagesDelivered

namespace ClusterStats.Settled

variable {s : ClusterStats} (h : s.Settled)

include h

/-- A message is dropped. -/
theorem drop : ({ s with
    messagesSent := s.messagesSent + 1
    messagesDropped := s.messagesDropped + 1 } : ClusterStats).Settled where
  sent := by
    dsimp only
    rw [h.sent, Nat.add_assoc]
  tampered := h.tampered

/-- A message is delivered, as tampered with or not. -/
theorem deliver {k : ℕ} (hk : k ≤ 1) : ({ s with
    messagesSent := s.messagesSent + 1
    messagesTampered := s.messagesTampered + k
    messagesDelivered := s.messagesDelivered + 1 } : ClusterStats).Settled where
  sent := by
    dsimp only
    rw [h.sent]
    omega
  tampered := Nat.add_le_add h.tampered hk

end ClusterStats.Settled

namespace Cluster

variable {code : NodeId → ConsensusNode σ} [Sha256] {n : ℕ} {c c' : Cluster σ}
variable {sent sent' : List NetworkMessage} {msg : NetworkMessage}

omit [Sha256] in
/-- A message for a member is delivered. -/
theorem handOver_settled (h : handOver code (c, sent) msg = some (c', sent'))
    (hcode : Addresses code n) (hsize : c.size = n) (hmsg : Internal n msg)
    (hsent : ∀ m ∈ sent, Internal n m) :
    c'.size = n ∧ c'.pending = c.pending ∧ c'.stats = c.countDelivered.stats ∧
      ∀ m ∈ sent', Internal n m := by
  have ht : msg.target < c.size := by
    rw [hsize]
    exact hmsg.target
  unfold handOver at h
  simp only [ht, if_true, Option.map_eq_some_iff] at h
  obtain ⟨r, hr, heq⟩ := h
  cases heq
  exact ⟨hsize, rfl, rfl,
    internal_append hsent (hcode.handle _ hmsg.target _ msg r hmsg hr)⟩

/-- **One message of the batch** leaves the queue by one exit, and is counted there. -/
theorem deliverOne_settled (hcode : Addresses code n) (hsize : c.size = n) (hmsg : Internal n msg)
    (hc : c.stats.Settled) (hsent : ∀ m ∈ sent, Internal n m)
    (h : deliverOne code (c, sent) msg = some (c', sent')) :
    c'.size = n ∧ c'.pending = c.pending ∧ c'.stats.Settled ∧
      c'.stats.messagesSent = c.stats.messagesSent + 1 ∧ ∀ m ∈ sent', Internal n m := by
  unfold deliverOne at h
  dsimp only at h
  split at h
  · cases h
    exact ⟨hsize, rfl, hc.drop, rfl, hsent⟩
  · rcases AsyncNet.System.eq_nil_or_singleton
        (FaultConfig.tamper_length_le (c.countSent.faults.shouldDeliver msg).2.toFaultConfig msg)
      with hnil | ⟨tmsg, hone⟩
    · rw [hnil, List.isEmpty_nil, if_pos rfl] at h
      cases h
      exact ⟨hsize, rfl, hc.drop, rfl, hsent⟩
    · -- tampering yields one message, for the same member
      have hinternal : Internal n tmsg :=
        hmsg.tamper (by rw [hone]; exact List.mem_singleton_self _)
      simp only [hone, List.isEmpty_cons, Bool.false_eq_true, if_false, List.foldlM_cons,
        List.foldlM_nil, Option.bind_eq_bind, Option.pure_def, Option.bind_fun_some] at h
      split at h
      · obtain ⟨hsize', hpending, hstats, hsent'⟩ :=
          handOver_settled h hcode hsize hinternal hsent
        rw [hstats]
        exact ⟨hsize', hpending, hc.deliver le_rfl, rfl, hsent'⟩
      · obtain ⟨hsize', hpending, hstats, hsent'⟩ :=
          handOver_settled h hcode hsize hinternal hsent
        rw [hstats]
        exact ⟨hsize', hpending, hc.deliver (k := 0) (Nat.zero_le 1), rfl, hsent'⟩

/-- **A batch** is counted message by message. -/
theorem batch_settled (hcode : Addresses code n) (batch : List NetworkMessage) :
    ∀ {c : Cluster σ} {sent : List NetworkMessage}, c.size = n → (∀ m ∈ batch, Internal n m) →
      c.stats.Settled → (∀ m ∈ sent, Internal n m) →
      batch.foldlM (deliverOne code) (c, sent) = some (c', sent') →
      c'.size = n ∧ c'.pending = c.pending ∧ c'.stats.Settled ∧
        c'.stats.messagesSent = c.stats.messagesSent + batch.length ∧
        ∀ m ∈ sent', Internal n m := by
  induction batch with
  | nil =>
    intro c sent hsize _ hc hsent h
    cases h
    exact ⟨hsize, rfl, hc, rfl, hsent⟩
  | cons msg batch ih =>
    intro c sent hsize hbatch hc hsent h
    rw [List.foldlM_cons, Option.bind_eq_bind, Option.bind_eq_some_iff] at h
    obtain ⟨⟨c₁, sent₁⟩, hone, hrest⟩ := h
    obtain ⟨hsize₁, hpending₁, hc₁, hcount₁, hsent₁⟩ :=
      deliverOne_settled hcode hsize (hbatch msg List.mem_cons_self) hc hsent hone
    obtain ⟨hsize', hpending', hc', hcount', hsent'⟩ :=
      ih hsize₁ (fun m hm => hbatch m (List.mem_cons_of_mem _ hm)) hc₁ hsent₁ hrest
    refine ⟨hsize', hpending'.trans hpending₁, hc', ?_, hsent'⟩
    rw [hcount', hcount₁, List.length_cons]
    omega

end Cluster

/-! ### The balance of a run -/

namespace Audit

/-- **The books balance.** -/
structure Balanced (a : Audit σ) : Prop where
  settled : a.cluster.stats.Settled
  enqueued : a.enqueued = a.cluster.stats.messagesSent + a.cluster.pending.length

/-- The books of a cluster of `n` balance, and all that is pending is between members. -/
structure Sound (n : ℕ) (a : Audit σ) : Prop extends Balanced a where
  size : a.cluster.size = n
  pending : ∀ m ∈ a.cluster.pending, Internal n m

/-- An audit of a new cluster is sound. -/
theorem sound_start (n : ℕ) (init : NodeId → σ) (rng : ℕ → ℚ) :
    Sound n (start (Cluster.new n init rng)) where
  settled := ⟨rfl, le_rfl⟩
  enqueued := rfl
  size := rfl
  pending m hm := absurd hm (by simp [start, Cluster.new])

variable {code : NodeId → ConsensusNode σ} {n : ℕ} {a a' : Audit σ}

/-- Enqueueing messages between members. -/
theorem Sound.enqueue (h : a.Sound n) {messages : List NetworkMessage}
    (hm : ∀ m ∈ messages, Internal n m) : (a.enqueue messages).Sound n where
  settled := h.settled
  enqueued := by
    show a.enqueued + messages.length =
      a.cluster.stats.messagesSent + (a.cluster.pending ++ messages).length
    rw [h.enqueued, List.length_append, Nat.add_assoc]
  size := h.size
  pending := internal_append h.pending hm

/-- A change of the nodes, the faults or the commit log. -/
theorem Sound.update (h : a.Sound n) {f : Cluster σ → Cluster σ}
    (hsize : (f a.cluster).size = a.cluster.size)
    (hpending : (f a.cluster).pending = a.cluster.pending)
    (hstats : (f a.cluster).stats = a.cluster.stats) : (a.update f).Sound n where
  settled := by
    show (f a.cluster).stats.Settled
    rw [hstats]
    exact h.settled
  enqueued := by
    show a.enqueued = (f a.cluster).stats.messagesSent + (f a.cluster).pending.length
    rw [hstats, hpending]
    exact h.enqueued
  size := hsize.trans h.size
  pending := by
    show ∀ m ∈ (f a.cluster).pending, Internal n m
    rw [hpending]
    exact h.pending

/-- Proposing to one node after the other keeps an audit sound. -/
theorem Sound.tryPropose (hcode : Cluster.Addresses code n) (payload : Payload)
    (ids : List NodeId) :
    ∀ {a : Audit σ}, a.Sound n → (∀ i ∈ ids, i < n) → (tryPropose code payload a ids).Sound n := by
  induction ids with
  | nil => exact fun h _ => h
  | cons i ids ih =>
    intro a h hids
    have hi : i < n := hids i List.mem_cons_self
    have hrest : ∀ j ∈ ids, j < n := fun j hj => hids j (List.mem_cons_of_mem _ hj)
    rw [Audit.tryPropose]
    split
    · exact ih h hrest
    · have hout := hcode.propose i hi (a.cluster.nodes i) payload
      have hset : ∀ state, (a.update fun c => c.setNode i state).Sound n :=
        fun state => h.update rfl rfl rfl
      dsimp only
      split
      · exact (hset _).enqueue hout
      · split
        · rename_i leader _ hlt
          have hleader : leader < n := by
            rw [← h.size]
            exact hlt
          exact ((hset _).update rfl rfl rfl).enqueue (hcode.propose leader hleader _ payload)
        · exact ih (hset _) hrest
      · exact ih (hset _) hrest

/-- Proposing keeps an audit sound. -/
theorem Sound.propose (hcode : Cluster.Addresses code n) (h : a.Sound n) (payload : Payload) :
    (a.propose code payload).Sound n := by
  refine Sound.tryPropose hcode payload _ (h.update rfl rfl rfl) fun i hi => ?_
  rw [← h.size]
  exact List.mem_range.mp hi

/-- Ticking keeps an audit sound. -/
theorem Sound.tick (hcode : Cluster.Addresses code n) (h : a.Sound n) :
    (a.tick code).Sound n := by
  have hloop : ∀ (ids : List NodeId) (a : Audit σ), a.Sound n → (∀ i ∈ ids, i < n) →
      (ids.foldl (fun a i => (a.update fun c =>
        c.setNode i ((code i).tick (a.cluster.nodes i)).1).enqueue
          ((code i).tick (a.cluster.nodes i)).2) a).Sound n := by
    intro ids
    induction ids with
    | nil => exact fun a h _ => h
    | cons i ids ih =>
      intro a h hids
      exact ih _ ((h.update rfl rfl rfl).enqueue (hcode.tick i (hids i List.mem_cons_self) _))
        fun j hj => hids j (List.mem_cons_of_mem _ hj)
  refine hloop (List.range a.cluster.size) a h fun i hi => ?_
  rw [← h.size]
  exact List.mem_range.mp hi

variable [Sha256]

/-- **A step keeps an audit sound**: every message is counted once, wherever it goes. -/
theorem Sound.step (hcode : Cluster.Addresses code n) (h : a.Sound n)
    (hstep : a.step code = some a') : a'.Sound n := by
  rw [Audit.step, Option.map_eq_some_iff] at hstep
  obtain ⟨⟨c, sent⟩, hbatch, rfl⟩ := hstep
  obtain ⟨hsize, hpending, hsettled, hcount, hsent⟩ := Cluster.batch_settled hcode _
    (c := { a.cluster with pending := [] }) h.size h.pending h.settled (by simp) hbatch
  -- the queue was emptied, and all that it held was counted
  refine ⟨⟨⟨hsettled.sent, hsettled.tampered⟩, ?_⟩, hsize, ?_⟩
  · show a.enqueued + sent.length = c.stats.messagesSent + (c.pending ++ sent).length
    rw [h.enqueued, hcount, hpending]
    simp
  · show ∀ m ∈ c.pending ++ sent, Internal n m
    rw [hpending]
    exact hsent

/-- Running to completion keeps an audit sound. -/
theorem Sound.runToCompletion (hcode : Cluster.Addresses code n) (maxSteps : ℕ) :
    ∀ {a : Audit σ}, a.Sound n → runToCompletion code a maxSteps = some a' → a'.Sound n := by
  induction maxSteps with
  | zero =>
    intro a h hrun
    cases hrun
    exact h
  | succ maxSteps ih =>
    intro a h hrun
    rw [Audit.runToCompletion] at hrun
    split at hrun
    · cases hrun
      exact h
    · obtain ⟨a₁, hstep, hrest⟩ := Option.bind_eq_some_iff.mp hrun
      exact ih (h.step hcode hstep) hrest

/-- **Every call** keeps the books. -/
theorem Sound.call (hcode : Cluster.Addresses code n) (h : a.Sound n) (call : OrchestratorCall)
    (hcall : a.call code call = some a') : a'.Sound n := by
  cases call with
  | propose payload =>
    cases hcall
    exact h.propose hcode payload
  | step => exact h.step hcode hcall
  | tick =>
    cases hcall
    exact h.tick hcode
  | runToCompletion maxSteps => exact h.runToCompletion hcode maxSteps hcall
  | setFaults faults =>
    cases hcall
    exact h.update rfl rfl rfl
  | clearFaults entropy =>
    cases hcall
    exact h.update rfl rfl rfl

/-- **Every run** keeps the books. -/
theorem Sound.perform (hcode : Cluster.Addresses code n) (calls : List OrchestratorCall) :
    ∀ {a : Audit σ}, a.Sound n → a.perform code calls = some a' → a'.Sound n := by
  induction calls with
  | nil =>
    intro a h hrun
    cases hrun
    exact h
  | cons call calls ih =>
    intro a h hrun
    rw [Audit.perform, List.foldlM_cons] at hrun
    obtain ⟨a₁, hcall, hrest⟩ := Option.bind_eq_some_iff.mp hrun
    exact ih (h.call hcode call hcall) hrest

end Audit

/-! ### The protocols -/

section Protocols

variable [Sha256] {n : ℕ} {i : NodeId}

/-- PBFT nodes only broadcast. -/
theorem Pbft.Effect.internal {s s' : PbftState} {c : AsyncNet.Cause Call NetworkMessage}
    {out : List NetworkMessage} (hi : i < n) (h : Pbft.Effect (Pbft.node n i) s c s' out) :
    ∀ m ∈ out, Internal n m := by
  have hall : ∀ x, ∀ m ∈ (Pbft.node n i).broadcastPbft x, Internal n m := by
    intro x m hm
    obtain ⟨j, hj, _, rfl⟩ := Pbft.mem_broadcastPbft.mp hm
    exact ⟨hi, hj⟩
  have hnone : ∀ m ∈ ([] : List NetworkMessage), Internal n m := by simp
  cases h with
  | ignore => exact hnone
  | poll => exact hnone
  | tickDown => exact hnone
  | timeout => exact hall _
  | assign => exact internal_append (hall _) (hall _)
  | accept => exact hall _
  | countPrepare => exact hnone
  | prepare => exact hall _
  | countCommit => exact hnone
  | commitNothing => exact hnone
  | commit => exact hnone
  | vote _ _ _ _ _ _ _ _ hvotes => exact fun m hm => hall _ m (Pbft.mem_of_joined hm hvotes)
  | install _ _ _ _ _ _ _ _ hvotes =>
    exact internal_append (fun m hm => hall _ m (Pbft.mem_of_joined hm hvotes)) (hall _)
  | adopt => exact hnone

/-- PBFT nodes write to other nodes of the cluster only. -/
theorem Pbft.addresses (n : ℕ) : Cluster.Addresses (Pbft.code n) n where
  propose i hi s p := (Pbft.propose_effect (Pbft.node n i) s p).internal hi
  handle i hi s msg r _ hr := by
    cases hr
    exact (Pbft.handleMessage_effect (Pbft.node n i) s msg).internal hi
  tick i hi s := (Pbft.tick_effect (Pbft.node n i) s).internal hi

/-- HotStuff nodes broadcast, or write to the leader of a view. -/
theorem HotStuff.Effect.internal {s s' : HotStuffState} {c : AsyncNet.Cause Call NetworkMessage}
    {out : List NetworkMessage} (hi : i < n)
    (h : HotStuff.Effect (HotStuff.node n i) s c s' out) : ∀ m ∈ out, Internal n m := by
  have hall : ∀ x, ∀ m ∈ (HotStuff.node n i).broadcastHotstuff x, Internal n m := by
    intro x m hm
    obtain ⟨j, hj, _, rfl⟩ := HotStuff.mem_broadcastHotstuff.mp hm
    exact ⟨hi, hj⟩
  have hnone : ∀ m ∈ ([] : List NetworkMessage), Internal n m := by simp
  -- the leader of a view is a member
  have hleader : ∀ v x, ∀ m ∈ [(HotStuff.node n i).msgTo
      ((HotStuff.node n i).leaderForView v) x], Internal n m := by
    intro v x m hm
    rw [List.mem_singleton.mp hm]
    exact ⟨hi, Nat.mod_lt v (Nat.zero_lt_of_lt hi)⟩
  cases h with
  | ignore => exact hnone
  | poll => exact hnone
  | tickDown => exact hnone
  | timeout => exact hleader _ _
  | assign => exact hall _
  | accept => exact hleader _ _
  | count => exact hnone
  | certify => exact hall _
  | learn => exact hnone
  | advance => exact hleader _ _
  | decide => exact hnone
  | vote => exact hnone
  | install => exact hnone

/-- HotStuff nodes write to other nodes of the cluster only. -/
theorem HotStuff.addresses (n : ℕ) : Cluster.Addresses (HotStuff.code n) n where
  propose i hi s p := (HotStuff.propose_effect (HotStuff.node n i) s p).internal hi
  handle i hi s msg r _ hr := by
    cases hr
    exact (HotStuff.handleMessage_effect (HotStuff.node n i) s msg).internal hi
  tick i hi s := (HotStuff.tick_effect (HotStuff.node n i) s).internal hi

omit [Sha256] in
/-- Raft nodes broadcast, or write back to the sender of the message they handle. -/
theorem Raft.Effect.internal {s s' : RaftState} {c : AsyncNet.Cause Call NetworkMessage}
    {out : List NetworkMessage} (hi : i < n) (hc : ∀ m, c = .recv m → Internal n m)
    (h : Raft.Effect (Raft.node n i) s c s' out) : ∀ m ∈ out, Internal n m := by
  have hnone : ∀ m ∈ ([] : List NetworkMessage), Internal n m := by simp
  have hfeed : ∀ s, ∀ m ∈ (Raft.node n i).broadcastAppendEntries s, Internal n m := by
    intro s m hm
    obtain ⟨j, hj, _, rfl⟩ := Raft.mem_broadcastAppendEntries.mp hm
    exact ⟨hi, hj⟩
  have hback : ∀ m x, c = .recv m → ∀ m' ∈ [(Raft.node n i).msgTo m.sender x],
      Internal n m' := by
    intro m x hm m' hm'
    rw [List.mem_singleton.mp hm']
    exact ⟨hi, (hc m hm).sender⟩
  cases h with
  | refuse => exact hnone
  | append => exact hfeed _
  | poll => exact hnone
  | heartbeatDown => exact hnone
  | electionDown => exact hnone
  | heartbeat => exact hfeed _
  | stand =>
    intro m hm
    obtain ⟨j, hj, rfl⟩ := List.mem_map.mp hm
    exact ⟨hi, (mem_peerIds.mp hj).1⟩
  | deny => exact hback _ _ rfl
  | grant => exact hback _ _ rfl
  | stepDown => exact hnone
  | discard => exact hnone
  | countVote => exact hnone
  | win => exact hfeed _
  | reject => exact hback _ _ rfl
  | miss => exact hback _ _ rfl
  | conflict => exact hback _ _ rfl
  | accept => exact hback _ _ rfl
  | record => exact hnone
  | commit => exact hnone
  | retry => exact hback _ _ rfl

omit [Sha256] in
/-- Raft nodes write to other nodes of the cluster only. -/
theorem Raft.addresses (n : ℕ) : Cluster.Addresses (Raft.code n) n where
  propose i hi s p := (Raft.propose_effect (Raft.node n i) s p).internal hi (by simp)
  handle i hi s msg r hmsg hr :=
    (Raft.handleMessage_effect (Raft.node n i) s hr).internal hi fun m hm => by
      cases hm
      exact hmsg
  tick i hi s := (Raft.tick_effect (Raft.node n i) s).internal hi (by simp)

/-- All calls on a cluster keep the balance of its books, which count every message once. -/
def Conserving (code : NodeId → ConsensusNode σ) (c : Cluster σ) : Prop :=
  ∀ calls c', c.perform code calls = some c' →
    ∃ a, (Audit.start c).perform code calls = some a ∧ a.cluster = c' ∧ a.Balanced

/-- A new cluster whose nodes write to members only. -/
theorem Cluster.Addresses.conserving {code : NodeId → ConsensusNode σ}
    (h : Cluster.Addresses code n) (init : NodeId → σ) (rng : ℕ → ℚ) :
    Conserving code (Cluster.new n init rng) := by
  intro calls c' hrun
  rw [show Cluster.new n init rng = (Audit.start (Cluster.new n init rng)).cluster from rfl,
    ← Audit.perform_cluster] at hrun
  obtain ⟨a, ha, rfl⟩ := Option.map_eq_some_iff.mp hrun
  exact ⟨a, ha, rfl, ((Audit.sound_start n init rng).perform h calls ha).toBalanced⟩

/-- **Conservation of messages**, in clusters of all protocols, whatever is called and whatever
    faults are injected on the way. -/
theorem message_conservation (n : ℕ) (rngs : NodeId → Raft.StdRng) (rng : ℕ → ℚ) :
    Conserving (Pbft.code n) (Pbft.newCluster n rng) ∧
    Conserving (HotStuff.code n) (HotStuff.newCluster n rng) ∧
    Conserving (Raft.code n) (Raft.newCluster n rngs rng) ∧
    Conserving (Raft.code n) (Raft.newClusterWithLeader n rngs rng) :=
  ⟨(Pbft.addresses n).conserving _ rng, (HotStuff.addresses n).conserving _ rng,
    (Raft.addresses n).conserving _ rng, (Raft.addresses n).conserving _ rng⟩

/-- Node `0` corrupts digests and drops its `Commit`s, node `3` is isolated. -/
def crooked : NetworkFaults where
  byzantineNodes := (∅ : HashMap NodeId (List ByzantineBehavior)).insert 0
    [.corruptDigest, .selectiveDrop [.pbftCommit]]
  isolatedNodes := {3}
  rng _ := 0

/-- Four nodes under these faults for one proposal, and under none for the next. -/
def crookedCalls : List OrchestratorCall :=
  [.setFaults crooked, .propose ⟨[0x70]⟩, .runToCompletion 100, .clearFaults fun _ => 0,
    .propose ⟨[0x71]⟩, .step, .tick]

omit [Sha256] in
/-- Messages are tampered with, dropped and still pending, and the books balance. -/
theorem message_conservation_four : ∃ a : Audit PbftState,
    @Audit.perform _ (@Pbft.code Sha256.sample 4) Sha256.sample
      (Audit.start (Pbft.newCluster 4 fun _ => 0)) crookedCalls = some a ∧ a.Balanced ∧
    (a.enqueued, a.cluster.stats.messagesDropped, a.cluster.stats.messagesTampered,
      a.cluster.pending.length) = (36, 9, 4, 9) := by
  have hnumbers : (@Audit.perform _ (@Pbft.code Sha256.sample 4) Sha256.sample
      (Audit.start (Pbft.newCluster 4 fun _ => 0)) crookedCalls).map (fun a =>
        (a.enqueued, a.cluster.stats.messagesDropped, a.cluster.stats.messagesTampered,
          a.cluster.pending.length)) = some (36, 9, 4, 9) := by
    decide +kernel
  obtain ⟨a, ha, hcounts⟩ := Option.map_eq_some_iff.mp hnumbers
  have hrun : @Cluster.perform _ (@Pbft.code Sha256.sample 4) Sha256.sample
      (Pbft.newCluster 4 fun _ => 0) crookedCalls = some a.cluster := by
    have herase := @Audit.perform_cluster _ (@Pbft.code Sha256.sample 4) Sha256.sample
      crookedCalls (Audit.start (Pbft.newCluster 4 fun _ => 0))
    rw [ha] at herase
    exact herase.symm
  obtain ⟨a', ha', _, hbalanced⟩ := (@message_conservation Sha256.sample 4 (fun _ => ⟨fun _ => 0⟩)
    fun _ => 0).1 crookedCalls a.cluster hrun
  obtain rfl := Option.some.inj (ha.symm.trans ha')
  exact ⟨a, ha, hbalanced, hcounts⟩

end Protocols

end ConsensusBench
