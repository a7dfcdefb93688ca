import ConsensusBench.Raft.Safety
import ConsensusBench.Raft.Stream
import ConsensusBench.Record
import ConsensusBench.Tamper

namespace ConsensusBench

/-!
# What the checks find under all faults

Faults may change between any two calls of a test, also the Byzantine ones.  What a node and the
messages to it keep by themselves survives this.

* `Listed.upheld` — an invariant of the steps of a node is an invariant of driven clusters.
* `genuine_payloads` — no protocol invents a payload, so the validity check fails on equivocation
  only.
* `Raft.stream_checks` — what is recorded for a Raft node is a gap-free stream.
-/

open AsyncNet Cluster

/-! ### Steps of the nodes -/

section Rule

variable {σ : Type} [CommitQueue σ]

/-- The steps that a node `i` in state `s` can take. -/
abbrev StepRelation (σ : Type) :=
  NodeId → σ → Cause Call NetworkMessage → σ → List NetworkMessage → Prop

/-- All steps of the nodes are among those that `E` lists; polling drains the queue, and nothing
    else takes anything out of it. -/
structure Listed (code : NodeId → PolledNode σ) (E : StepRelation σ) : Prop where
  propose : ∀ i s p,
    E i s (.call (.propose p)) ((code i).propose s p).2.1 ((code i).propose s p).2.2
  tick : ∀ i s, E i s (.call .tick) ((code i).tick s).1 ((code i).tick s).2
  poll : ∀ i s, E i s (.call .pollCommitted) ((code i).pollCommitted s).2 []
  handle : ∀ i s m r, (code i).handleMessage s m = some r → E i s (.recv m) r.1 r.2
  taken : ∀ i s, ((code i).pollCommitted s).1 = CommitQueue.committed s
  emptied : ∀ i s, CommitQueue.committed ((code i).pollCommitted s).2 = []
  grows : ∀ i s c s' out, E i s c s' out → c ≠ .call .pollCommitted →
    ∃ es, CommitQueue.committed s' = CommitQueue.committed s ++ es

variable [Sha256] {n : ℕ} {code : NodeId → PolledNode σ} {E : StepRelation σ}
variable {P : Payload → Prop} {B : NetworkFaults → Prop} {M M' : NetworkMessage → Prop}
variable {I : NodeId → σ → List CommittedEntry → Prop}

/-- **What every step keeps, every driven cluster keeps**: `I` of a node and all that it has
    committed, recorded or queued. -/
theorem Listed.upheld (hE : Listed code E)
    (hstep : ∀ i s c s' out all, i < n → E i s c s' out → (∀ p, c = .call (.propose p) → P p) →
      (∀ m, c = .recv m → m.target = i ∧ M' m) → I i s all →
      I i s' (all ++ emitted ⟨i, c, s, s', out⟩) ∧ ∀ m ∈ out, M m)
    (hdeliver : ∀ faults m m', B faults → M m → Passes faults m m' → M' m')
    (hrolls : ∀ faults rng, B faults → B { faults with rng := rng }) :
    Upheld n code P B (fun i s es => I i s (es ++ CommitQueue.committed s)) M M' := by
  -- what a step adds to the queue is what it commits
  have hqueue : ∀ i s c s' out es, E i s c s' out → c ≠ .call .pollCommitted →
      es ++ CommitQueue.committed s ++ emitted ⟨i, c, s, s', out⟩ =
        es ++ CommitQueue.committed s' := by
    intro i s c s' out es h hc
    obtain ⟨new, hnew⟩ := hE.grows i s c s' out h hc
    rw [emitted_eq (o := ⟨i, c, s, s', out⟩) hnew, hnew, List.append_assoc]
  refine ⟨fun i s es p hi hp h => ?_, fun s es m r hi h hm hr => ?_, fun i s es hi h => ?_,
    fun i s es hi h => ?_, hdeliver, hrolls⟩
  · have hprop := hE.propose i s p
    rw [← hqueue i s _ _ _ es hprop (by simp)]
    refine hstep i s _ _ _ _ hi hprop (fun p' hc => ?_) (fun m hc => absurd hc (by simp)) h
    cases hc
    exact hp
  · have hhandle := hE.handle m.target s m r hr
    rw [← hqueue m.target s _ _ _ es hhandle (by simp)]
    refine hstep m.target s _ _ _ _ hi hhandle (fun p hc => absurd hc (by simp)) (fun m' hc => ?_) h
    cases hc
    exact ⟨rfl, hm⟩
  · have htick := hE.tick i s
    rw [← hqueue i s _ _ _ es htick (by simp)]
    exact hstep i s _ _ _ _ hi htick (fun p hc => absurd hc (by simp))
      (fun m hc => absurd hc (by simp)) h
  · -- a poll commits nothing
    have hpoll := (hstep i s _ _ _ _ hi (hE.poll i s) (fun p hc => absurd hc (by simp))
      (fun m hc => absurd hc (by simp)) h).1
    have hnone : emitted (⟨i, .call .pollCommitted, s, ((code i).pollCommitted s).2, []⟩ :
        NodeStep σ) = [] := by
      rw [emitted, hE.emptied, List.drop_nil]
    rw [hnone, List.append_nil] at hpoll
    rw [hE.emptied, List.append_nil, hE.taken]
    exact hpoll

end Rule

section Protocols

variable [Sha256] (n : ℕ)

/-- The effects list what a PBFT node does. -/
theorem Pbft.listed : Listed (Pbft.polled n) fun i => Pbft.Effect (Pbft.node n i) where
  propose _ s p := Pbft.propose_effect _ s p
  tick _ s := Pbft.tick_effect _ s
  poll _ _ := .poll
  handle i s m r hr := by
    cases hr
    exact Pbft.handleMessage_effect (Pbft.node n i) s m
  taken _ _ := rfl
  emptied _ _ := rfl
  grows _ _ _ _ _ h hc := h.queue_grows hc

/-- The effects list what a HotStuff node does. -/
theorem HotStuff.listed :
    Listed (HotStuff.polled n) fun i => HotStuff.Effect (HotStuff.node n i) where
  propose _ s p := HotStuff.propose_effect _ s p
  tick _ s := HotStuff.tick_effect _ s
  poll _ _ := .poll
  handle i s m r hr := by
    cases hr
    exact HotStuff.handleMessage_effect (HotStuff.node n i) s m
  taken _ _ := rfl
  emptied _ _ := rfl
  grows _ _ _ _ _ h hc := h.queue_grows hc

omit [Sha256] in
/-- The effects list what a Raft node does, unless it fails. -/
theorem Raft.listed : Listed (Raft.polled n) fun i => Raft.Effect (Raft.node n i) where
  propose _ s p := Raft.propose_effect _ s p
  tick _ s := Raft.tick_effect _ s
  poll _ _ := .poll
  handle _ _ _ _ hr := Raft.handleMessage_effect _ _ hr
  taken _ _ := rfl
  emptied _ _ := rfl
  grows _ _ _ _ _ h hc := h.queue_grows hc

end Protocols

/-! ### Payloads -/

section Payloads

/-- The payloads that a message carries. -/
def payloadsOf : ProtocolMessage → List Payload
  | .pbft (.prePrepare _ _ _ p) => [p]
  | .hotStuff (.propose _ _ _ p _ _) => [p]
  | .raft (.appendEntries _ _ _ _ entries _) => entries.map LogEntry.payload
  | _ => []

/-- Padding twice is padding once, by as much as both. -/
theorem padded_padded (p : Payload) (e e' : ℕ) : (p.padded e).padded e' = p.padded (e + e') := by
  simp [Payload.padded]

variable [Sha256]

/-- Tampering pads the payloads of a message. -/
theorem payloadsOf_tampered (e k late : ℕ) (x : ProtocolMessage) :
    payloadsOf (tampered e k late x) = (payloadsOf x).map fun p => p.padded e := by
  cases x with
  | pbft x => cases x <;> rfl
  | hotStuff x => cases x <;> rfl
  | raft x =>
    cases x with
    | appendEntries => simp [tampered, payloadsOf]
    | _ => rfl

/-- A payload that arrives was sent, or padded by an equivocating sender. -/
theorem payload_of_tamper {cfg : FaultConfig} {m m' : NetworkMessage} (hm : m' ∈ cfg.tamper m)
    {p : Payload} (hp : p ∈ payloadsOf m'.payload) : ∃ p₀ ∈ payloadsOf m.payload, ∃ e,
      p = p₀.padded e ∧ (e ≠ 0 → .equivocate ∈ cfg.behaviors m.sender) := by
  rw [FaultConfig.payload_of_mem hm, payloadsOf_tampered] at hp
  obtain ⟨p₀, hp₀, rfl⟩ := List.mem_map.mp hp
  exact ⟨p₀, hp₀, _, rfl, mem_of_forks_ne_zero⟩

variable {σ : Type} [CommitQueue σ] {code : NodeId → PolledNode σ} {E : StepRelation σ}

omit [Sha256] in
/-- No step invents a payload: what a node holds, commits or sends after it, the node held before
    it, or was asked to propose, or has received. -/
def InventsNothing (E : StepRelation σ) (held : σ → Payload → Prop) : Prop :=
  ∀ i s c s' out, E i s c s' out → ∀ p,
    held s' p ∨ p ∈ (emitted ⟨i, c, s, s', out⟩).map CommittedEntry.payload ∨
      (∃ m ∈ out, p ∈ payloadsOf m.payload) →
    held s p ∨ c = .call (.propose p) ∨ ∃ m, c = .recv m ∧ p ∈ payloadsOf m.payload

/-- What holds of all payloads that are proposed, and of their forks if there are any. -/
theorem InventsNothing.upheld {n : ℕ} {held : σ → Payload → Prop} (h : InventsNothing E held)
    (hE : Listed code E) {P : Payload → Prop} {B : NetworkFaults → Prop}
    (hfork : ∀ faults i, B faults → .equivocate ∈ faults.behaviors i → ∀ p e, P p → P (p.padded e))
    (hrolls : ∀ faults rng, B faults → B { faults with rng := rng }) :
    Upheld n code P B
      (fun _ s es => (∀ p, held s p → P p) ∧ ∀ e ∈ es ++ CommitQueue.committed s, P e.payload)
      (fun m => ∀ p ∈ payloadsOf m.payload, P p) fun m => ∀ p ∈ payloadsOf m.payload, P p := by
  refine hE.upheld (I := fun _ s all => (∀ p, held s p → P p) ∧ ∀ e ∈ all, P e.payload) ?_ ?_ hrolls
  · rintro i s c s' out all _ hstep hpropose hrecv ⟨hheld, hall⟩
    have hold : ∀ p, held s' p ∨ p ∈ (emitted ⟨i, c, s, s', out⟩).map CommittedEntry.payload ∨
        (∃ m ∈ out, p ∈ payloadsOf m.payload) → P p := by
      intro p hp
      rcases h i s c s' out hstep p hp with hp | hc | ⟨m, hc, hp⟩
      · exact hheld p hp
      · exact hpropose p hc
      · exact (hrecv m hc).2 p hp
    refine ⟨⟨fun p hp => hold p (.inl hp), fun e he => ?_⟩, fun m hm p hp => ?_⟩
    · rcases List.mem_append.mp he with he | he
      · exact hall e he
      · exact hold _ (.inr (.inl (List.mem_map_of_mem he)))
    · exact hold p (.inr (.inr ⟨m, hm, hp⟩))
  · intro faults m m' hB hm hpass p hp
    obtain ⟨p₀, hp₀, e, rfl, hequiv⟩ := payload_of_tamper hpass.tampered hp
    by_cases he : e = 0
    · rw [he, Payload.padded_zero]
      exact hm p₀ hp₀
    · exact hfork faults m.sender hB (hequiv he) p₀ e (hm p₀ hp₀)

end Payloads

/-! ### No protocol invents a payload -/

section Inventing

/-- A protocol that keeps a ledger, binds what it proposes or is sent, and sends what it
    proposes. -/
theorem inventsNothing_of_moves {σ V : Type} [CommitQueue σ] [LinearOrder V] {E : StepRelation σ}
    {L : Ledger NodeId σ Call NetworkMessage V SequenceNumber Payload} (hL : L.commits = commitsOf)
    (hmove : ∀ i s c s' out, E i s c s' out → Move (L.view s) (L.view s') (L.bound s) (L.bound s')
      (L.binds ⟨i, c, s, s', out⟩) (L.commits ⟨i, c, s, s', out⟩))
    (hbinds : ∀ o v q p, L.binds o = some (v, q, p) →
      o.cause = .call (.propose p) ∨ ∃ m, o.cause = .recv m ∧ p ∈ payloadsOf m.payload)
    (hsends : ∀ i s c s' out, E i s c s' out → ∀ m ∈ out, ∀ p ∈ payloadsOf m.payload,
      c = .call (.propose p)) :
    InventsNothing E fun s p => ∃ q, L.bound s q = some p := by
  intro i s c s' out h p hp
  have hm := hmove i s c s' out h
  rcases hp with ⟨q, hq⟩ | he | ⟨m, hmem, hp⟩
  · rcases hm.bound_source hq with hold | hnew
    · exact .inl ⟨q, hold⟩
    · exact .inr (hbinds ⟨i, c, s, s', out⟩ _ q p hnew)
  · obtain ⟨e, hemit, rfl⟩ := List.mem_map.mp he
    have hcommit : (e.sequence, e.payload) ∈ L.commits ⟨i, c, s, s', out⟩ := by
      rw [hL]
      exact mem_commitsOf.mpr hemit
    exact .inl ⟨e.sequence, hm.commit_source hcommit⟩
  · exact .inr (.inl (hsends i s c s' out h m hmem p hp))

variable [Sha256] (n : ℕ)

/-- PBFT nodes hold and commit only what they have been handed. -/
theorem Pbft.invents_nothing : InventsNothing (fun i => Pbft.Effect (Pbft.node n i))
    fun s p => ∃ q, s.pendingPayloads.lookup q = some p := by
  refine inventsNothing_of_moves (L := Pbft.ledger n) rfl (fun i s c s' out => Pbft.move_of_effect)
    (fun o v q p hb => ?_) fun i s c s' out h m hm p hp => ?_
  · rcases Option.or_eq_some_iff.mp hb with ha | ⟨_, ha⟩
    · exact .inl (Pbft.assigns_eq_some.mp ha).1
    · obtain ⟨m, d, hc, hm, _⟩ := Pbft.accepts_eq_some.mp ha
      exact .inr ⟨m, hc, by rw [hm]; exact .head _⟩
  · obtain ⟨j, x, _, _, rfl, hsays⟩ := h.sent_said hm
    cases hsays with
    | prePrepare p' hc =>
      rw [List.mem_singleton.mp hp]
      exact hc
    | _ => exact absurd hp (by simp [payloadsOf])

/-- HotStuff nodes hold and commit only what they have been handed. -/
theorem HotStuff.invents_nothing : InventsNothing (fun i => HotStuff.Effect (HotStuff.node n i))
    fun s p => ∃ q, s.pendingPayloads.lookup q = some p := by
  refine inventsNothing_of_moves (L := HotStuff.ledger n) rfl
    (fun i s c s' out => HotStuff.move_of_effect) (fun o v q p hb => ?_)
    fun i s c s' out h m hm p hp => ?_
  · rcases Option.or_eq_some_iff.mp hb with ha | ⟨_, ha⟩
    · exact .inl (HotStuff.assigns_eq_some.mp ha).1
    · obtain ⟨m, d, jv, jp, hc, hm, _⟩ := HotStuff.accepts_eq_some.mp ha
      exact .inr ⟨m, hc, by rw [hm]; exact .head _⟩
  · obtain ⟨j, x, rfl, hsays⟩ := h.sent_said hm
    cases hsays with
    | propose p' hc =>
      rw [List.mem_singleton.mp hp]
      exact hc
    | _ => exact absurd hp (by simp [payloadsOf])

omit [Sha256] in
/-- Appending entries to a log adds no others. -/
theorem Raft.mem_foldlM_appendEntry {es : List LogEntry} {F log : List LogEntry}
    (h : es.foldlM RaftNode.appendEntry F = some log) {x : LogEntry} (hx : x ∈ log) :
    x ∈ F ∨ x ∈ es := by
  induction es generalizing F with
  | nil =>
    cases h
    exact .inl hx
  | cons e es ih =>
    rw [List.foldlM_cons, Option.bind_eq_bind, Option.bind_eq_some_iff] at h
    obtain ⟨F', hone, hrest⟩ := h
    rcases ih hrest with hmem | hmem
    · have hstep : x ∈ F ∨ x = e := by
        unfold RaftNode.appendEntry at hone
        split at hone
        · exact absurd hone (by simp)
        · dsimp only at hone
          split at hone
          · split at hone
            · cases hone
              rcases List.mem_append.mp hmem with hmem | hmem
              · exact .inl (List.mem_of_mem_take hmem)
              · exact .inr (List.mem_singleton.mp hmem)
            · cases hone
              exact .inl hmem
          · cases hone
            rcases List.mem_append.mp hmem with hmem | hmem
            · exact .inl hmem
            · exact .inr (List.mem_singleton.mp hmem)
      exact hstep.imp_right fun heq => by rw [heq]; exact .head _
    · exact .inr (List.mem_cons_of_mem _ hmem)

omit [Sha256] in
/-- Where the entries of a log come from. -/
theorem Raft.Effect.log_source {self : RaftNode} {s s' : RaftState}
    {c : Cause Call NetworkMessage} {out : List NetworkMessage} (h : Raft.Effect self s c s' out)
    {x : LogEntry} (hx : x ∈ s'.log) : x ∈ s.log ∨ c = .call (.propose x.payload) ∨
      ∃ m, c = .recv m ∧ x.payload ∈ payloadsOf m.payload := by
  have hkeep : s'.log = s.log → x ∈ s.log := fun heq => by rwa [heq] at hx
  cases h with
  | append p hr =>
    rcases List.mem_append.mp hx with hx | hx
    · exact .inl hx
    · rw [List.mem_singleton.mp hx]
      exact .inr (.inl rfl)
  | deny m t => exact .inl (hkeep (Raft.observe_log s t))
  | grant m t => exact .inl (hkeep (Raft.observe_log s t))
  | conflict => exact .inl (List.mem_of_mem_take hx)
  | accept m t l pi pt es lc log s' hm ht hprev hlog hs =>
    rw [Raft.accept_eq hs] at hx
    rcases Raft.mem_foldlM_appendEntry hlog hx with hx | hx
    · exact .inl hx
    · exact .inr (.inr ⟨m, rfl, by rw [hm]; exact List.mem_map_of_mem hx⟩)
  | commit m t mi k s' hm ht hr hk hs => exact .inl (hkeep (by rw [Raft.commitUpTo_eq hs]; rfl))
  | retry => exact .inl (hkeep (Raft.backOff_log s _))
  | _ => exact .inl hx

omit [Sha256] in
/-- Raft nodes hold and commit only what they have been handed. -/
theorem Raft.invents_nothing : InventsNothing (fun i => Raft.Effect (Raft.node n i))
    fun s p => p ∈ s.log.map LogEntry.payload := by
  intro i s c s' out h p hp
  -- what a node sends or commits is in its log
  have hlog : p ∈ s'.log.map LogEntry.payload := by
    rcases hp with hp | hp | ⟨m, hm, hp⟩
    · exact hp
    · obtain ⟨e, he, rfl⟩ := List.mem_map.mp hp
      obtain ⟨x, hx, rfl⟩ := h.emitted_inv (i := i) he
      exact List.mem_map_of_mem (List.mem_of_mem_take hx)
    · obtain ⟨j, x, rfl, hsays⟩ := h.sent_said hm
      cases hsays with
      | appendEntries _ hr hx =>
        cases x with
        | appendEntries t l pi pt es lc =>
          obtain ⟨_, _, hes, _⟩ := Raft.buildAppendEntries_eq (congrArg NetworkMessage.payload hx)
          obtain ⟨y, hy, rfl⟩ := List.mem_map.mp hp
          rw [hes] at hy
          exact List.mem_map_of_mem (List.mem_of_mem_drop hy)
        | _ => exact absurd hp (by simp [payloadsOf])
      | _ => exact absurd hp (by simp [payloadsOf])
  obtain ⟨x, hx, rfl⟩ := List.mem_map.mp hlog
  exact (h.log_source hx).imp_left List.mem_map_of_mem

end Inventing

/-! ### The validity check -/

/-- Some call sets faults that make a node equivocate. -/
def Equivocates (calls : List HarnessCall) : Prop :=
  ∃ faults, .call (.setFaults faults) ∈ calls ∧ ∃ i, .equivocate ∈ faults.behaviors i

/-- Whatever is called on the cluster `c₀`: what is recorded is what was proposed, with bytes `0xFF`
    appended only if some node was made to equivocate. -/
def Genuine {σ : Type} [Sha256] (code : NodeId → PolledNode σ) (c₀ : Cluster σ) : Prop :=
  ∀ calls c, c₀.drive code calls = some c →
    (∀ i, ∀ e ∈ c.commitLog.recorded i, ∃ p ∈ calls.filterMap HarnessCall.proposal, ∃ k,
      e.payload = p.padded k ∧ (k ≠ 0 → Equivocates calls)) ∧
    (¬ Equivocates calls → ∀ order k, (c.checkInvariants order k).validity = .pass)

section Validity

variable {σ : Type} [Sha256] [CommitQueue σ] {code : NodeId → PolledNode σ} {E : StepRelation σ}

/-- **A cluster whose nodes invent nothing** records only proposals, padded where a node
    equivocates. -/
theorem InventsNothing.genuine {held : σ → Payload → Prop} (h : InventsNothing E held)
    (hE : Listed code E) (n : ℕ) {init : NodeId → σ} (rng : ℕ → ℚ)
    (hempty : ∀ i, CommitQueue.committed (init i) = []) (hnone : ∀ i p, ¬ held (init i) p) :
    Genuine code (Cluster.new n init rng) := by
  intro calls c hrun
  let P : Payload → Prop := fun p => ∃ p₀ ∈ calls.filterMap HarnessCall.proposal, ∃ k,
    p = p₀.padded k ∧ (k ≠ 0 → Equivocates calls)
  let B : NetworkFaults → Prop := fun faults =>
    ∀ i, .equivocate ∈ faults.behaviors i → Equivocates calls
  have hupheld : Upheld n code P B (fun _ s es => (∀ p, held s p → P p) ∧
      ∀ e ∈ es ++ CommitQueue.committed s, P e.payload) (fun m => ∀ p ∈ payloadsOf m.payload, P p)
      fun m => ∀ p ∈ payloadsOf m.payload, P p := by
    refine h.upheld hE ?_ fun _ _ hB => hB
    rintro faults i hB hequiv p e ⟨p₀, hp₀, k, rfl, _⟩
    exact ⟨p₀, hp₀, k + e, padded_padded p₀ k e, fun _ => hB i hequiv⟩
  have hstart : Upholds n B (fun _ s es => (∀ p, held s p → P p) ∧
      ∀ e ∈ es ++ CommitQueue.committed s, P e.payload) (fun m => ∀ p ∈ payloadsOf m.payload, P p)
      (Cluster.new n init rng) := by
    refine ⟨rfl, fun i hmem => absurd hmem (by simp [Cluster.new, FaultConfig.behaviors]),
      fun i => ⟨fun p hp => absurd hp (hnone i p), fun e he => ?_⟩, by simp [Cluster.new]⟩
    have hnil : e ∈ [] ++ CommitQueue.committed (init i) := he
    rw [hempty] at hnil
    exact absurd hnil (by simp)
  have hcalls : ∀ call ∈ calls, call.Within P B := by
    intro call hmem
    cases call with
    | call call =>
      cases call with
      | propose p =>
        exact ⟨p, List.mem_filterMap.mpr ⟨_, hmem, rfl⟩, 0, p.padded_zero.symm,
          fun h => absurd rfl h⟩
      | setFaults faults => exact fun i hequiv => ⟨faults, hmem, i, hequiv⟩
      | clearFaults entropy => exact fun i hequiv => absurd hequiv (by simp [FaultConfig.behaviors])
      | _ => exact trivial
    | _ => exact trivial
  have hend := hstart.drive hupheld calls hcalls (fun _ i s es _ hN => ?_) hrun
  · -- what is recorded satisfies the invariant
    have hrec : ∀ i, ∀ e ∈ c.commitLog.recorded i, P e.payload := fun i e he =>
      (hend.nodes i).2 e (List.mem_append_left _ he)
    refine ⟨hrec, fun hno order k => ?_⟩
    refine (CommitLog.checkValidity_eq_pass order _ _).mpr fun i _ e he => ?_
    obtain ⟨p, hp, k, heq, hk⟩ := hrec i e he
    obtain rfl : k = 0 := by
      by_contra hne
      exact hno (hk hne)
    rw [heq, Payload.padded_zero, (drive_frame calls hrun).2]
    exact List.mem_append_right _ hp
  · -- an unrecorded entry is forgotten
    obtain ⟨hheld, hall⟩ := hN
    refine ⟨fun p hp => ?_, fun e he => ?_⟩
    · rcases h i s _ _ _ (hE.poll i s) p (.inl hp) with hp | hc | ⟨m, hc, _⟩
      · exact hheld p hp
      · exact absurd hc (by simp)
      · exact absurd hc (by simp)
    · rw [hE.emptied, List.append_nil] at he
      exact hall e (List.mem_append_left _ he)

omit [Sha256] [CommitQueue σ] in
/-- A node that is made leader starts with an empty log like the others. -/
theorem Raft.forced_init (n : ℕ) (rngs : NodeId → Raft.StdRng) (rng : ℕ → ℚ) (i : NodeId) :
    let s := (Raft.newClusterWithLeader n rngs rng).nodes i
    s.log = [] ∧ s.commitIndex = 0 ∧ s.committed = [] := by
  show let s : RaftState := if i = 0 then _ else _
    s.log = [] ∧ s.commitIndex = 0 ∧ s.committed = []
  split
  · exact ⟨rfl, rfl, rfl⟩
  · exact ⟨rfl, rfl, rfl⟩

/-- **Nothing but a proposal is ever recorded**, whatever faults are set between the calls; if no
    node is made to equivocate, the validity check passes. -/
theorem genuine_payloads (n : ℕ) (rngs : NodeId → Raft.StdRng) (rng : ℕ → ℚ) :
    Genuine (Pbft.polled n) (Pbft.newCluster n rng) ∧
    Genuine (HotStuff.polled n) (HotStuff.newCluster n rng) ∧
    Genuine (Raft.polled n) (Raft.newCluster n rngs rng) ∧
    Genuine (Raft.polled n) (Raft.newClusterWithLeader n rngs rng) := by
  have hlookup : ∀ {p : Payload},
      ¬ ∃ q, (∅ : HashMap SequenceNumber Payload).lookup q = some p := by
    rintro p ⟨q, hq⟩
    exact absurd hq (by simp)
  have hlog : ∀ {log : List LogEntry} {p : Payload}, log = [] → p ∉ log.map LogEntry.payload := by
    rintro log p rfl
    simp
  refine ⟨(Pbft.invents_nothing n).genuine (Pbft.listed n) n rng (fun _ => rfl) fun _ _ => hlookup,
    (HotStuff.invents_nothing n).genuine (HotStuff.listed n) n rng (fun _ => rfl)
      fun _ _ => hlookup,
    (Raft.invents_nothing n).genuine (Raft.listed n) n rng (fun _ => rfl) fun _ _ => hlog rfl,
    (Raft.invents_nothing n).genuine (Raft.listed n) n rng (fun i => ?_) fun i _ => hlog ?_⟩
  · exact (Raft.forced_init n rngs rng i).2.2
  · exact (Raft.forced_init n rngs rng i).1

/-- One proposal to a Raft cluster with a leader. -/
def oneProposal : List HarnessCall :=
  [.call (.propose ⟨[0x70]⟩), .call (.runToCompletion 100), .collectAndRecordCommits]

omit [Sha256] in
/-- The leader of three nodes commits a proposal, and the validity check passes. -/
theorem genuine_payloads_three : ∃ c, @drive _ (Raft.polled 3) Sha256.sample
      (Raft.newClusterWithLeader 3 (fun _ => ⟨fun _ => 0⟩) fun _ => 0) oneProposal = some c ∧
    c.commitLog.recorded 0 = [⟨1, ⟨[0x70]⟩⟩] ∧
    ∀ order, (c.checkInvariants order 1).validity = .pass := by
  have hresult : (@drive _ (Raft.polled 3) Sha256.sample
      (Raft.newClusterWithLeader 3 (fun _ => ⟨fun _ => 0⟩) fun _ => 0) oneProposal).map
        (fun c => c.commitLog.recorded 0) = some [⟨1, ⟨[0x70]⟩⟩] := by
    decide +kernel
  obtain ⟨c, hc, hrec⟩ := Option.map_eq_some_iff.mp hresult
  obtain ⟨_, _, _, hraft⟩ := @genuine_payloads Sha256.sample 3 (fun _ => ⟨fun _ => 0⟩) fun _ => 0
  have hcalm : ¬ Equivocates oneProposal := by simp [Equivocates, oneProposal]
  exact ⟨c, hc, hrec, fun order => (hraft oneProposal c hc).2 hcalm order 1⟩

end Validity

/-! ### Raft -/

section Stream

variable [Sha256] {n : ℕ}

/-- The entries of a message are contiguous. -/
def Raft.Gapless (m : NetworkMessage) : Prop :=
  ∀ t l pi pt es lc, m.payload = .raft (.appendEntries t l pi pt es lc) → Raft.Contiguous pi es

/-- **A stream is kept**: what a node has committed are the sequences up to its commit index, as
    `R` says. -/
theorem Raft.stream_upheld {R : List SequenceNumber → List SequenceNumber → Prop}
    (hR : ∀ a b c, R a b → R (a ++ c) (b ++ c)) :
    Upheld n (Raft.polled n) (fun _ => True) (fun _ => True) (fun _ s es => Raft.Indexed s.log ∧
      R ((es ++ s.committed).map CommittedEntry.sequence) (List.range' 1 s.commitIndex))
      Raft.Gapless Raft.Gapless := by
  refine (Raft.listed n).upheld (I := fun _ s all => Raft.Indexed s.log ∧
    R (all.map CommittedEntry.sequence) (List.range' 1 s.commitIndex)) ?_ ?_ ?_
  · rintro i s c s' out all _ h _ hrecv ⟨hs, hall⟩
    have hs' : Raft.Indexed s'.log := h.indexed hs fun m t l pi pt es lc hc hm =>
      (hrecv m hc).2 t l pi pt es lc hm
    obtain ⟨hle, hseq⟩ := h.emitted_sequences (i := i) hs'
    refine ⟨⟨hs', ?_⟩, fun m hm t l pi pt es lc hpl => ?_⟩
    · have hrange : List.range' 1 s'.commitIndex = List.range' 1 s.commitIndex ++
          List.range' (s.commitIndex + 1) (s'.commitIndex - s.commitIndex) := by
        rw [Nat.add_comm s.commitIndex 1, List.range'_append_1]
        congr 1
        omega
      rw [List.map_append, hseq, hrange]
      exact hR _ _ _ hall
    · obtain ⟨j, x, rfl, hsays⟩ := h.sent_said hm
      cases hpl
      cases hsays with
      | appendEntries _ _ hbuild =>
        obtain ⟨_, _, hes, _⟩ := Raft.buildAppendEntries_eq (congrArg NetworkMessage.payload hbuild)
        rw [hes]
        exact hs'.contiguous pi
  · -- tampering leaves the indices alone
    intro faults m m' _ hm hpass t l pi pt es lc hpl
    obtain ⟨_, _, hskel⟩ := faults.frame_of_mem hpass.tampered
    obtain ⟨es₀, hpl₀, hidx⟩ := Raft.appendEntries_of_skeleton hskel hpl
    exact (hm t l pi pt es₀ lc hpl₀).congr hidx
  · intro _ _ _
    trivial

/-- Whatever is called on the Raft cluster `c₀`: the integrity check passes, and the total order
    check, too, unless `collect_committed` took some of the commits away. -/
def Raft.InOrder (n : ℕ) (c₀ : Cluster RaftState) : Prop :=
  ∀ calls c, c₀.drive (Raft.polled n) calls = some c → ∀ order k,
    (c.checkInvariants order k).integrity = .pass ∧
      (.collectCommitted ∉ calls → (c.checkInvariants order k).totalOrder = .pass)

/-- A cluster whose logs are empty commits `1, 2, …` at each node. -/
theorem Raft.streams_of_empty {init : NodeId → RaftState} (hlog : ∀ i, (init i).log = [])
    (hcommit : ∀ i, (init i).commitIndex = 0) (hqueue : ∀ i, (init i).committed = [])
    (rng : ℕ → ℚ) : Raft.InOrder n (Cluster.new n init rng) := by
  intro calls c hrun order k
  have hstart : ∀ R : List SequenceNumber → List SequenceNumber → Prop, R [] [] →
      Upholds n (fun _ => True) (fun _ s es => Raft.Indexed s.log ∧
        R ((es ++ s.committed).map CommittedEntry.sequence) (List.range' 1 s.commitIndex))
        Raft.Gapless (Cluster.new n init rng) := by
    intro R hnil
    refine ⟨rfl, trivial, fun i => ⟨?_, ?_⟩, by simp [Cluster.new]⟩
    · show Raft.Indexed (init i).log
      rw [hlog]
      exact fun _ _ he => absurd he (by simp)
    · show R (([] ++ (init i).committed).map _) (List.range' 1 (init i).commitIndex)
      rw [hqueue, hcommit]
      exact hnil
  have hcalls : ∀ call ∈ calls, call.Within (fun _ => True) fun _ => True := by
    intro call _
    cases call with
    | call call => cases call <;> exact trivial
    | _ => exact trivial
  refine ⟨?_, fun hno => ?_⟩
  · -- whatever was taken away, the rest is in order
    have hend := (hstart List.Sublist .slnil).drive
      (Raft.stream_upheld fun a b c h => h.append_right c) calls hcalls ?_ hrun
    · refine (CommitLog.checkIntegrity_eq_pass order _ _).mpr fun i _ => ?_
      have hsub := (hend.nodes i).2
      rw [List.map_append] at hsub
      exact (List.nodup_range' (s := 1)).sublist ((List.sublist_append_left _ _).trans hsub)
    · rintro _ i s es _ ⟨hs, hsub⟩
      refine ⟨hs, ?_⟩
      rw [List.map_append] at hsub
      show (List.map _ (es ++ [])).Sublist _
      rw [List.append_nil]
      exact (List.sublist_append_left _ _).trans hsub
  · have hend := (hstart Eq rfl).drive
      (Raft.stream_upheld fun a b c h => by rw [h]) calls hcalls (fun h => absurd h hno) hrun
    have hpre : ∀ i, c.commitLog.sequences i <+: List.range' 1 (c.nodes i).commitIndex := by
      intro i
      have heq := (hend.nodes i).2
      rw [List.map_append] at heq
      rw [← heq]
      exact List.prefix_append _ _
    -- both are prefixes of the longer stream
    have hrange : ∀ {a b : ℕ}, a ≤ b → List.range' 1 a <+: List.range' 1 b := by
      intro a b hle
      obtain ⟨d, rfl⟩ := Nat.exists_eq_add_of_le hle
      rw [← List.range'_append_1]
      exact List.prefix_append _ _
    refine (CommitLog.checkTotalOrder_eq_pass order _ _).mpr fun r hr x hx => ?_
    rw [((CommitLog.mem_orderings order _ _).mp (List.mem_of_mem_head? hr)).2.2,
      ((CommitLog.mem_orderings order _ _).mp hx).2.2]
    have hr' := (hpre r.1).trans (hrange (le_max_left _ (c.nodes x.1).commitIndex))
    have hx' := (hpre x.1).trans (hrange (le_max_right (c.nodes r.1).commitIndex _))
    exact List.prefix_or_prefix_of_prefix hr' hx'

/-- **Raft clusters pass the checks of integrity and of total order**, from either start and
    whatever happens; the second one if no commits were taken away unrecorded. -/
theorem Raft.stream_checks (n : ℕ) (rngs : NodeId → Raft.StdRng) (rng : ℕ → ℚ) :
    Raft.InOrder n (Raft.newCluster n rngs rng) ∧
      Raft.InOrder n (Raft.newClusterWithLeader n rngs rng) :=
  ⟨Raft.streams_of_empty (fun _ => rfl) (fun _ => rfl) (fun _ => rfl) rng,
    Raft.streams_of_empty (fun i => (Raft.forced_init n rngs rng i).1)
      (fun i => (Raft.forced_init n rngs rng i).2.1) (fun i => (Raft.forced_init n rngs rng i).2.2)
      rng⟩

omit [Sha256] in
/-- The leader of three nodes commits a proposal before the others, and the checks pass. -/
theorem Raft.stream_checks_three : ∃ c, @drive _ (Raft.polled 3) Sha256.sample
      (Raft.newClusterWithLeader 3 (fun _ => ⟨fun _ => 0⟩) fun _ => 0) oneProposal = some c ∧
    c.commitLog.recorded 0 = [⟨1, ⟨[0x70]⟩⟩] ∧ c.commitLog.recorded 1 = [] ∧
    ∀ order, (c.checkInvariants order 1).integrity = .pass ∧
      (c.checkInvariants order 1).totalOrder = .pass := by
  have hresult : (@drive _ (Raft.polled 3) Sha256.sample
      (Raft.newClusterWithLeader 3 (fun _ => ⟨fun _ => 0⟩) fun _ => 0) oneProposal).map
        (fun c => (c.commitLog.recorded 0, c.commitLog.recorded 1)) =
          some ([⟨1, ⟨[0x70]⟩⟩], []) := by
    decide +kernel
  obtain ⟨c, hc, hrec⟩ := Option.map_eq_some_iff.mp hresult
  obtain ⟨_, horder⟩ := @Raft.stream_checks Sha256.sample 3 (fun _ => ⟨fun _ => 0⟩) fun _ => 0
  have hchecks := fun order => horder oneProposal c hc order 1
  exact ⟨c, hc, congrArg Prod.fst hrec, congrArg Prod.snd hrec, fun order =>
    ⟨(hchecks order).1, (hchecks order).2 (by simp [oneProposal])⟩⟩

end Stream

end ConsensusBench
