import ConsensusBench.Cluster
import ConsensusBench.Crash
import ConsensusBench.Lib.Pipeline

namespace ConsensusBench

/-!
# The normal case of a protocol that runs its sequences side by side

PBFT and HotStuff keep one slot for each sequence, and no message about one sequence touches the
slot of another.  As long as node `0` leads, a sequence is a `Round` of the library: a
`SlotProgram` says what a node does about its slot, and a `Letter` is a message without its
numbers and digest.

* `Enough` — what is asked of the nodes that are not faulty, `enough` — that those outside a set
  of `f` meet it.
* `Keeps` — what the maps and the commits of a node say about its slots, and what becomes of it
  when a slot is written (`Keeps.write`) or done (`Keeps.commit`).
* `NormalCase` — a protocol together with the slot program that it follows.
* `NormalCase.Follows` — the simulation: the nodes and the queue of a cluster are rounds on one
  queue.  It is kept by proposals (`Follows.propose`) and deliveries (`Follows.receive`).
* `NormalCase.commits_all` — so a cluster commits all proposals in order, if every round alone
  ends with a finished slot at every live node.
* `accounts`, `NormalCase.costs_all` — if the slots of a round say what their nodes have sent, a
  cluster sends that much for every proposal.
-/

open Pipeline

/-! ### Letters and slots -/

/-- A message of one sequence: its kind, and between whom. -/
structure Letter (W : Type) where
  wave : W
  sender : NodeId
  target : NodeId
  deriving DecidableEq

variable {σ S W : Type}

/-- Node `i` tells all others. -/
def spread (n : ℕ) (wave : W) (i : NodeId) : List (Letter W) :=
  (peerIds i n).map fun j => ⟨wave, i, j⟩

/-- A wave is spread to all other replicas. -/
theorem mem_spread {n : ℕ} {wave : W} {i : NodeId} {l : Letter W} :
    l ∈ spread n wave i ↔ l.wave = wave ∧ l.sender = i ∧ l.target < n ∧ l.target ≠ i := by
  obtain ⟨wave', i', j⟩ := l
  simp only [spread, List.mem_map, mem_peerIds, Letter.mk.injEq]
  constructor
  · rintro ⟨j', hj, rfl, rfl, rfl⟩
    exact ⟨rfl, rfl, hj⟩
  · rintro ⟨rfl, rfl, hj⟩
    exact ⟨j, hj, rfl, rfl, rfl⟩

/-- A wave has a letter for each other replica. -/
theorem length_spread {n : ℕ} {i : NodeId} (hi : i < n) (wave : W) :
    (spread n wave i).length = n - 1 := by
  rw [spread, List.length_map, length_peerIds hi]

/-- What the nodes do about one sequence that node `0` proposes: its own slot at first, what it
    sends, and what a node does when a letter of another one reaches it. -/
structure SlotProgram (S W : Type) where
  first : S
  opening : List (Letter W)
  handle : NodeId → Option S → W → NodeId → Option S × List (Letter W)

/-- The round of a slot program, on a network that loses the letters `lost`. -/
def SlotProgram.round (A : SlotProgram S W) (lost : Letter W → Bool) :
    Round (NodeId → Option S) (Letter W) where
  idle := fun _ => none
  start := Function.update (fun _ => none) 0 (some A.first)
  opening := A.opening
  step x l :=
    if lost l then (x, [])
    else (Function.update x l.target (A.handle l.target (x l.target) l.wave l.sender).1,
      (A.handle l.target (x l.target) l.wave l.sender).2)

section Round

variable (A : SlotProgram S W) (lost : Letter W → Bool) (x : NodeId → Option S)

/-- The leader starts with its first slot. -/
@[simp] theorem start_zero : (A.round lost).start 0 = some A.first := by
  simp [SlotProgram.round]

/-- The others start without one. -/
theorem start_of_ne {i : NodeId} (h : i ≠ 0) : (A.round lost).start i = none := by
  simp [SlotProgram.round, h]

variable {lost} {l : Letter W}

/-- A letter that is lost does nothing. -/
theorem step_of_lost (h : lost l = true) : (A.round lost).step x l = (x, []) :=
  if_pos h

/-- A letter that arrives is handled by its target. -/
theorem step_of_not_lost (h : lost l = false) : (A.round lost).step x l =
    (Function.update x l.target (A.handle l.target (x l.target) l.wave l.sender).1,
      (A.handle l.target (x l.target) l.wave l.sender).2) :=
  if_neg (by rw [h]; exact Bool.false_ne_true)

variable {A}

/-- What no letter takes from the slot of node `i` is never lost. -/
theorem slot_mono {D : Option S → Prop} (i : NodeId)
    (hD : ∀ t, ∀ l ∈ ((A.round lost).solo t).queue, l.target = i →
      D (((A.round lost).solo t).state i) →
      D (A.handle i (((A.round lost).solo t).state i) l.wave l.sender).1)
    {t t' : ℕ} (h : t ≤ t') (ht : D (((A.round lost).solo t).state i)) :
    D (((A.round lost).solo t').state i) := by
  refine Round.solo_mono (D := fun x : NodeId → Option S => D (x i)) (fun u l q hq hd => ?_) h ht
  have hmem : l ∈ ((A.round lost).solo u).queue := by
    rw [hq]
    exact List.mem_cons_self
  cases hlost : lost l with
  | true =>
    rw [step_of_lost _ _ hlost]
    exact hd
  | false =>
    rw [step_of_not_lost _ _ hlost]
    dsimp only
    by_cases hi : i = l.target
    · rw [← hi, Function.update_self]
      exact hD u l hmem hi.symm hd
    · rw [Function.update_of_ne hi]
      exact hd

/-- The letters of a round are for members, if all that the nodes send are. -/
theorem members {n : ℕ} (hopening : ∀ l ∈ A.opening, l.target < n)
    (hhandle : ∀ i < n, ∀ o wave r, ∀ l ∈ (A.handle i o wave r).2, l.target < n) (t : ℕ) :
    ∀ l ∈ ((A.round lost).solo t).queue, l.target < n := by
  refine Round.solo_induct (I := fun c : Solo (NodeId → Option S) (Letter W) =>
    ∀ l ∈ c.queue, l.target < n) hopening (fun x l q h l' hl' => ?_) t
  rcases List.mem_append.mp hl' with hl' | hl'
  · exact h l' (List.mem_cons_of_mem _ hl')
  · cases hlost : lost l with
    | true =>
      rw [step_of_lost _ _ hlost] at hl'
      exact absurd hl' (by simp)
    | false =>
      rw [step_of_not_lost _ _ hlost] at hl'
      exact hhandle _ (h l List.mem_cons_self) _ _ _ l' hl'

/-- What the slots of all `n` nodes say that was sent. -/
def tallyUp (n : ℕ) (sent : NodeId → Option S → ℕ) (x : NodeId → Option S) : ℕ :=
  ∑ i ∈ Finset.range n, sent i (x i)

/-- One node differs from all others. -/
theorem tallyUp_eq {n : ℕ} (hn : 1 ≤ n) {sent : NodeId → Option S → ℕ} {x : NodeId → Option S}
    {a b : ℕ} (hzero : sent 0 (x 0) = a) (hothers : ∀ i < n, i ≠ 0 → sent i (x i) = b) :
    tallyUp n sent x = a + (n - 1) * b := by
  have hmem : 0 ∈ Finset.range n := Finset.mem_range.mpr hn
  rw [tallyUp, ← Finset.add_sum_erase _ _ hmem, hzero, Finset.sum_const_nat fun i hi => ?_,
    Finset.card_erase_of_mem hmem, Finset.card_range]
  exact hothers i (Finset.mem_range.mp (Finset.mem_of_mem_erase hi)) (Finset.ne_of_mem_erase hi)

/-- The slot of one node changes. -/
theorem tallyUp_update {n : ℕ} {sent : NodeId → Option S → ℕ} {x : NodeId → Option S} {i : NodeId}
    (hi : i < n) {o : Option S} {k : ℕ} (h : sent i o = sent i (x i) + k) :
    tallyUp n sent (Function.update x i o) = tallyUp n sent x + k := by
  have hmem : i ∈ Finset.range n := Finset.mem_range.mpr hi
  have hothers : ∀ j ∈ (Finset.range n).erase i,
      sent j (Function.update x i o j) = sent j (x j) := by
    intro j hj
    rw [Function.update_of_ne (Finset.ne_of_mem_erase hj)]
  unfold tallyUp
  rw [← Finset.add_sum_erase _ _ hmem, ← Finset.add_sum_erase (Finset.range n) _ hmem,
    Function.update_self, h, Finset.sum_congr rfl hothers, Nat.add_right_comm]

/-- **Slots that say what their nodes have sent** say what the round has. -/
theorem accounts {n : ℕ} (hn : 1 ≤ n) {sent : NodeId → Option S → ℕ}
    (hnone : ∀ i, i ≠ 0 → sent i none = 0) (hfirst : sent 0 (some A.first) = A.opening.length)
    (hstep : ∀ t x l q, (A.round lost).solo t = ⟨x, l :: q⟩ → l.target < n ∧ lost l = false ∧
      sent l.target (A.handle l.target (x l.target) l.wave l.sender).1 =
        sent l.target (x l.target) + (A.handle l.target (x l.target) l.wave l.sender).2.length) :
    (A.round lost).Accounts (tallyUp n sent) where
  opening := by
    rw [tallyUp_eq hn (a := A.opening.length) (b := 0)]
    · rfl
    · rw [start_zero, hfirst]
    · intro i _ hi
      rw [start_of_ne A lost hi, hnone i hi]
  step t l q hq := by
    generalize hc : (A.round lost).solo t = c at hq ⊢
    obtain ⟨x, queue⟩ := c
    obtain rfl : queue = l :: q := hq
    obtain ⟨ht, hlost, hsent⟩ := hstep t x l q hc
    rw [step_of_not_lost _ _ hlost]
    exact tallyUp_update ht hsent

/-- No two letters of a wave have one target; letters of other waves do not change that. -/
theorem once_append {wave : W} {l : Letter W} {q out : List (Letter W)}
    (h : (l :: q).Pairwise fun l l' => l.wave = wave → l'.wave = wave → l.target ≠ l'.target)
    (hout : ∀ l' ∈ out, l'.wave ≠ wave) :
    (q ++ out).Pairwise fun l l' => l.wave = wave → l'.wave = wave → l.target ≠ l'.target := by
  refine List.pairwise_append.mpr ⟨(List.pairwise_cons.mp h).2, ?_, ?_⟩
  · exact List.pairwise_of_forall_mem_list fun l' hl' _ _ hw => absurd hw (hout l' hl')
  · exact fun _ _ l' hl' _ hw => absurd hw (hout l' hl')

end Round

/-! ### The live nodes -/

/-- The nodes of `live` hear each other, and are enough for all thresholds. -/
structure Enough (n : ℕ) (lost : Letter W → Bool) (live : Finset NodeId) : Prop where
  zero_mem : 0 ∈ live
  two_le : 2 ≤ live.card
  quorum_le : 2 * ((n - 1) / 3) + 1 ≤ live.card
  lt : ∀ i ∈ live, i < n
  heard : ∀ wave, ∀ j ∈ live, ∀ i ∈ live, lost ⟨wave, j, i⟩ = false

/-- The letters that a fault configuration keeps from arriving; `phase` are the phases of the
    messages. -/
def lost (faults : NetworkFaults) (phase : W → MessagePhase) (l : Letter W) : Bool :=
  faults.isIsolated l.sender || faults.isIsolated l.target ||
    faults.dropsPhase l.sender (phase l.wave)

/-- The nodes outside a faulty set of `f` are enough. -/
theorem enough {n : ℕ} {F : Finset NodeId} {faults : NetworkFaults} (hn : 2 ≤ n)
    (hcard : F.card ≤ (n - 1) / 3) (h0 : 0 ∉ F) (hF : faults.ConfinedTo F)
    (phase : W → MessagePhase) : Enough n (lost faults phase) (Finset.range n \ F) where
  zero_mem := Finset.mem_sdiff.mpr ⟨Finset.mem_range.mpr (by omega), h0⟩
  two_le := two_le_live hn hcard
  quorum_le := quorum_le_live hn hcard
  lt i hi := Finset.mem_range.mp (Finset.mem_sdiff.mp hi).1
  heard wave j hj i hi := by
    have hj := (Finset.mem_sdiff.mp hj).2
    have hi := (Finset.mem_sdiff.mp hi).2
    have hdrops : faults.dropsPhase j (phase wave) = false := by
      rw [FaultConfig.dropsPhase, faults.behaviors_eq_nil (hF.isByzantine_eq hj), List.any_nil]
    rw [lost, hF.isIsolated_eq hj, hF.isIsolated_eq hi, hdrops]
    rfl

/-- A set that every live node is in, except for one, is large. -/
theorem card_le_of_mem {live V : Finset NodeId} {i : NodeId}
    (h : ∀ j ∈ live, j ≠ i → j ∈ V) : live.card ≤ V.card + 1 := by
  have hsub : live.erase i ⊆ V := fun j hj =>
    h j (Finset.mem_of_mem_erase hj) (Finset.ne_of_mem_erase hj)
  have hle := Finset.card_le_card hsub
  have hpred := Finset.pred_card_le_card_erase (s := live) (a := i)
  omega

/-! ### Messages -/

/-- Message `m` is letter `l`, and what it carries is as `Content` asks for. -/
structure Shows (n : ℕ) (Content : Letter W → ProtocolMessage → Prop) (m : NetworkMessage)
    (l : Letter W) : Prop where
  sender : m.sender = l.sender
  target : m.target = l.target
  target_lt : l.target < n
  content : Content l m.payload

/-- A broadcast of a node is what it spreads. -/
theorem shows_spread {n : ℕ} {Content : Letter W → ProtocolMessage → Prop} {i : NodeId}
    (wave : W) {payload : ProtocolMessage} (h : ∀ j, Content ⟨wave, i, j⟩ payload) :
    List.Forall₂ (Shows n Content) ((peerIds i n).map fun j => ⟨i, j, payload⟩)
      (spread n wave i) := by
  unfold spread
  rw [List.forall₂_map_left_iff, List.forall₂_map_right_iff]
  exact List.forall₂_same.mpr fun j hj => ⟨rfl, rfl, (mem_peerIds.mp hj).1, h j⟩

/-! ### What a node holds -/

/-- The slot is there, and `done`. -/
def Ended (done : S → Prop) (o : Option S) : Prop := ∃ slot, o = some slot ∧ done slot

/-- Without a slot, no round has ended. -/
theorem not_ended_of_none {done : S → Prop} {o : Option S} (ho : o = none) : ¬ Ended done o := by
  rintro ⟨slot, hs, _⟩
  exact absurd (ho.symm.trans hs) (by simp)

/-- With a slot that is not done, the round has not ended. -/
theorem not_ended_of_some {done : S → Prop} {o : Option S} {slot : S} (ho : o = some slot)
    (hd : ¬ done slot) : ¬ Ended done o := by
  rintro ⟨slot', hs, hd'⟩
  obtain rfl := Option.some.inj (ho.symm.trans hs)
  exact hd hd'

/-- Sequence `s` comes right behind those whose slots have ended, if these are the first ones. -/
abbrev InTurn (ended : Option S → Prop) (ps : List Payload) (x : SequenceNumber → Option S)
    (s : SequenceNumber) : Prop :=
  ∀ m ≤ ps.length, (∀ a, 1 ≤ a → a ≤ ps.length → (ended (x a) ↔ a ≤ m)) → s = m + 1

/-- What a node holds of the proposals `ps`, in terms of its slots `x` by sequence: the slots with
    their numbers, the payloads of those that are not done, and the others as committed. -/
structure Keeps (number : S → SequenceNumber → S) (done : S → Prop) (ps : List Payload)
    (x : SequenceNumber → Option S) (slots : HashMap SequenceNumber S)
    (pending : HashMap SequenceNumber Payload) (committed : List CommittedEntry) : Prop where
  slots : ∀ a, slots.lookup a = (x a).map (number · a)
  payloads : ∀ a slot, x a = some slot → ¬ done slot → pending.lookup a = ps[a - 1]?
  committed : ∃ m ≤ ps.length, committed = numbered (ps.take m) ∧
    ∀ a, 1 ≤ a → a ≤ ps.length → (Ended done (x a) ↔ a ≤ m)

section Keeps

variable {number : S → SequenceNumber → S} {done : S → Prop} {ps : List Payload}
variable {x : SequenceNumber → Option S} {slots : HashMap SequenceNumber S}
variable {pending pending' : HashMap SequenceNumber Payload} {committed : List CommittedEntry}
variable {s : SequenceNumber}

/-- A node starts without slots. -/
theorem keeps_init : Keeps number done [] (fun _ => none) ∅ ∅ [] where
  slots _ := rfl
  payloads a slot hs := absurd hs (by simp)
  committed := ⟨0, le_rfl, rfl, fun a h1 ha => absurd (h1.trans ha) (by simp)⟩

namespace Keeps

/-- The slots after one of them is written. -/
private theorem lookup_write (h : Keeps number done ps x slots pending committed) (slot : S)
    (a : SequenceNumber) : (slots.insert s (number slot s)).lookup a =
      (Function.update x s (some slot) a).map (number · a) := by
  rw [HashMap.lookup_insert_ite, Function.update_apply]
  by_cases ha : a = s
  · rw [if_pos ha, if_pos ha, ha]
    rfl
  · rw [if_neg ha, if_neg ha]
    exact h.slots a

/-- A slot is opened, or changes and is still not done. -/
theorem write (h : Keeps number done ps x slots pending committed) (slot : S)
    (hnot : ¬ Ended done (x s)) (hd : ¬ done slot) (hself : pending'.lookup s = ps[s - 1]?)
    (hothers : ∀ a, a ≠ s → pending'.lookup a = pending.lookup a) :
    Keeps number done ps (Function.update x s (some slot)) (slots.insert s (number slot s)) pending'
      committed where
  slots := h.lookup_write slot
  payloads a slot' hs hd' := by
    by_cases ha : a = s
    · rw [ha]
      exact hself
    · rw [Function.update_of_ne ha] at hs
      rw [hothers a ha]
      exact h.payloads a slot' hs hd'
  committed := by
    obtain ⟨m, hm, hcomm, hall⟩ := h.committed
    refine ⟨m, hm, hcomm, fun a h1 ha => ?_⟩
    -- slot `s` was not done and is not, so as many are done as before
    by_cases hne : a = s
    · subst hne
      rw [Function.update_self, ← hall a h1 ha]
      constructor
      · rintro ⟨slot', hs', hd'⟩
        exact absurd (Option.some.inj hs' ▸ hd') hd
      · exact fun hc => absurd hc hnot
    · rw [Function.update_of_ne hne]
      exact hall a h1 ha

/-- A slot is done, as the next one. -/
theorem commit (h : Keeps number done ps x slots pending committed) (slot : S) (hd : done slot)
    {p : Payload} (hp : ps[s - 1]? = some p) (hnext : InTurn (Ended done) ps x s)
    (hothers : ∀ a, a ≠ s → pending'.lookup a = pending.lookup a) :
    Keeps number done ps (Function.update x s (some slot)) (slots.insert s (number slot s)) pending'
      (committed ++ [⟨s, p⟩]) where
  slots := h.lookup_write slot
  payloads a slot' hs' hd' := by
    by_cases ha : a = s
    · subst ha
      rw [Function.update_self, Option.some.injEq] at hs'
      exact absurd (hs' ▸ hd) hd'
    · rw [Function.update_of_ne ha] at hs'
      rw [hothers a ha]
      exact h.payloads a slot' hs' hd'
  committed := by
    obtain ⟨m, hm, hcomm, hall⟩ := h.committed
    -- it is the next one that is done
    obtain rfl := hnext m hm hall
    have hlt : m < ps.length := (List.getElem?_eq_some_iff.mp hp).1
    refine ⟨m + 1, hlt, ?_, fun a h1 ha => ?_⟩
    · rw [hcomm]
      exact (numbered_take_succ hp).symm
    · by_cases hne : a = m + 1
      · subst hne
        rw [Function.update_self]
        exact ⟨fun _ => le_rfl, fun _ => ⟨slot, rfl, hd⟩⟩
      · rw [Function.update_of_ne hne, hall a h1 ha]
        omega

/-- One more proposal, of which nothing is known. -/
theorem concat (h : Keeps number done ps x slots pending committed)
    (hidle : ∀ a, a = 0 ∨ ps.length < a → x a = none) (p : Payload) :
    Keeps number done (ps ++ [p]) x slots pending committed where
  slots := h.slots
  payloads a slot hs hd := by
    have hbound : ¬ (a = 0 ∨ ps.length < a) := fun ha =>
      absurd ((hidle a ha).symm.trans hs) (by simp)
    rw [not_or, not_lt] at hbound
    have hlt : a - 1 < ps.length := Nat.sub_one_lt_of_le (Nat.pos_of_ne_zero hbound.1) hbound.2
    rw [List.getElem?_append_left hlt]
    exact h.payloads a slot hs hd
  committed := by
    obtain ⟨m, hm, hcomm, hall⟩ := h.committed
    refine ⟨m, by rw [List.length_append]; exact Nat.le_add_right_of_le hm, ?_, fun a h1 ha => ?_⟩
    · rw [List.take_append_of_le_length hm]
      exact hcomm
    -- the new sequence has no slot
    · rcases Nat.lt_or_ge ps.length a with hlt | hle
      · constructor
        · rintro ⟨slot, hs, _⟩
          exact absurd ((hidle a (.inr hlt)).symm.trans hs) (by simp)
        · intro hle
          exact absurd (hle.trans hm) (not_le.mpr hlt)
      · exact hall a h1 hle

/-- One more proposal, whose slot is opened. -/
theorem launch (h : Keeps number done ps x slots pending committed) (slot : S)
    (hidle : ∀ a, a = 0 ∨ ps.length < a → x a = none) (p : Payload) (hd : ¬ done slot) :
    Keeps number done (ps ++ [p]) (Function.update x (ps.length + 1) (some slot))
      (slots.insert (ps.length + 1) (number slot (ps.length + 1)))
      (pending.insert (ps.length + 1) p) committed := by
  refine (h.concat hidle p).write slot ?_ hd ?_ fun a ha => AList.lookup_insert_ne ha
  · exact not_ended_of_none (hidle _ (.inr (Nat.lt_succ_self _)))
  · rw [AList.lookup_insert]
    simp

end Keeps

end Keeps

/-! ### Protocols -/

/-- A protocol of `n` nodes that follows a slot program in its normal case: `Holds` relates the
    state of a node to its slots by sequence, `Content` the messages to the letters. -/
structure NormalCase (σ S W : Type) [CommitQueue σ] [Sha256] (n : ℕ) where
  program : SlotProgram S W
  code : NodeId → ConsensusNode σ
  init : NodeId → σ
  phase : W → MessagePhase
  Content : List Payload → SequenceNumber → Letter W → ProtocolMessage → Prop
  Holds : List Payload → (SequenceNumber → Option S) → σ → Prop
  Ready : Option S → W → Prop
  Finished : Option S → Prop
  next : σ → SequenceNumber
  content_phase : ∀ {ps s l m}, Content ps s l m → messagePhase m = some (phase l.wave)
  content_alter : ∀ {ps s l m} (cfg : FaultConfig), cfg.isByzantine 0 = false →
    m.sender = l.sender → Content ps s l m.payload → Content ps s l (cfg.alter m).payload
  content_concat : ∀ {ps s l m} (p : Payload), Content ps s l m → Content (ps ++ [p]) s l m
  next_init : next (init 0) = 1
  holds_init : ∀ i, Holds [] (fun _ => none) (init i)
  holds_concat : ∀ {ps x st} (p : Payload), Holds ps x st →
    (∀ a, a = 0 ∨ ps.length < a → x a = none) → Holds (ps ++ [p]) x st
  /-- A node has committed the sequences whose slots are finished, in order. -/
  holds_committed : ∀ {ps x st}, Holds ps x st → ∃ m ≤ ps.length,
    CommitQueue.committed st = numbered (ps.take m) ∧
      ∀ a, 1 ≤ a → a ≤ ps.length → (Finished (x a) ↔ a ≤ m)
  /-- Node `0` opens the slot of the next sequence. -/
  propose : ∀ {ps x st} (p : Payload), Holds ps x st → next st = ps.length + 1 →
    (∀ a, a = 0 ∨ ps.length < a → x a = none) →
    ∃ st' out, (code 0).propose st p = (.accepted, st', out) ∧
      Holds (ps ++ [p]) (Function.update x (ps.length + 1) (some program.first)) st' ∧
      List.Forall₂ (Shows n (Content (ps ++ [p]) (ps.length + 1))) out program.opening ∧
      next st' = ps.length + 1 + 1
  /-- A message does to the slot of its sequence what the slot program says.  A slot that this
      finishes may be taken to be the next one. -/
  handle : ∀ {ps x st s l m}, Holds ps x st → 1 ≤ s → s ≤ ps.length → Ready (x s) l.wave →
    (¬ Finished (x s) → Finished (program.handle l.target (x s) l.wave l.sender).1 →
      ∀ k ≤ ps.length, (∀ a, 1 ≤ a → a ≤ ps.length → (Finished (x a) ↔ a ≤ k)) → s = k + 1) →
    Shows n (Content ps s) m l →
    ∃ st' out, (code l.target).handleMessage st m = some (st', out) ∧
      Holds ps (Function.update x s (program.handle l.target (x s) l.wave l.sender).1) st' ∧
      List.Forall₂ (Shows n (Content ps s)) out
        (program.handle l.target (x s) l.wave l.sender).2 ∧
      next st' = next st

namespace NormalCase

variable [CommitQueue σ] [Sha256] {n : ℕ} (N : NormalCase σ S W n)
variable {ps : List Payload} {faults : NetworkFaults} {F : Finset NodeId}
variable {s : SequenceNumber} {l : Letter W} {m : NetworkMessage}

/-- The round of a sequence under a fault configuration. -/
abbrev round (faults : NetworkFaults) : Round (NodeId → Option S) (Letter W) :=
  N.program.round (lost faults N.phase)

variable {N}

/-- **On the way** a letter is lost, or arrives as the same letter. -/
theorem carried (hF : faults.ConfinedTo F) (h0 : 0 ∉ F) (h : Shows n (N.Content ps s) m l) :
    (lost faults N.phase l = true ∧ faults.carried m = []) ∨
      (lost faults N.phase l = false ∧ ∃ m', faults.carried m = [m'] ∧
        Shows n (N.Content ps s) m' l) := by
  have hdrops : faults.drops m.sender m.payload = faults.dropsPhase l.sender (N.phase l.wave) := by
    rw [faults.drops_eq_dropsPhase (N.content_phase h.content), h.sender]
  unfold lost NetworkFaults.carried
  rw [h.sender, h.target, FaultConfig.tamper_eq, hdrops]
  by_cases hiso : (faults.isIsolated l.sender || faults.isIsolated l.target) = true
  · exact .inl ⟨by rw [hiso, Bool.true_or], if_pos hiso⟩
  · rw [if_neg hiso, Bool.eq_false_iff.mpr hiso, Bool.false_or]
    by_cases hdrop : faults.dropsPhase l.sender (N.phase l.wave) = true
    · exact .inl ⟨hdrop, if_pos hdrop⟩
    · exact .inr ⟨Bool.eq_false_iff.mpr hdrop, _, if_neg hdrop,
        (faults.alter_sender m).trans h.sender, (faults.alter_target m).trans h.target,
        h.target_lt, N.content_alter _ (hF.isByzantine_eq h0) h.sender h.content⟩

/-! ### The simulation -/

variable (N) in
/-- The nodes and the queue of a cluster are the rounds `P` of the proposals `ps`. -/
structure Follows (faults : NetworkFaults) (ps : List Payload) (nodes : NodeId → σ)
    (q : List NetworkMessage) (P : Pipe (NodeId → Option S) (Letter W)) : Prop where
  reach : P.Reach (N.round faults)
  opened : P.opened = ps.length
  queue : List.Forall₂ (fun m l => Shows n (N.Content ps l.1) m l.2) q P.queue
  next : N.next (nodes 0) = ps.length + 1
  nodes : ∀ i, N.Holds ps (fun s => P.rounds s i) (nodes i)

variable {nodes : NodeId → σ} {q : List NetworkMessage} {P : Pipe (NodeId → Option S) (Letter W)}

/-- A cluster starts without rounds. -/
theorem follows_init (faults : NetworkFaults) :
    N.Follows faults [] N.init [] (Pipe.empty (N.round faults)) where
  reach := .empty
  opened := rfl
  queue := .nil
  next := N.next_init
  nodes := N.holds_init

omit [Sha256] in
/-- The slots of node `i` after a round is updated. -/
private theorem update_rounds (x : ℕ → NodeId → Option S) (s : ℕ) (y : NodeId → Option S)
    (i : NodeId) :
    (fun a => Function.update x s y a i) = Function.update (fun a => x a i) s (y i) := by
  funext a
  by_cases ha : a = s
  · rw [ha, Function.update_self, Function.update_self]
  · rw [Function.update_of_ne ha, Function.update_of_ne ha]

/-- Node `0` accepts every proposal. -/
theorem Follows.propose (h : N.Follows faults ps nodes q P) (p : Payload) :
    ∃ st out, (N.code 0).propose (nodes 0) p = (.accepted, st, out) ∧
      N.Follows faults (ps ++ [p]) (Function.update nodes 0 st) (q ++ out)
        (P.launch (N.round faults)) := by
  -- rounds that were not started have no slots
  have hidle : ∀ i a, a = 0 ∨ ps.length < a → P.rounds a i = none := by
    intro i a ha
    rw [h.reach.idle (by rw [h.opened]; exact ha)]
    rfl
  obtain ⟨st, out, hacc, hholds, hout, hnext⟩ := N.propose p (h.nodes 0) h.next (hidle 0)
  -- the proposal starts the next round
  have hlength : (ps ++ [p]).length = ps.length + 1 := by rw [List.length_append]; rfl
  refine ⟨st, out, hacc, .launch h.reach, ?_, ?_, ?_, fun i => ?_⟩
  · rw [hlength, ← h.opened]
    rfl
  · have hold : List.Forall₂ (fun m l => Shows n (N.Content (ps ++ [p]) l.1) m l.2) q P.queue :=
      h.queue.imp fun m l hm => ⟨hm.sender, hm.target, hm.target_lt, N.content_concat p hm.content⟩
    refine List.rel_append hold ?_
    rw [List.forall₂_map_right_iff, h.opened]
    exact hout
  · rw [Function.update_self, hnext, hlength]
  · show N.Holds (ps ++ [p]) (fun a => Function.update P.rounds (P.opened + 1) _ a i) _
    rw [update_rounds, h.opened]
    by_cases hi : i = 0
    · subst hi
      rw [Function.update_self, start_zero]
      exact hholds
    · rw [Function.update_of_ne hi, start_of_ne _ _ hi]
      have hsame : Function.update (fun a => P.rounds a i) (ps.length + 1) none =
          fun a => P.rounds a i := by
        rw [← hidle i (ps.length + 1) (.inr (Nat.lt_succ_self _))]
        exact Function.update_eq_self _ _
      rw [hsame]
      exact N.holds_concat p (h.nodes i) (hidle i)

variable (N) in
/-- What the round alone must keep: letters find slots that are ready for them, and a finished slot
    stays finished. -/
structure Orderly (faults : NetworkFaults) : Prop where
  ready : ∀ t, ∀ l ∈ ((N.round faults).solo t).queue,
    N.Ready (((N.round faults).solo t).state l.target) l.wave
  finished : ∀ i t t', t ≤ t' → N.Finished (((N.round faults).solo t).state i) →
    N.Finished (((N.round faults).solo t').state i)

/-- The first pending message is delivered, as the first letter of the rounds is. -/
theorem Follows.receive (hN : N.Orderly faults) (hF : faults.ConfinedTo F) (h0 : 0 ∉ F)
    (h : N.Follows faults ps nodes (m :: q) P) :
    ∃ nodes' out, Cluster.receive N.code n faults nodes m = some (nodes', out) ∧
      ∃ s l Q, P.queue = (s, l) :: Q ∧
        N.Follows faults ps nodes' (q ++ out) (P.deliver (N.round faults) s l Q) := by
  obtain ⟨⟨s, l⟩, Q, hm, hrest, hP⟩ := List.forall₂_cons_left_iff.mp h.queue
  have hknown := h.reach.known (l := (s, l)) (by rw [hP]; exact List.mem_cons_self)
  -- a message is lost in the cluster if and only if its letter is lost in the round
  rcases carried hF h0 hm with ⟨hlost, hcarried⟩ | ⟨hlost, m', hcarried, hm'⟩
  · have hstep := step_of_lost N.program (P.rounds s) hlost
    refine ⟨nodes, [], Cluster.receive_of_lost hcarried nodes, s, l, Q, hP, .deliver h.reach hP,
      h.opened, ?_, h.next, fun i => ?_⟩
    · show List.Forall₂ _ (q ++ []) (Q ++ List.map _ ((N.round faults).step _ l).2)
      rw [hstep, List.append_nil, List.map_nil, List.append_nil]
      exact hrest
    · show N.Holds ps (fun a => Function.update P.rounds s ((N.round faults).step _ l).1 a i) _
      rw [hstep, Function.update_eq_self]
      exact h.nodes i
  · have hstep := step_of_not_lost N.program (P.rounds s) hlost
    have hready : N.Ready (P.rounds s l.target) l.wave := by
      refine h.reach.always (I := fun c : Solo (NodeId → Option S) (Letter W) =>
          ∀ l ∈ c.queue, N.Ready (c.state l.target) l.wave)
        hN.ready hknown.1 hknown.2 l ?_
      show l ∈ P.traffic s
      rw [Pipe.traffic, hP]
      simp
    -- a slot that this finishes is the next one, since rounds finish in order
    obtain ⟨st', out, hhandle, hholds, hout, hnext⟩ := N.handle (h.nodes l.target) hknown.1
      (h.opened ▸ hknown.2) hready (fun hnot hfin k _ hall => by
        refine h.reach.next (D := fun x : NodeId → Option S => N.Finished (x l.target))
          (hN.finished l.target) hP (by rw [h.opened]; exact hall) hnot ?_
        rw [hstep]
        show N.Finished (Function.update (P.rounds s) l.target _ l.target)
        rw [Function.update_self]
        exact hfin) hm'
    refine ⟨Function.update nodes l.target st', out, ?_, s, l, Q, hP, .deliver h.reach hP, h.opened,
      ?_, ?_, fun i => ?_⟩
    · rw [← hm'.target] at hhandle ⊢
      exact Cluster.receive_of_handled hcarried (hm'.target ▸ hm'.target_lt) hhandle
    · show List.Forall₂ _ _ (Q ++ List.map _ ((N.round faults).step _ l).2)
      rw [hstep]
      refine List.rel_append hrest ?_
      rw [List.forall₂_map_right_iff]
      exact hout
    -- the counter of the proposer is left alone by deliveries
    · by_cases ht : 0 = l.target
      · rw [← ht] at hnext ⊢
        rw [Function.update_self, hnext]
        exact h.next
      · rw [Function.update_of_ne ht]
        exact h.next
    · show N.Holds ps (fun a => Function.update P.rounds s ((N.round faults).step _ l).1 a i) _
      rw [hstep, update_rounds]
      dsimp only
      by_cases hi : i = l.target
      · subst hi
        rw [Function.update_self, Function.update_self]
        exact hholds
      · rw [Function.update_of_ne hi, Function.update_of_ne hi]
        have hsame : Function.update (fun a => P.rounds a i) s (P.rounds s i) =
            fun a => P.rounds a i := Function.update_eq_self _ _
        rw [hsame]
        exact h.nodes i

/-- **The cluster commits everything**, in the order of the proposals, at the nodes whose slot is
    finished when nothing is left of a round. -/
theorem commits_all (hN : N.Orderly faults) (hn : 1 ≤ n) (hF : faults.ConfinedTo F) (h0 : 0 ∉ F)
    (rng : ℕ → ℚ) (calls : List ClusterCall) (hcalls : .tick ∉ calls) :
    ∃ results c, ((Cluster.new n N.init rng).setFaults faults).run N.code calls =
        some (results, c) ∧
      (∀ r ∈ results, r = .accepted) ∧
      (c.pending = [] → ∀ i, (∀ t, ((N.round faults).solo t).queue = [] →
          N.Finished (((N.round faults).solo t).state i)) →
        CommitQueue.committed (c.nodes i) = numbered (Cluster.proposals calls)) := by
  obtain ⟨results, c, hrun, _, hres, P, hP⟩ :=
    Cluster.run_of_front N.code (I := fun ps nodes q => ∃ P, N.Follows faults ps nodes q P)
      hn hF.toLossless (hF.isIsolated_eq h0)
      (fun ps nodes q p ⟨P, hP⟩ => by
        obtain ⟨st, out, hacc, hnew⟩ := hP.propose p
        exact ⟨st, out, hacc, _, hnew⟩)
      (fun ps nodes m q ⟨P, hP⟩ => by
        obtain ⟨nodes', out, hr, s, l, Q, _, hnew⟩ := hP.receive hN hF h0
        exact ⟨nodes', out, hr, _, hnew⟩)
      calls hcalls [] ((Cluster.new n N.init rng).setFaults faults) rfl rfl ⟨_, follows_init faults⟩
  refine ⟨results, c, hrun, hres, fun hempty i hi => ?_⟩
  rw [List.nil_append] at hP
  obtain ⟨m, hm, hcomm, hall⟩ := N.holds_committed (hP.nodes i)
  have hqueue : P.queue = [] := by
    have hf := hP.queue
    rw [hempty] at hf
    exact List.forall₂_nil_left_iff.mp hf
  -- no round has a letter left, so all of them are finished
  have hfull : m = (Cluster.proposals calls).length := by
    by_contra hne
    have hlt : m + 1 ≤ (Cluster.proposals calls).length := by omega
    have hfin : N.Finished (P.rounds (m + 1) i) := by
      refine hP.reach.always (I := fun c : Solo (NodeId → Option S) (Letter W) =>
        c.queue = [] → N.Finished (c.state i)) hi
        (Nat.le_add_left 1 m) (hP.opened ▸ hlt) ?_
      show P.traffic (m + 1) = []
      rw [Pipe.traffic, hqueue, List.filterMap_nil]
    have hle := (hall (m + 1) (Nat.le_add_left 1 m) hlt).mp hfin
    omega
  rw [hcomm, hfull, List.take_length]

/-- **What the proposals cost**: each of them as many messages as a round has letters. -/
theorem costs_all (hN : N.Orderly faults) (hn : 1 ≤ n) (hF : faults.ConfinedTo F) (h0 : 0 ∉ F)
    {Φ : (NodeId → Option S) → ℕ} {cost : ℕ} (hΦ : (N.round faults).Accounts Φ)
    (hcost : ∀ t, ((N.round faults).solo t).queue = [] →
      Φ ((N.round faults).solo t).state = cost) (rng : ℕ → ℚ) (calls : List ClusterCall)
    (hcalls : .tick ∉ calls) :
    ∃ results c, ((Cluster.new n N.init rng).setFaults faults).run N.code calls =
        some (results, c) ∧
      (c.pending = [] → c.stats.messagesSent = (Cluster.proposals calls).length * cost) := by
  obtain ⟨results, c, hrun, _, _, P, hP, hspent⟩ :=
    Cluster.run_counted N.code (I := fun ps nodes q k =>
        ∃ P, N.Follows faults ps nodes q P ∧ P.Spent Φ k)
      hn hF.toLossless (hF.isIsolated_eq h0)
      (fun ps nodes q k p ⟨P, hP, hspent⟩ => by
        obtain ⟨st, out, hacc, hnew⟩ := hP.propose p
        exact ⟨st, out, hacc, _, hnew, hspent.launch hΦ⟩)
      (fun ps nodes m q k ⟨P, hP, hspent⟩ => by
        obtain ⟨nodes', out, hr, s, l, Q, hQ, hnew⟩ := hP.receive hN hF h0
        exact ⟨nodes', out, hr, _, hnew, hspent.deliver hΦ hP.reach hQ⟩)
      calls hcalls [] ((Cluster.new n N.init rng).setFaults faults) rfl rfl
      ⟨_, follows_init faults, .empty _ _⟩
  refine ⟨results, c, hrun, fun hempty => ?_⟩
  have hqueue : P.queue = [] := by
    have hf := hP.queue
    rw [hempty] at hf
    exact List.forall₂_nil_left_iff.mp hf
  rw [hspent.drained hcost hP.reach hqueue, hP.opened, List.nil_append]

end NormalCase

end ConsensusBench
