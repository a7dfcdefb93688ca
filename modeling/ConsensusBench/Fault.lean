import ConsensusBench.Consensus
import ConsensusBench.Lib.HashMap

namespace ConsensusBench

/-!
# Byzantine fault injection

`FaultConfig::tamper` and the functions under it.  A Byzantine node runs the honest code;
what it sends is altered on the way by its list of behaviours.

* `tamper_eq` — tampering drops a message if some `SelectiveDrop` of the sender lists its
  phase, and otherwise alters it by the behaviours in order (`alter`).
* `alter_skeleton` — altering touches digests and payloads only.
* `proposed_alter` — what becomes of a proposal's payload: it gains one byte `0xFF` per
  `Equivocate` of the sender, and only for odd targets.
-/

/-! ### Behaviours and phases -/

/-- Message phases that can be selectively targeted. -/
inductive MessagePhase where
  | pbftPrePrepare
  | pbftPrepare
  | pbftCommit
  | raftAppendEntries
  | raftRequestVote
  | hotStuffPropose
  | hotStuffVote
  | hotStuffQC
  deriving DecidableEq, Repr

/-- Types of Byzantine misbehavior a node can exhibit. -/
inductive ByzantineBehavior where
  | corruptDigest
  | equivocate
  | selectiveDrop (phases : List MessagePhase)
  deriving DecidableEq, Repr

/-- The part of the fault configuration that alters messages. -/
structure FaultConfig where
  byzantineNodes : HashMap NodeId (List ByzantineBehavior) := ∅

namespace FaultConfig

/-- Register a node as Byzantine with specified misbehaviors. -/
def withByzantine (cfg : FaultConfig) (node : NodeId) (behaviors : List ByzantineBehavior) :
    FaultConfig :=
  { cfg with byzantineNodes := cfg.byzantineNodes.insert node behaviors }

/-- Whether a node is configured as Byzantine. -/
def isByzantine (cfg : FaultConfig) (node : NodeId) : Bool :=
  (cfg.byzantineNodes.lookup node).isSome

end FaultConfig

/-! ### Tampering -/

/-- `bytes[0] ^= 0xFF`. -/
def Digest.corrupt (d : Digest) : Digest := ⟨d.bytes.set 0 (d.bytes[0] ^^^ 0xFF)⟩

/-- The payload with one byte `0xFF` appended. -/
def Payload.alt (p : Payload) : Payload := ⟨p.data ++ [0xFF]⟩

/-- Corrupt the digest field of a message by flipping bits. -/
def corruptDigest (msg : NetworkMessage) : NetworkMessage :=
  match msg.payload with
  | .pbft (.prePrepare v s d p) => { msg with payload := .pbft (.prePrepare v s d.corrupt p) }
  | .pbft (.prepare v s d r) => { msg with payload := .pbft (.prepare v s d.corrupt r) }
  | .pbft (.commit v s d r) => { msg with payload := .pbft (.commit v s d.corrupt r) }
  | .hotStuff (.propose v s d p jv jp) =>
      { msg with payload := .hotStuff (.propose v s d.corrupt p jv jp) }
  | .hotStuff (.vote v s d ph r) =>
      { msg with payload := .hotStuff (.vote v s d.corrupt ph r) }
  | .hotStuff (.quorumCertificate v s d ph c) =>
      { msg with payload := .hotStuff (.quorumCertificate v s d.corrupt ph c) }
  | _ => msg

variable [Sha256]

/-- What an odd-numbered target gets: every payload of the message gains one byte `0xFF`,
    and a digest field is recomputed. -/
def forkPayload (msg : NetworkMessage) : NetworkMessage :=
  match msg.payload with
  | .pbft (.prePrepare v s _ p) =>
      { msg with payload := .pbft (.prePrepare v s p.alt.digest p.alt) }
  | .raft (.appendEntries t l pi pt entries c) =>
      { msg with payload := .raft (.appendEntries t l pi pt
          (entries.map fun e => { e with payload := e.payload.alt }) c) }
  | .hotStuff (.propose v s _ p jv jp) =>
      { msg with payload := .hotStuff (.propose v s p.alt.digest p.alt jv jp) }
  | _ => msg

/-- Equivocate: odd-numbered targets get a message with a different payload. -/
def equivocate (msg : NetworkMessage) : List NetworkMessage :=
  -- even targets get the original
  if msg.target % 2 = 0 then [msg] else [forkPayload msg]

omit [Sha256] in
/-- The phase of a message, if it has one that can be targeted. -/
def messagePhase (m : ProtocolMessage) : Option MessagePhase :=
  match m with
  | .pbft (.prePrepare ..) => some .pbftPrePrepare
  | .pbft (.prepare ..) => some .pbftPrepare
  | .pbft (.commit ..) => some .pbftCommit
  | .raft (.appendEntries ..) => some .raftAppendEntries
  | .raft (.requestVote ..) => some .raftRequestVote
  | .hotStuff (.propose ..) => some .hotStuffPropose
  | .hotStuff (.vote ..) => some .hotStuffVote
  | .hotStuff (.quorumCertificate ..) => some .hotStuffQC
  | _ => none

/-- Check if a message matches any of the specified phases. -/
def matchesPhase (m : ProtocolMessage) (phases : List MessagePhase) : Bool :=
  match messagePhase m with
  | none => false
  | some ph => ph ∈ phases

/-- One behaviour applied to one message. -/
def applyBehavior (m : NetworkMessage) : ByzantineBehavior → List NetworkMessage
  | .corruptDigest => [corruptDigest m]
  | .equivocate => equivocate m
  | .selectiveDrop phases => if matchesPhase m.payload phases then [] else [m]

/-- Apply Byzantine tampering to a message from a Byzantine node: the behaviours of the
    sender in order, each on all messages left by those before it. -/
def FaultConfig.tamper (cfg : FaultConfig) (msg : NetworkMessage) : List NetworkMessage :=
  match cfg.byzantineNodes.lookup msg.sender with
  | none => [msg]
  | some behaviors =>
      behaviors.foldl (fun messages b => messages.flatMap fun m => applyBehavior m b) [msg]

namespace FaultConfig

/-! ### Tampering in closed form -/

variable (cfg : FaultConfig)

/-- The behaviours of a node; an honest node has none. -/
def behaviors (i : NodeId) : List ByzantineBehavior := (cfg.byzantineNodes.lookup i).getD []

/-- Whether a behaviour drops messages of the phase of `m`. -/
def dropsBy (m : ProtocolMessage) : ByzantineBehavior → Bool
  | .selectiveDrop phases => matchesPhase m phases
  | _ => false

/-- Whether node `i` drops messages of the phase of `m`. -/
def drops (i : NodeId) (m : ProtocolMessage) : Bool := (cfg.behaviors i).any (dropsBy m)

/-- One behaviour applied to a message that it does not drop. -/
def alterBy (m : NetworkMessage) : ByzantineBehavior → NetworkMessage
  | .corruptDigest => corruptDigest m
  | .equivocate => if m.target % 2 = 0 then m else forkPayload m
  | .selectiveDrop _ => m

/-- The sender's behaviours applied in order to a message that none of them drops. -/
def alter (m : NetworkMessage) : NetworkMessage :=
  (cfg.behaviors m.sender).foldl alterBy m

/-- `m` up to the data tampering can touch: digests and payloads are blanked. -/
def skeleton : ProtocolMessage → ProtocolMessage
  | .pbft (.prePrepare v s _ _) => .pbft (.prePrepare v s ⟨Vector.replicate 32 0⟩ ⟨[]⟩)
  | .pbft (.prepare v s _ r) => .pbft (.prepare v s ⟨Vector.replicate 32 0⟩ r)
  | .pbft (.commit v s _ r) => .pbft (.commit v s ⟨Vector.replicate 32 0⟩ r)
  | .raft (.appendEntries t l pi pt entries c) =>
      .raft (.appendEntries t l pi pt (entries.map fun e => { e with payload := ⟨[]⟩ }) c)
  | .hotStuff (.propose v s _ _ jv jp) =>
      .hotStuff (.propose v s ⟨Vector.replicate 32 0⟩ ⟨[]⟩ jv jp)
  | .hotStuff (.vote v s _ ph r) => .hotStuff (.vote v s ⟨Vector.replicate 32 0⟩ ph r)
  | .hotStuff (.quorumCertificate v s _ ph c) =>
      .hotStuff (.quorumCertificate v s ⟨Vector.replicate 32 0⟩ ph c)
  | m => m

section Frame

variable (m : NetworkMessage) (b : ByzantineBehavior)

omit [Sha256] in
/-- Corrupting a digest touches neither the ends nor the skeleton of a message. -/
theorem corruptDigest_frame : (corruptDigest m).sender = m.sender ∧
    (corruptDigest m).target = m.target ∧
    skeleton (corruptDigest m).payload = skeleton m.payload := by
  unfold corruptDigest
  split <;> rename_i h <;> simp [h, skeleton]

/-- Forking a payload touches neither the ends nor the skeleton of a message. -/
theorem forkPayload_frame : (forkPayload m).sender = m.sender ∧
    (forkPayload m).target = m.target ∧
    skeleton (forkPayload m).payload = skeleton m.payload := by
  unfold forkPayload
  split <;> rename_i h <;> simp [h, skeleton]

/-- A behaviour leaves sender, target and everything but digests and payloads alone. -/
theorem alterBy_frame : (alterBy m b).sender = m.sender ∧
    (alterBy m b).target = m.target ∧
    skeleton (alterBy m b).payload = skeleton m.payload := by
  cases b with
  | corruptDigest => exact corruptDigest_frame m
  | equivocate =>
    by_cases h : m.target % 2 = 0
    · simp only [alterBy, if_pos h, and_self]
    · simp only [alterBy, if_neg h]
      exact forkPayload_frame m
  | selectiveDrop phases => exact ⟨rfl, rfl, rfl⟩

/-- Nor does any sequence of behaviors. -/
theorem foldl_alterBy_frame (bs : List ByzantineBehavior) :
    (bs.foldl alterBy m).sender = m.sender ∧
    (bs.foldl alterBy m).target = m.target ∧
    skeleton (bs.foldl alterBy m).payload = skeleton m.payload := by
  induction bs generalizing m with
  | nil => exact ⟨rfl, rfl, rfl⟩
  | cons b bs ih =>
    obtain ⟨h1, h2, h3⟩ := ih (alterBy m b)
    obtain ⟨g1, g2, g3⟩ := alterBy_frame m b
    exact ⟨h1.trans g1, h2.trans g2, h3.trans g3⟩

/-- Tampering leaves the sender. -/
theorem alter_sender : (cfg.alter m).sender = m.sender :=
  (foldl_alterBy_frame m _).1

/-- Tampering leaves the target. -/
theorem alter_target : (cfg.alter m).target = m.target :=
  (foldl_alterBy_frame m _).2.1

/-- Tampering touches digests and payloads only. -/
theorem alter_skeleton : skeleton (cfg.alter m).payload = skeleton m.payload :=
  (foldl_alterBy_frame m _).2.2

omit [Sha256] in
/-- The phase of a message is part of its skeleton. -/
theorem messagePhase_skeleton (m : ProtocolMessage) :
    messagePhase (skeleton m) = messagePhase m := by
  cases m with
  | pbft m => cases m <;> rfl
  | raft m => cases m <;> rfl
  | hotStuff m => cases m <;> rfl

omit [Sha256] in
/-- Messages with one skeleton match the same phases. -/
theorem matchesPhase_congr {m m' : ProtocolMessage} (h : skeleton m = skeleton m')
    (phases : List MessagePhase) : matchesPhase m phases = matchesPhase m' phases := by
  have hphase : messagePhase m = messagePhase m' := by
    rw [← messagePhase_skeleton m, h, messagePhase_skeleton]
  simp only [matchesPhase, hphase]

end Frame

/-- One behaviour drops the message or alters it. -/
theorem applyBehavior_eq (m : NetworkMessage) (b : ByzantineBehavior) :
    applyBehavior m b = if dropsBy m.payload b then [] else [alterBy m b] := by
  cases b with
  | corruptDigest => rfl
  | equivocate =>
    simp only [applyBehavior, equivocate, alterBy, dropsBy]
    split <;> simp
  | selectiveDrop phases => rfl

/-- No behavior makes a message out of none. -/
private theorem foldl_applyBehavior_nil (bs : List ByzantineBehavior) :
    bs.foldl (fun ms b => ms.flatMap fun m => applyBehavior m b) [] = [] := by
  induction bs with
  | nil => rfl
  | cons b bs ih => simpa using ih

omit [Sha256] in
/-- Messages with one skeleton are dropped by the same behaviors. -/
theorem dropsBy_congr {m m' : ProtocolMessage} (h : skeleton m = skeleton m') :
    dropsBy m = dropsBy m' := by
  funext b
  cases b with
  | selectiveDrop phases => exact matchesPhase_congr h phases
  | _ => rfl

/-- The behaviors drop a message, or alter it one after the other. -/
private theorem foldl_applyBehavior (bs : List ByzantineBehavior) (m : NetworkMessage) :
    bs.foldl (fun ms b => ms.flatMap fun m => applyBehavior m b) [m] =
      if bs.any (dropsBy m.payload) then [] else [bs.foldl alterBy m] := by
  induction bs generalizing m with
  | nil => rfl
  | cons b bs ih =>
    rw [List.foldl_cons, List.flatMap_singleton, applyBehavior_eq, List.any_cons,
      List.foldl_cons]
    by_cases hb : dropsBy m.payload b
    · rw [if_pos hb, foldl_applyBehavior_nil, hb, Bool.true_or, if_pos rfl]
    · -- the phase of the altered message is the phase of the original one
      rw [if_neg hb, ih, dropsBy_congr (alterBy_frame m b).2.2, Bool.eq_false_iff.mpr hb,
        Bool.false_or]

/-- **Tampering in closed form.** -/
theorem tamper_eq (m : NetworkMessage) :
    cfg.tamper m = if cfg.drops m.sender m.payload then [] else [cfg.alter m] := by
  unfold tamper drops alter behaviors
  cases hb : cfg.byzantineNodes.lookup m.sender with
  | none => rfl
  | some bs => exact foldl_applyBehavior bs m

/-- Tampering copies no message. -/
theorem tamper_length_le (m : NetworkMessage) : (cfg.tamper m).length ≤ 1 := by
  rw [tamper_eq]
  split <;> simp

/-- What arrives in place of `m` is the altered `m`. -/
theorem eq_alter_of_mem {m m' : NetworkMessage} (h : m' ∈ cfg.tamper m) :
    m' = cfg.alter m := by
  rw [tamper_eq] at h
  split at h
  · exact absurd h (by simp)
  · exact List.mem_singleton.mp h

/-- What arrives in place of `m` has the sender, the target and the skeleton of `m`. -/
theorem frame_of_mem {m m' : NetworkMessage} (h : m' ∈ cfg.tamper m) :
    m'.sender = m.sender ∧ m'.target = m.target ∧ skeleton m'.payload = skeleton m.payload := by
  rw [cfg.eq_alter_of_mem h]
  exact ⟨cfg.alter_sender m, cfg.alter_target m, cfg.alter_skeleton m⟩

/-- What is true of the sender and the skeleton of a message survives tampering. -/
theorem survives {P : NodeId → ProtocolMessage → Prop} (hP : ∀ i x, P i (skeleton x) ↔ P i x)
    {m m' : NetworkMessage} (h : P m.sender m.payload) (hm : m' ∈ cfg.tamper m) :
    P m'.sender m'.payload := by
  obtain ⟨hsender, _, hskel⟩ := cfg.frame_of_mem hm
  rw [hsender, ← hP, hskel, hP]
  exact h

omit [Sha256] in
/-- An honest node has no behaviors. -/
theorem behaviors_eq_nil {i : NodeId} (h : cfg.isByzantine i = false) :
    cfg.behaviors i = [] := by
  unfold isByzantine at h
  rw [behaviors, Option.isSome_eq_false_iff.mp h |> Option.isNone_iff_eq_none.mp, Option.getD_none]

/-- Messages of honest nodes arrive as they were sent. -/
theorem alter_of_honest {m : NetworkMessage} (h : cfg.isByzantine m.sender = false) :
    cfg.alter m = m := by
  rw [alter, cfg.behaviors_eq_nil h, List.foldl_nil]

/-- **Messages of honest nodes arrive as they were sent.** -/
theorem tamper_of_honest {m : NetworkMessage} (h : cfg.isByzantine m.sender = false) :
    cfg.tamper m = [m] := by
  have hnone : cfg.byzantineNodes.lookup m.sender = none := by
    rwa [isByzantine, Option.isSome_eq_false_iff, Option.isNone_iff_eq_none] at h
  rw [tamper, hnone]

/-- Without Byzantine nodes the medium carries messages as they are. -/
theorem tamper_none (m : NetworkMessage) : tamper {} m = [m] :=
  tamper_of_honest {} rfl

/-- The nodes of a cluster of `n` that are configured as Byzantine. -/
def byzantine (n : ℕ) : Finset NodeId := (Finset.range n).filter fun i => cfg.isByzantine i

/-- The nodes of a cluster of `n` that are not, in order. -/
def honest (n : ℕ) : List NodeId := (List.range n).filter fun i => !cfg.isByzantine i

omit [Sha256] in
/-- The honest nodes of a cluster. -/
theorem mem_honest {n : ℕ} {i : NodeId} :
    i ∈ cfg.honest n ↔ i < n ∧ cfg.isByzantine i = false := by
  simp [honest]

omit [Sha256] in
/-- Each honest node is listed once. -/
theorem nodup_honest (n : ℕ) : (cfg.honest n).Nodup := List.nodup_range.filter _

omit [Sha256] in
/-- Every node is Byzantine or honest. -/
theorem card_byzantine_add_length_honest (n : ℕ) :
    (cfg.byzantine n).card + (cfg.honest n).length = n := by
  have hbyz : (cfg.byzantine n).card =
      ((List.range n).filter fun i => cfg.isByzantine i).length := by
    rw [byzantine, Finset.card_def, Finset.filter_val, Finset.range_val, Multiset.range,
      Multiset.filter_coe, Multiset.coe_card]
    simp only [Bool.decide_eq_true]
  have hsplit := List.length_eq_length_filter_add (l := List.range n) fun i => cfg.isByzantine i
  rw [List.length_range] at hsplit
  rw [hbyz, honest, ← hsplit]

omit [Sha256] in
/-- The Byzantine nodes of a cluster. -/
theorem mem_byzantine {n : ℕ} {i : NodeId} :
    i ∈ cfg.byzantine n ↔ i < n ∧ cfg.isByzantine i = true := by
  simp [byzantine]

omit [Sha256] in
/-- A node with a behaviour is Byzantine. -/
theorem isByzantine_of_mem {i : NodeId} {b : ByzantineBehavior} (h : b ∈ cfg.behaviors i) :
    cfg.isByzantine i = true := by
  by_contra hno
  rw [cfg.behaviors_eq_nil (Bool.eq_false_iff.mpr hno)] at h
  exact absurd h (by simp)

omit [Sha256] in
/-- Among `f + 1` different nodes there is an honest one, if at most `f` are Byzantine. -/
theorem exists_honest {n f : ℕ} (hcard : (cfg.byzantine n).card ≤ f) (g : ℕ → NodeId)
    (hinj : Function.Injective g) (hlt : ∀ k ≤ f, g k < n) : ∃ k ≤ f, g k ∈ cfg.honest n := by
  by_contra hnone
  push Not at hnone
  have hsub : (Finset.range (f + 1)).image g ⊆ cfg.byzantine n := by
    intro i hi
    obtain ⟨k, hk, rfl⟩ := Finset.mem_image.mp hi
    have hkf : k ≤ f := Nat.lt_succ_iff.mp (Finset.mem_range.mp hk)
    refine cfg.mem_byzantine.mpr ⟨hlt k hkf, ?_⟩
    by_contra hno
    exact hnone k hkf (cfg.mem_honest.mpr ⟨hlt k hkf, Bool.eq_false_iff.mpr hno⟩)
  have hle := Finset.card_le_card hsub
  rw [Finset.card_image_of_injective _ hinj, Finset.card_range] at hle
  omega

omit [Sha256] in
/-- Some even node is honest. -/
theorem exists_honest_even {n : ℕ} (hn : 1 ≤ n) (hcard : (cfg.byzantine n).card ≤ (n - 1) / 3) :
    ∃ j ∈ cfg.honest n, j % 2 = 0 := by
  have hinj : Function.Injective fun k : ℕ => 2 * k := fun a b h => by
    have h : 2 * a = 2 * b := h
    omega
  obtain ⟨k, _, hk⟩ := cfg.exists_honest hcard (fun k => 2 * k) hinj fun k hk => by
    show 2 * k < n
    omega
  exact ⟨_, hk, Nat.mul_mod_right 2 k⟩

omit [Sha256] in
/-- Some odd node is honest, if node `0` is not. -/
theorem exists_honest_odd {n : ℕ} (hn : 1 ≤ n) (hcard : (cfg.byzantine n).card ≤ (n - 1) / 3)
    (hbyz : cfg.isByzantine 0 = true) : ∃ i ∈ cfg.honest n, i % 2 = 1 := by
  have hinj : Function.Injective fun k : ℕ => 2 * k - (if k = 0 then 0 else 1) := fun a b h => by
    have h : 2 * a - (if a = 0 then 0 else 1) = 2 * b - (if b = 0 then 0 else 1) := h
    split at h <;> split at h <;> omega
  obtain ⟨k, _, hk⟩ := cfg.exists_honest hcard _ hinj fun k hk => by
    show 2 * k - (if k = 0 then 0 else 1) < n
    split <;> omega
  by_cases h0 : k = 0
  · subst h0
    exact absurd ((cfg.mem_honest.mp hk).2.symm.trans hbyz) (by decide)
  · refine ⟨_, hk, ?_⟩
    show (2 * k - (if k = 0 then 0 else 1)) % 2 = 1
    rw [if_neg h0]
    omega

/-! ### What becomes of a proposal -/

/-- Whether some `SelectiveDrop` of node `i` lists `phase`. -/
def dropsPhase (i : NodeId) (phase : MessagePhase) : Bool :=
  (cfg.behaviors i).any fun b => match b with
    | .selectiveDrop phases => phase ∈ phases
    | _ => false

omit [Sha256] in
/-- Messages of one phase are all dropped or all let through. -/
theorem drops_eq_dropsPhase {m : ProtocolMessage} {phase : MessagePhase}
    (h : messagePhase m = some phase) (i : NodeId) : cfg.drops i m = cfg.dropsPhase i phase := by
  unfold drops dropsPhase
  congr 1
  funext b
  cases b with
  | selectiveDrop phases => simp only [dropsBy, matchesPhase, h]
  | _ => rfl

/-- The payload a message proposes. -/
def proposed : ProtocolMessage → Option Payload
  | .pbft (.prePrepare _ _ _ p) => some p
  | .hotStuff (.propose _ _ _ p _ _) => some p
  | _ => none

/-- How many bytes `0xFF` a proposal of node `i` gains on its way to node `j`. -/
def forkBytes (i j : NodeId) : ℕ :=
  if j % 2 = 0 then 0 else (cfg.behaviors i).count .equivocate

omit [Sha256] in
/-- Corrupting a digest leaves the payload. -/
theorem proposed_corruptDigest (m : NetworkMessage) :
    proposed (corruptDigest m).payload = proposed m.payload := by
  unfold corruptDigest
  split <;> rename_i h <;> simp [h, proposed]

/-- Forking alters the payload. -/
theorem proposed_forkPayload (m : NetworkMessage) :
    proposed (forkPayload m).payload = (proposed m.payload).map Payload.alt := by
  unfold forkPayload
  split
  · rename_i h; rw [h]; rfl
  · rename_i h; rw [h]; rfl
  · rename_i h; rw [h]; rfl
  · rename_i h1 _ h2
    unfold proposed
    split
    · rename_i h; exact absurd h (h1 _ _ _ _)
    · rename_i h; exact absurd h (h2 _ _ _ _ _ _)
    · rfl

/-- The payload is forked once for each `.equivocate`, and only on the way to odd nodes. -/
private theorem proposed_foldl_alterBy (bs : List ByzantineBehavior) (m : NetworkMessage) :
    proposed (bs.foldl alterBy m).payload = (proposed m.payload).map
      (Payload.alt^[if m.target % 2 = 0 then 0 else bs.count .equivocate]) := by
  induction bs generalizing m with
  | nil => simp
  | cons b bs ih =>
    rw [List.foldl_cons, ih, (alterBy_frame m b).2.1, List.count_cons]
    cases b with
    | corruptDigest => simp [alterBy, proposed_corruptDigest]
    | equivocate =>
      by_cases ht : m.target % 2 = 0
      · simp [alterBy, ht]
      · -- the fork comes first, so it is the inner application
        simp only [alterBy, ht, if_false, proposed_forkPayload, Option.map_map, beq_self_eq_true,
          if_true, Function.iterate_succ]
    | selectiveDrop phases => simp [alterBy]

/-- **A proposal's payload on the way.** -/
theorem proposed_alter (m : NetworkMessage) : proposed (cfg.alter m).payload =
    (proposed m.payload).map (Payload.alt^[cfg.forkBytes m.sender m.target]) :=
  proposed_foldl_alterBy _ m

omit [Sha256] in
/-- A node that does not equivocate forks nothing. -/
theorem forkBytes_eq_zero {i : NodeId} (h : .equivocate ∉ cfg.behaviors i) (j : NodeId) :
    cfg.forkBytes i j = 0 := by
  unfold forkBytes
  split
  · rfl
  · exact List.count_eq_zero_of_not_mem h

omit [Sha256] in
/-- A node that equivocates forks everything it proposes to odd targets. -/
theorem forkBytes_pos {i j : NodeId} (h : .equivocate ∈ cfg.behaviors i) (hj : j % 2 = 1) :
    0 < cfg.forkBytes i j := by
  unfold forkBytes
  rw [if_neg (by simp [hj])]
  exact List.count_pos_iff.mpr h

/-- A proposal that gets through keeps its payload, if its sender does not equivocate or drops
    all proposals of this phase. -/
theorem proposed_kept {m m' : NetworkMessage} {phase : MessagePhase} {p p' : Payload}
    (htamper : cfg.tamper m = [m'])
    (h : .equivocate ∉ cfg.behaviors m.sender ∨ cfg.dropsPhase m.sender phase = true)
    (hphase : messagePhase m.payload = some phase) (hp : proposed m.payload = some p)
    (hp' : proposed m'.payload = some p') : p' = p := by
  rcases h with h | h
  · have halter := cfg.eq_alter_of_mem (m := m) (by rw [htamper]; exact List.mem_singleton_self m')
    rw [halter, proposed_alter, cfg.forkBytes_eq_zero h, hp] at hp'
    exact (Option.some.inj hp').symm
  · rw [tamper_eq, cfg.drops_eq_dropsPhase hphase, if_pos h] at htamper
    exact absurd htamper (by simp)

omit [Sha256] in
/-- A forked payload is longer by one byte for each fork. -/
theorem length_iterate_alt (p : Payload) (k : ℕ) :
    (Payload.alt^[k] p).data.length = p.data.length + k := by
  induction k with
  | zero => rfl
  | succ k ih => rw [Function.iterate_succ_apply', Payload.alt, List.length_append, ih]; rfl

end FaultConfig

end ConsensusBench
