import ConsensusBench.Fault
import Mathlib.Algebra.Ring.Parity
import Mathlib.Data.List.DropRight

namespace ConsensusBench

/-!
# Tampering, field by field

What a list of behaviours does to a message depends on three numbers only: how many of them
equivocate, how many corrupt the digest, and how many of the latter come after the last of the
former.

* `Digest.flipped`, `OfPhase` — what a number of corruptions makes of a digest, and the messages
  of each phase.
* `tampered_corruptDigest`, `tampered_forkPayload` — one behaviour more, in front of the others.
* `payload_foldl_alterBy` — so what becomes of a message is `tampered`.
* `tamper_fields` — and it is dropped if some `SelectiveDrop` lists its phase.
-/

/-- The payload with `e` bytes `0xFF` appended. -/
def Payload.padded (p : Payload) (e : ℕ) : Payload := ⟨p.data ++ List.replicate e 0xFF⟩

theorem Payload.padded_alt (p : Payload) (e : ℕ) : p.alt.padded e = p.padded (e + 1) := by
  simp [padded, alt, List.replicate_succ]

@[simp] theorem Payload.padded_zero (p : Payload) : p.padded 0 = p := by
  simp [padded]

/-- The digest with its first byte xored by `0xFF` as often as `k` says: twice is not at all. -/
def Digest.flipped (d : Digest) (k : ℕ) : Digest :=
  if Odd k then ⟨d.bytes.mapIdx fun i b => if i = 0 then b ^^^ 0xFF else b⟩ else d

@[simp] theorem Digest.flipped_zero (d : Digest) : d.flipped 0 = d := by
  simp [flipped]

/-- Digests are equal byte by byte. -/
theorem Digest.ext_bytes {d d' : Digest} (h : ∀ i (hi : i < 32), d.bytes[i] = d'.bytes[i]) :
    d = d' := by
  obtain ⟨bytes⟩ := d
  obtain ⟨bytes'⟩ := d'
  apply congrArg Digest.mk
  apply Vector.ext
  exact h

/-- A corruption xors the first byte, and leaves the others. -/
theorem Digest.getElem_corrupt (d : Digest) {i : ℕ} (hi : i < 32) :
    d.corrupt.bytes[i] = if i = 0 then d.bytes[i] ^^^ 0xFF else d.bytes[i] := by
  rw [corrupt, Vector.getElem_set]
  by_cases h0 : i = 0
  · subst h0
    rw [if_pos rfl]
  · rw [if_neg h0, if_neg (Ne.symm h0)]

/-- A corruption is one flip more. -/
theorem Digest.flipped_corrupt (d : Digest) (k : ℕ) : d.corrupt.flipped k = d.flipped (k + 1) := by
  apply Digest.ext_bytes
  intro i hi
  by_cases hk : Odd k
  · -- the second flip takes the first one back
    have htwice : ∀ b : UInt8, b ^^^ 0xFF ^^^ 0xFF = b := fun b => by
      rw [UInt8.xor_assoc, UInt8.xor_self, UInt8.xor_zero]
    simp only [flipped, if_pos hk, if_neg (Nat.odd_add_one.not.mpr (not_not.mpr hk)),
      Vector.getElem_mapIdx, getElem_corrupt]
    by_cases h0 : i = 0
    · rw [if_pos h0, if_pos h0, htwice]
    · rw [if_neg h0, if_neg h0]
  · simp only [flipped, if_neg hk, if_pos (Nat.odd_add_one.mpr hk), Vector.getElem_mapIdx,
      getElem_corrupt]

/-- The messages of each phase that can be targeted. -/
inductive OfPhase : MessagePhase → ProtocolMessage → Prop where
  | prePrepare (v s d p) : OfPhase .pbftPrePrepare (.pbft (.prePrepare v s d p))
  | prepare (v s d r) : OfPhase .pbftPrepare (.pbft (.prepare v s d r))
  | commit (v s d r) : OfPhase .pbftCommit (.pbft (.commit v s d r))
  | appendEntries (t l pi pt es c) :
      OfPhase .raftAppendEntries (.raft (.appendEntries t l pi pt es c))
  | requestVote (t c li lt) : OfPhase .raftRequestVote (.raft (.requestVote t c li lt))
  | propose (v s d p jv jp) : OfPhase .hotStuffPropose (.hotStuff (.propose v s d p jv jp))
  | vote (v s d ph r) : OfPhase .hotStuffVote (.hotStuff (.vote v s d ph r))
  | quorumCertificate (v s d ph c) :
      OfPhase .hotStuffQC (.hotStuff (.quorumCertificate v s d ph c))

/-- The phase that is looked up for a message is the one it is of. -/
theorem messagePhase_eq_some {m : ProtocolMessage} {phase : MessagePhase} :
    messagePhase m = some phase ↔ OfPhase phase m := by
  constructor
  · intro h
    cases m with
    | pbft m => cases m <;> cases h <;> constructor
    | raft m => cases m <;> cases h <;> constructor
    | hotStuff m => cases m <;> cases h <;> constructor
  · rintro ⟨⟩ <;> rfl

variable [Sha256]

/-- A message after `e` forks, `k` corruptions, and `late` corruptions behind the last fork. -/
def tampered (e k late : ℕ) : ProtocolMessage → ProtocolMessage
  | .pbft (.prePrepare v s d p) => .pbft (.prePrepare v s
      (if e = 0 then d.flipped k else (p.padded e).digest.flipped late)
      (p.padded e))
  | .pbft (.prepare v s d r) => .pbft (.prepare v s (d.flipped k) r)
  | .pbft (.commit v s d r) => .pbft (.commit v s (d.flipped k) r)
  | .raft (.appendEntries t l pi pt entries c) => .raft (.appendEntries t l pi pt
      (entries.map fun entry => { entry with payload := entry.payload.padded e }) c)
  | .hotStuff (.propose v s d p jv jp) => .hotStuff (.propose v s
      (if e = 0 then d.flipped k else (p.padded e).digest.flipped late)
      (p.padded e) jv jp)
  | .hotStuff (.vote v s d ph r) => .hotStuff (.vote v s (d.flipped k) ph r)
  | .hotStuff (.quorumCertificate v s d ph c) =>
      .hotStuff (.quorumCertificate v s (d.flipped k) ph c)
  | m => m

/-- How many `CorruptDigest` come after the last `Equivocate`. -/
def lateCorruptions (bs : List ByzantineBehavior) : ℕ :=
  (bs.rtakeWhile (· ≠ .equivocate)).count .corruptDigest

/-! ### One behaviour more -/

section Behaviors

variable (e k late : ℕ) (m : NetworkMessage)

theorem tampered_zero (x : ProtocolMessage) : tampered 0 0 late x = x := by
  cases x with
  | pbft x => cases x <;> simp [tampered]
  | raft x => cases x <;> simp [tampered]
  | hotStuff x => cases x <;> simp [tampered]

/-- A corruption in front of the others is one corruption more, and none behind a fork. -/
theorem tampered_corruptDigest :
    tampered e k late (corruptDigest m).payload = tampered e (k + 1) late m.payload := by
  obtain ⟨src, dst, x⟩ := m
  cases x with
  | pbft x => cases x <;> simp only [corruptDigest, tampered, Digest.flipped_corrupt]
  | raft x => cases x <;> rfl
  | hotStuff x => cases x <;> simp only [corruptDigest, tampered, Digest.flipped_corrupt]

/-- A fork in front of the others is one fork more; if it is the last one, all corruptions are
    behind it. -/
theorem tampered_forkPayload : tampered e k late (forkPayload m).payload =
    tampered (e + 1) k (if e = 0 then k else late) m.payload := by
  -- the digest of a proposal that is forked for the first time here, or again later
  have hdigest : ∀ p : Payload,
      (if e = 0 then p.alt.digest.flipped k
        else (p.padded (e + 1)).digest.flipped late) =
      (p.padded (e + 1)).digest.flipped (if e = 0 then k else late) := by
    intro p
    by_cases he : e = 0
    · simp [he, ← Payload.padded_alt]
    · simp [he]
  obtain ⟨src, dst, x⟩ := m
  cases x with
  | pbft x =>
    cases x with
    | prePrepare v s d p =>
      simp only [forkPayload, tampered, Payload.padded_alt, hdigest, Nat.succ_ne_zero, if_false]
    | _ => rfl
  | raft x =>
    cases x with
    | appendEntries t l pi pt entries c =>
      simp only [forkPayload, tampered, List.map_map, Function.comp_def, Payload.padded_alt]
    | _ => rfl
  | hotStuff x =>
    cases x with
    | propose v s d p jv jp =>
      simp only [forkPayload, tampered, Payload.padded_alt, hdigest, Nat.succ_ne_zero, if_false]
    | _ => rfl

/-- Only a message that is forked depends on what comes behind the last fork. -/
theorem tampered_congr {late late' : ℕ} (h : e ≠ 0 → late = late') (x : ProtocolMessage) :
    tampered e k late x = tampered e k late' x := by
  by_cases he : e = 0
  · cases x with
    | pbft x => cases x <;> simp only [tampered, he, if_true]
    | raft x => cases x <;> rfl
    | hotStuff x => cases x <;> simp only [tampered, he, if_true]
  · rw [h he]

end Behaviors

omit [Sha256] in
/-- A behaviour in front of an `Equivocate` is not behind the last one. -/
theorem lateCorruptions_cons_of_mem {bs : List ByzantineBehavior} (h : .equivocate ∈ bs)
    (b : ByzantineBehavior) : lateCorruptions (b :: bs) = lateCorruptions bs := by
  have hstop : (bs.reverse.takeWhile (· ≠ .equivocate)).length ≠ bs.reverse.length := by
    intro hlen
    have hall := (List.takeWhile_prefix _).eq_of_length hlen
    have hne := List.takeWhile_eq_self_iff.mp hall _ (List.mem_reverse.mpr h)
    exact absurd hne (by simp)
  unfold lateCorruptions List.rtakeWhile
  rw [List.reverse_cons, List.takeWhile_append, if_neg hstop]

omit [Sha256] in
/-- All corruptions are behind the last `Equivocate` if that is the first behaviour, or if there
    is none. -/
theorem lateCorruptions_of_not_mem {bs : List ByzantineBehavior} (h : .equivocate ∉ bs) :
    lateCorruptions bs = bs.count .corruptDigest ∧
      lateCorruptions (.equivocate :: bs) = bs.count .corruptDigest := by
  have hall : bs.reverse.takeWhile (· ≠ .equivocate) = bs.reverse := by
    refine List.takeWhile_eq_self_iff.mpr fun b hb => ?_
    have hne : b ≠ .equivocate := fun hb' => h (hb' ▸ List.mem_reverse.mp hb)
    simpa using hne
  unfold lateCorruptions List.rtakeWhile
  constructor
  · rw [hall, List.reverse_reverse]
  · rw [List.reverse_cons, List.takeWhile_append, hall, if_pos rfl]
    simp

/-! ### All behaviours -/

/-- How many behaviours of a list fork what goes to a node: odd nodes get other payloads. -/
def forks (bs : List ByzantineBehavior) (target : NodeId) : ℕ :=
  if target % 2 = 1 then bs.count .equivocate else 0

omit [Sha256] in
theorem mem_of_forks_ne_zero {bs : List ByzantineBehavior} {target : NodeId}
    (h : forks bs target ≠ 0) : .equivocate ∈ bs := by
  unfold forks at h
  split at h
  · exact List.count_pos_iff.mp (Nat.pos_of_ne_zero h)
  · exact absurd rfl h

/-- **What becomes of a message that is not dropped.** -/
theorem payload_foldl_alterBy (bs : List ByzantineBehavior) (m : NetworkMessage) :
    (bs.foldl FaultConfig.alterBy m).payload =
      tampered (forks bs m.target) (bs.count .corruptDigest) (lateCorruptions bs) m.payload := by
  induction bs generalizing m with
  | nil => simp [forks, tampered_zero]
  | cons b bs ih =>
    rw [List.foldl_cons, ih, (FaultConfig.alterBy_frame m b).2.1]
    -- what is in front of the last fork does not count, if there is one
    have hlate : forks bs m.target ≠ 0 → lateCorruptions bs = lateCorruptions (b :: bs) :=
      fun h => (lateCorruptions_cons_of_mem (mem_of_forks_ne_zero h) b).symm
    cases b with
    | corruptDigest =>
      have hforks : forks (.corruptDigest :: bs) m.target = forks bs m.target := by
        simp [forks]
      have hcount : (ByzantineBehavior.corruptDigest :: bs).count .corruptDigest =
          bs.count .corruptDigest + 1 := List.count_cons_self
      rw [hforks, hcount, FaultConfig.alterBy, tampered_corruptDigest]
      exact tampered_congr _ _ hlate _
    | equivocate =>
      have hcount : (ByzantineBehavior.equivocate :: bs).count .corruptDigest =
          bs.count .corruptDigest := List.count_cons_of_ne (by simp)
      rw [hcount, FaultConfig.alterBy]
      by_cases ht : m.target % 2 = 0
      · have heven : ¬ m.target % 2 = 1 := fun h => absurd (ht.symm.trans h) (by decide)
        have hzero : ∀ l, forks l m.target = 0 := fun l => if_neg heven
        rw [if_pos ht, hzero, hzero]
        exact tampered_congr _ _ (fun h => absurd rfl h) _
      · have hodd : m.target % 2 = 1 := Nat.mod_two_ne_zero.mp ht
        have hforks : ∀ l, forks l m.target = l.count .equivocate := fun l => if_pos hodd
        rw [if_neg ht, tampered_forkPayload, hforks, hforks, List.count_cons_self]
        refine tampered_congr _ _ (fun _ => ?_) _
        by_cases hmem : .equivocate ∈ bs
        · rw [if_neg (List.count_pos_iff.mpr hmem).ne', lateCorruptions_cons_of_mem hmem]
        · rw [if_pos (List.count_eq_zero_of_not_mem hmem), (lateCorruptions_of_not_mem hmem).2]
    | selectiveDrop phases =>
      have hforks : forks (.selectiveDrop phases :: bs) m.target = forks bs m.target := by
        simp [forks]
      have hcount : (ByzantineBehavior.selectiveDrop phases :: bs).count .corruptDigest =
          bs.count .corruptDigest := List.count_cons_of_ne (by simp)
      rw [hforks, hcount, FaultConfig.alterBy]
      exact tampered_congr _ _ hlate _

namespace FaultConfig

omit [Sha256] in
/-- Messages are dropped that some `SelectiveDrop` of their sender lists. -/
theorem drops_iff (cfg : FaultConfig) (i : NodeId) (m : ProtocolMessage) :
    cfg.drops i m = true ↔ ∃ phases, .selectiveDrop phases ∈ cfg.behaviors i ∧
      ∃ phase ∈ phases, OfPhase phase m := by
  rw [drops, List.any_eq_true]
  constructor
  · rintro ⟨b, hb, hdrop⟩
    cases b with
    | selectiveDrop phases =>
      refine ⟨phases, hb, ?_⟩
      unfold dropsBy matchesPhase at hdrop
      cases hph : messagePhase m with
      | none => simp [hph] at hdrop
      | some phase => exact ⟨phase, by simpa [hph] using hdrop, messagePhase_eq_some.mp hph⟩
    | _ => exact absurd hdrop (by simp [dropsBy])
  · rintro ⟨phases, hb, phase, hmem, hph⟩
    exact ⟨.selectiveDrop phases, hb, by
      simp [dropsBy, matchesPhase, messagePhase_eq_some.mpr hph, hmem]⟩

/-- What arrives in place of a message has the payload that the numbers say. -/
theorem payload_of_mem {cfg : FaultConfig} {m m' : NetworkMessage} (h : m' ∈ cfg.tamper m) :
    m'.payload = tampered (forks (cfg.behaviors m.sender) m.target)
      ((cfg.behaviors m.sender).count .corruptDigest)
      (lateCorruptions (cfg.behaviors m.sender)) m.payload := by
  rw [cfg.eq_alter_of_mem h]
  exact payload_foldl_alterBy _ m

/-- **Tampering, field by field.**  A message is dropped if, and only if, some `SelectiveDrop` of
    its sender lists its phase; otherwise one message arrives, whose payloads have one byte `0xFF`
    more for each `Equivocate` if the target is odd, and the first byte of whose digest is xored by
    `0xFF` once for each `CorruptDigest`; a new payload has its own digest, which only the
    `CorruptDigest` behind the last `Equivocate` change. -/
theorem tamper_fields (cfg : FaultConfig) (m : NetworkMessage) :
    (cfg.tamper m = [] ↔ ∃ phases, .selectiveDrop phases ∈ cfg.behaviors m.sender ∧
      ∃ phase ∈ phases, OfPhase phase m.payload) ∧
    (cfg.tamper m = [] ∨ cfg.tamper m =
      [⟨m.sender, m.target, tampered (forks (cfg.behaviors m.sender) m.target)
        ((cfg.behaviors m.sender).count .corruptDigest)
        (lateCorruptions (cfg.behaviors m.sender)) m.payload⟩]) := by
  rw [← drops_iff]
  have htamper := cfg.tamper_eq m
  by_cases hdrop : cfg.drops m.sender m.payload = true
  · rw [if_pos hdrop] at htamper
    exact ⟨iff_of_true htamper hdrop, .inl htamper⟩
  · rw [if_neg hdrop] at htamper
    have hmem : cfg.alter m ∈ cfg.tamper m := by
      rw [htamper]
      exact List.mem_singleton_self _
    obtain ⟨hsender, htarget, _⟩ := cfg.frame_of_mem hmem
    refine ⟨iff_of_false (by rw [htamper]; simp) hdrop, .inr ?_⟩
    rw [htamper]
    exact congrArg (fun m' => [m']) (NetworkMessage.ext hsender htarget (payload_of_mem hmem))

omit [Sha256] in
/-- Node `3` corrupts three times and forks once, before the last time, and drops its commits. -/
def corruptThrice : FaultConfig :=
  ({} : FaultConfig).withByzantine 3 [.corruptDigest, .corruptDigest, .equivocate,
    .selectiveDrop [.pbftCommit], .corruptDigest]

omit [Sha256] in
/-- A vote of node `3` has the first byte of its digest flipped, a proposal to an odd node has it
    flipped in the digest of the new payload, and a commit is dropped. -/
theorem tamper_fields_three :
    @tamper Sha256.sample corruptThrice
        ⟨3, 1, .pbft (.prepare 0 1 ⟨Vector.replicate 32 0⟩ 3)⟩ =
      [⟨3, 1, .pbft (.prepare 0 1 ⟨Vector.ofFn fun i => if i.val = 0 then 0xFF else 0⟩ 3)⟩] ∧
    @tamper Sha256.sample corruptThrice
        ⟨3, 1, .pbft (.prePrepare 0 1 ⟨Vector.replicate 32 0⟩ ⟨[0x70]⟩)⟩ =
      [⟨3, 1, .pbft (.prePrepare 0 1
        ⟨(@Payload.digest Sha256.sample ⟨[0x70, 0xFF]⟩).bytes.mapIdx fun i b =>
          if i = 0 then 0x6D ^^^ 0xFF else b⟩ ⟨[0x70, 0xFF]⟩)⟩] ∧
    @tamper Sha256.sample corruptThrice
        ⟨3, 1, .pbft (.commit 0 1 ⟨Vector.replicate 32 0⟩ 3)⟩ = [] := by
  have hbehaviors : corruptThrice.behaviors 3 = [.corruptDigest, .corruptDigest, .equivocate,
      .selectiveDrop [.pbftCommit], .corruptDigest] := rfl
  have hkept : ∀ m : NetworkMessage, m.sender = 3 → ¬OfPhase .pbftCommit m.payload →
      @tamper Sha256.sample corruptThrice m ≠ [] := by
    intro m hm hphase hnil
    obtain ⟨phases, hmem, phase, hin, hof⟩ := (@tamper_fields Sha256.sample _ _).1.mp hnil
    rw [hm, hbehaviors] at hmem
    have hphases : phases = [.pbftCommit] := by simpa using hmem
    rw [hphases, List.mem_singleton] at hin
    exact hphase (hin ▸ hof)
  refine ⟨?_, ?_, ?_⟩
  · refine ((@tamper_fields Sha256.sample _ _).2.resolve_left (hkept _ rfl ?_)).trans ?_
    · rintro ⟨⟩
    · decide +kernel
  · refine ((@tamper_fields Sha256.sample _ _).2.resolve_left (hkept _ rfl ?_)).trans ?_
    · rintro ⟨⟩
    · decide +kernel
  · exact (@tamper_fields Sha256.sample _ _).1.mpr
      ⟨[.pbftCommit], by rw [hbehaviors]; simp, .pbftCommit, by simp, .commit _ _ _ _⟩

end FaultConfig

end ConsensusBench
