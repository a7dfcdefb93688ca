import ConsensusBench.Normal
import ConsensusBench.HotStuff.Step

namespace ConsensusBench

/-!
# HotStuff: one sequence in the normal case

What the nodes do about one sequence in view `0`, as a `Round` of the library.  Node `0` leads:
it proposes, and for each tag it collects the votes and answers with a certificate, which asks for
the votes of the next tag.

On a FIFO queue this is seven waves.  How far a slot is in the round is a number, its `level`, and
so is the level a letter takes its sender to be at (`Wave.need`); a vote is late if the leader is
further than that.

* `InWaves` — the invariant: a letter is sent as soon as its sender has the level, and has an
  effect on the level of its target.
* `InWaves.ready` — a live replica is at the level that a certificate takes it to be at.
* `InWaves.all_decided` — what is known of the live nodes when nothing is left.
-/

open Pipeline HotStuffNode

namespace HotStuff

/-! ### The round -/

/-- The messages of the normal case. -/
inductive Wave where
  | propose
  | vote (t : HotStuffPhaseTag)
  | certificate (t : HotStuffPhaseTag)
  deriving DecidableEq

namespace Wave

def rank : Wave → ℕ
  | propose => 0
  | vote t => 2 * phaseOrd t + 1
  | certificate t => 2 * phaseOrd t + 2

/-- The level of a node that sends a letter of the wave. -/
def need : Wave → ℕ
  | propose => 1
  | vote t => phaseOrd t + 1
  | certificate t => phaseOrd t + 2

/-- The phase of the messages of a wave. -/
def messagePhase : Wave → MessagePhase
  | propose => .hotStuffPropose
  | vote _ => .hotStuffVote
  | certificate _ => .hotStuffQC

end Wave

/-- How far a letter is in the round. -/
def rank (l : Letter Wave) : ℕ := l.wave.rank

/-- The slots of one sequence, by node. -/
abbrev Slots := NodeId → Option SlotState

/-- How far a phase is in the round. -/
def Phase.level : Phase → ℕ
  | .idle => 0
  | .prepare => 1
  | .preCommit => 2
  | .commit => 3
  | .decided => 4

/-- How far a node is in the round. -/
def level : Option SlotState → ℕ
  | none => 0
  | some slot => slot.phase.level

/-- The slot of sequence `s` that is `slot` up to its number. -/
def SlotState.number (slot : SlotState) (s : SequenceNumber) : SlotState :=
  { slot with sequence := s }

/-- The phase of a slot behind the certificate of a tag. -/
def after : HotStuffPhaseTag → Phase
  | .prepare => .preCommit
  | .preCommit => .commit
  | .commit => .decided

/-- The slot of a replica that gets the certificate of a tag. -/
def SlotState.follow (slot : SlotState) (t : HotStuffPhaseTag) : SlotState :=
  if slot.phase = stage t ∨ t = .commit then { slot with phase := after t } else slot

/-- The slot of a replica that gets the proposal. -/
def acceptedSlot : SlotState := { SlotState.new 0 0 with phase := .prepare }

/-- The slot of the leader that makes the proposal. -/
def proposedSlot : SlotState := { SlotState.new 0 0 with phase := .prepare, prepareVoters := {0} }

/-- Node `i` gets a vote of node `r`: its slot, and what it sends. -/
def tally (n : ℕ) (i : NodeId) (slot : Option SlotState) (t : HotStuffPhaseTag) (r : NodeId) :
    Option SlotState × List (Letter Wave) :=
  match slot with
  | none => (none, [])
  | some slot =>
    if i ≠ 0 ∨ slot.phase ≠ stage t then (some slot, [])
    else if (node n i).quorum ≤ (insert r (slot.voters t)).card then
      (some ((slot.addVote r t).certify i t), spread n (.certificate t) i)
    else (some (slot.addVote r t), [])

/-- The vote that node `i` casts when it gets the certificate of a tag. -/
def nextVote (i : NodeId) (t : HotStuffPhaseTag) : List (Letter Wave) :=
  ((nextTag t).map fun t' => ⟨.vote t', i, 0⟩).toList

/-- Node `i` gets a letter of node `r`: its slot, and what it sends. -/
def handle (n : ℕ) (i : NodeId) (slot : Option SlotState) (wave : Wave) (r : NodeId) :
    Option SlotState × List (Letter Wave) :=
  match wave with
  | .propose => (some acceptedSlot, [⟨.vote .prepare, i, 0⟩])
  | .vote t => tally n i slot t r
  | .certificate t => (slot.map fun slot => slot.follow t, nextVote i t)

/-- The slot program of HotStuff with `n` nodes. -/
def program (n : ℕ) : SlotProgram SlotState Wave where
  first := proposedSlot
  opening := spread n .propose 0
  handle := handle n

/-! ### Slots -/

section Slot

variable {n : ℕ} {slot slot' : SlotState} {t t' : HotStuffPhaseTag} {i r : NodeId}

/-- The level of a slot that waits for the votes of a tag. -/
@[simp] theorem level_stage (t : HotStuffPhaseTag) : (stage t).level = phaseOrd t + 1 := by
  cases t <;> rfl

/-- The level of a slot behind the certificate of a tag. -/
@[simp] theorem level_after (t : HotStuffPhaseTag) : (after t).level = phaseOrd t + 2 := by
  cases t <;> rfl

/-- A slot waits for the votes of a tag exactly at its level. -/
theorem phase_eq_stage : slot.phase = stage t ↔ slot.phase.level = phaseOrd t + 1 := by
  constructor
  · intro h
    rw [h, level_stage]
  · cases slot.phase <;> cases t <;> simp [Phase.level, phaseOrd, stage]

/-- Tags of one order are the same. -/
theorem phaseOrd_injective (h : phaseOrd t = phaseOrd t') : t = t' := by
  cases t <;> cases t' <;> first | rfl | exact absurd h (by decide)

/-- The next tag is the next in the order. -/
theorem phaseOrd_of_nextTag (h : nextTag t = some t') : phaseOrd t' = phaseOrd t + 1 := by
  cases t <;> simp_all [nextTag] <;> subst h <;> rfl

/-- The tag that is next in the order is the next tag. -/
theorem nextTag_of_phaseOrd (h : phaseOrd t' = phaseOrd t + 1) : nextTag t = some t' := by
  cases t <;> cases t' <;> first | rfl | exact absurd h (by decide)

/-- Counting a vote leaves the phase. -/
@[simp] theorem phase_addVote (slot : SlotState) (r : NodeId) (t : HotStuffPhaseTag) :
    (slot.addVote r t).phase = slot.phase := by
  cases t <;> rfl

/-- Certifying takes the phase one further. -/
@[simp] theorem phase_certify (slot : SlotState) (i : NodeId) (t : HotStuffPhaseTag) :
    (slot.certify i t).phase = after t := by
  cases t <;> rfl

/-- A vote is counted under its tag. -/
@[simp] theorem voters_addVote_self (slot : SlotState) (r : NodeId) (t : HotStuffPhaseTag) :
    (slot.addVote r t).voters t = insert r (slot.voters t) := by
  cases t <;> rfl

/-- A vote is counted under no other tag. -/
theorem voters_addVote_of_ne (h : t' ≠ t) : (slot.addVote r t).voters t' = slot.voters t' := by
  cases t <;> cases t' <;> first | rfl | exact absurd rfl h

/-- The leader votes for the tag behind the one it certifies. -/
theorem voters_certify_of_nextTag (h : nextTag t = some t') :
    (slot.certify i t).voters t' = insert i (slot.voters t') := by
  cases t <;> simp_all [nextTag] <;> subst h <;> rfl

/-- The leader votes for no tag but the one behind. -/
theorem voters_certify_of_ne (h : nextTag t ≠ some t') :
    (slot.certify i t).voters t' = slot.voters t' := by
  cases t <;> cases t' <;> first | rfl | exact absurd rfl h

/-- Counting a vote forgets none. -/
theorem voters_subset_addVote (slot : SlotState) (r : NodeId) (t t' : HotStuffPhaseTag) :
    slot.voters t' ⊆ (slot.addVote r t).voters t' := by
  by_cases h : t' = t
  · rw [h, voters_addVote_self]
    exact Finset.subset_insert _ _
  · rw [voters_addVote_of_ne h]

/-- Certifying forgets no vote. -/
theorem voters_subset_certify (slot : SlotState) (i : NodeId) (t t' : HotStuffPhaseTag) :
    slot.voters t' ⊆ (slot.certify i t).voters t' := by
  by_cases h : nextTag t = some t'
  · rw [voters_certify_of_nextTag h]
    exact Finset.subset_insert _ _
  · rw [voters_certify_of_ne h]

/-- A certificate takes a slot that waits for it one level up, and no slot down. -/
theorem level_follow (slot : SlotState) (t : HotStuffPhaseTag) :
    (slot.follow t).phase.level =
      if slot.phase.level = phaseOrd t + 1 ∨ t = .commit then phaseOrd t + 2
      else slot.phase.level := by
  unfold SlotState.follow
  simp only [← phase_eq_stage]
  split
  · exact level_after t
  · rfl

/-- A certificate takes no slot down. -/
theorem level_le_follow (slot : SlotState) (t : HotStuffPhaseTag) :
    slot.phase.level ≤ (slot.follow t).phase.level := by
  have htop : slot.phase.level ≤ 4 := by cases slot.phase <;> decide
  rw [level_follow]
  split
  · rename_i h
    rcases h with h | rfl
    · omega
    · exact htop
  · exact le_rfl

/-- A certificate leaves the votes. -/
@[simp] theorem voters_follow (slot : SlotState) (t t' : HotStuffPhaseTag) :
    (slot.follow t).voters t' = slot.voters t' := by
  unfold SlotState.follow
  split
  · cases t' <;> rfl
  · rfl

/-- The slot is no less far than before, and has forgotten no vote. -/
structure Grows (o o' : Option SlotState) : Prop where
  level_le : level o ≤ level o'
  voters : ∀ slot, o = some slot → ∃ slot', o' = some slot' ∧ ∀ t, slot.voters t ⊆ slot'.voters t

/-- A slot may stay as it is. -/
theorem Grows.refl (o : Option SlotState) : Grows o o :=
  ⟨le_rfl, fun slot hs => ⟨slot, hs, fun _ => Finset.Subset.refl _⟩⟩

/-- A slot may be opened. -/
theorem Grows.of_none (o : Option SlotState) : Grows none o :=
  ⟨Nat.zero_le _, fun _ hs => absurd hs (by simp)⟩

/-- A slot that gets no lower and forgets no vote grows. -/
theorem grows_some (hle : slot.phase.level ≤ slot'.phase.level)
    (hsub : ∀ t, slot.voters t ⊆ slot'.voters t) : Grows (some slot) (some slot') := by
  refine ⟨hle, fun slot₀ hs => ⟨slot', rfl, ?_⟩⟩
  obtain rfl := Option.some.inj hs
  exact hsub

/-- A slot that follows a certificate grows. -/
theorem grows_follow (o : Option SlotState) (t : HotStuffPhaseTag) :
    Grows o (o.map fun slot => slot.follow t) := by
  cases o with
  | none => exact .of_none _
  | some slot =>
    exact grows_some (level_le_follow slot t) fun t' => by rw [voters_follow]

/-- What the leader makes of a vote of node `r` about its slot: the slot, and what it sends. -/
inductive Tallies (n : ℕ) (r : NodeId) (slot : SlotState) (t : HotStuffPhaseTag) :
    SlotState → List (Letter Wave) → Prop
  | late (hph : slot.phase ≠ stage t) : Tallies n r slot t slot []
  | count (hph : slot.phase = stage t)
      (hq : (insert r (slot.voters t)).card < 2 * ((n - 1) / 3) + 1) :
      Tallies n r slot t (slot.addVote r t) []
  | certify (hph : slot.phase = stage t) :
      Tallies n r slot t ((slot.addVote r t).certify 0 t) (spread n (.certificate t) 0)

/-- **Inversion** of `tally` at the leader. -/
theorem tally_zero (n : ℕ) (slot : SlotState) (t : HotStuffPhaseTag) (r : NodeId) :
    ∃ slot' out, tally n 0 (some slot) t r = (some slot', out) ∧
      Tallies n r slot t slot' out := by
  by_cases hph : slot.phase = stage t
  · have hnot : ¬ ((0 : ℕ) ≠ 0 ∨ slot.phase ≠ stage t) := by simp [hph]
    by_cases hq : (node n 0).quorum ≤ (insert r (slot.voters t)).card
    · exact ⟨_, _, by rw [tally, if_neg hnot, if_pos hq], .certify hph⟩
    · exact ⟨_, _, by rw [tally, if_neg hnot, if_neg hq], .count hph (not_le.mp hq)⟩
  · exact ⟨_, _, by rw [tally, if_pos (.inr hph)], .late hph⟩

/-- No vote takes the leader down, or is forgotten. -/
theorem Tallies.grows {out : List (Letter Wave)} (h : Tallies n r slot t slot' out) :
    Grows (some slot) (some slot') := by
  cases h with
  | late => exact .refl _
  | count => exact grows_some (by rw [phase_addVote]) (voters_subset_addVote slot r t)
  | certify hph =>
    refine grows_some ?_ fun t' => ?_
    · rw [phase_certify, hph, level_stage, level_after]
      omega
    · exact (voters_subset_addVote slot r t t').trans (voters_subset_certify _ 0 t t')

/-- All that the leader sends is the certificate, which takes it one level up. -/
theorem Tallies.out_inv {out : List (Letter Wave)} (h : Tallies n r slot t slot' out)
    {l : Letter Wave} (hl : l ∈ out) : l.wave = .certificate t ∧ l.sender = 0 ∧ l.target ≠ 0 ∧
      phaseOrd t + 2 ≤ slot'.phase.level := by
  cases h with
  | late => exact absurd hl (by simp)
  | count => exact absurd hl (by simp)
  | certify =>
    obtain ⟨hw, hsender, _, ht⟩ := mem_spread.mp hl
    exact ⟨hw, hsender, ht, by rw [phase_certify, level_after]⟩

/-- The vote is counted, or comes late. -/
theorem Tallies.counted {out : List (Letter Wave)} (h : Tallies n r slot t slot' out)
    (hle : phaseOrd t + 1 ≤ slot.phase.level) :
    phaseOrd t + 1 < slot'.phase.level ∨ r ∈ slot'.voters t := by
  cases h with
  | late hph =>
    refine .inl (lt_of_le_of_ne hle fun heq => hph ?_)
    exact phase_eq_stage.mpr heq.symm
  | count =>
    right
    rw [voters_addVote_self]
    exact Finset.mem_insert_self _ _
  | certify =>
    left
    rw [phase_certify, level_after]
    exact Nat.lt_succ_self _

/-- As the leader gets far enough for a letter of its own, it sends it. -/
theorem Tallies.sends {out : List (Letter Wave)} (h : Tallies n r slot t slot' out)
    {l : Letter Wave} (hsender : l.sender = 0) (ht : l.target < n) (hne : l.target ≠ 0)
    (hvote : ∀ t', l.wave ≠ .vote t') (hlt : slot.phase.level < l.wave.need)
    (hle : l.wave.need ≤ slot'.phase.level) : l ∈ out := by
  cases h with
  | late => exact absurd hle (not_le.mpr hlt)
  | count => exact absurd hle (by rw [phase_addVote]; exact not_le.mpr hlt)
  | certify hph =>
    rw [phase_certify, level_after] at hle
    rw [hph, level_stage] at hlt
    cases hw : l.wave with
    | vote t' => exact absurd hw (hvote t')
    | propose =>
      rw [hw] at hlt
      exact absurd hlt (Nat.not_lt.mpr (Nat.le_add_left 1 _))
    | certificate t' =>
      rw [hw] at hlt hle
      change phaseOrd t + 1 < phaseOrd t' + 2 at hlt
      change phaseOrd t' + 2 ≤ phaseOrd t + 2 at hle
      have hord : phaseOrd t' = phaseOrd t := by omega
      rw [phaseOrd_injective hord] at hw
      exact mem_spread.mpr ⟨hw, hsender, ht, hne⟩

/-- No letter takes a node down, if it does not accept a proposal twice. -/
theorem level_le_handle {o : Option SlotState} {wave : Wave} (h : wave = .propose → o = none) :
    level o ≤ level (handle n i o wave r).1 := by
  cases o with
  | none => exact Nat.zero_le _
  | some slot =>
    cases wave with
    | propose => exact absurd (h rfl) (by simp)
    | certificate t => exact level_le_follow slot t
    | vote t =>
      by_cases hi : i = 0
      · obtain ⟨slot', out, heq, htally⟩ := tally_zero n slot t r
        rw [handle, hi, heq]
        exact htally.grows.level_le
      · rw [handle, tally, if_pos (.inl hi)]

end Slot

/-! ### The effect of letters -/

/-- A letter between live nodes, one of which leads. -/
def Wanted (live : Finset NodeId) (l : Letter Wave) : Prop :=
  l.sender ∈ live ∧ l.target ∈ live ∧ match l.wave with
    | .vote _ => l.target = 0 ∧ l.sender ≠ 0
    | _ => l.sender = 0 ∧ l.target ≠ 0

/-- Only votes are for the leader. -/
theorem Wanted.target_ne {live : Finset NodeId} {l : Letter Wave} (h : Wanted live l)
    (hvote : ∀ t, l.wave ≠ .vote t) : l.target ≠ 0 := by
  have hend := h.2.2
  cases hw : l.wave with
  | vote t => exact absurd hw (hvote t)
  | propose =>
    rw [hw] at hend
    exact hend.2
  | certificate t =>
    rw [hw] at hend
    exact hend.2

/-- Why a letter was sent: its sender is far enough. -/
def Due (x : Slots) (l : Letter Wave) : Prop := l.wave.need ≤ level (x l.sender)

/-- What a letter leads to: its target is as far as its sender, or counts the vote. -/
def Done (x : Slots) (l : Letter Wave) : Prop :=
  match l.wave with
  | .vote t => phaseOrd t + 1 < level (x l.target) ∨
      ∃ slot, x l.target = some slot ∧ l.sender ∈ slot.voters t
  | wave => wave.need ≤ level (x l.target)

/-- What a letter has led to is not undone. -/
theorem Done.mono {x x' : Slots} {l : Letter Wave} (hgrow : ∀ i, Grows (x i) (x' i))
    (h : Done x l) : Done x' l := by
  have hle := (hgrow l.target).level_le
  unfold Done at h ⊢
  cases hw : l.wave with
  | propose =>
    rw [hw] at h
    exact h.trans hle
  | certificate t =>
    rw [hw] at h
    exact h.trans hle
  | vote t =>
    rw [hw] at h
    rcases h with hlt | ⟨slot, hs, hmem⟩
    · exact .inl (lt_of_lt_of_le hlt hle)
    · obtain ⟨slot', hs', hsub⟩ := (hgrow l.target).voters slot hs
      exact .inr ⟨slot', hs', hsub t hmem⟩

/-- Updating one slot, every slot grows. -/
theorem grows_update {x : Slots} {i : NodeId} {o : Option SlotState} (h : Grows (x i) o)
    (j : NodeId) : Grows (x j) (Function.update x i o j) := by
  by_cases hj : j = i
  · rw [hj, Function.update_self]
    exact h
  · rw [Function.update_of_ne hj]
    exact .refl _

/-- What is known of the slot of the leader: that its votes are too few to leave the phase. -/
structure Counts (n : ℕ) (slot : SlotState) : Prop where
  phase : 1 ≤ slot.phase.level
  votes : ∀ t, slot.phase = stage t → 0 ∈ slot.voters t ∧
    (slot.voters t = {0} ∨ (slot.voters t).card < 2 * ((n - 1) / 3) + 1)
  later : ∀ t, slot.phase.level < phaseOrd t + 1 → slot.voters t = ∅

/-- The invariant of the round. -/
structure InWaves (n : ℕ) (live : Finset NodeId) (c : Solo Slots (Letter Wave)) : Prop where
  waves : Waves rank c.queue
  once : c.queue.Pairwise fun l l' => l.wave = .propose → l'.wave = .propose →
    l.target ≠ l'.target
  fresh : ∀ l ∈ c.queue, l.wave = .propose → c.state l.target = none
  shape : ∀ l ∈ c.queue, match l.wave with
    | .vote _ => l.target = 0 ∧ l.sender ≠ 0
    | _ => l.sender = 0 ∧ l.target ≠ 0
  sent : ∀ l ∈ c.queue, l.wave.need ≤ level (c.state 0)
  duty : Duty (Wanted live) Due Done c
  leader : ∃ slot, c.state 0 = some slot ∧ Counts n slot

variable {n : ℕ} {lost : Letter Wave → Bool} {live : Finset NodeId}

/-- The letters of a wave have its rank. -/
theorem rank_of_mem_spread {wave : Wave} {i : NodeId} {l : Letter Wave}
    (h : l ∈ spread n wave i) : rank l = wave.rank := by
  rw [rank, (mem_spread.mp h).1]

/-- The leader counts its own vote from the start. -/
theorem counts_proposedSlot (n : ℕ) : Counts n proposedSlot where
  phase := le_rfl
  votes t ht := by
    obtain rfl : t = .prepare := by cases t <;> first | rfl | exact absurd ht (by decide)
    exact ⟨Finset.mem_singleton_self 0, .inl rfl⟩
  later t ht := by
    cases t with
    | prepare => exact absurd ht (by decide)
    | preCommit => rfl
    | commit => rfl

/-- The leader keeps count: behind a certificate there is only its own vote. -/
theorem Tallies.counts {r : NodeId} {slot slot' : SlotState} {t : HotStuffPhaseTag}
    {out : List (Letter Wave)} (h : Tallies n r slot t slot' out) (hc : Counts n slot) :
    Counts n slot' := by
  cases h with
  | late => exact hc
  | count hph hq =>
    refine ⟨by rw [phase_addVote]; exact hc.phase, fun t' ht' => ?_, fun t' ht' => ?_⟩
    · rw [phase_addVote, hph] at ht'
      obtain rfl := stage_injective ht'
      rw [voters_addVote_self]
      exact ⟨Finset.mem_insert_of_mem (hc.votes t hph).1, .inr hq⟩
    · rw [phase_addVote] at ht'
      have hne : t' ≠ t := by
        rintro rfl
        rw [hph, level_stage] at ht'
        exact absurd ht' (lt_irrefl _)
      rw [voters_addVote_of_ne hne]
      exact hc.later t' ht'
  -- the votes of the next tag are those of the leader alone, as there were none before
  | certify hph =>
    have hlevel : slot.phase.level = phaseOrd t + 1 := by rw [hph, level_stage]
    refine ⟨by rw [phase_certify, level_after]; omega, fun t' ht' => ?_, fun t' ht' => ?_⟩
    · rw [phase_eq_stage, phase_certify, level_after] at ht'
      have hord : phaseOrd t' = phaseOrd t + 1 := by omega
      have hne : t' ≠ t := by
        rintro rfl
        omega
      rw [voters_certify_of_nextTag (nextTag_of_phaseOrd hord), voters_addVote_of_ne hne,
        hc.later t' (by omega)]
      exact ⟨Finset.mem_insert_self _ _, .inl rfl⟩
    · rw [phase_certify, level_after] at ht'
      have hne : t' ≠ t := by
        rintro rfl
        omega
      have hnext : nextTag t ≠ some t' := fun hnext => by
        have hord := phaseOrd_of_nextTag hnext
        omega
      rw [voters_certify_of_ne hnext, voters_addVote_of_ne hne]
      exact hc.later t' (by omega)

/-- A round starts with the first wave. -/
theorem inWaves_start (hlive : Enough n lost live) :
    InWaves n live ⟨((program n).round lost).start, ((program n).round lost).opening⟩ where
  waves := by
    have h : ∀ l ∈ spread n .propose 0, rank l = 0 := fun l hl => rank_of_mem_spread hl
    exact List.pairwise_of_forall_mem_list fun l hl l' hl' => by rw [h l hl, h l' hl']; decide
  once := List.pairwise_map.mpr ((nodup_peerIds 0 n).imp fun h _ _ => h)
  fresh l hl _ := start_of_ne (program n) lost (mem_spread.mp hl).2.2.2
  shape l hl := by
    obtain ⟨hw, hs, _, ht⟩ := mem_spread.mp hl
    rw [hw]
    exact ⟨hs, ht⟩
  sent l hl := by
    obtain ⟨hw, _⟩ := mem_spread.mp hl
    show l.wave.need ≤ level (((program n).round lost).start 0)
    rw [hw, start_zero]
    exact le_rfl
  duty := by
    intro l ⟨_, ht, hends⟩ (hdue : l.wave.need ≤ level (((program n).round lost).start l.sender))
    left
    -- only the leader has a slot, and only the proposal needs no more
    have hsender : l.sender = 0 := by
      by_contra hne
      have hnone : ((program n).round lost).start l.sender = none :=
        start_of_ne (program n) lost hne
      rw [hnone] at hdue
      cases hw : l.wave with
      | propose => rw [hw] at hdue; exact absurd hdue (by decide)
      | vote t => rw [hw] at hdue; exact absurd hdue (by simp [Wave.need, level])
      | certificate t => rw [hw] at hdue; exact absurd hdue (by simp [Wave.need, level])
    rw [hsender, start_zero] at hdue
    cases hw : l.wave with
    | propose =>
      rw [hw] at hends
      exact mem_spread.mpr ⟨hw, hsender, hlive.lt _ ht, hends.2⟩
    | vote t =>
      rw [hw] at hends
      exact absurd hsender hends.2
    | certificate t =>
      rw [hw] at hdue
      exact absurd hdue (by simp [Wave.need, level, program, proposedSlot, Phase.level])
  leader := ⟨proposedSlot, start_zero (program n) lost, counts_proposedSlot n⟩

/-! ### What is known behind each wave -/

namespace InWaves

variable {x : Slots} {q : List (Letter Wave)}

/-- The slot of the leader is there from the start. -/
theorem one_le_level (h : InWaves n live ⟨x, q⟩) : 1 ≤ level (x 0) := by
  obtain ⟨slot, hs, hcounts⟩ := h.leader
  rw [show x 0 = some slot from hs]
  exact hcounts.phase

/-- When no letter of a wave is left, it had its effect on the live replicas. -/
theorem all_reached (hlive : Enough n lost live) (h : InWaves n live ⟨x, q⟩) (wave : Wave)
    (hw : ∀ t, wave ≠ .vote t) (hneed : wave.need ≤ level (x 0))
    (hq : ∀ l ∈ q, l.wave ≠ wave) : ∀ i ∈ live, i ≠ 0 → wave.need ≤ level (x i) := by
  intro i hi hne
  have hwanted : Wanted live ⟨wave, 0, i⟩ := by
    refine ⟨hlive.zero_mem, hi, ?_⟩
    cases wave with
    | vote t => exact absurd rfl (hw t)
    | propose => exact ⟨rfl, hne⟩
    | certificate t => exact ⟨rfl, hne⟩
  rcases h.duty ⟨wave, 0, i⟩ hwanted hneed with hmem | hd
  · exact absurd rfl (hq _ hmem)
  · cases wave with
    | vote t => exact absurd rfl (hw t)
    | propose => exact hd
    | certificate t => exact hd

/-- Behind the letters that ask for the votes of a tag, the live replicas have cast them. -/
theorem all_voted (hlive : Enough n lost live) (h : InWaves n live ⟨x, q⟩)
    (t : HotStuffPhaseTag) (hlevel : phaseOrd t + 1 ≤ level (x 0))
    (hq : ∀ l ∈ q, 2 * phaseOrd t + 1 ≤ rank l) :
    ∀ i ∈ live, i ≠ 0 → phaseOrd t + 1 ≤ level (x i) := by
  have hgone : ∀ wave : Wave, wave.rank < 2 * phaseOrd t + 1 → ∀ l ∈ q, l.wave ≠ wave := by
    intro wave hrank l hl hw
    have hle := hq l hl
    rw [rank, hw] at hle
    omega
  cases t with
  | prepare =>
    exact h.all_reached hlive .propose (by simp) hlevel (hgone .propose (by decide))
  | preCommit =>
    exact h.all_reached hlive (.certificate .prepare) (by simp) hlevel
      (hgone (.certificate .prepare) (by decide))
  | commit =>
    exact h.all_reached hlive (.certificate .preCommit) (by simp) hlevel
      (hgone (.certificate .preCommit) (by decide))

/-- A live replica is where a certificate that reaches it takes it to be. -/
theorem ready (hlive : Enough n lost live) {l : Letter Wave} {t : HotStuffPhaseTag}
    (h : InWaves n live ⟨x, l :: q⟩) (hl : l.wave = .certificate t) (ht : l.target ∈ live) :
    phaseOrd t + 1 ≤ level (x l.target) := by
  have hshape := h.shape l List.mem_cons_self
  have hsent := h.sent l List.mem_cons_self
  rw [hl] at hshape hsent
  refine h.all_voted hlive t (Nat.le_of_succ_le hsent) (fun l' hl' => ?_) _ ht hshape.2
  have hle := h.waves.le_of_mem l' hl'
  rw [rank, hl] at hle
  exact Nat.le_of_succ_le hle

/-- When nothing is left every live node has decided. -/
theorem all_decided (hlive : Enough n lost live) (h : InWaves n live ⟨x, []⟩) :
    ∀ i ∈ live, 4 ≤ level (x i) := by
  obtain ⟨slot, hs, hcounts⟩ := h.leader
  have hs : x 0 = some slot := hs
  have hzero : level (x 0) = slot.phase.level := by rw [hs]; rfl
  have hleader : 4 ≤ level (x 0) := by
    by_contra hlt
    obtain ⟨t, ht⟩ : ∃ t, slot.phase = stage t := by
      have hphase := hcounts.phase
      rw [hzero] at hlt
      cases hph : slot.phase with
      | idle => rw [hph] at hphase; exact absurd hphase (by decide)
      | prepare => exact ⟨.prepare, rfl⟩
      | preCommit => exact ⟨.preCommit, rfl⟩
      | commit => exact ⟨.commit, rfl⟩
      | decided => rw [hph] at hlt; exact absurd (show 4 ≤ 4 from le_rfl) hlt
    have hlevel : level (x 0) = phaseOrd t + 1 := by rw [hzero, ht, level_stage]
    obtain ⟨hself, hfew⟩ := hcounts.votes t ht
    -- all live replicas have voted, and every vote was counted
    have hvoted := h.all_voted hlive t hlevel.ge (by simp)
    have hall : live ⊆ slot.voters t := by
      intro j hj
      by_cases hne : j = 0
      · rw [hne]
        exact hself
      · rcases h.duty ⟨.vote t, j, 0⟩ ⟨hj, hlive.zero_mem, rfl, hne⟩ (hvoted j hj hne) with
          hmem | hd
        · exact absurd hmem (by simp)
        · rcases hd with hlt | ⟨slot', hs', hmem⟩
          · exact absurd hlt hlevel.not_gt
          · obtain rfl := Option.some.inj (hs.symm.trans hs')
            exact hmem
    have hcard := Finset.card_le_card hall
    have htwo := hlive.two_le
    have hquorum := hlive.quorum_le
    rcases hfew with hone | hlt
    · rw [hone, Finset.card_singleton] at hcard
      omega
    · omega
  intro i hi
  by_cases hne : i = 0
  · rw [hne]
    exact hleader
  · exact h.all_reached hlive (.certificate .commit) (by simp) hleader (by simp) i hi hne

/-! ### One delivery -/

/-- What a node sends in answer is no proposal. -/
private theorem once_next {l : Letter Wave} {out : List (Letter Wave)}
    (h : InWaves n live ⟨x, l :: q⟩) (hout : ∀ l' ∈ out, rank l' = rank l + 1) :
    (q ++ out).Pairwise fun l l' => l.wave = .propose → l'.wave = .propose →
      l.target ≠ l'.target := by
  refine once_append h.once fun l' hl' hw => ?_
  have hrank := hout l' hl'
  rw [rank, hw] at hrank
  exact absurd hrank (Nat.succ_ne_zero _).symm

/-- A letter that says nothing to a live node, and changes nothing. -/
theorem next_ignore {l : Letter Wave} (h : InWaves n live ⟨x, l :: q⟩) (hnot : ¬ Wanted live l) :
    InWaves n live ⟨x, q⟩ where
  waves := (List.pairwise_cons.mp h.waves).2
  once := (List.pairwise_cons.mp h.once).2
  fresh l' hl' := h.fresh l' (List.mem_cons_of_mem _ hl')
  shape l' hl' := h.shape l' (List.mem_cons_of_mem _ hl')
  sent l' hl' := h.sent l' (List.mem_cons_of_mem _ hl')
  duty := by
    have hduty : Duty (Wanted live) Due Done ⟨x, q ++ []⟩ :=
      h.duty.next (fun hw => absurd hw hnot) (fun _ _ hd => hd) fun _ _ hdue => .inl hdue
    rw [List.append_nil] at hduty
    exact hduty
  leader := h.leader

/-- A letter reaches a replica, which answers with votes. -/
theorem next_replica {l : Letter Wave} (h : InWaves n live ⟨x, l :: q⟩) (ht : l.target ≠ 0)
    (hfresh : ∀ l' ∈ q, l'.wave = .propose → l'.target ≠ l.target) {o : Option SlotState}
    {out : List (Letter Wave)} (hout : ∀ l' ∈ out, ∃ t, l' = ⟨.vote t, l.target, 0⟩ ∧
      rank l' = rank l + 1 ∧ phaseOrd t + 1 ≤ level (x 0))
    (hgrow : Grows (x l.target) o) (hdone : Wanted live l → l.wave.need ≤ level o)
    (hnew : l.target ∈ live → ∀ t, level (x l.target) < phaseOrd t + 1 →
      phaseOrd t + 1 ≤ level o → ⟨.vote t, l.target, 0⟩ ∈ out) :
    InWaves n live ⟨Function.update x l.target o, q ++ out⟩ := by
  have hrank : ∀ l' ∈ out, rank l' = rank l + 1 := by
    intro l' hl'
    obtain ⟨t, _, hrank, _⟩ := hout l' hl'
    exact hrank
  -- the leader hears nothing of this
  have hzero : Function.update x l.target o 0 = x 0 := Function.update_of_ne (Ne.symm ht) _ _
  refine ⟨h.waves.next hrank, h.once_next hrank, ?_, ?_, ?_, ?_, ?_⟩
  · intro l' hl' hw
    show Function.update x l.target o l'.target = none
    rcases List.mem_append.mp hl' with hl' | hl'
    · rw [Function.update_of_ne (hfresh l' hl' hw)]
      exact h.fresh l' (List.mem_cons_of_mem _ hl') hw
    · obtain ⟨t, rfl, _⟩ := hout l' hl'
      exact absurd hw (by simp)
  · intro l' hl'
    rcases List.mem_append.mp hl' with hl' | hl'
    · exact h.shape l' (List.mem_cons_of_mem _ hl')
    · obtain ⟨t, rfl, _⟩ := hout l' hl'
      exact ⟨rfl, ht⟩
  · intro l' hl'
    show l'.wave.need ≤ level (Function.update x l.target o 0)
    rw [hzero]
    rcases List.mem_append.mp hl' with hl' | hl'
    · exact h.sent l' (List.mem_cons_of_mem _ hl')
    · obtain ⟨t, rfl, _, hle⟩ := hout l' hl'
      exact hle
  · refine h.duty.next (fun hw => ?_) (fun _ _ => Done.mono (grows_update hgrow))
      (fun l' hw hdue => ?_)
    · have hend := hw.2.2
      have hself : Function.update x l.target o l.target = o := Function.update_self _ _ _
      unfold Done
      cases hwave : l.wave with
      | vote t =>
        rw [hwave] at hend
        exact absurd hend.1 ht
      | propose =>
        dsimp only
        rw [hself, ← hwave]
        exact hdone hw
      | certificate t =>
        dsimp only
        rw [hself, ← hwave]
        exact hdone hw
    -- what the replica got far enough for is a vote
    · unfold Due at hdue ⊢
      by_cases heq : l'.sender = l.target
      · rw [heq, Function.update_self] at hdue
        have hend := hw.2.2
        obtain ⟨wave, i, j⟩ := l'
        obtain rfl : i = l.target := heq
        cases wave with
        | vote t =>
          obtain rfl : j = 0 := hend.1
          rcases Nat.lt_or_ge (level (x l.target)) (phaseOrd t + 1) with hlt | hle
          · exact .inr (hnew hw.1 t hlt hdue)
          · exact .inl hle
        | propose => exact absurd hend.1 ht
        | certificate t => exact absurd hend.1 ht
      · rw [Function.update_of_ne heq] at hdue
        exact .inl hdue
  · obtain ⟨slot, hs, hcounts⟩ := h.leader
    exact ⟨slot, hzero.trans hs, hcounts⟩

/-- A proposal reaches a replica. -/
theorem next_propose {l : Letter Wave} (h : InWaves n live ⟨x, l :: q⟩) (hl : l.wave = .propose) :
    InWaves n live ⟨Function.update x l.target (some acceptedSlot),
      q ++ [⟨.vote .prepare, l.target, 0⟩]⟩ := by
  have hshape := h.shape l List.mem_cons_self
  rw [hl] at hshape
  have hnone : x l.target = none := h.fresh l List.mem_cons_self hl
  refine h.next_replica hshape.2 (fun l' hl' hw => ?_) (fun l' hl' => ?_) ?_ (fun _ => ?_)
    (fun _ t _ ht => ?_)
  · exact ((List.pairwise_cons.mp h.once).1 l' hl' hl hw).symm
  · obtain rfl := List.mem_singleton.mp hl'
    exact ⟨.prepare, rfl, by rw [rank, rank, hl]; rfl, h.one_le_level⟩
  · rw [hnone]
    exact .of_none _
  · rw [hl]
    exact le_rfl
  · have hord : phaseOrd t = 0 := Nat.le_zero.mp (Nat.le_of_succ_le_succ ht)
    obtain rfl : t = .prepare := phaseOrd_injective hord
    exact List.mem_singleton_self _

/-- A certificate reaches a replica. -/
theorem next_certificate (hlive : Enough n lost live) {l : Letter Wave} {t : HotStuffPhaseTag}
    (h : InWaves n live ⟨x, l :: q⟩) (hl : l.wave = .certificate t) :
    InWaves n live ⟨Function.update x l.target ((x l.target).map fun slot => slot.follow t),
      q ++ nextVote l.target t⟩ := by
  have hshape := h.shape l List.mem_cons_self
  have hsent := h.sent l List.mem_cons_self
  rw [hl] at hshape hsent
  refine h.next_replica hshape.2 (fun l' hl' hw => ?_) (fun l' hl' => ?_)
    (grows_follow (x l.target) t) (fun hw => ?_) (fun ht t' hlt hle => ?_)
  · have hle := h.waves.le_of_mem l' (List.mem_cons_of_mem _ hl')
    rw [rank, rank, hl, hw] at hle
    exact absurd hle (Nat.not_succ_le_zero _)
  · obtain ⟨t', ht', rfl⟩ := Option.map_eq_some_iff.mp (Option.mem_toList.mp hl')
    have hord := phaseOrd_of_nextTag ht'
    refine ⟨t', rfl, ?_, ?_⟩
    · rw [rank, rank, hl, Wave.rank, Wave.rank, hord]
      omega
    · rw [hord]
      exact hsent
  -- a live replica waits for this certificate, or is behind it already
  · have hready := h.ready hlive hl hw.2.1
    cases hs : x l.target with
    | none =>
      rw [hs] at hready
      exact absurd hready (Nat.not_succ_le_zero _)
    | some slot =>
      rw [hs] at hready
      show l.wave.need ≤ (slot.follow t).phase.level
      rw [hl, level_follow, Wave.need]
      change phaseOrd t + 1 ≤ slot.phase.level at hready
      split
      · exact le_rfl
      · omega
  · have hready := h.ready hlive hl ht
    cases hs : x l.target with
    | none =>
      rw [hs] at hready
      exact absurd hready (Nat.not_succ_le_zero _)
    | some slot =>
      rw [hs] at hready hlt hle
      change phaseOrd t + 1 ≤ slot.phase.level at hready
      change slot.phase.level < phaseOrd t' + 1 at hlt
      change phaseOrd t' + 1 ≤ (slot.follow t).phase.level at hle
      rw [level_follow] at hle
      split at hle
      · have hord : phaseOrd t' = phaseOrd t + 1 := by omega
        exact Option.mem_toList.mpr (Option.map_eq_some_iff.mpr ⟨t', nextTag_of_phaseOrd hord, rfl⟩)
      · omega

/-- A vote reaches the leader. -/
theorem next_leader (hlive : Enough n lost live) {l : Letter Wave} {t : HotStuffPhaseTag}
    {slot slot' : SlotState} {out : List (Letter Wave)} (h : InWaves n live ⟨x, l :: q⟩)
    (hl : l.wave = .vote t) (hs : x 0 = some slot) (hm : Tallies n l.sender slot t slot' out) :
    InWaves n live ⟨Function.update x 0 (some slot'), q ++ out⟩ := by
  have hshape := h.shape l List.mem_cons_self
  have hsent : l.wave.need ≤ level (x 0) := h.sent l List.mem_cons_self
  rw [hl] at hshape
  rw [hl, hs] at hsent
  have hcounts : Counts n slot := by
    obtain ⟨slot₀, hs₀, hc⟩ := h.leader
    obtain rfl := Option.some.inj (hs.symm.trans hs₀)
    exact hc
  have hgrow : Grows (x 0) (some slot') := hs ▸ hm.grows
  have hself : Function.update x 0 (some slot') 0 = some slot' := Function.update_self _ _ _
  have hrank : ∀ l' ∈ out, rank l' = rank l + 1 := by
    intro l' hl'
    rw [rank, rank, (hm.out_inv hl').1, hl]
    rfl
  refine ⟨h.waves.next hrank, h.once_next hrank, ?_, ?_, ?_, ?_, slot', hself, hm.counts hcounts⟩
  · intro l' hl' hw
    rcases List.mem_append.mp hl' with hl' | hl'
    · have hend := h.shape l' (List.mem_cons_of_mem _ hl')
      rw [hw] at hend
      exact (Function.update_of_ne hend.2 _ _).trans (h.fresh l' (List.mem_cons_of_mem _ hl') hw)
    · rw [(hm.out_inv hl').1] at hw
      exact absurd hw (by simp)
  · intro l' hl'
    rcases List.mem_append.mp hl' with hl' | hl'
    · exact h.shape l' (List.mem_cons_of_mem _ hl')
    · obtain ⟨hw, hsender, ht, _⟩ := hm.out_inv hl'
      rw [hw]
      exact ⟨hsender, ht⟩
  · intro l' hl'
    show l'.wave.need ≤ level (Function.update x 0 (some slot') 0)
    rw [hself]
    rcases List.mem_append.mp hl' with hl' | hl'
    · exact (h.sent l' (List.mem_cons_of_mem _ hl')).trans hgrow.level_le
    · obtain ⟨hw, _, _, hle⟩ := hm.out_inv hl'
      rw [hw]
      exact hle
  · refine h.duty.next (fun _ => ?_) (fun _ _ => Done.mono (grows_update hgrow))
      (fun l' hw hdue => ?_)
    · unfold Done
      rw [hl]
      dsimp only
      rw [hshape.1, hself]
      exact (hm.counted hsent).imp id fun hmem => ⟨slot', rfl, hmem⟩
    -- what the leader got far enough for is the certificate that it sends
    · unfold Due at hdue ⊢
      by_cases heq : l'.sender = 0
      · rw [heq, hself] at hdue
        rw [heq, hs]
        rcases Nat.lt_or_ge slot.phase.level l'.wave.need with hlt | hle
        · have hvote : ∀ t', l'.wave ≠ .vote t' := by
            intro t' hwave
            have hend := hw.2.2
            rw [hwave] at hend
            exact hend.2 heq
          exact .inr (hm.sends heq (hlive.lt _ hw.2.1) (hw.target_ne hvote) hvote hlt hdue)
        · exact .inl hle
      · rw [Function.update_of_ne heq] at hdue
        exact .inl hdue

/-- **Every delivery keeps the invariant.** -/
theorem next (hlive : Enough n lost live) {l : Letter Wave} (h : InWaves n live ⟨x, l :: q⟩) :
    InWaves n live ⟨(((program n).round lost).step x l).1,
      q ++ (((program n).round lost).step x l).2⟩ := by
  cases hlost : lost l with
  | true =>
    rw [step_of_lost _ _ hlost, List.append_nil]
    refine h.next_ignore fun hw => ?_
    exact absurd (hlost.symm.trans (hlive.heard l.wave l.sender hw.1 l.target hw.2.1)) (by simp)
  | false =>
    rw [step_of_not_lost _ _ hlost]
    show InWaves n live ⟨Function.update x l.target (handle n l.target (x l.target) l.wave _).1,
      q ++ (handle n l.target (x l.target) l.wave l.sender).2⟩
    cases hl : l.wave with
    | propose => exact h.next_propose hl
    | certificate t => exact h.next_certificate hlive hl
    | vote t =>
      have hend := h.shape l List.mem_cons_self
      rw [hl] at hend
      obtain ⟨slot, hs, _⟩ := h.leader
      obtain ⟨slot', out, htally, hm⟩ := tally_zero n slot t l.sender
      rw [hend.1, show x 0 = some slot from hs, handle, htally]
      exact h.next_leader hlive hl hs hm

end InWaves

/-- **The round stays in waves.** -/
theorem inWaves (hlive : Enough n lost live) (t : ℕ) :
    InWaves n live (((program n).round lost).solo t) :=
  Round.solo_induct (inWaves_start hlive) (fun _ _ _ h => h.next hlive) t

/-- The slot is there, and decided. -/
def Finished : Option SlotState → Prop := Ended fun slot => slot.phase = .decided

/-- A slot is decided exactly at the highest level. -/
theorem finished_iff {o : Option SlotState} : Finished o ↔ 4 ≤ level o := by
  constructor
  · rintro ⟨slot, rfl, hph⟩
    rw [level, hph]
    rfl
  · cases o with
    | none => exact fun h => absurd h (by decide)
    | some slot =>
      refine fun h => ⟨slot, rfl, ?_⟩
      change 4 ≤ slot.phase.level at h
      cases hph : slot.phase with
      | decided => rfl
      | idle => rw [hph] at h; exact absurd h (by decide)
      | prepare => rw [hph] at h; exact absurd h (by decide)
      | preCommit => rw [hph] at h; exact absurd h (by decide)
      | commit => rw [hph] at h; exact absurd h (by decide)

/-- A decided slot stays decided. -/
theorem finished_mono (hlive : Enough n lost live) (i : NodeId) (t t' : ℕ) (h : t ≤ t')
    (ht : Finished ((((program n).round lost).solo t).state i)) :
    Finished ((((program n).round lost).solo t').state i) := by
  refine slot_mono i (fun u l hl hi hd => ?_) h ht
  have hfresh := (inWaves hlive u).fresh l hl
  rw [hi] at hfresh
  exact finished_iff.mpr ((finished_iff.mp hd).trans (level_le_handle hfresh))

/-- **When nothing is left** the slots of the live nodes are decided. -/
theorem finished_of_drained (hlive : Enough n lost live) {t : ℕ}
    (hq : (((program n).round lost).solo t).queue = []) :
    ∀ i ∈ live, Finished ((((program n).round lost).solo t).state i) := by
  have h := inWaves hlive t
  generalize ((program n).round lost).solo t = c at hq h ⊢
  obtain ⟨x, queue⟩ := c
  obtain rfl : queue = [] := hq
  exact fun i hi => finished_iff.mpr (h.all_decided hlive i hi)

end HotStuff

end ConsensusBench
