import ConsensusBench.Normal
import ConsensusBench.Pbft.Step

namespace ConsensusBench

/-!
# PBFT: one sequence in the normal case

What the nodes do about one sequence in view `0`, as a `Round` of the library: the state is the
slot of each node, a letter is a vote without its numbers and digest.  `lost` are the letters that
do not arrive.

On a FIFO queue the round is three waves: a `Prepare` is behind all `PrePrepare`s, so it finds a
slot, and a `Commit` is behind all `Prepare`s, so it finds a slot that is prepared.

* `InWaves` — the invariant.
* `InWaves.all_prepared`, `InWaves.all_committed` — what is known of the live nodes when only
  `Commit`s are left, and when nothing is left.
-/

open Pipeline PbftNode

namespace Pbft

/-! ### The round -/

/-- The three messages of the normal case. -/
inductive Wave where
  | prePrepare
  | prepare
  | commit
  deriving DecidableEq

namespace Wave

def rank : Wave → ℕ
  | prePrepare => 0
  | prepare => 1
  | commit => 2

/-- The phase of the messages of a wave. -/
def messagePhase : Wave → MessagePhase
  | prePrepare => .pbftPrePrepare
  | prepare => .pbftPrepare
  | commit => .pbftCommit

end Wave

/-- How far a letter is in the round. -/
def rank (l : Letter Wave) : ℕ := l.wave.rank

/-- The slots of one sequence, by node. -/
abbrev Slots := NodeId → Option SlotState

/-- The slot of sequence `s` that is `slot` up to its number. -/
def SlotState.number (slot : SlotState) (s : SequenceNumber) : SlotState :=
  { slot with sequence := s }

/-- Node `i` gets a letter of node `r`: its slot, and what it sends. -/
def handle (n : ℕ) (i : NodeId) (slot : Option SlotState) (wave : Wave) (r : NodeId) :
    Option SlotState × List (Letter Wave) :=
  match wave, slot with
  | .prePrepare, _ => (some (openSlot 0 0), spread n .prepare i)
  | _, none => (none, [])
  | .prepare, some slot =>
    if slot.phase = .prePrepared then
      if (node n i).prepareThreshold ≤ (slot.addPrepare r).prepareVoters.card then
        (some ((slot.addPrepare r).toPrepared i), spread n .commit i)
      else (some (slot.addPrepare r), [])
    else (some slot, [])
  | .commit, some slot =>
    if slot.phase = .prepared ∨ slot.phase = .prePrepared then
      if (node n i).quorum ≤ (slot.addCommit r).commitVoters.card then
        (some { slot.addCommit r with phase := .committed }, [])
      else (some (slot.addCommit r), [])
    else (some slot, [])

/-- The slot program of PBFT with `n` nodes. -/
def program (n : ℕ) : SlotProgram SlotState Wave where
  first := openSlot 0 0
  opening := spread n .prePrepare 0 ++ spread n .prepare 0
  handle := handle n

/-- The letters of a wave have its rank. -/
theorem rank_of_mem_spread {n : ℕ} {wave : Wave} {i : NodeId} {l : Letter Wave}
    (h : l ∈ spread n wave i) : rank l = wave.rank := by
  rw [rank, (mem_spread.mp h).1]

/-- A node that gets a letter answers with letters of the next wave. -/
theorem rank_of_mem_handle {n : ℕ} {i r : NodeId} {slot : Option SlotState} {wave : Wave}
    {l : Letter Wave} (h : l ∈ (handle n i slot wave r).2) : rank l = wave.rank + 1 := by
  unfold handle at h
  split at h
  · exact rank_of_mem_spread h
  · exact absurd h (by simp)
  · split at h
    · split at h
      · exact rank_of_mem_spread h
      · exact absurd h (by simp)
    · exact absurd h (by simp)
  · split at h
    · split at h <;> exact absurd h (by simp)
    · exact absurd h (by simp)

/-- What node `i` makes of a vote of node `r` about a slot: the slot, and what it sends. -/
inductive Moves (n : ℕ) (i r : NodeId) (slot : SlotState) :
    Wave → SlotState → List (Letter Wave) → Prop
  | late (wave : Wave) (hph : slot.phase ≠ .prePrepared) (hw : wave = .commit →
      slot.phase ≠ .prepared) : Moves n i r slot wave slot []
  | countPrepare (hph : slot.phase = .prePrepared)
      (hq : (slot.addPrepare r).prepareVoters.card < 2 * ((n - 1) / 3)) :
      Moves n i r slot .prepare (slot.addPrepare r) []
  | prepare (hph : slot.phase = .prePrepared) :
      Moves n i r slot .prepare ((slot.addPrepare r).toPrepared i) (spread n .commit i)
  | countCommit (hph : slot.phase = .prepared ∨ slot.phase = .prePrepared)
      (hq : (slot.addCommit r).commitVoters.card < 2 * ((n - 1) / 3) + 1) :
      Moves n i r slot .commit (slot.addCommit r) []
  | commit (hph : slot.phase = .prepared ∨ slot.phase = .prePrepared) :
      Moves n i r slot .commit { slot.addCommit r with phase := .committed } []

/-- Without a slot, only a `PrePrepare` does anything. -/
theorem handle_none {n : ℕ} {i r : NodeId} {wave : Wave} (hw : wave ≠ .prePrepare) :
    handle n i none wave r = (none, []) := by
  cases wave with
  | prePrepare => exact absurd rfl hw
  | prepare => rfl
  | commit => rfl

/-- **Inversion** of `handle` at a node that has a slot. -/
theorem handle_some {n : ℕ} {i r : NodeId} {wave : Wave} (hw : wave ≠ .prePrepare)
    (slot : SlotState) : ∃ slot' out, handle n i (some slot) wave r = (some slot', out) ∧
      Moves n i r slot wave slot' out := by
  cases wave with
  | prePrepare => exact absurd rfl hw
  | prepare =>
    by_cases hph : slot.phase = .prePrepared
    · by_cases hq : (node n i).prepareThreshold ≤ (slot.addPrepare r).prepareVoters.card
      · exact ⟨_, _, by simp only [handle, hph, hq, if_true], .prepare hph⟩
      · exact ⟨_, _, by simp only [handle, hph, hq, if_true, if_false],
          .countPrepare hph (not_le.mp hq)⟩
    · exact ⟨_, _, by simp only [handle, hph, if_false], .late _ hph fun h => absurd h (by simp)⟩
  | commit =>
    by_cases hph : slot.phase = .prepared ∨ slot.phase = .prePrepared
    · by_cases hq : (node n i).quorum ≤ (slot.addCommit r).commitVoters.card
      · exact ⟨_, _, by simp only [handle, hph, hq, if_true], .commit hph⟩
      · exact ⟨_, _, by simp only [handle, hph, hq, if_true, if_false],
          .countCommit hph (not_le.mp hq)⟩
    · rw [not_or] at hph
      refine ⟨slot, [], ?_, .late _ hph.2 fun _ => hph.1⟩
      simp only [handle, hph.1, hph.2, or_self, if_false]

/-! ### The effect of letters -/

/-- A letter between two different nodes of `live`. -/
def Wanted (live : Finset NodeId) (l : Letter Wave) : Prop :=
  l.sender ∈ live ∧ l.target ∈ live ∧ l.sender ≠ l.target ∧
    (l.wave = .prePrepare → l.sender = 0)

/-- Why a letter was sent: its sender has a slot, or a prepared one. -/
def Due (x : Slots) (l : Letter Wave) : Prop :=
  match l.wave with
  | .prePrepare | .prepare => x l.sender ≠ none
  | .commit => ∃ slot, x l.sender = some slot ∧ slot.phase ≠ .prePrepared

/-- What a letter leads to: its target has a slot, and counts the vote as long as it counts. -/
def Done (x : Slots) (l : Letter Wave) : Prop :=
  ∃ slot, x l.target = some slot ∧ match l.wave with
    | .prePrepare => True
    | .prepare => slot.phase = .prePrepared → l.sender ∈ slot.prepareVoters
    | .commit => slot.phase ≠ .prePrepared ∧
        (slot.phase = .prepared → l.sender ∈ slot.commitVoters)

/-- What is known of the slot of live node `i`: its phase, and that its votes are too few to leave
    the phase. -/
structure Counts (n : ℕ) (i : NodeId) (slot : SlotState) : Prop where
  phase : slot.phase ≠ .idle
  prepare : slot.phase = .prePrepared → slot.commitVoters = ∅ ∧
    (slot.prepareVoters = ∅ ∨ slot.prepareVoters.card < 2 * ((n - 1) / 3))
  commit : slot.phase = .prepared → i ∈ slot.commitVoters ∧
    (slot.commitVoters = {i} ∨ slot.commitVoters.card < 2 * ((n - 1) / 3) + 1)

/-- The invariant of the round. -/
structure InWaves (n : ℕ) (live : Finset NodeId) (c : Solo Slots (Letter Wave)) : Prop where
  waves : Waves rank c.queue
  once : c.queue.Pairwise fun l l' => l.wave = .prePrepare → l'.wave = .prePrepare →
    l.target ≠ l'.target
  fresh : ∀ l ∈ c.queue, l.wave = .prePrepare → c.state l.target = none
  opened : ∃ slot, c.state 0 = some slot
  duty : Duty (Wanted live) Due Done c
  counts : ∀ i ∈ live, ∀ slot, c.state i = some slot → Counts n i slot

variable {n : ℕ} {lost : Letter Wave → Bool} {live : Finset NodeId}

/-- The counts of a new slot are right. -/
theorem counts_openSlot (i : NodeId) : Counts n i (openSlot 0 0) where
  phase := by simp [openSlot]
  prepare _ := ⟨rfl, .inl rfl⟩
  commit h := absurd h (by simp [openSlot])

/-- A round starts with the first wave. -/
theorem inWaves_start (hlive : Enough n lost live) :
    InWaves n live ⟨((program n).round lost).start, ((program n).round lost).opening⟩ where
  waves := waves_append (fun _ hl => rank_of_mem_spread hl) fun _ hl => rank_of_mem_spread hl
  once := by
    refine List.pairwise_append.mpr ⟨?_, ?_, ?_⟩
    · refine List.pairwise_map.mpr ((nodup_peerIds 0 n).imp fun h _ _ => h)
    · refine List.pairwise_of_forall_mem_list fun l hl l' _ hw => ?_
      rw [(mem_spread.mp hl).1] at hw
      exact absurd hw (by simp)
    · intro l _ l' hl' _ hw
      rw [(mem_spread.mp hl').1] at hw
      exact absurd hw (by simp)
  fresh := by
    intro l hl _
    have ht : l.target ≠ 0 := by
      rcases List.mem_append.mp hl with hl | hl
      · exact (mem_spread.mp hl).2.2.2
      · exact (mem_spread.mp hl).2.2.2
    exact start_of_ne (program n) lost ht
  opened := ⟨openSlot 0 0, start_zero (program n) lost⟩
  duty := by
    intro l hw hdue
    left
    have hsender : l.sender = 0 := by
      by_contra hne
      have hnone : ((program n).round lost).start l.sender = none :=
        start_of_ne (program n) lost hne
      unfold Due at hdue
      split at hdue
      · exact hdue hnone
      · exact hdue hnone
      · obtain ⟨slot, hs, _⟩ := hdue
        exact absurd (hnone.symm.trans hs) (by simp)
    have hmem : ∀ wave, l.wave = wave → l ∈ spread n wave 0 := fun wave hwave =>
      mem_spread.mpr ⟨hwave, hsender, hlive.lt _ hw.2.1, fun h => hw.2.2.1 (hsender.trans h.symm)⟩
    cases hwave : l.wave with
    | prePrepare => exact List.mem_append_left _ (hmem _ hwave)
    | prepare => exact List.mem_append_right _ (hmem _ hwave)
    | commit =>
      -- no slot is prepared at the start
      simp only [Due, hwave, hsender, start_zero, Option.some.injEq] at hdue
      obtain ⟨slot, rfl, hph⟩ := hdue
      exact absurd rfl hph
  counts := by
    intro i _ slot hs
    by_cases hi : i = 0
    · subst hi
      obtain rfl := Option.some.inj ((start_zero (program n) lost).symm.trans hs)
      exact counts_openSlot 0
    · have hnone : ((program n).round lost).start i = none := start_of_ne (program n) lost hi
      exact absurd (hnone.symm.trans hs) (by simp)

namespace Moves

variable {i r : NodeId} {slot slot' : SlotState} {wave : Wave} {out : List (Letter Wave)}

/-- A move keeps the votes of a slot as long as they count, and its phase does not go back. -/
theorem grows (h : Moves n i r slot wave slot' out) :
    (slot'.phase = .prePrepared → slot.phase = .prePrepared ∧
      slot.prepareVoters ⊆ slot'.prepareVoters) ∧
    (slot'.phase = .prepared → slot.phase = .prePrepared ∨
      slot.phase = .prepared ∧ slot.commitVoters ⊆ slot'.commitVoters) ∧
    (slot.phase = .committed → slot'.phase = .committed) := by
  cases h with
  | late =>
    exact ⟨fun h => ⟨h, Finset.Subset.refl _⟩, fun h => .inr ⟨h, Finset.Subset.refl _⟩, id⟩
  | countPrepare hph hq =>
    exact ⟨fun _ => ⟨hph, Finset.subset_insert _ _⟩, fun _ => .inl hph, id⟩
  | prepare hph =>
    exact ⟨fun h => absurd h (by simp [SlotState.toPrepared]), fun _ => .inl hph,
      fun h => absurd (hph.symm.trans h) (by simp)⟩
  | countCommit hph hq =>
    exact ⟨fun h => ⟨h, Finset.Subset.refl _⟩, fun h => .inr ⟨h, Finset.subset_insert _ _⟩, id⟩
  | commit hph => exact ⟨fun h => absurd h (by simp), fun h => absurd h (by simp), fun _ => rfl⟩

/-- A move counts the vote, unless votes of its wave do not count any more. -/
theorem counted (h : Moves n i r slot wave slot' out) :
    (wave = .prepare → slot'.phase = .prePrepared → r ∈ slot'.prepareVoters) ∧
    (wave = .commit → slot'.phase = .prepared → r ∈ slot'.commitVoters) := by
  cases h with
  | late _ hph hw => exact ⟨fun _ h => absurd h hph, fun h h' => absurd h' (hw h)⟩
  | countPrepare => exact ⟨fun _ _ => Finset.mem_insert_self _ _, fun h => absurd h (by simp)⟩
  | prepare =>
    exact ⟨fun _ h => absurd h (by simp [SlotState.toPrepared]), fun h => absurd h (by simp)⟩
  | countCommit => exact ⟨fun h => absurd h (by simp), fun _ _ => Finset.mem_insert_self _ _⟩
  | commit => exact ⟨fun h => absurd h (by simp), fun _ h => absurd h (by simp)⟩

/-- A node that becomes prepared says so. -/
theorem told (h : Moves n i r slot wave slot' out) (hw : wave = .commit → slot.phase ≠ .prePrepared)
    (hph : slot'.phase ≠ .prePrepared) : slot.phase ≠ .prePrepared ∨ out = spread n .commit i := by
  cases h with
  | late => exact .inl hph
  | countPrepare hold => exact absurd hold hph
  | prepare => exact .inr rfl
  | countCommit => exact .inl (hw rfl)
  | commit => exact .inl (hw rfl)

/-- A letter keeps the counts of its slot right. -/
theorem counts (h : Moves n i r slot wave slot' out)
    (hw : wave = .commit → slot.phase ≠ .prePrepared) (hc : Counts n i slot) :
    Counts n i slot' := by
  cases h with
  | late => exact hc
  | countPrepare hph hq =>
    exact ⟨hc.phase, fun h => ⟨(hc.prepare h).1, .inr hq⟩,
      fun h => absurd (hph.symm.trans h) (by simp)⟩
  | prepare hph =>
    refine ⟨by simp [SlotState.toPrepared], fun h => absurd h (by simp [SlotState.toPrepared]),
      fun _ => ⟨Finset.mem_insert_self _ _, .inl ?_⟩⟩
    show insert i slot.commitVoters = {i}
    rw [(hc.prepare hph).1]
    rfl
  | countCommit hph hq =>
    exact ⟨hc.phase, fun h => absurd h (hw rfl),
      fun h => ⟨Finset.mem_insert_of_mem (hc.commit h).1, .inr hq⟩⟩
  | commit hph => exact ⟨by simp, fun h => absurd h (by simp), fun h => absurd h (by simp)⟩

end Moves

/-! ### What is known behind each wave -/

namespace InWaves

variable {x : Slots} {q : List (Letter Wave)}

/-- Behind the `PrePrepare`s every live node has a slot. -/
theorem all_opened (hlive : Enough n lost live) (h : InWaves n live ⟨x, q⟩)
    (hq : ∀ l ∈ q, l.wave ≠ .prePrepare) : ∀ i ∈ live, ∃ slot, x i = some slot := by
  intro i hi
  obtain ⟨slot, h0⟩ := h.opened
  by_cases hne : i = 0
  · exact ⟨slot, hne ▸ h0⟩
  · have hw : Wanted live ⟨.prePrepare, 0, i⟩ := ⟨hlive.zero_mem, hi, Ne.symm hne, fun _ => rfl⟩
    have hdue : Due x ⟨.prePrepare, 0, i⟩ := by
      show x 0 ≠ none
      rw [show x 0 = some slot from h0]
      simp
    rcases h.duty _ hw hdue with hmem | ⟨slot', hs, _⟩
    · exact absurd rfl (hq _ hmem)
    · exact ⟨slot', hs⟩

/-- Behind the `Prepare`s every live node is prepared. -/
theorem all_prepared (hlive : Enough n lost live) (h : InWaves n live ⟨x, q⟩)
    (hq : ∀ l ∈ q, 2 ≤ rank l) :
    ∀ i ∈ live, ∃ slot, x i = some slot ∧ slot.phase ≠ .prePrepared := by
  have hopen := h.all_opened hlive fun l hl hw => by
    have hrank := hq l hl
    rw [rank, hw] at hrank
    exact absurd hrank (by decide)
  intro i hi
  obtain ⟨slot, hs⟩ := hopen i hi
  refine ⟨slot, hs, fun hph => ?_⟩
  -- if the slot still waits, it has counted the votes of all other live nodes
  have hall : ∀ j ∈ live, j ≠ i → j ∈ slot.prepareVoters := by
    intro j hj hne
    obtain ⟨slot', hs'⟩ := hopen j hj
    have hw : Wanted live ⟨.prepare, j, i⟩ := ⟨hj, hi, hne, fun h => absurd h (by simp)⟩
    rcases h.duty _ hw (by show x j ≠ none; rw [hs']; simp) with hmem | ⟨slot'', hs'', hvote⟩
    · exact absurd (hq _ hmem) (by simp [rank, Wave.rank])
    · obtain rfl := Option.some.inj (hs.symm.trans hs'')
      exact hvote hph
  have hcard := card_le_of_mem hall
  have htwo := hlive.two_le
  have hquorum := hlive.quorum_le
  rcases ((h.counts i hi slot hs).prepare hph).2 with hempty | hlt
  · rw [hempty, Finset.card_empty] at hcard
    omega
  · omega

/-- When nothing is left every live node has committed. -/
theorem all_committed (hlive : Enough n lost live) (h : InWaves n live ⟨x, []⟩) :
    ∀ i ∈ live, ∃ slot, x i = some slot ∧ slot.phase = .committed := by
  have hprep := h.all_prepared hlive fun l hl => absurd hl (by simp)
  intro i hi
  obtain ⟨slot, hs, hph⟩ := hprep i hi
  refine ⟨slot, hs, ?_⟩
  have hcounts := h.counts i hi slot hs
  cases hphase : slot.phase with
  | idle => exact absurd hphase hcounts.phase
  | prePrepared => exact absurd hphase hph
  | committed => rfl
  | prepared =>
    exfalso
    obtain ⟨hself, hfew⟩ := hcounts.commit hphase
    -- all live nodes are prepared, so all have voted, and every vote was counted
    have hall : live ⊆ slot.commitVoters := by
      intro j hj
      by_cases hne : j = i
      · exact hne ▸ hself
      · obtain ⟨slot', hs', hph'⟩ := hprep j hj
        have hw : Wanted live ⟨.commit, j, i⟩ := ⟨hj, hi, hne, fun h => absurd h (by simp)⟩
        rcases h.duty _ hw ⟨slot', hs', hph'⟩ with hmem | ⟨slot'', hs'', _, hvote⟩
        · exact absurd hmem (by simp)
        · obtain rfl := Option.some.inj (hs.symm.trans hs'')
          exact hvote hphase
    have hcard := Finset.card_le_card hall
    have htwo := hlive.two_le
    have hquorum := hlive.quorum_le
    rcases hfew with hone | hlt
    · rw [hone, Finset.card_singleton] at hcard
      omega
    · omega

/-! ### One delivery -/

/-- A live node has a slot when a vote reaches it, and a prepared one when it is a `Commit`. -/
theorem ready (hlive : Enough n lost live) {l : Letter Wave} (h : InWaves n live ⟨x, l :: q⟩)
    (hl : l.wave ≠ .prePrepare) (ht : l.target ∈ live) : ∃ slot, x l.target = some slot ∧
      (l.wave = .commit → slot.phase ≠ .prePrepared) := by
  have hle := h.waves.le_of_mem
  cases hw : l.wave with
  | prePrepare => exact absurd hw hl
  | prepare =>
    obtain ⟨slot, hs⟩ := h.all_opened hlive (fun l' hl' hw' => by
      have hrank := hle l' hl'
      rw [rank, rank, hw, hw'] at hrank
      exact absurd hrank (by decide)) l.target ht
    exact ⟨slot, hs, fun h => absurd h (by simp)⟩
  | commit =>
    obtain ⟨slot, hs, hph⟩ := h.all_prepared hlive (fun l' hl' => by
      have hrank := hle l' hl'
      rw [rank, hw] at hrank
      exact hrank) l.target ht
    exact ⟨slot, hs, fun _ => hph⟩

/-- What a node sends in answer is no `PrePrepare`. -/
private theorem once_next {l : Letter Wave} {out : List (Letter Wave)}
    (h : InWaves n live ⟨x, l :: q⟩) (hout : ∀ l' ∈ out, rank l' = rank l + 1) :
    (q ++ out).Pairwise fun l l' =>
      l.wave = .prePrepare → l'.wave = .prePrepare → l.target ≠ l'.target := by
  refine once_append h.once fun l' hl' hw => ?_
  have hrank := hout l' hl'
  rw [rank, hw] at hrank
  exact absurd hrank (Nat.succ_ne_zero _).symm

/-- A letter that says nothing to a live node, and changes nothing. -/
theorem next_ignore {l : Letter Wave} (h : InWaves n live ⟨x, l :: q⟩) (hnot : ¬ Wanted live l) :
    InWaves n live ⟨x, q⟩ := by
  have hout : ∀ l' ∈ ([] : List (Letter Wave)), rank l' = rank l + 1 := by simp
  have hwaves := h.waves.next hout
  have honce := h.once_next hout
  have hduty : Duty (Wanted live) Due Done ⟨x, q ++ []⟩ :=
    h.duty.next (fun hw => absurd hw hnot) (fun _ _ hd => hd) fun _ _ hdue => .inl hdue
  rw [List.append_nil] at hwaves honce hduty
  exact ⟨hwaves, honce, fun l' hl' => h.fresh l' (List.mem_cons_of_mem _ hl'), h.opened, hduty,
    h.counts⟩

/-- The nodes whose slots a letter leaves alone. -/
private theorem due_of_ne {l : Letter Wave} {t : NodeId} {o : Option SlotState} (ht : l.sender ≠ t)
    (h : Due (Function.update x t o) l) : Due x l := by
  unfold Due at h ⊢
  rw [Function.update_of_ne ht] at h
  exact h

/-- A delivery leaves what letters to others have done. -/
private theorem done_of_ne {l : Letter Wave} {t : NodeId} {o : Option SlotState} (ht : l.target ≠ t)
    (h : Done x l) : Done (Function.update x t o) l := by
  unfold Done at h ⊢
  rw [Function.update_of_ne ht]
  exact h

/-- A delivery leaves the slot of the primary open. -/
private theorem opened_update (h : ∃ slot, x 0 = some slot) (t : NodeId) (slot' : SlotState) :
    ∃ slot, Function.update x t (some slot') 0 = some slot := by
  rw [Function.update_apply]
  split
  · exact ⟨slot', rfl⟩
  · exact h

/-- A delivery leaves the counts of other slots. -/
private theorem counts_update {t : NodeId} {slot' : SlotState}
    (h : ∀ i ∈ live, ∀ slot, x i = some slot → Counts n i slot)
    (hc : t ∈ live → Counts n t slot') :
    ∀ i ∈ live, ∀ slot, Function.update x t (some slot') i = some slot → Counts n i slot := by
  intro i hi slot hs
  rw [Function.update_apply] at hs
  split at hs
  · rename_i ht
    obtain rfl := Option.some.inj hs
    exact ht ▸ hc (ht ▸ hi)
  · exact h i hi slot hs

/-- A `PrePrepare` reaches a node. -/
theorem next_prePrepare (hlive : Enough n lost live) {l : Letter Wave}
    (h : InWaves n live ⟨x, l :: q⟩) (hl : l.wave = .prePrepare) :
    InWaves n live ⟨Function.update x l.target (some (openSlot 0 0)),
      q ++ spread n .prepare l.target⟩ := by
  have hnone : x l.target = none := h.fresh l List.mem_cons_self hl
  have hout : ∀ l' ∈ spread n .prepare l.target, rank l' = rank l + 1 := by
    intro l' hl'
    rw [rank_of_mem_spread hl', rank, hl]
    rfl
  have hrest := (List.pairwise_cons.mp h.once).1
  refine ⟨h.waves.next hout, h.once_next hout, ?_, opened_update h.opened _ _, ?_,
    counts_update h.counts fun _ => counts_openSlot _⟩
  · intro l' hl' hw
    rcases List.mem_append.mp hl' with hl' | hl'
    · show Function.update x l.target _ l'.target = none
      rw [Function.update_of_ne (hrest l' hl' hl hw).symm]
      exact h.fresh l' (List.mem_cons_of_mem _ hl') hw
    · rw [(mem_spread.mp hl').1] at hw
      exact absurd hw (by simp)
  · refine h.duty.next (fun _ => ?_) (fun l' _ hd => ?_) (fun l' hw hdue => ?_)
    · refine ⟨openSlot 0 0, Function.update_self _ _ _, ?_⟩
      rw [hl]
      trivial
    · -- nothing was done at a node without a slot
      refine done_of_ne (fun ht => ?_) hd
      obtain ⟨slot, hs, _⟩ := hd
      rw [ht, hnone] at hs
      exact absurd hs (by simp)
    · by_cases ht : l'.sender = l.target
      · right
        cases hwave : l'.wave with
        | prePrepare =>
          -- the proposer has a slot from the start
          have hzero := hw.2.2.2 hwave
          obtain ⟨slot, h0⟩ := h.opened
          rw [← ht, hzero] at hnone
          exact absurd (h0.symm.trans hnone) (by simp)
        | prepare =>
          exact mem_spread.mpr ⟨hwave, ht, hlive.lt _ hw.2.1, fun h => hw.2.2.1 (ht.trans h.symm)⟩
        | commit =>
          simp only [Due, hwave, ht, Function.update_self, Option.some.injEq] at hdue
          obtain ⟨slot, rfl, hph⟩ := hdue
          exact absurd rfl hph
      · exact .inl (due_of_ne ht hdue)

/-- A vote reaches a node that has a slot. -/
theorem next_vote (hlive : Enough n lost live) {l : Letter Wave} {slot slot' : SlotState}
    {out : List (Letter Wave)} (h : InWaves n live ⟨x, l :: q⟩) (hl : l.wave ≠ .prePrepare)
    (hs : x l.target = some slot) (hout : ∀ l' ∈ out, rank l' = rank l + 1)
    (hm : Moves n l.target l.sender slot l.wave slot' out) :
    InWaves n live ⟨Function.update x l.target (some slot'), q ++ out⟩ := by
  -- a `Commit` finds a live node prepared, so it is not counted ahead of the `Prepare`s
  have hcommit : l.target ∈ live → l.wave = .commit → slot.phase ≠ .prePrepared := by
    intro ht hw
    obtain ⟨slot₀, hs₀, hph⟩ := h.ready hlive hl ht
    obtain rfl := Option.some.inj (hs.symm.trans hs₀)
    exact hph hw
  obtain ⟨hprePrepared, hprepared, _⟩ := hm.grows
  refine ⟨h.waves.next hout, h.once_next hout, ?_, opened_update h.opened _ _, ?_,
    counts_update h.counts fun ht => hm.counts (hcommit ht) (h.counts _ ht slot hs)⟩
  · intro l' hl' hw
    rcases List.mem_append.mp hl' with hl' | hl'
    · have hfresh := h.fresh l' (List.mem_cons_of_mem _ hl') hw
      have ht : l'.target ≠ l.target := fun ht => by
        rw [ht] at hfresh
        exact absurd (hs.symm.trans hfresh) (by simp)
      exact (Function.update_of_ne ht _ _).trans hfresh
    · have hrank := hout l' hl'
      rw [rank, hw] at hrank
      exact absurd hrank (Nat.succ_ne_zero _).symm
  · refine h.duty.next (fun hw => ?_) (fun l' hw hd => ?_) (fun l' hw hdue => ?_)
    · refine ⟨slot', Function.update_self _ _ _, ?_⟩
      cases hwave : l.wave with
      | prePrepare => exact absurd hwave hl
      | prepare => exact hm.counted.1 hwave
      | commit =>
        exact ⟨fun hph => hcommit hw.2.1 hwave (hprePrepared hph).1, hm.counted.2 hwave⟩
    · by_cases ht : l'.target = l.target
      · obtain ⟨slot₀, hs₀, hd⟩ := hd
        rw [ht] at hs₀
        obtain rfl := Option.some.inj (hs.symm.trans hs₀)
        refine ⟨slot', by rw [ht]; exact Function.update_self _ _ _, ?_⟩
        cases hwave : l'.wave with
        | prePrepare => trivial
        | prepare =>
          rw [hwave] at hd
          exact fun hph => (hprePrepared hph).2 (hd (hprePrepared hph).1)
        | commit =>
          rw [hwave] at hd
          refine ⟨fun hph => hd.1 (hprePrepared hph).1, fun hph => ?_⟩
          rcases hprepared hph with hold | ⟨hold, hsub⟩
          · exact absurd hold hd.1
          · exact hsub (hd.2 hold)
      · exact done_of_ne ht hd
    -- the node may have become prepared, and then it says so
    · by_cases ht : l'.sender = l.target
      · have hold : x l'.sender ≠ none := by
          rw [ht, show x l.target = some slot from hs]
          simp
        cases hwave : l'.wave with
        | prePrepare => exact .inl (by simp only [Due, hwave]; exact hold)
        | prepare => exact .inl (by simp only [Due, hwave]; exact hold)
        | commit =>
          simp only [Due, hwave, ht, Function.update_self, Option.some.injEq] at hdue
          obtain ⟨slot₀, rfl, hph⟩ := hdue
          rcases hm.told (hcommit (ht ▸ hw.1)) hph with hphase | rfl
          · exact .inl (by simp only [Due, hwave]; exact ⟨slot, by rw [ht]; exact hs, hphase⟩)
          · exact .inr (mem_spread.mpr
              ⟨hwave, ht, hlive.lt _ hw.2.1, fun h => hw.2.2.1 (ht.trans h.symm)⟩)
      · exact .inl (due_of_ne ht hdue)

/-- **Every delivery keeps the invariant.** -/
theorem next (hlive : Enough n lost live) {l : Letter Wave} (h : InWaves n live ⟨x, l :: q⟩) :
    InWaves n live ⟨(((program n).round lost).step x l).1,
      q ++ (((program n).round lost).step x l).2⟩ := by
  cases hlost : lost l with
  | true =>
    rw [step_of_lost _ _ hlost, List.append_nil]
    refine h.next_ignore fun hw => ?_
    exact absurd (hlost.symm.trans (hlive.heard l.wave l.sender hw.1 l.target hw.2.1)) (by simp)
  | false =>
    rw [step_of_not_lost _ _ hlost]
    show InWaves n live ⟨Function.update x l.target (handle n l.target (x l.target) l.wave _).1,
      q ++ (handle n l.target (x l.target) l.wave l.sender).2⟩
    by_cases hl : l.wave = .prePrepare
    · have hhandle : handle n l.target (x l.target) l.wave l.sender =
          (some (openSlot 0 0), spread n .prepare l.target) := by
        rw [hl]
        rfl
      rw [hhandle]
      exact h.next_prePrepare hlive hl
    · cases hs : x l.target with
      -- a vote without a slot is dropped, but no live node gets one so early
      | none =>
        rw [handle_none hl, List.append_nil]
        have hsame : Function.update x l.target none = x := by
          rw [← hs]
          exact Function.update_eq_self _ _
        rw [hsame]
        refine h.next_ignore fun hw => ?_
        obtain ⟨slot, hs', _⟩ := h.ready hlive hl hw.2.1
        exact absurd (hs.symm.trans hs') (by simp)
      | some slot =>
        obtain ⟨slot', out, hhandle, hm⟩ :=
          handle_some (n := n) (i := l.target) (r := l.sender) hl slot
        have hout : ∀ l' ∈ out, rank l' = rank l + 1 := by
          intro l' hl'
          have hmem : l' ∈ (handle n l.target (some slot) l.wave l.sender).2 := by
            rw [hhandle]
            exact hl'
          exact rank_of_mem_handle hmem
        rw [hhandle]
        exact h.next_vote hlive hl hs hout hm

end InWaves

/-- **The round stays in waves.** -/
theorem inWaves (hlive : Enough n lost live) (t : ℕ) :
    InWaves n live (((program n).round lost).solo t) :=
  Round.solo_induct (inWaves_start hlive) (fun _ _ _ h => h.next hlive) t

/-- The slot is there, and committed. -/
def Finished : Option SlotState → Prop := Ended fun slot => slot.phase = .committed

/-- A committed slot stays committed. -/
theorem finished_mono (hlive : Enough n lost live) (i : NodeId) (t t' : ℕ) (h : t ≤ t')
    (ht : Finished ((((program n).round lost).solo t).state i)) :
    Finished ((((program n).round lost).solo t').state i) := by
  refine slot_mono i (fun u l hl hi hd => ?_) h ht
  obtain ⟨slot, hs, hph⟩ := hd
  have hvote : l.wave ≠ .prePrepare := by
    intro hw
    have hfresh := (inWaves hlive u).fresh l hl hw
    rw [hi] at hfresh
    exact absurd (hs.symm.trans hfresh) (by simp)
  obtain ⟨slot', out, hhandle, hm⟩ := handle_some (n := n) (i := i) (r := l.sender) hvote slot
  rw [hs]
  show Finished (handle n i (some slot) l.wave l.sender).1
  rw [hhandle]
  exact ⟨slot', rfl, hm.grows.2.2 hph⟩

/-- **When nothing is left** the slots of the live nodes are committed. -/
theorem finished_of_drained (hlive : Enough n lost live) {t : ℕ}
    (hq : (((program n).round lost).solo t).queue = []) :
    ∀ i ∈ live, Finished ((((program n).round lost).solo t).state i) := by
  have h := inWaves hlive t
  generalize ((program n).round lost).solo t = c at hq h ⊢
  obtain ⟨x, queue⟩ := c
  obtain rfl : queue = [] := hq
  exact h.all_committed hlive

end Pbft

end ConsensusBench
