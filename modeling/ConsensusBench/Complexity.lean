import ConsensusBench.Pbft.Fifo
import ConsensusBench.HotStuff.Fifo
import ConsensusBench.Raft.Fifo
import Mathlib.Tactic.Ring

namespace ConsensusBench

/-!
# Message complexity

How many messages a fault-free cluster sends for a proposal, exactly.  In PBFT and HotStuff the
slot of a node says how many messages the node has sent about its sequence, so the slots of a round
account for its letters.  In Raft every pending message says how many more there are to come of it.

* `Pbft.accounts`, `HotStuff.accounts` — the slots keep account.  In HotStuff this needs that no
  replica gets a certificate twice (`HotStuff.Unheard`).
* `Raft.debt` — a message on the way to a follower stands for two, one on the way back for itself.
* `Pbft.costs_all`, `HotStuff.costs_all`, `Raft.costs_all` — so the cost of a run is known.
* `message_complexity` — the counts, and when HotStuff is cheaper than PBFT.
-/

open Pipeline

/-! ### No faults -/

/-- The configuration of a new cluster. -/
def faultFree (rng : ℕ → ℚ) : NetworkFaults := { rng := rng }

variable {rng : ℕ → ℚ}

/-- Without faults no node is faulty. -/
theorem confined_faultFree : (faultFree rng).ConfinedTo ∅ where
  dropRate := rfl
  partitions := rfl
  isolated i hi := absurd hi (by simp [faultFree, NetworkFaults.isIsolated])
  byzantine i hi := absurd hi (by simp [faultFree, FaultConfig.isByzantine])

/-- Without faults no letter is lost. -/
theorem lost_faultFree {W : Type} (phase : W → MessagePhase) (l : Letter W) :
    lost (faultFree rng) phase l = false := by
  have hfree : ∀ i, (faultFree rng).isIsolated i = false := fun i => rfl
  have hhonest : (faultFree rng).isByzantine l.sender = false := rfl
  rw [lost, hfree, hfree, FaultConfig.dropsPhase, FaultConfig.behaviors_eq_nil _ hhonest]
  rfl

/-- Without faults there are enough live nodes. -/
theorem enough_faultFree {W : Type} {n : ℕ} (hn : 2 ≤ n) (phase : W → MessagePhase) :
    Enough n (lost (faultFree rng) phase) (Finset.range n \ ∅) :=
  enough hn (Nat.zero_le _) (Finset.notMem_empty 0) confined_faultFree phase

/-- Without faults every node is live. -/
theorem mem_live {n : ℕ} {i : NodeId} (hi : i < n) : i ∈ Finset.range n \ ∅ :=
  Finset.mem_sdiff.mpr ⟨Finset.mem_range.mpr hi, Finset.notMem_empty i⟩

/-! ### PBFT -/

namespace Pbft

/-- What node `i` has sent about a sequence: a `Prepare`, as the primary a `PrePrepare`, too, and a
    `Commit` if it was prepared. -/
def sentFor (n : ℕ) (i : NodeId) : Option SlotState → ℕ
  | none => 0
  | some slot => (if i = 0 then 2 * (n - 1) else n - 1) +
      if slot.phase = .prePrepared then 0 else n - 1

variable {n : ℕ} {lost : Letter Wave → Bool} {live : Finset NodeId}

theorem target_lt (t : ℕ) :
    ∀ l ∈ (((program n).round lost).solo t).queue, l.target < n := by
  refine members (fun l hl => ?_) (fun i _ o wave r l hl => ?_) t
  · rcases List.mem_append.mp hl with hl | hl
    · exact (mem_spread.mp hl).2.2.1
    · exact (mem_spread.mp hl).2.2.1
  · have hall : ∀ wave, l ∈ spread n wave i → l.target < n := fun wave h => (mem_spread.mp h).2.2.1
    change l ∈ (handle n i o wave r).2 at hl
    unfold handle at hl
    split at hl
    · exact hall _ hl
    · exact absurd hl (by simp)
    · split_ifs at hl
      · exact hall _ hl
      · exact absurd hl (by simp)
      · exact absurd hl (by simp)
    · split_ifs at hl
      · exact absurd hl (by simp)
      · exact absurd hl (by simp)
      · exact absurd hl (by simp)

/-- A vote takes a slot on only together with the letters that this accounts for. -/
theorem Moves.sentFor {i r : NodeId} {slot slot' : SlotState} {wave : Wave}
    {out : List (Letter Wave)} (h : Moves n i r slot wave slot' out) (hi : i < n)
    (hw : wave = .commit → slot.phase ≠ .prePrepared) :
    Pbft.sentFor n i (some slot') = Pbft.sentFor n i (some slot) + out.length := by
  cases h with
  | late => rfl
  | countPrepare => rfl
  | prepare hph =>
    have hprepared : ((slot.addPrepare r).toPrepared i).phase ≠ .prePrepared := by
      simp [SlotState.toPrepared]
    rw [Pbft.sentFor, Pbft.sentFor, if_neg hprepared, if_pos hph, length_spread hi, Nat.add_assoc,
      Nat.zero_add]
  | countCommit => rfl
  | commit =>
    have hcommitted : ({ slot.addCommit r with phase := .committed } : SlotState).phase ≠
        .prePrepared := by simp
    rw [Pbft.sentFor, Pbft.sentFor, if_neg hcommitted, if_neg (hw rfl)]
    rfl

/-- **The slots keep account** of what was sent. -/
theorem accounts (hn : 2 ≤ n) (hlive : Enough n lost (Finset.range n \ ∅))
    (hlost : ∀ l, lost l = false) :
    ((program n).round lost).Accounts (tallyUp n (sentFor n)) := by
  have hpos : 1 ≤ n := Nat.le_of_succ_le hn
  refine ConsensusBench.accounts hpos (fun i _ => rfl) ?_ fun t x l q hc => ?_
  · show 2 * (n - 1) + 0 = (spread n Wave.prePrepare 0 ++ spread n Wave.prepare 0).length
    rw [List.length_append, length_spread hpos, length_spread hpos, Nat.add_zero, Nat.two_mul]
  · have ht := target_lt t l (by rw [hc]; exact List.mem_cons_self)
    have h := inWaves hlive t
    rw [hc] at h
    refine ⟨ht, hlost l, ?_⟩
    show sentFor n l.target (handle n l.target (x l.target) l.wave l.sender).1 =
      sentFor n l.target (x l.target) + (handle n l.target (x l.target) l.wave l.sender).2.length
    by_cases hw : l.wave = .prePrepare
    · have hfresh : x l.target = none := h.fresh l List.mem_cons_self hw
      have hne : l.target ≠ 0 := by
        intro hzero
        obtain ⟨slot, hs⟩ := h.opened
        rw [hzero] at hfresh
        exact absurd (hfresh.symm.trans hs) (by simp)
      rw [hfresh, hw]
      show (if l.target = 0 then 2 * (n - 1) else n - 1) + 0 =
        0 + (spread n Wave.prepare l.target).length
      rw [if_neg hne, length_spread ht, Nat.add_comm]
    · obtain ⟨slot, hs, hcommit⟩ := h.ready hlive hw (mem_live ht)
      obtain ⟨slot', out, hhandle, hm⟩ :=
        handle_some (n := n) (i := l.target) (r := l.sender) hw slot
      rw [hs, hhandle]
      exact hm.sentFor ht hcommit

/-- What a sequence costs that is committed everywhere. -/
theorem cost_of_drained (hn : 2 ≤ n) (hlive : Enough n lost (Finset.range n \ ∅)) (t : ℕ)
    (hq : (((program n).round lost).solo t).queue = []) :
    tallyUp n (sentFor n) (((program n).round lost).solo t).state = (n - 1) * (2 * n + 1) := by
  have hpos : 1 ≤ n := Nat.le_of_succ_le hn
  have hall : ∀ i < n, sentFor n i ((((program n).round lost).solo t).state i) =
      (if i = 0 then 2 * (n - 1) else n - 1) + (n - 1) := by
    intro i hi
    obtain ⟨slot, hs, hph⟩ := finished_of_drained hlive hq i (mem_live hi)
    have hne : slot.phase ≠ .prePrepared := by
      rw [hph]
      simp
    rw [hs, sentFor, if_neg hne]
  rw [tallyUp_eq hpos (hall 0 hpos) fun i hi hne => by rw [hall i hi, if_neg hne], if_pos rfl]
  obtain ⟨m, rfl⟩ := Nat.exists_eq_add_of_le hpos
  rw [Nat.add_sub_cancel_left]
  ring

end Pbft

/-! ### HotStuff -/

namespace HotStuff

/-- What node `i` has sent about a sequence: the leader a broadcast for every level, a replica a
    vote for every level but the last. -/
def sentFor (n : ℕ) (i : NodeId) (o : Option SlotState) : ℕ :=
  if i = 0 then (n - 1) * level o else min (level o) 3

/-- No replica has heard of a certificate that is on its way to it, and it is on its way once. -/
structure Unheard (c : Solo Slots (Letter Wave)) : Prop where
  bounded : ∀ i, level (c.state i) ≤ level (c.state 0)
  behind : ∀ l ∈ c.queue, ∀ t, l.wave = .certificate t →
    level (c.state l.target) ≤ phaseOrd t + 1
  once : ∀ t, c.queue.Pairwise fun l l' =>
    l.wave = .certificate t → l'.wave = .certificate t → l.target ≠ l'.target

variable {n : ℕ} {lost : Letter Wave → Bool} {live : Finset NodeId} {x : Slots}
variable {l : Letter Wave} {q out : List (Letter Wave)}

theorem target_lt (hn : 1 ≤ n) (t : ℕ) :
    ∀ l ∈ (((program n).round lost).solo t).queue, l.target < n := by
  refine members (fun l hl => (mem_spread.mp hl).2.2.1) (fun i _ o wave r l hl => ?_) t
  change l ∈ (handle n i o wave r).2 at hl
  cases wave with
  | propose =>
    rw [List.mem_singleton.mp hl]
    exact hn
  | vote t =>
    change l ∈ (tally n i o t r).2 at hl
    unfold tally at hl
    split at hl
    · exact absurd hl (by simp)
    · split_ifs at hl
      · exact absurd hl (by simp)
      · exact (mem_spread.mp hl).2.2.1
      · exact absurd hl (by simp)
  | certificate t =>
    obtain ⟨t', _, rfl⟩ := Option.map_eq_some_iff.mp (Option.mem_toList.mp hl)
    exact hn

/-- Nobody has heard of a proposal before it is sent. -/
theorem unheard_start :
    Unheard ⟨((program n).round lost).start, ((program n).round lost).opening⟩ where
  bounded i := by
    by_cases hi : i = 0
    · rw [hi]
    · have hnone : ((program n).round lost).start i = none := start_of_ne (program n) lost hi
      show level (((program n).round lost).start i) ≤ _
      rw [hnone]
      exact Nat.zero_le _
  behind l hl t ht := by
    rw [(mem_spread.mp hl).1] at ht
    exact absurd ht (by simp)
  once t := List.pairwise_of_forall_mem_list fun l hl _ _ ht => by
    rw [(mem_spread.mp hl).1] at ht
    exact absurd ht (by simp)

namespace Unheard

/-- A letter reaches a replica, which answers with votes. -/
theorem next_replica (h : Unheard ⟨x, l :: q⟩) (ht : l.target ≠ 0) {o : Option SlotState}
    (hle : level o ≤ level (x 0)) (hbehind : ∀ l' ∈ q, ∀ t, l'.wave = .certificate t →
      l'.target = l.target → level o ≤ phaseOrd t + 1)
    (hout : ∀ l' ∈ out, ∀ t, l'.wave ≠ .certificate t) :
    Unheard ⟨Function.update x l.target o, q ++ out⟩ where
  bounded i := by
    show level (Function.update x l.target o i) ≤ level (Function.update x l.target o 0)
    rw [Function.update_of_ne (Ne.symm ht), Function.update_apply]
    split
    · exact hle
    · exact h.bounded i
  behind l' hl' t hw := by
    show level (Function.update x l.target o l'.target) ≤ phaseOrd t + 1
    rcases List.mem_append.mp hl' with hl' | hl'
    · rw [Function.update_apply]
      split
      · rename_i heq
        exact hbehind l' hl' t hw heq
      · exact h.behind l' (List.mem_cons_of_mem _ hl') t hw
    · exact absurd hw (hout l' hl' t)
  once t := once_append (h.once t) fun l' hl' => hout l' hl' t

/-- A vote reaches the leader. -/
theorem next_leader (h : Unheard ⟨x, l :: q⟩) (hwaves : InWaves n live ⟨x, l :: q⟩)
    {t : HotStuffPhaseTag} {slot slot' : SlotState} (hs : x 0 = some slot)
    (hm : Tallies n l.sender slot t slot' out) :
    Unheard ⟨Function.update x 0 (some slot'), q ++ out⟩ := by
  have hself : level (x 0) ≤ level (some slot') := by
    rw [hs]
    exact hm.grows.level_le
  have hlevel : ∀ i, level (x i) ≤ level (some slot') := fun i => (h.bounded i).trans hself
  refine ⟨fun i => ?_, fun l' hl' t' hw => ?_, fun t' => ?_⟩
  · show level (Function.update x 0 (some slot') i) ≤ level (Function.update x 0 (some slot') 0)
    rw [Function.update_self, Function.update_apply]
    split
    · exact le_rfl
    · exact hlevel i
  · show level (Function.update x 0 (some slot') l'.target) ≤ phaseOrd t' + 1
    rcases List.mem_append.mp hl' with hold | hnew
    · have hshape := hwaves.shape l' (List.mem_cons_of_mem _ hold)
      rw [hw] at hshape
      rw [Function.update_of_ne hshape.2]
      exact h.behind l' (List.mem_cons_of_mem _ hold) t' hw
    -- the leader was at most as far as the certificate asks for
    · cases hm with
      | late => exact absurd hnew (by simp)
      | count => exact absurd hnew (by simp)
      | certify hph =>
        obtain ⟨hwave, _, _, hne⟩ := mem_spread.mp hnew
        obtain rfl : t = t' := Wave.certificate.inj (hwave.symm.trans hw)
        rw [Function.update_of_ne hne]
        refine (h.bounded l'.target).trans ?_
        show level (x 0) ≤ phaseOrd t + 1
        rw [hs, level, hph, level_stage]
  · cases hm with
    | late => exact once_append (h.once t') fun l' hl' => absurd hl' (by simp)
    | count => exact once_append (h.once t') fun l' hl' => absurd hl' (by simp)
    | certify hph =>
      by_cases hne : t = t'
      · subst hne
        -- no earlier certificate of this tag can be in the queue
        refine List.pairwise_append.mpr ⟨(List.pairwise_cons.mp (h.once t)).2, ?_, ?_⟩
        · exact List.pairwise_map.mpr ((nodup_peerIds 0 n).imp fun h _ _ => h)
        · intro l' hl' _ _ hw _
          have hsent := hwaves.sent l' (List.mem_cons_of_mem _ hl')
          change l'.wave.need ≤ level (x 0) at hsent
          rw [hw, hs, level, hph, level_stage] at hsent
          exact absurd hsent (Nat.not_succ_le_self _)
      · refine once_append (h.once t') fun l' hl' hw => hne ?_
        rw [(mem_spread.mp hl').1] at hw
        exact Wave.certificate.inj hw

/-- **Every delivery keeps it so.** -/
theorem next (hlost : ∀ l, lost l = false) (hwaves : InWaves n live ⟨x, l :: q⟩)
    (h : Unheard ⟨x, l :: q⟩) :
    Unheard ⟨(((program n).round lost).step x l).1,
      q ++ (((program n).round lost).step x l).2⟩ := by
  rw [step_of_not_lost _ _ (hlost l)]
  show Unheard ⟨Function.update x l.target (handle n l.target (x l.target) l.wave _).1,
    q ++ (handle n l.target (x l.target) l.wave l.sender).2⟩
  have hshape := hwaves.shape l List.mem_cons_self
  have hsent : l.wave.need ≤ level (x 0) := hwaves.sent l List.mem_cons_self
  cases hl : l.wave with
  | propose =>
    rw [hl] at hshape
    refine h.next_replica hshape.2 hwaves.one_le_level (fun l' _ t _ _ => ?_) fun l' hl' t => ?_
    · exact Nat.le_add_left 1 (phaseOrd t)
    · rw [List.mem_singleton.mp hl']
      simp
  | vote t =>
    rw [hl] at hshape
    obtain ⟨slot, hs, _⟩ := hwaves.leader
    have hs : x 0 = some slot := hs
    obtain ⟨slot', out, htally, hm⟩ := tally_zero n slot t l.sender
    rw [hshape.1, hs, handle, htally]
    exact h.next_leader hwaves hs hm
  | certificate t =>
    rw [hl] at hshape hsent
    change phaseOrd t + 2 ≤ level (x 0) at hsent
    -- no certificate takes a replica further than one level behind its tag
    have hfollow : level ((x l.target).map fun slot => slot.follow t) ≤
        max (level (x l.target)) (phaseOrd t + 2) := by
      cases hs : x l.target with
      | none => exact Nat.zero_le _
      | some slot =>
        show (slot.follow t).phase.level ≤ _
        rw [level_follow]
        split
        · exact Nat.le_max_right _ _
        · exact Nat.le_max_left _ _
    refine h.next_replica hshape.2 (hfollow.trans (max_le (h.bounded _) hsent))
      (fun l' hl' t' hw heq => hfollow.trans (max_le ?_ ?_)) fun l' hl' t' => ?_
    · have hold := h.behind l' (List.mem_cons_of_mem _ hl') t' hw
      rw [heq] at hold
      exact hold
    · have hrank := hwaves.waves.le_of_mem l' (List.mem_cons_of_mem _ hl')
      rw [rank, rank, hl, hw] at hrank
      have hle : phaseOrd t ≤ phaseOrd t' := by
        change 2 * phaseOrd t + 2 ≤ 2 * phaseOrd t' + 2 at hrank
        omega
      have hne : phaseOrd t ≠ phaseOrd t' := by
        intro hord
        obtain rfl := phaseOrd_injective hord
        exact (List.pairwise_cons.mp (h.once t)).1 l' hl' hl hw heq.symm
      omega
    · obtain ⟨t'', _, rfl⟩ := Option.map_eq_some_iff.mp (Option.mem_toList.mp hl')
      simp

end Unheard

/-- **In no run** does a replica get a certificate twice. -/
theorem unheard (hlive : Enough n lost live) (hlost : ∀ l, lost l = false) (t : ℕ) :
    Unheard (((program n).round lost).solo t) := by
  refine (Round.solo_induct (I := fun c => InWaves n live c ∧ Unheard c)
    ⟨inWaves_start hlive, unheard_start⟩ (fun x l q ⟨hwaves, h⟩ => ?_) t).2
  exact ⟨hwaves.next hlive, h.next hlost hwaves⟩

/-- The leader gets a level up only together with the broadcast that this accounts for. -/
theorem Tallies.sentFor {slot slot' : SlotState} {t : HotStuffPhaseTag} {r : NodeId}
    (hn : 1 ≤ n) (h : Tallies n r slot t slot' out) :
    HotStuff.sentFor n 0 (some slot') = HotStuff.sentFor n 0 (some slot) + out.length := by
  cases h with
  | late => rfl
  | count =>
    rw [HotStuff.sentFor, HotStuff.sentFor, level, phase_addVote]
    rfl
  | certify hph =>
    have hold : level (some slot) = phaseOrd t + 1 := by rw [level, hph, level_stage]
    have hnew : level (some ((slot.addVote r t).certify 0 t)) = phaseOrd t + 1 + 1 := by
      rw [level, phase_certify, level_after]
    rw [HotStuff.sentFor, HotStuff.sentFor, if_pos rfl, if_pos rfl, hold, hnew, length_spread hn,
      Nat.mul_succ]

/-- A replica gets a level up only together with the vote that this accounts for, if it is behind
    the certificate. -/
theorem sentFor_follow {i : NodeId} (hi : i ≠ 0) {o : Option SlotState} {t : HotStuffPhaseTag}
    (hlevel : level o = phaseOrd t + 1) :
    sentFor n i (o.map fun slot => slot.follow t) = sentFor n i o + (nextVote i t).length := by
  have hfollow : level (o.map fun slot => slot.follow t) = phaseOrd t + 2 := by
    cases o with
    | none => exact absurd hlevel (Nat.succ_ne_zero _).symm
    | some slot =>
      show (slot.follow t).phase.level = _
      rw [level_follow, if_pos (.inl hlevel)]
  rw [sentFor, sentFor, if_neg hi, if_neg hi, hfollow, hlevel]
  -- the last certificate asks for no vote
  cases t with
  | prepare => rfl
  | preCommit => rfl
  | commit => rfl

/-- **The slots keep account** of what was sent. -/
theorem accounts (hn : 2 ≤ n) (hlive : Enough n lost (Finset.range n \ ∅))
    (hlost : ∀ l, lost l = false) :
    ((program n).round lost).Accounts (tallyUp n (sentFor n)) := by
  have hpos : 1 ≤ n := Nat.le_of_succ_le hn
  refine ConsensusBench.accounts hpos (fun i hi => ?_) ?_ fun t x l q hc => ?_
  · rw [sentFor, if_neg hi]
    rfl
  · show (n - 1) * 1 = (spread n Wave.propose 0).length
    rw [length_spread hpos, Nat.mul_one]
  · have ht := target_lt hpos t l (by rw [hc]; exact List.mem_cons_self)
    have hwaves := inWaves hlive t
    have hunheard := unheard hlive hlost t
    rw [hc] at hwaves hunheard
    refine ⟨ht, hlost l, ?_⟩
    show sentFor n l.target (handle n l.target (x l.target) l.wave l.sender).1 =
      sentFor n l.target (x l.target) + (handle n l.target (x l.target) l.wave l.sender).2.length
    have hshape := hwaves.shape l List.mem_cons_self
    cases hl : l.wave with
    | propose =>
      rw [hl] at hshape
      have hfresh : x l.target = none := hwaves.fresh l List.mem_cons_self hl
      rw [hfresh, sentFor, sentFor, if_neg hshape.2, if_neg hshape.2]
      rfl
    | vote t' =>
      rw [hl] at hshape
      obtain ⟨slot, hs, _⟩ := hwaves.leader
      obtain ⟨slot', out, htally, hm⟩ := tally_zero n slot t' l.sender
      rw [hshape.1, show x 0 = some slot from hs, handle, htally]
      exact hm.sentFor hpos
    | certificate t' =>
      rw [hl] at hshape
      -- the replica waits for this certificate, and is not behind it yet
      have hready := hwaves.ready hlive hl (mem_live ht)
      have hbehind := hunheard.behind l List.mem_cons_self t' hl
      exact sentFor_follow hshape.2 (le_antisymm hbehind hready)

/-- What a sequence costs that is decided everywhere. -/
theorem cost_of_drained (hn : 2 ≤ n) (hlive : Enough n lost (Finset.range n \ ∅)) (t : ℕ)
    (hq : (((program n).round lost).solo t).queue = []) :
    tallyUp n (sentFor n) (((program n).round lost).solo t).state = 7 * (n - 1) := by
  have hpos : 1 ≤ n := Nat.le_of_succ_le hn
  have hlevel : ∀ i < n, level ((((program n).round lost).solo t).state i) = 4 := by
    intro i hi
    obtain ⟨slot, hs, hph⟩ := finished_of_drained hlive hq i (mem_live hi)
    rw [hs, level, hph]
    rfl
  have hzero : sentFor n 0 ((((program n).round lost).solo t).state 0) = (n - 1) * 4 := by
    rw [sentFor, if_pos rfl, hlevel 0 hpos]
  have hothers : ∀ i < n, i ≠ 0 → sentFor n i ((((program n).round lost).solo t).state i) = 3 := by
    intro i hi hne
    rw [sentFor, if_neg hne, hlevel i hi]
    rfl
  rw [tallyUp_eq hpos hzero hothers, ← Nat.mul_add, Nat.mul_comm]

end HotStuff

/-! ### Raft -/

namespace Raft

/-- How many messages there are to come of those on the way, themselves included. -/
def debt (q : List NetworkMessage) : ℕ := (q.map fun m => 2 - hops m).sum

/-- The debts of two queues add up. -/
theorem debt_append (q q' : List NetworkMessage) : debt (q ++ q') = debt q + debt q' := by
  rw [debt, List.map_append, List.sum_append]
  rfl

/-- A message adds what is to come of it. -/
theorem debt_cons (m : NetworkMessage) (q : List NetworkMessage) :
    debt (m :: q) = 2 - hops m + debt q := by
  rw [debt, List.map_cons, List.sum_cons]
  rfl

variable {n : ℕ} {faults : NetworkFaults} {ps : List Payload} {nodes : NodeId → RaftState}
variable {a b : NodeId → ℕ} {m : NetworkMessage} {q : List NetworkMessage}

/-- A broadcast of the log takes two messages for every peer. -/
theorem debt_feeds (hn : 0 < n) (lc : ℕ) :
    debt ((peerIds 0 n).map fun j => feed ps (a j) lc j) = (n - 1) * 2 := by
  have htwo : ((fun m => 2 - hops m) ∘ fun j => feed ps (a j) lc j) = fun _ => 2 := by
    funext j
    rfl
  rw [debt, List.map_map, htwo, List.map_const', List.sum_replicate_nat, length_peerIds hn]

/-- Every delivery pays one message of what there is to come. -/
theorem Delivered.debt {nodes' : NodeId → RaftState} {out : List NetworkMessage}
    (h : Delivered faults ps nodes m nodes' out) (hfree : ∀ i, faults.isIsolated i = false) :
    2 - Raft.hops m = Raft.debt out + 1 := by
  cases h with
  | lost m hiso =>
    rw [hfree, hfree] at hiso
    exact absurd hiso (by simp)
  | append => rfl
  | hear => rfl

variable [Sha256]

/-- **What the proposals cost**: two messages for every peer. -/
theorem costs_all (hn : 2 ≤ n) (rngs : NodeId → StdRng) (rng : ℕ → ℚ) (calls : List ClusterCall)
    (hcalls : .tick ∉ calls) :
    ∃ results c, (newClusterWithLeader n rngs rng).run (code n) calls = some (results, c) ∧
      (c.pending = [] →
        c.stats.messagesSent = (Cluster.proposals calls).length * ((n - 1) * 2)) := by
  have hpos : 0 < n := Nat.lt_of_lt_of_le Nat.zero_lt_two hn
  obtain ⟨results, c, hrun, _, _, _, htotal⟩ := Cluster.run_counted (code n)
    (I := fun ps nodes q k => (∃ a b, Streams n (faultFree rng) ps a b nodes q) ∧
      k + debt q = ps.length * ((n - 1) * 2))
    hpos confined_faultFree.toLossless rfl
    (fun ps nodes q k p ⟨⟨a, b, h⟩, htotal⟩ => by
      obtain ⟨st, out, hacc, ⟨lc, hout⟩, _, hnew⟩ := h.propose hn p
      refine ⟨st, out, hacc, ⟨a, b, hnew⟩, ?_⟩
      have hbroadcast : debt out = (n - 1) * 2 := by rw [hout, debt_feeds hpos]
      rw [debt_append, hbroadcast, ← Nat.add_assoc, htotal, List.length_append,
        List.length_singleton, Nat.succ_mul])
    (fun ps nodes m q k ⟨⟨a, b, h⟩, htotal⟩ => by
      obtain ⟨nodes', out, hr, hdel, hnew⟩ := h.receive (fun _ => rfl) rfl
      refine ⟨nodes', out, hr, hnew, ?_⟩
      rw [debt_cons, hdel.debt fun _ => rfl] at htotal
      rw [debt_append, ← htotal]
      omega)
    calls hcalls [] (newClusterWithLeader n rngs rng) rfl rfl
    ⟨⟨_, _, streams_start n _ rngs rng⟩, (Nat.zero_mul _).symm⟩
  refine ⟨results, c, hrun, fun hempty => ?_⟩
  rw [hempty, List.nil_append] at htotal
  exact htotal

end Raft

/-! ### All three -/

section All

variable [Sha256]

/-- **PBFT sends `(n - 1)(2n + 1)` messages** for each proposal. -/
theorem Pbft.costs_all {n : ℕ} (hn : 2 ≤ n) (rng : ℕ → ℚ) (calls : List ClusterCall)
    (hcalls : .tick ∉ calls) :
    ∃ results c, (Pbft.newCluster n rng).run (Pbft.code n) calls = some (results, c) ∧
      (c.pending = [] →
        c.stats.messagesSent = (Cluster.proposals calls).length * ((n - 1) * (2 * n + 1))) := by
  have hlive : Enough n (lost (faultFree rng) Pbft.Wave.messagePhase) (Finset.range n \ ∅) :=
    enough_faultFree hn _
  have horderly : (Pbft.normalCase n).Orderly (faultFree rng) :=
    ⟨fun t => (Pbft.inWaves hlive t).fresh, Pbft.finished_mono hlive⟩
  exact NormalCase.costs_all horderly (Nat.le_of_succ_le hn) confined_faultFree
    (Finset.notMem_empty 0) (Pbft.accounts hn hlive (lost_faultFree _))
    (fun t hq => Pbft.cost_of_drained hn hlive t hq) rng calls hcalls

/-- **HotStuff sends `7(n - 1)` messages** for each proposal. -/
theorem HotStuff.costs_all {n : ℕ} (hn : 2 ≤ n) (rng : ℕ → ℚ) (calls : List ClusterCall)
    (hcalls : .tick ∉ calls) :
    ∃ results c, (HotStuff.newCluster n rng).run (HotStuff.code n) calls = some (results, c) ∧
      (c.pending = [] →
        c.stats.messagesSent = (Cluster.proposals calls).length * (7 * (n - 1))) := by
  have hlive : Enough n (lost (faultFree rng) HotStuff.Wave.messagePhase) (Finset.range n \ ∅) :=
    enough_faultFree hn _
  have horderly : (HotStuff.normalCase n).Orderly (faultFree rng) :=
    ⟨fun t => (HotStuff.inWaves hlive t).fresh, HotStuff.finished_mono hlive⟩
  exact NormalCase.costs_all horderly (Nat.le_of_succ_le hn) confined_faultFree
    (Finset.notMem_empty 0) (HotStuff.accounts hn hlive (lost_faultFree _))
    (fun t hq => HotStuff.cost_of_drained hn hlive t hq) rng calls hcalls

omit [Sha256] in
/-- A quadratic cost is the higher one from four nodes on. -/
theorem cost_lt_iff {n k : ℕ} (hn : 2 ≤ n) (hk : 1 ≤ k) :
    k * (7 * (n - 1)) < k * ((n - 1) * (2 * n + 1)) ↔ 4 ≤ n := by
  have hpos : 0 < n - 1 := Nat.sub_pos_of_lt hn
  rw [Nat.mul_lt_mul_left hk, Nat.mul_comm 7, Nat.mul_lt_mul_left hpos]
  omega

/-- **Message complexity** of proposals to a fault-free cluster. -/
theorem message_complexity (n : ℕ) (hn : 2 ≤ n) (rngs : NodeId → Raft.StdRng) (rng : ℕ → ℚ)
    (calls : List ClusterCall) (hcalls : .tick ∉ calls) :
    (∃ results c, (Pbft.newCluster n rng).run (Pbft.code n) calls = some (results, c) ∧
      (c.pending = [] →
        c.stats.messagesSent = (Cluster.proposals calls).length * (n - 1) * (2 * n + 1))) ∧
    (∃ results c, (HotStuff.newCluster n rng).run (HotStuff.code n) calls = some (results, c) ∧
      (c.pending = [] →
        c.stats.messagesSent = 7 * (Cluster.proposals calls).length * (n - 1))) ∧
    (∃ results c, (Raft.newClusterWithLeader n rngs rng).run (Raft.code n) calls =
        some (results, c) ∧
      (c.pending = [] →
        c.stats.messagesSent = 2 * (Cluster.proposals calls).length * (n - 1))) ∧
    ∀ calls', .tick ∉ calls' →
      (Cluster.proposals calls').length = (Cluster.proposals calls).length →
      1 ≤ (Cluster.proposals calls).length → ∀ results results' pbft hotStuff,
      (Pbft.newCluster n rng).run (Pbft.code n) calls = some (results, pbft) →
      (HotStuff.newCluster n rng).run (HotStuff.code n) calls' = some (results', hotStuff) →
      pbft.pending = [] → hotStuff.pending = [] →
      (hotStuff.stats.messagesSent < pbft.stats.messagesSent ↔ 4 ≤ n) := by
  refine ⟨?_, ?_, ?_, fun calls' hcalls' hlen hk results results' p h hp hh hempty hempty' => ?_⟩
  · obtain ⟨results, c, hrun, hcost⟩ := Pbft.costs_all hn rng calls hcalls
    refine ⟨results, c, hrun, fun hempty => ?_⟩
    rw [hcost hempty, Nat.mul_assoc]
  · obtain ⟨results, c, hrun, hcost⟩ := HotStuff.costs_all hn rng calls hcalls
    refine ⟨results, c, hrun, fun hempty => ?_⟩
    rw [hcost hempty, Nat.mul_left_comm, Nat.mul_assoc]
  · obtain ⟨results, c, hrun, hcost⟩ := Raft.costs_all hn rngs rng calls hcalls
    refine ⟨results, c, hrun, fun hempty => ?_⟩
    rw [hcost hempty, Nat.mul_comm (n - 1), Nat.mul_left_comm, Nat.mul_assoc]
  -- the two runs are the ones that were counted
  · obtain ⟨_, c, hrun, hcost⟩ := Pbft.costs_all hn rng calls hcalls
    obtain ⟨_, c', hrun', hcost'⟩ := HotStuff.costs_all hn rng calls' hcalls'
    obtain rfl : c = p := congrArg Prod.snd (Option.some.inj (hrun.symm.trans hp))
    obtain rfl : c' = h := congrArg Prod.snd (Option.some.inj (hrun'.symm.trans hh))
    rw [hcost hempty, hcost' hempty', hlen]
    exact cost_lt_iff hn hk

omit [Sha256] in
/-- Two proposals to four nodes: `54`, `42` and `12` messages. -/
theorem message_complexity_four : ∃ results p results' h results'' r,
    @Cluster.run _ (@Pbft.code Sha256.sample 4) Sha256.sample (Pbft.newCluster 4 fun _ => 0)
      HotStuff.overlapping = some (results, p) ∧ p.pending = [] ∧ p.stats.messagesSent = 54 ∧
    @Cluster.run _ (@HotStuff.code Sha256.sample 4) Sha256.sample (HotStuff.newCluster 4 fun _ => 0)
      HotStuff.overlapping = some (results', h) ∧ h.pending = [] ∧ h.stats.messagesSent = 42 ∧
    @Cluster.run _ (Raft.code 4) Sha256.sample
      (Raft.newClusterWithLeader 4 (fun _ => ⟨fun _ => 0⟩) fun _ => 0)
      HotStuff.overlapping = some (results'', r) ∧ r.pending = [] ∧ r.stats.messagesSent = 12 ∧
    h.stats.messagesSent < p.stats.messagesSent := by
  obtain ⟨⟨results, p, hp, hpcost⟩, ⟨results', h, hh, hhcost⟩, ⟨results'', r, hr, hrcost⟩, hless⟩ :=
    @message_complexity Sha256.sample 4 (by decide) (fun _ => ⟨fun _ => 0⟩) (fun _ => 0)
      HotStuff.overlapping (by decide)
  have hpempty : (@Cluster.run _ (@Pbft.code Sha256.sample 4) Sha256.sample
      (Pbft.newCluster 4 fun _ => 0) HotStuff.overlapping).map
        (fun r => r.2.pending) = some [] := by
    decide +kernel
  have hhempty : (@Cluster.run _ (@HotStuff.code Sha256.sample 4) Sha256.sample
      (HotStuff.newCluster 4 fun _ => 0) HotStuff.overlapping).map
        (fun r => r.2.pending) = some [] := by
    decide +kernel
  have hrempty : (@Cluster.run _ (Raft.code 4) Sha256.sample
      (Raft.newClusterWithLeader 4 (fun _ => ⟨fun _ => 0⟩) fun _ => 0) HotStuff.overlapping).map
        (fun r => r.2.pending) = some [] := by
    decide +kernel
  rw [hp, Option.map_some, Option.some.injEq] at hpempty
  rw [hh, Option.map_some, Option.some.injEq] at hhempty
  rw [hr, Option.map_some, Option.some.injEq] at hrempty
  exact ⟨results, p, results', h, results'', r, hp, hpempty, hpcost hpempty, hh, hhempty,
    hhcost hhempty, hr, hrempty, hrcost hrempty, (hless HotStuff.overlapping (by decide) rfl
      (by decide) results results' p h hp hh hpempty hhempty).mpr le_rfl⟩

end All

end ConsensusBench
