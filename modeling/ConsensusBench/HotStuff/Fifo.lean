import ConsensusBench.HotStuff.Certificate
import ConsensusBench.HotStuff.Round

namespace ConsensusBench

/-!
# HotStuff under the orchestrator

A cluster that is driven by `propose` and `step` stays in view `0`, and what its nodes hold is the
rounds of the sequences proposed so far, on the queue of the cluster.  Votes are the only messages
that backups send, and of those the digest is not looked at.

* `Content`, `Holds` — what a message and the state of a node are in terms of the rounds.
* `Holds.handle` — the handlers do to one sequence what the slot program does, and commit the
  sequences in order.
* `normalCase` — so HotStuff follows its slot program.
* `backups_decide_all` — all proposals are accepted, and when nothing is pending the nodes outside
  a faulty set of `f` have committed them.
-/

open Pipeline HotStuffNode

namespace HotStuff

variable [Sha256]

/-- The methods of HotStuff node `i` of `n`. -/
def code (n : ℕ) (i : NodeId) : ConsensusNode HotStuffState where
  propose := (node n i).propose
  handleMessage state msg := some ((node n i).handleMessage state msg)
  tick := (node n i).tick

/-- `Cluster::new_hotstuff`. -/
def newCluster (n : ℕ) (rng : ℕ → ℚ) : Cluster HotStuffState :=
  Cluster.new n (fun i => (HotStuffNode.new i n).2) rng

/-! ### Messages -/

/-- What a letter of sequence `s` says, up to its digest. -/
def Content (n : ℕ) (ps : List Payload) (s : SequenceNumber) (l : Letter Wave)
    (m : ProtocolMessage) : Prop :=
  match l.wave with
  | .propose => l.sender = 0 ∧
      ∃ d p jv jp, ps[s - 1]? = some p ∧ m = .hotStuff (.propose 0 s d p jv jp)
  | .vote t => ∃ d, m = .hotStuff (.vote 0 s d t l.sender)
  | .certificate t => l.sender = 0 ∧
      ∃ d vc, 2 * ((n - 1) / 3) + 1 ≤ vc ∧ m = .hotStuff (.quorumCertificate 0 s d t vc)

variable {n : ℕ} {ps : List Payload} {faults : NetworkFaults} {F : Finset NodeId}
variable {s : SequenceNumber} {l : Letter Wave}

omit [Sha256] in
/-- What a letter stands for is of the phase of its wave. -/
theorem Content.phase {m : ProtocolMessage} (h : Content n ps s l m) :
    messagePhase m = some l.wave.messagePhase := by
  unfold Content at h
  cases hw : l.wave with
  | propose =>
    rw [hw] at h
    obtain ⟨_, d, p, jv, jp, _, rfl⟩ := h
    rfl
  | vote t =>
    rw [hw] at h
    obtain ⟨d, rfl⟩ := h
    rfl
  | certificate t =>
    rw [hw] at h
    obtain ⟨_, d, vc, _, rfl⟩ := h
    rfl

/-- Messages say the same on the way, if node `0` is honest. -/
theorem Content.alter (cfg : FaultConfig) (h0 : cfg.isByzantine 0 = false) {m : NetworkMessage}
    (hs : m.sender = l.sender) (h : Content n ps s l m.payload) :
    Content n ps s l (cfg.alter m).payload := by
  have hleader : l.sender = 0 → cfg.alter m = m := fun hzero =>
    cfg.alter_of_honest (by rw [hs, hzero]; exact h0)
  unfold Content at h ⊢
  cases hw : l.wave with
  | propose =>
    rw [hw] at h
    rw [hleader h.1]
    exact h
  | certificate t =>
    rw [hw] at h
    rw [hleader h.1]
    exact h
  | vote t =>
    rw [hw] at h
    obtain ⟨d, hpay⟩ := h
    have hskel := cfg.alter_skeleton m
    rw [hpay] at hskel
    cases hm : (cfg.alter m).payload with
    | hotStuff y =>
      rw [hm] at hskel
      obtain ⟨d', rfl⟩ := vote_of_skeleton hskel.symm
      exact ⟨d', rfl⟩
    | raft y => rw [hm] at hskel; cases y <;> exact absurd hskel (by simp [FaultConfig.skeleton])
    | pbft y => rw [hm] at hskel; cases y <;> exact absurd hskel (by simp [FaultConfig.skeleton])

omit [Sha256] in
/-- More proposals do not change what messages say. -/
theorem Content.concat {m : ProtocolMessage} (p : Payload) (h : Content n ps s l m) :
    Content n (ps ++ [p]) s l m := by
  unfold Content at h ⊢
  cases hw : l.wave with
  | propose =>
    rw [hw] at h
    obtain ⟨hzero, d, p', jv, jp, hp, hm⟩ := h
    exact ⟨hzero, d, p', jv, jp,
      List.getElem?_append_left (List.getElem?_eq_some_iff.mp hp).1 ▸ hp, hm⟩
  | vote t =>
    rw [hw] at h
    exact h
  | certificate t =>
    rw [hw] at h
    exact h

omit [Sha256] in
/-- A vote goes to node `0`. -/
theorem shows_vote (hn : 0 < n) (i : NodeId) (d : Digest) (t : HotStuffPhaseTag) :
    List.Forall₂ (Shows n (Content n ps s))
      [(node n i).msgTo ((node n i).leaderForView 0) (.hotStuff (.vote 0 s d t i))]
      [⟨.vote t, i, 0⟩] :=
  .cons ⟨rfl, Nat.zero_mod n, hn, d, rfl⟩ .nil

/-! ### Nodes -/

/-- The state of a node, in terms of its slots `x` by sequence. -/
structure Holds (ps : List Payload) (x : SequenceNumber → Option SlotState) (st : HotStuffState) :
    Prop where
  view : st.view = 0
  keeps : Keeps SlotState.number (fun slot => slot.phase = .decided) ps x st.slots
    st.pendingPayloads st.committed

variable {x : SequenceNumber → Option SlotState} {st : HotStuffState}

/-- What a handler makes of a state is what the slot program `a` makes of sequence `s`. -/
structure Obeys (n : ℕ) (ps : List Payload) (x : SequenceNumber → Option SlotState)
    (s : SequenceNumber) (st : HotStuffState) (r : HotStuffState × List NetworkMessage)
    (a : Option SlotState × List (Letter Wave)) : Prop where
  holds : Holds ps (Function.update x s a.1) r.1
  sent : List.Forall₂ (Shows n (Content n ps s)) r.2 a.2
  next : r.1.nextSequence = st.nextSequence

omit [Sha256] in
/-- A message that is ignored. -/
theorem Holds.ignore (h : Holds ps x st) {o : Option SlotState} (ho : x s = o) :
    Obeys n ps x s st (st, []) (o, []) where
  holds := by
    rw [← ho, Function.update_eq_self]
    exact h
  sent := .nil
  next := rfl

omit [Sha256] in
/-- **A `Propose`** does what its letter does. -/
theorem Holds.handlePropose (h : Holds ps x st) (hn : 0 < n) (hnone : x s = none) {p : Payload}
    (hp : ps[s - 1]? = some p) (i : NodeId) (d : Digest) :
    Obeys n ps x s st ((node n i).handlePropose st 0 s d p)
      (some acceptedSlot, [⟨.vote .prepare, i, 0⟩]) := by
  have hstale : ¬ (0 : ℕ) > st.view := Nat.not_lt_zero _
  have hview : ¬ (0 : ℕ) ≠ st.view := by
    rw [h.view]
    simp
  unfold HotStuffNode.handlePropose
  simp only [hstale, if_false, if_neg hview]
  refine ⟨⟨h.view, ?_⟩, shows_vote hn i d .prepare, rfl⟩
  refine h.keeps.write acceptedSlot (not_ended_of_none hnone) (by simp [acceptedSlot]) ?_
    fun a ha => AList.lookup_insert_ne ha
  rw [AList.lookup_insert, hp]

omit [Sha256] in
/-- A slot changes, and is still not decided. -/
theorem Holds.write {slot : SlotState} {st' : HotStuffState} (h : Holds ps x st)
    (slot' : SlotState) (hs : x s = some slot) (hopen : slot.phase ≠ .decided)
    (hopen' : slot'.phase ≠ .decided) (hview : st'.view = st.view)
    (hslots : st'.slots = st.slots.insert s (slot'.number s))
    (hpending : st'.pendingPayloads = st.pendingPayloads)
    (hcommitted : st'.committed = st.committed) :
    Holds ps (Function.update x s (some slot')) st' := by
  refine ⟨hview.trans h.view, ?_⟩
  rw [hslots, hpending, hcommitted]
  exact h.keeps.write slot' (not_ended_of_some hs hopen) hopen' (h.keeps.payloads s slot hs hopen)
    fun _ _ => rfl

omit [Sha256] in
/-- Committing assigns no sequence. -/
private theorem commitPending_nextSequence (st : HotStuffState) (s : SequenceNumber) :
    (commitPending st s).nextSequence = st.nextSequence := by
  unfold commitPending
  split
  · rfl
  · rfl

omit [Sha256] in
/-- A slot is decided, and its payload committed as the next one. -/
theorem Holds.decide {slot : SlotState} {st' : HotStuffState} (h : Holds ps x st)
    (slot' : SlotState) (hpos : 1 ≤ s) (hle : s ≤ ps.length) (hs : x s = some slot)
    (hopen : slot.phase ≠ .decided) (hd : slot'.phase = .decided)
    (hnext : InTurn Finished ps x s) (hview : st'.view = st.view)
    (hslots : st'.slots = st.slots.insert s (slot'.number s))
    (hpending : st'.pendingPayloads = st.pendingPayloads)
    (hcommitted : st'.committed = st.committed) :
    Holds ps (Function.update x s (some slot')) (commitPending st' s) := by
  have hlt : s - 1 < ps.length := Nat.sub_one_lt_of_le hpos hle
  have hp : ps[s - 1]? = some (ps[s - 1]) := List.getElem?_eq_getElem hlt
  have hlookup : st'.pendingPayloads.lookup s = some (ps[s - 1]) := by
    rw [hpending, ← hp]
    exact h.keeps.payloads s slot hs hopen
  unfold commitPending
  rw [hlookup]
  refine ⟨hview.trans h.view, ?_⟩
  dsimp only
  rw [hslots, hpending, hcommitted]
  exact h.keeps.commit slot' hd hp hnext fun a ha => AList.lookup_erase_ne ha

omit [Sha256] in
/-- Numbering a slot leaves its votes. -/
@[simp] theorem voters_number (slot : SlotState) (s : SequenceNumber) (t : HotStuffPhaseTag) :
    (slot.number s).voters t = slot.voters t := by
  cases t <;> rfl

omit [Sha256] in
/-- A vote is counted whatever the number. -/
theorem number_addVote (slot : SlotState) (s : SequenceNumber) (r : NodeId)
    (t : HotStuffPhaseTag) : (slot.number s).addVote r t = (slot.addVote r t).number s := by
  cases t <;> rfl

omit [Sha256] in
/-- A slot is certified whatever its number. -/
theorem number_certify (slot : SlotState) (s : SequenceNumber) (i : NodeId)
    (t : HotStuffPhaseTag) : (slot.number s).certify i t = (slot.certify i t).number s := by
  cases t <;> rfl

omit [Sha256] in
/-- The leader counts a vote for the phase that its slot is in. -/
theorem Holds.countVote {slot : SlotState} {t : HotStuffPhaseTag} {r : NodeId} (h : Holds ps x st)
    (hpos : 1 ≤ s) (hle : s ≤ ps.length) (hs : x s = some slot) (hph : slot.phase = stage t)
    (hnext : Finished (tally n 0 (some slot) t r).1 → InTurn Finished ps x s) (d : Digest) :
    Obeys n ps x s st ((node n 0).handleVote st 0 s d t r) (tally n 0 (some slot) t r) := by
  have hleader : ¬ (node n 0).leaderForView 0 ≠ (node n 0).id := not_not.mpr (Nat.zero_mod n)
  have hview : ¬ (0 : ℕ) ≠ st.view := by
    rw [h.view]
    simp
  have hslot := h.keeps.slots s
  rw [hs, Option.map_some] at hslot
  have hopen : slot.phase ≠ .decided := hph ▸ stage_ne_decided t
  have hnot : ¬ ((0 : ℕ) ≠ 0 ∨ slot.phase ≠ stage t) := by simp [hph]
  unfold HotStuffNode.handleVote
  rw [if_neg hleader, if_neg hview, hslot]
  dsimp only
  rw [countVote_eq, if_neg (show ¬ (slot.number s).phase ≠ stage t from not_not.mpr hph),
    voters_number, number_addVote, number_certify]
  rw [tally, if_neg hnot] at hnext ⊢
  -- the vote completes the quorum, or is counted only
  by_cases hq : (node n 0).quorum ≤ (insert r (slot.voters t)).card
  · rw [if_pos hq] at hnext ⊢
    rw [if_pos hq]
    dsimp only
    have hsent : List.Forall₂ (Shows n (Content n ps s)) ((node n 0).broadcastHotstuff
        (.quorumCertificate 0 s d t (insert r (slot.voters t)).card))
        (spread n (.certificate t) 0) :=
      shows_spread (Wave.certificate t) fun j => ⟨rfl, d, _, hq, rfl⟩
    -- the last certificate decides the slot of the leader
    by_cases ht : t = .commit
    · subst ht
      rw [if_pos rfl]
      exact ⟨h.decide _ hpos hle hs hopen (phase_certify _ _ _)
        (hnext ⟨_, rfl, phase_certify _ _ _⟩) rfl rfl rfl rfl, hsent,
        commitPending_nextSequence _ s⟩
    · rw [if_neg ht]
      have hopen' : (((slot.addVote r t).certify 0 t)).phase ≠ .decided := by
        cases t with
        | prepare => simp [after]
        | preCommit => simp [after]
        | commit => exact absurd rfl ht
      exact ⟨h.write _ hs hopen hopen' rfl rfl rfl rfl, hsent, rfl⟩
  · rw [if_neg hq, if_neg hq]
    exact ⟨h.write _ hs hopen (by rw [phase_addVote]; exact hopen) rfl rfl rfl rfl, .nil, rfl⟩

omit [Sha256] in
/-- **A vote** does what its letter does. -/
theorem Holds.handleVote (h : Holds ps x st) (hpos : 1 ≤ s) (hle : s ≤ ps.length) (i r : NodeId)
    (t : HotStuffPhaseTag)
    (hnext : ¬ Finished (x s) → Finished (tally n i (x s) t r).1 → InTurn Finished ps x s)
    (d : Digest) :
    Obeys n ps x s st ((node n i).handleVote st 0 s d t r) (tally n i (x s) t r) := by
  have hslot := h.keeps.slots s
  cases hs : x s with
  | none =>
    rw [hs, Option.map_none] at hslot
    unfold HotStuffNode.handleVote
    rw [hslot]
    dsimp only
    rw [ite_self, ite_self]
    exact h.ignore hs
  | some slot =>
    -- votes are for node `0`, and for the phase that its slot is in
    by_cases hi : i = 0
    · subst hi
      by_cases hph : slot.phase = stage t
      · refine h.countVote hpos hle hs hph (fun hfin => ?_) d
        exact hnext (not_ended_of_some hs (hph ▸ stage_ne_decided t)) (hs ▸ hfin)
      · rw [hs, Option.map_some] at hslot
        rw [tally, if_pos (.inr hph)]
        unfold HotStuffNode.handleVote
        rw [hslot]
        dsimp only
        rw [countVote_eq, if_pos (show (slot.number s).phase ≠ stage t from hph)]
        dsimp only
        rw [ite_self, ite_self]
        exact h.ignore hs
    · have hleader : (node n i).leaderForView 0 ≠ (node n i).id := by
        show 0 % n ≠ i
        rw [Nat.zero_mod]
        exact Ne.symm hi
      unfold HotStuffNode.handleVote
      rw [if_pos hleader, tally, if_pos (.inl hi)]
      exact h.ignore hs

omit [Sha256] in
/-- Certificates are remembered, which does not matter here. -/
theorem Holds.seeQc (h : Holds ps x st) (t : HotStuffPhaseTag) :
    Holds ps x (HotStuff.seeQc st 0 t) := by
  refine ⟨(seeQc_view st 0 t).trans h.view, ?_⟩
  rw [seeQc_slots, seeQc_pendingPayloads, seeQc_committed]
  exact h.keeps

omit [Sha256] in
/-- A certificate that asks for votes takes a slot to the next phase. -/
theorem Holds.advanceSlot (h : Holds ps x st) {t t' : HotStuffPhaseTag} (ht : nextTag t = some t') :
    Holds ps (Function.update x s ((x s).map fun slot => slot.follow t))
      (HotStuffNode.advanceSlot st s (stage t) (stage t')) := by
  have hlast : t ≠ .commit := by
    rintro rfl
    exact absurd ht (by simp [nextTag])
  have hafter : after t = stage t' := by cases t <;> simp_all [nextTag] <;> subst ht <;> rfl
  have hslot := h.keeps.slots s
  unfold HotStuffNode.advanceSlot
  cases hs : x s with
  | none =>
    rw [hs, Option.map_none] at hslot
    rw [hslot]
    exact (h.ignore (n := 0) hs).holds
  | some slot =>
    rw [hs, Option.map_some] at hslot
    rw [hslot]
    dsimp only [Option.map_some]
    unfold SlotState.follow
    by_cases hph : slot.phase = stage t
    · have hopen : slot.phase ≠ .decided := hph ▸ stage_ne_decided t
      rw [if_pos (show (slot.number s).phase = stage t from hph), if_pos (.inl hph), hafter]
      exact h.write { slot with phase := stage t' } hs hopen (stage_ne_decided t') rfl rfl rfl rfl
    · rw [if_neg (show ¬ (slot.number s).phase = stage t from hph),
        if_neg (not_or.mpr ⟨hph, hlast⟩)]
      exact (h.ignore (n := 0) hs).holds

omit [Sha256] in
/-- The last certificate decides a slot. -/
theorem Holds.decideSlot (h : Holds ps x st) (hpos : 1 ≤ s) (hle : s ≤ ps.length)
    (hnext : ¬ Finished (x s) → Finished ((x s).map fun slot => slot.follow .commit) →
      InTurn Finished ps x s) :
    Obeys n ps x s st (HotStuff.decideSlot st s)
      ((x s).map fun slot => slot.follow .commit, []) := by
  have hslot := h.keeps.slots s
  unfold HotStuff.decideSlot
  cases hs : x s with
  | none =>
    rw [hs, Option.map_none] at hslot
    rw [hslot]
    exact h.ignore hs
  | some slot =>
    rw [hs, Option.map_some] at hslot
    have hfollow : slot.follow .commit = { slot with phase := .decided } := if_pos (.inr rfl)
    rw [hs] at hnext
    rw [hslot]
    dsimp only [Option.map_some] at hnext ⊢
    rw [hfollow] at hnext ⊢
    by_cases hph : slot.phase = .decided
    · rw [if_neg (show ¬ (slot.number s).phase ≠ .decided from not_not.mpr hph), ← hph]
      exact h.ignore hs
    · rw [if_pos (show (slot.number s).phase ≠ .decided from hph)]
      refine ⟨?_, .nil, commitPending_nextSequence _ s⟩
      exact h.decide { slot with phase := .decided } hpos hle hs hph rfl
        (hnext (hs ▸ not_ended_of_some hs hph) ⟨_, rfl, rfl⟩) rfl rfl rfl rfl

omit [Sha256] in
/-- **A certificate** does what its letter does. -/
theorem Holds.handleQuorumCertificate (h : Holds ps x st) (hpos : 1 ≤ s) (hle : s ≤ ps.length)
    (hn : 0 < n) (i : NodeId) (t : HotStuffPhaseTag) {vc : ℕ} (hvc : 2 * ((n - 1) / 3) + 1 ≤ vc)
    (hnext : ¬ Finished (x s) → Finished ((x s).map fun slot => slot.follow t) →
      InTurn Finished ps x s)
    (d : Digest) :
    Obeys n ps x s st ((node n i).handleQuorumCertificate st 0 s d t vc)
      ((x s).map fun slot => slot.follow t, nextVote i t) := by
  have hq : ¬ vc < (node n i).quorum := not_lt.mpr hvc
  have hsee := h.seeQc t
  have hview : ¬ (0 : ℕ) ≠ (HotStuff.seeQc st 0 t).view := by
    rw [hsee.view]
    simp
  -- the two certificates that ask for votes
  have hadvance : ∀ t', nextTag t = some t' → Obeys n ps x s st
      (HotStuffNode.advanceSlot (HotStuff.seeQc st 0 t) s (stage t) (stage t'),
        [(node n i).msgTo ((node n i).leaderForView 0) (.hotStuff (.vote 0 s d t' i))])
      ((x s).map fun slot => slot.follow t, nextVote i t) := by
    intro t' ht
    refine ⟨hsee.advanceSlot ht, ?_, by simp⟩
    rw [nextVote, ht]
    exact shows_vote hn i d t'
  unfold HotStuffNode.handleQuorumCertificate
  rw [if_neg hq]
  change Obeys n ps x s st (if (0 : ℕ) ≠ (HotStuff.seeQc st 0 t).view then
    (HotStuff.seeQc st 0 t, []) else _) _
  rw [if_neg hview]
  cases t with
  | prepare => exact hadvance .preCommit rfl
  | preCommit => exact hadvance .commit rfl
  | commit =>
    have hobeys := hsee.decideSlot (n := n) hpos hle hnext
    exact ⟨hobeys.holds, hobeys.sent, hobeys.next.trans (seeQc_nextSequence st 0 .commit)⟩

omit [Sha256] in
/-- **The handlers follow the slot program.** -/
theorem Holds.handle (h : Holds ps x st) (hpos : 1 ≤ s) (hle : s ≤ ps.length)
    (hfresh : l.wave = .propose → x s = none)
    (hnext : ¬ Finished (x s) → Finished (HotStuff.handle n l.target (x s) l.wave l.sender).1 →
      InTurn Finished ps x s)
    {m : NetworkMessage} (hm : Shows n (Content n ps s) m l) :
    Obeys n ps x s st ((node n l.target).handleMessage st m)
      (HotStuff.handle n l.target (x s) l.wave l.sender) := by
  have hn : 0 < n := Nat.zero_lt_of_lt hm.target_lt
  have hc := hm.content
  unfold Content at hc
  cases hw : l.wave with
  | propose =>
    rw [hw] at hc
    obtain ⟨_, d, p, jv, jp, hp, hpay⟩ := hc
    rw [handleMessage, hpay]
    exact h.handlePropose hn (hfresh hw) hp l.target d
  | vote t =>
    rw [hw] at hc hnext
    obtain ⟨d, hpay⟩ := hc
    rw [handleMessage, hpay]
    exact h.handleVote hpos hle l.target l.sender t hnext d
  | certificate t =>
    rw [hw] at hc hnext
    obtain ⟨_, d, vc, hvc, hpay⟩ := hc
    rw [handleMessage, hpay]
    exact h.handleQuorumCertificate hpos hle hn l.target t hvc hnext d

omit [Sha256] in
/-- A node at the start. -/
theorem holds_init (n : ℕ) (i : NodeId) : Holds [] (fun _ => none) (HotStuffNode.new i n).2 :=
  ⟨rfl, keeps_init⟩

/-- The leader opens the slot of the next sequence. -/
theorem Holds.propose (p : Payload) (h : Holds ps x st) (hnext : st.nextSequence = ps.length + 1)
    (hidle : ∀ a, a = 0 ∨ ps.length < a → x a = none) :
    ∃ st' out, (code n 0).propose st p = (.accepted, st', out) ∧
      Holds (ps ++ [p]) (Function.update x (ps.length + 1) (some proposedSlot)) st' ∧
      List.Forall₂ (Shows n (Content n (ps ++ [p]) (ps.length + 1))) out (program n).opening ∧
      st'.nextSequence = ps.length + 1 + 1 := by
  have hleader : ¬ (node n 0).leaderForView st.view ≠ (node n 0).id := by
    rw [h.view]
    exact not_not.mpr (Nat.zero_mod n)
  have hlast : (ps ++ [p])[ps.length + 1 - 1]? = some p := by simp
  have hcall : (code n 0).propose st p = (node n 0).propose st p := rfl
  rw [hcall, HotStuffNode.propose, if_neg hleader]
  refine ⟨_, _, rfl, ⟨h.view, ?_⟩, ?_, by rw [hnext]⟩
  · have hkeeps := h.keeps.launch proposedSlot hidle p (by simp [proposedSlot])
    dsimp only
    rw [hnext, h.view]
    exact hkeeps
  · rw [hnext, h.view]
    exact shows_spread Wave.propose fun j => ⟨rfl, p.digest, p, _, _, hlast, rfl⟩

/-! ### The cluster -/

/-- **HotStuff follows its slot program** as long as node `0` leads. -/
def normalCase (n : ℕ) : NormalCase HotStuffState SlotState Wave n where
  program := program n
  code := code n
  init i := (HotStuffNode.new i n).2
  phase := Wave.messagePhase
  Content := Content n
  Holds := Holds
  Ready slot wave := wave = .propose → slot = none
  Finished := Finished
  next := HotStuffState.nextSequence
  content_phase := Content.phase
  content_alter cfg h0 hs h := h.alter cfg h0 hs
  content_concat p h := h.concat p
  next_init := rfl
  holds_init := holds_init n
  holds_concat p h hidle := ⟨h.view, h.keeps.concat hidle p⟩
  holds_committed h := h.keeps.committed
  propose p h hnext hidle := h.propose p hnext hidle
  handle h hpos hle hready hnext hm := by
    have hobeys := h.handle hpos hle hready hnext hm
    exact ⟨_, _, rfl, hobeys.holds, hobeys.sent, hobeys.next⟩

/-- **HotStuff commits everything** under up to `f` faulty backups. -/
theorem backups_decide_all (n : ℕ) (hn : 2 ≤ n) (rng : ℕ → ℚ) (F : Finset NodeId)
    (hcard : F.card ≤ (n - 1) / 3) (h0 : 0 ∉ F) (faults : NetworkFaults)
    (hF : faults.ConfinedTo F) (calls : List ClusterCall) (hcalls : .tick ∉ calls) :
    ∃ results c, ((newCluster n rng).setFaults faults).run (code n) calls = some (results, c) ∧
      (∀ r ∈ results, r = .accepted) ∧
      (c.pending = [] → ∀ i < n, i ∉ F →
        (c.nodes i).committed = numbered (Cluster.proposals calls)) := by
  have hlive := enough hn hcard h0 hF Wave.messagePhase
  have horderly : (normalCase n).Orderly faults :=
    ⟨fun t => (inWaves hlive t).fresh, finished_mono hlive⟩
  obtain ⟨results, c, hrun, hres, hall⟩ :=
    NormalCase.commits_all horderly (by omega) hF h0 rng calls hcalls
  refine ⟨results, c, hrun, hres, fun hempty i hi hiF => hall hempty i fun t hnil => ?_⟩
  exact finished_of_drained hlive hnil i (Finset.mem_sdiff.mpr ⟨Finset.mem_range.mpr hi, hiF⟩)

/-- Node `2` of four is isolated. -/
def isolatedBackup : NetworkFaults where
  isolatedNodes := {2}
  rng _ := 0

/-- Two proposals, the second of which is made while the first is under way. -/
def overlapping : List ClusterCall :=
  [.propose ⟨[0x70]⟩, .step, .propose ⟨[0x71]⟩, .step, .step, .step, .step, .step, .step, .step,
    .step]

omit [Sha256] in
/-- Four nodes with an isolated backup commit two proposals, and nothing is left to deliver. -/
theorem backups_decide_all_four : ∃ results c,
    @Cluster.run _ (@code Sha256.sample 4) Sha256.sample
      ((newCluster 4 fun _ => 0).setFaults isolatedBackup) overlapping = some (results, c) ∧
      (∀ r ∈ results, r = .accepted) ∧ c.pending = [] ∧
      ∀ i < 4, i ∉ ({2} : Finset NodeId) →
        (c.nodes i).committed = [⟨1, ⟨[0x70]⟩⟩, ⟨2, ⟨[0x71]⟩⟩] := by
  have hF : isolatedBackup.ConfinedTo {2} := {
    dropRate := rfl
    partitions := rfl
    isolated := fun i hi => of_decide_eq_true hi
    byzantine := fun i hi => by
      rw [FaultConfig.isByzantine, show isolatedBackup.byzantineNodes.lookup i = none from
        AList.lookup_empty i] at hi
      exact absurd hi (by simp) }
  obtain ⟨results, c, hrun, hres, hall⟩ := @backups_decide_all Sha256.sample 4 (by decide)
    (fun _ => 0) {2} (by decide) (by decide) isolatedBackup hF overlapping (by decide)
  have hpending : (@Cluster.run _ (@code Sha256.sample 4) Sha256.sample
      ((newCluster 4 fun _ => 0).setFaults isolatedBackup) overlapping).map
        (fun r => r.2.pending) = some [] := by
    decide +kernel
  rw [hrun, Option.map_some, Option.some.injEq] at hpending
  exact ⟨results, c, hrun, hres, hpending, hall hpending⟩

end HotStuff

end ConsensusBench
