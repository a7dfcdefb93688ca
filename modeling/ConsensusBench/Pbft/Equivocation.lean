import ConsensusBench.Lib.Rounds
import ConsensusBench.Pbft.Agreement

namespace ConsensusBench

/-!
# PBFT: the run an equivocating primary breaks agreement with

If node `0` is Byzantine and its `PrePrepare` messages get through, then one proposal and
three rounds among the honest nodes (`PrePrepare`, `Prepare`, `Commit`) make every honest
node commit what it received: `proposal_run`.  With an `Equivocate` among the behaviours of
node `0`, odd and even nodes receive different payloads, and there are honest nodes of both
kinds.  So agreement in view `0` holds exactly for the configurations without such a
primary (`agreement_in_first_view_iff`).
-/

open AsyncNet PbftNode

namespace Pbft

variable [Sha256] {n : ℕ} {cfg : FaultConfig}

/-! ### What one node makes of a round -/

/-- An honest primary's or another node's `Prepare`, at a node that still collects them. -/
theorem recv_prepare {i : NodeId} {s : PbftState} {q : SequenceNumber} {slot : SlotState}
    (hs : s.slots.lookup q = some slot) (hph : slot.phase = .prePrepared) (d : Digest)
    (r : NodeId) :
    (system n cfg).recv i s ⟨r, i, .pbft (.prepare s.view q d r)⟩ = some
      (if 2 * ((n - 1) / 3) ≤ (slot.addPrepare r).prepareVoters.card then
        ({ s with slots := s.slots.insert q ((slot.addPrepare r).toPrepared i) },
          (node n i).broadcastPbft (.commit s.view q d i))
      else ({ s with slots := s.slots.insert q (slot.addPrepare r) }, [])) := by
  show some ((node n i).handlePrepare s s.view q d r) = _
  unfold handlePrepare
  simp only [ne_eq, not_true_eq_false, if_false, hs, hph, if_true]
  congr 1
  split <;> split
  · rfl
  · rename_i h h'; exact absurd h h'
  · rename_i h h'; exact absurd h' h
  · simp only [SlotState.addPrepare, hph]

/-- A `Prepare` at a node that does not collect them any more. -/
theorem recv_prepare_ignore {i : NodeId} {s : PbftState} {q : SequenceNumber} {slot : SlotState}
    (hs : s.slots.lookup q = some slot) (hph : slot.phase ≠ .prePrepared) (d : Digest)
    (r : NodeId) :
    (system n cfg).recv i s ⟨r, i, .pbft (.prepare s.view q d r)⟩ = some (s, []) := by
  show some ((node n i).handlePrepare s s.view q d r) = _
  unfold handlePrepare
  simp only [ne_eq, not_true_eq_false, if_false, hs, hph]

/-- Enough `Prepare` messages make a node `Prepared`. -/
theorem absorb_prepares (n : ℕ) (cfg : FaultConfig) {i : NodeId} {q : SequenceNumber}
    (d : NodeId → Digest)
    {rs : List NodeId} (hrs : rs ≠ []) (hnodup : rs.Nodup) {s : PbftState} {slot : SlotState}
    (hs : s.slots.lookup q = some slot) (hph : slot.phase = .prePrepared)
    (hnew : ∀ r ∈ rs, r ∉ slot.prepareVoters)
    (hcount : 2 * ((n - 1) / 3) ≤ slot.prepareVoters.card + rs.length) :
    ∃ s' slot' d', (system n cfg).absorb i s
        (rs.map fun r => ⟨r, i, .pbft (.prepare s.view q (d r) r)⟩) =
          some (s', (node n i).broadcastPbft (.commit s.view q d' i)) ∧
      s'.view = s.view ∧ s'.pendingPayloads = s.pendingPayloads ∧
      s'.slots.lookup q = some slot' ∧ slot'.phase = .prepared ∧
      slot'.commitVoters = insert i slot.commitVoters := by
  -- until the threshold, the slot collects and nothing else changes
  let C (t : PbftState) (V : Finset NodeId) : Prop := t.view = s.view ∧
    t.pendingPayloads = s.pendingPayloads ∧ ∃ x, t.slots.lookup q = some x ∧
      x.phase = .prePrepared ∧ x.prepareVoters = V ∧ x.commitVoters = slot.commitVoters
  let R (t : PbftState) (out : List NetworkMessage) : Prop := ∃ x d',
    out = (node n i).broadcastPbft (.commit s.view q d' i) ∧ t.view = s.view ∧
      t.pendingPayloads = s.pendingPayloads ∧ t.slots.lookup q = some x ∧
      x.phase = .prepared ∧ x.commitVoters = insert i slot.commitVoters
  have hC : C s slot.prepareVoters := ⟨rfl, rfl, slot, hs, hph, rfl, rfl⟩
  have hadd : ∀ t V r, C t V → (insert r V).card < 2 * ((n - 1) / 3) →
      ∃ t', (system n cfg).recv i t ⟨r, i, .pbft (.prepare s.view q (d r) r)⟩ = some (t', []) ∧
        C t' (insert r V) := by
    rintro t V r ⟨hview, hpend, x, hx, hphx, rfl, hcommit⟩ hlt
    have hrecv : (system n cfg).recv i t ⟨r, i, .pbft (.prepare t.view q (d r) r)⟩ = _ :=
      recv_prepare hx hphx (d r) r
    have hfew : ¬ 2 * ((n - 1) / 3) ≤ (x.addPrepare r).prepareVoters.card := not_le.mpr hlt
    rw [hview, if_neg hfew] at hrecv
    exact ⟨_, hrecv, rfl, hpend, x.addPrepare r, AList.lookup_insert _, hphx, rfl, hcommit⟩
  have hfull : ∀ t V r, C t V → 2 * ((n - 1) / 3) ≤ (insert r V).card →
      ∃ t' out, (system n cfg).recv i t ⟨r, i, .pbft (.prepare s.view q (d r) r)⟩ =
        some (t', out) ∧ R t' out ∧ ∀ r', (system n cfg).recv i t'
          ⟨r', i, .pbft (.prepare s.view q (d r') r')⟩ = some (t', []) := by
    rintro t V r ⟨hview, hpend, x, hx, hphx, rfl, hcommit⟩ hle
    have hrecv : (system n cfg).recv i t ⟨r, i, .pbft (.prepare t.view q (d r) r)⟩ = _ :=
      recv_prepare hx hphx (d r) r
    have henough : 2 * ((n - 1) / 3) ≤ (x.addPrepare r).prepareVoters.card := hle
    rw [hview, if_pos henough] at hrecv
    have hvoters : ((x.addPrepare r).toPrepared i).commitVoters = insert i slot.commitVoters := by
      rw [← hcommit]
      rfl
    refine ⟨_, _, hrecv, ⟨_, d r, rfl, rfl, hpend, AList.lookup_insert _, rfl, hvoters⟩, ?_⟩
    intro r'
    rw [← hview]
    exact recv_prepare_ignore (AList.lookup_insert _) (by simp [SlotState.toPrepared]) (d r') r'
  obtain ⟨s', out, habs, x, d', rfl, hafter⟩ :=
    System.absorb_votes _ _ hadd hfull hrs hnodup hC hnew hcount
  exact ⟨s', x, d', habs, hafter⟩

/-- A `Commit` at a node that collects them, with its payload pending. -/
theorem recv_commit {i : NodeId} {s : PbftState} {q : SequenceNumber} {slot : SlotState}
    {p : Payload} (hs : s.slots.lookup q = some slot) (hph : slot.phase = .prepared)
    (hp : s.pendingPayloads.lookup q = some p) (d : Digest) (r : NodeId) :
    (system n cfg).recv i s ⟨r, i, .pbft (.commit s.view q d r)⟩ = some
      (if 2 * ((n - 1) / 3) + 1 ≤ (slot.addCommit r).commitVoters.card then
        ({ markCommitted s q (slot.addCommit r) with
            pendingPayloads := s.pendingPayloads.erase q
            committed := s.committed ++ [⟨q, p⟩] }, [])
      else ({ s with slots := s.slots.insert q (slot.addCommit r) }, [])) := by
  show some ((node n i).handleCommit s s.view q r) = _
  unfold handleCommit
  simp only [ne_eq, not_true_eq_false, if_false, hs, hph, true_or, if_true]
  congr 1
  by_cases hq : 2 * ((n - 1) / 3) + 1 ≤ (slot.addCommit r).commitVoters.card
  · have hq' : (node n i).quorum ≤ (insert r slot.commitVoters).card := hq
    simp only [hq, hq', if_true, hp, reduceCtorEq, not_false_eq_true, and_self]
    rfl
  · have hq' : ¬ (node n i).quorum ≤ (insert r slot.commitVoters).card := hq
    simp only [hq, hq', if_false, false_and]
    simp only [SlotState.addCommit, hph]

/-- A `Commit` for a slot that is committed. -/
theorem recv_commit_ignore {i : NodeId} {s : PbftState} {q : SequenceNumber} {slot : SlotState}
    (hs : s.slots.lookup q = some slot) (hph : slot.phase = .committed) (d : Digest)
    (r : NodeId) :
    (system n cfg).recv i s ⟨r, i, .pbft (.commit s.view q d r)⟩ = some (s, []) := by
  show some ((node n i).handleCommit s s.view q r) = _
  unfold handleCommit
  simp only [ne_eq, not_true_eq_false, if_false, hs, hph, reduceCtorEq, or_self]

/-- Enough `Commit` messages make a node commit its pending payload. -/
theorem absorb_commits (n : ℕ) (cfg : FaultConfig) {i : NodeId} {q : SequenceNumber} {p : Payload}
    (d : NodeId → Digest)
    {rs : List NodeId} (hrs : rs ≠ []) (hnodup : rs.Nodup) {s : PbftState} {slot : SlotState}
    (hs : s.slots.lookup q = some slot) (hph : slot.phase = .prepared)
    (hp : s.pendingPayloads.lookup q = some p) (hnew : ∀ r ∈ rs, r ∉ slot.commitVoters)
    (hcount : 2 * ((n - 1) / 3) + 1 ≤ slot.commitVoters.card + rs.length) :
    ∃ s', (system n cfg).absorb i s
        (rs.map fun r => ⟨r, i, .pbft (.commit s.view q (d r) r)⟩) = some (s', []) ∧
      s'.view = s.view ∧ ⟨q, p⟩ ∈ s'.committed := by
  let C (t : PbftState) (V : Finset NodeId) : Prop := t.view = s.view ∧
    t.pendingPayloads.lookup q = some p ∧ ∃ x, t.slots.lookup q = some x ∧
      x.phase = .prepared ∧ x.commitVoters = V
  let R (t : PbftState) (out : List NetworkMessage) : Prop :=
    out = [] ∧ t.view = s.view ∧ ⟨q, p⟩ ∈ t.committed
  have hC : C s slot.commitVoters := ⟨rfl, hp, slot, hs, hph, rfl⟩
  have hadd : ∀ t V r, C t V → (insert r V).card < 2 * ((n - 1) / 3) + 1 →
      ∃ t', (system n cfg).recv i t ⟨r, i, .pbft (.commit s.view q (d r) r)⟩ = some (t', []) ∧
        C t' (insert r V) := by
    rintro t V r ⟨hview, hpend, x, hx, hphx, rfl⟩ hlt
    have hrecv : (system n cfg).recv i t ⟨r, i, .pbft (.commit t.view q (d r) r)⟩ = _ :=
      recv_commit hx hphx hpend (d r) r
    have hfew : ¬ 2 * ((n - 1) / 3) + 1 ≤ (x.addCommit r).commitVoters.card := not_le.mpr hlt
    rw [hview, if_neg hfew] at hrecv
    exact ⟨_, hrecv, rfl, hpend, x.addCommit r, AList.lookup_insert _, hphx, rfl⟩
  have hfull : ∀ t V r, C t V → 2 * ((n - 1) / 3) + 1 ≤ (insert r V).card →
      ∃ t' out, (system n cfg).recv i t ⟨r, i, .pbft (.commit s.view q (d r) r)⟩ =
        some (t', out) ∧ R t' out ∧ ∀ r', (system n cfg).recv i t'
          ⟨r', i, .pbft (.commit s.view q (d r') r')⟩ = some (t', []) := by
    rintro t V r ⟨hview, hpend, x, hx, hphx, rfl⟩ hle
    have hrecv : (system n cfg).recv i t ⟨r, i, .pbft (.commit t.view q (d r) r)⟩ = _ :=
      recv_commit hx hphx hpend (d r) r
    have henough : 2 * ((n - 1) / 3) + 1 ≤ (x.addCommit r).commitVoters.card := hle
    rw [hview, if_pos henough] at hrecv
    have hmem : (⟨q, p⟩ : CommittedEntry) ∈ t.committed ++ [⟨q, p⟩] :=
      List.mem_append_right _ (List.mem_singleton_self _)
    refine ⟨_, _, hrecv, ⟨rfl, hview, hmem⟩, ?_⟩
    intro r'
    rw [← hview]
    exact recv_commit_ignore (AList.lookup_insert _) rfl (d r') r'
  obtain ⟨s', out, habs, rfl, hafter⟩ :=
    System.absorb_votes _ _ hadd hfull hrs hnodup hC hnew hcount
  exact ⟨s', habs, hafter⟩

/-! ### The rounds -/

/-- The honest nodes other than `i`. -/
def others (cfg : FaultConfig) (n : ℕ) (i : NodeId) : List NodeId :=
  (cfg.honest n).filter fun r => r ≠ i

omit [Sha256] in
theorem mem_others {i r : NodeId} :
    r ∈ others cfg n i ↔ r ∈ cfg.honest n ∧ r ≠ i := by
  simp [others]

omit [Sha256] in
theorem nodup_others (i : NodeId) : (others cfg n i).Nodup := (cfg.nodup_honest n).filter _

omit [Sha256] in
theorem length_others {i : NodeId} (hi : i ∈ cfg.honest n) :
    (others cfg n i).length + 1 = (cfg.honest n).length := by
  have heq : others cfg n i = (cfg.honest n).erase i := by
    rw [(cfg.nodup_honest n).erase_eq_filter]
    exact List.filter_congr fun r _ => by by_cases h : r = i <;> simp [h]
  rw [heq, List.length_erase_of_mem hi]
  have hpos := List.length_pos_of_mem hi
  omega

/-- **Exchange.**  Every honest node handles what the others broadcast in form `x`. -/
theorem exchange {w : World NodeId PbftState Call NetworkMessage}
    (x : Digest → NodeId → PbftMessage)
    (hflight : ∀ i ∈ cfg.honest n, ∃ d, ∀ j < n, j ≠ i → ⟨i, j, .pbft (x d i)⟩ ∈ w.inFlight)
    (R : NodeId → PbftState → List NetworkMessage → Prop)
    (ha : ∀ i ∈ cfg.honest n, ∀ d : NodeId → Digest, ∃ s out, (system n cfg).absorb i (w.nodes i)
      ((others cfg n i).map fun r => ⟨r, i, .pbft (x (d r) r)⟩) = some (s, out) ∧ R i s out)
    (hnew : ∀ i s out, R i s out → ∀ m ∈ out, ∀ j d r, m ≠ ⟨r, j, .pbft (x d r)⟩) :
    ∃ w', (system n cfg).Steps System.anyStep w w' ∧
      (∀ i ∈ cfg.honest n, ∃ out, R i (w'.nodes i) out ∧ ∀ m ∈ out, m ∈ w'.inFlight) ∧
      ∀ i, i ∉ cfg.honest n → w'.nodes i = w.nodes i := by
  choose! d hd using hflight
  have hcarry : ∀ i, ∀ r ∈ others cfg n i, cfg.tamper ⟨r, i, .pbft (x (d r) r)⟩ =
      [⟨r, i, .pbft (x (d r) r)⟩] := fun i r hr =>
    cfg.tamper_of_honest (FaultConfig.mem_honest cfg |>.mp (mem_others.mp hr).1).2
  have hflat : ∀ i, ((others cfg n i).map fun r =>
      (⟨r, i, .pbft (x (d r) r)⟩ : NetworkMessage)).flatMap (system n cfg).carry =
        (others cfg n i).map fun r => ⟨r, i, .pbft (x (d r) r)⟩ := by
    intro i
    rw [List.flatMap_map, List.map_eq_flatMap]
    exact List.flatMap_congr fun r hr => hcarry i r hr
  have hms : ∀ i ∈ cfg.honest n, System.Arriving (system n cfg) w i
      ((others cfg n i).map fun r => ⟨r, i, .pbft (x (d r) r)⟩) := by
    intro i hi
    refine ⟨(nodup_others i).map fun r r' h => congrArg NetworkMessage.sender h, ?_, ?_⟩
    · intro m hm
      obtain ⟨r, hr, rfl⟩ := List.mem_map.mp hm
      obtain ⟨hr, hne⟩ := mem_others.mp hr
      exact hd r hr i (cfg.mem_honest.mp hi).1 hne.symm
    · intro m hm
      obtain ⟨r, hr, rfl⟩ := List.mem_map.mp hm
      exact ⟨_, hcarry i r hr, rfl⟩
  have habs : ∀ i ∈ cfg.honest n, ∃ s out, (system n cfg).absorb i (w.nodes i)
      (((others cfg n i).map fun r =>
        (⟨r, i, .pbft (x (d r) r)⟩ : NetworkMessage)).flatMap (system n cfg).carry) =
          some (s, out) ∧ R i s out := by
    intro i hi
    rw [hflat i]
    exact ha i hi d
  have hfresh : ∀ i ∈ cfg.honest n, ∀ s out, R i s out → ∀ m ∈ out, ∀ j ∈ cfg.honest n,
      m ∉ (others cfg n j).map fun r => (⟨r, j, .pbft (x (d r) r)⟩ : NetworkMessage) := by
    intro i hi s out hR m hm j hj hin
    obtain ⟨r, hr, heq⟩ := List.mem_map.mp hin
    exact hnew i s out hR m hm j (d r) r heq.symm
  obtain ⟨w', hs, hpost, hframe, _⟩ := System.Steps.round (cfg.nodup_honest n)
    (fun i hi => Finset.mem_range.mpr (cfg.mem_honest.mp hi).1) _ hms R habs hfresh
  exact ⟨w', hs, hpost, hframe⟩

/-- What `tamper` makes of a `PrePrepare` that it does not drop. -/
theorem tamper_prePrepare {i : NodeId} (hdrop : cfg.dropsPhase i .pbftPrePrepare = false)
    (j : NodeId) (v : ViewNumber) (q : SequenceNumber) (d : Digest) (p : Payload) :
    ∃ d', cfg.tamper ⟨i, j, .pbft (.prePrepare v q d p)⟩ =
      [⟨i, j, .pbft (.prePrepare v q d' (Payload.alt^[cfg.forkBytes i j] p))⟩] := by
  have hdrops : cfg.drops i (.pbft (.prePrepare v q d p)) = false := by
    rw [cfg.drops_eq_dropsPhase rfl, hdrop]
  have hskel := cfg.alter_skeleton ⟨i, j, .pbft (.prePrepare v q d p)⟩
  have hprop := cfg.proposed_alter ⟨i, j, .pbft (.prePrepare v q d p)⟩
  have hsender := cfg.alter_sender ⟨i, j, .pbft (.prePrepare v q d p)⟩
  have htarget := cfg.alter_target ⟨i, j, .pbft (.prePrepare v q d p)⟩
  rw [cfg.tamper_eq, if_neg (by rw [hdrops]; decide)]
  obtain ⟨d', p', hx⟩ := prePrepare_of_skeleton hskel.symm
  rw [hx] at hprop
  have hp' : p' = Payload.alt^[cfg.forkBytes i j] p := Option.some.inj hprop
  refine ⟨d', ?_⟩
  rw [← hp', ← hx, List.singleton_inj]
  exact NetworkMessage.ext hsender htarget rfl

/-- Node `0` proposes `p`. -/
theorem opening (n : ℕ) (cfg : FaultConfig) (hn : 0 < n) (p : Payload) :
    ∃ w, (system n cfg).Reach System.anyStep w ∧
    (w.nodes 0).view = 0 ∧ (∀ i, i ≠ 0 → w.nodes i = (PbftNode.new i n).2) ∧
    ∀ i < n, i ≠ 0 → ⟨0, i, .pbft (.prePrepare 0 1 p.digest p)⟩ ∈ w.inFlight := by
  have hmem : 0 ∈ (system n cfg).members := Finset.mem_range.mpr hn
  have hpropose : (system n cfg).act 0 ((system n cfg).start.nodes 0) (.propose p) =
      ({ (PbftNode.new 0 n).2 with
          nextSequence := 2
          slots := (∅ : HashMap SequenceNumber SlotState).insert 1 (openSlot 0 1)
          pendingPayloads := (∅ : HashMap SequenceNumber Payload).insert 1 p },
        (node n 0).broadcastPbft (.prePrepare 0 1 p.digest p) ++
          (node n 0).broadcastPbft (.prepare 0 1 p.digest 0)) := by
    show ((node n 0).propose (PbftNode.new 0 n).2 p).2 = _
    unfold propose
    rw [if_neg (fun hne => hne (Nat.zero_mod n))]
    rfl
  refine ⟨_, System.Steps.call hmem hpropose, ?_, fun i hi => ?_, fun i hi hne => ?_⟩
  · rw [World.record_nodes, Function.update_self]
    rfl
  · rw [World.record_nodes, Function.update_of_ne hi]
    rfl
  · refine List.mem_append_right _ (List.mem_append_left _ ?_)
    exact mem_broadcastPbft.mpr ⟨i, hi, hne, rfl⟩

/-- The honest nodes accept the `PrePrepare` of node `0`. -/
theorem accept_round {w : World NodeId PbftState Call NetworkMessage} {p : Payload}
    (hbyz : cfg.isByzantine 0 = true) (hdrop : cfg.dropsPhase 0 .pbftPrePrepare = false)
    (hinit : ∀ i, i ≠ 0 → w.nodes i = (PbftNode.new i n).2)
    (hflight : ∀ i < n, i ≠ 0 → ⟨0, i, .pbft (.prePrepare 0 1 p.digest p)⟩ ∈ w.inFlight) :
    ∃ w', (system n cfg).Steps System.anyStep w w' ∧
      (∀ i ∈ cfg.honest n, (w'.nodes i).view = 0 ∧
        (w'.nodes i).pendingPayloads.lookup 1 = some (Payload.alt^[cfg.forkBytes 0 i] p) ∧
        (w'.nodes i).slots.lookup 1 = some (openSlot 0 1) ∧
        ∃ d, ∀ j < n, j ≠ i → ⟨i, j, .pbft (.prepare 0 1 d i)⟩ ∈ w'.inFlight) ∧
      ∀ i, i ∉ cfg.honest n → w'.nodes i = w.nodes i := by
  have hne : ∀ i ∈ cfg.honest n, i ≠ 0 := by
    rintro i hi rfl
    rw [(cfg.mem_honest.mp hi).2] at hbyz
    exact absurd hbyz (by decide)
  have hms : ∀ i ∈ cfg.honest n, System.Arriving (system n cfg) w i
      [⟨0, i, .pbft (.prePrepare 0 1 p.digest p)⟩] := by
    intro i hi
    refine ⟨List.nodup_singleton _, fun m hm => ?_, fun m hm => ?_⟩
    · rw [List.mem_singleton.mp hm]
      exact hflight i (cfg.mem_honest.mp hi).1 (hne i hi)
    · rw [List.mem_singleton.mp hm]
      obtain ⟨d', htamper⟩ := tamper_prePrepare hdrop i 0 1 p.digest p
      exact ⟨_, htamper, rfl⟩
  obtain ⟨w', hs, hpost, hframe, _⟩ := System.Steps.round (cfg.nodup_honest n)
    (fun i hi => Finset.mem_range.mpr (cfg.mem_honest.mp hi).1) _ hms
    (fun i s out => s.view = 0 ∧
      s.pendingPayloads.lookup 1 = some (Payload.alt^[cfg.forkBytes 0 i] p) ∧
      s.slots.lookup 1 = some (openSlot 0 1) ∧
      ∃ d, out = (node n i).broadcastPbft (.prepare 0 1 d i))
    (fun i hi => by
      obtain ⟨d', htamper⟩ := tamper_prePrepare hdrop i 0 1 p.digest p
      have hcarry : (system n cfg).carry ⟨0, i, .pbft (.prePrepare 0 1 p.digest p)⟩ = _ := htamper
      rw [List.flatMap_singleton, hcarry, hinit i (hne i hi)]
      exact ⟨_, _, System.absorb_cons (by rfl), rfl, AList.lookup_insert _,
        AList.lookup_insert _, d', List.append_nil _⟩)
    (by
      rintro i hi s out ⟨_, _, _, d, rfl⟩ m hm j hj hin
      obtain ⟨k, _, _, rfl⟩ := mem_broadcastPbft.mp hm
      exact absurd (List.mem_singleton.mp hin) (by simp))
  refine ⟨w', hs, fun i hi => ?_, hframe⟩
  obtain ⟨out, ⟨hview, hpend, hslot, d, rfl⟩, hsent⟩ := hpost i hi
  exact ⟨hview, hpend, hslot, d, fun j hj hji =>
    hsent _ (mem_broadcastPbft.mpr ⟨j, hj, hji, rfl⟩)⟩

/-- **One proposal of a Byzantine primary**, and three rounds among the honest nodes: each of
    them commits what reached it. -/
theorem proposal_run (hf : 1 ≤ (n - 1) / 3) (hbyz : cfg.isByzantine 0 = true)
    (hcount : 2 * ((n - 1) / 3) + 1 ≤ (cfg.honest n).length)
    (hdrop : cfg.dropsPhase 0 .pbftPrePrepare = false) (p : Payload) :
    ∃ w, (system n cfg).Reach System.anyStep w ∧ InFirstView n w ∧
      ∀ i ∈ cfg.honest n,
        ⟨1, Payload.alt^[cfg.forkBytes 0 i] p⟩ ∈ (w.nodes i).committed := by
  have hothers : ∀ i ∈ cfg.honest n, 2 * ((n - 1) / 3) ≤ (others cfg n i).length ∧
      others cfg n i ≠ [] := by
    intro i hi
    have hlen := length_others hi
    refine ⟨by omega, fun hnil => ?_⟩
    rw [hnil, List.length_nil] at hlen
    omega
  obtain ⟨w₁, hr₁, hzero, hinit, hflight₁⟩ := opening n cfg (by omega) p
  obtain ⟨w₂, hs₂, hpost₂, hframe₂⟩ := accept_round hbyz hdrop hinit hflight₁
  -- the honest nodes exchange `Prepare`
  obtain ⟨w₃, hs₃, hpost₃, hframe₃⟩ := exchange (w := w₂) (fun d r => .prepare 0 1 d r)
    (fun i hi => (hpost₂ i hi).2.2.2)
    (fun i s out => s.view = 0 ∧
      s.pendingPayloads.lookup 1 = some (Payload.alt^[cfg.forkBytes 0 i] p) ∧
      (∃ slot, s.slots.lookup 1 = some slot ∧ slot.phase = .prepared ∧
        slot.commitVoters = {i}) ∧ ∃ d, out = (node n i).broadcastPbft (.commit 0 1 d i))
    (fun i hi d => by
      obtain ⟨hview, hpend, hslot, _⟩ := hpost₂ i hi
      obtain ⟨s, slot, d', habs, hview', hpend', hslot', hph, hvotes⟩ :=
        absorb_prepares n cfg (i := i) d (hothers i hi).2 (nodup_others i) hslot rfl
          (fun r _ => by simp [openSlot, SlotState.new])
          (by simpa [openSlot, SlotState.new] using (hothers i hi).1)
      rw [hview] at habs hview'
      exact ⟨s, _, habs, hview', hpend'.symm ▸ hpend, ⟨slot, hslot', hph, hvotes⟩, d', rfl⟩)
    (by
      rintro i s out ⟨_, _, _, d, rfl⟩ m hm j d' r rfl
      obtain ⟨k, _, _, heq⟩ := mem_broadcastPbft.mp hm
      exact absurd heq (by simp))
  -- and then `Commit`
  obtain ⟨w₄, hs₄, hpost₄, hframe₄⟩ := exchange (w := w₃) (fun d r => .commit 0 1 d r)
    (fun i hi => by
      obtain ⟨out, ⟨_, _, _, d, rfl⟩, hsent⟩ := hpost₃ i hi
      exact ⟨d, fun j hj hji => hsent _ (mem_broadcastPbft.mpr ⟨j, hj, hji, rfl⟩)⟩)
    (fun i s out => s.view = 0 ∧
      ⟨1, Payload.alt^[cfg.forkBytes 0 i] p⟩ ∈ s.committed ∧ out = [])
    (fun i hi d => by
      obtain ⟨_, ⟨hview, hpend, ⟨slot, hslot, hph, hvotes⟩, _⟩, _⟩ := hpost₃ i hi
      obtain ⟨s, habs, hview', hmem⟩ :=
        absorb_commits n cfg (i := i) d (hothers i hi).2 (nodup_others i) hslot hph
          hpend (fun r hr => by rw [hvotes, Finset.mem_singleton]; exact (mem_others.mp hr).2)
          (by rw [hvotes, Finset.card_singleton]; have := (hothers i hi).1; omega)
      rw [hview] at habs hview'
      exact ⟨s, [], habs, hview', hmem, rfl⟩)
    (by
      rintro i s out ⟨_, _, rfl⟩ m hm
      exact absurd hm (by simp))
  refine ⟨w₄, ((System.Steps.trans hr₁ hs₂).trans hs₃).trans hs₄, fun i hi => ?_,
    fun i hi => ?_⟩
  · by_cases hh : i ∈ cfg.honest n
    · obtain ⟨_, ⟨hview, _⟩, _⟩ := hpost₄ i hh
      exact hview
    · rw [hframe₄ i hh, hframe₃ i hh, hframe₂ i hh]
      by_cases h0 : i = 0
      · rw [h0, hzero]
      · rw [hinit i h0]
        rfl
  · obtain ⟨_, ⟨_, hmem, _⟩, _⟩ := hpost₄ i hi
    exact hmem

/-! ### Which configurations agree -/

/-- **Agreement in view `0`** holds exactly for the configurations in which node `0` does not
    equivocate or drops its `PrePrepare` messages. -/
theorem agreement_in_first_view_iff (hn : 1 ≤ n) (hcard : (cfg.byzantine n).card ≤ (n - 1) / 3) :
    (∀ w, (system n cfg).Reach System.anyStep w → InFirstView n w →
      Agreement w.history fun i => cfg.isByzantine i = false) ↔
    (.equivocate ∉ cfg.behaviors 0 ∨ cfg.dropsPhase 0 .pbftPrePrepare = true) := by
  constructor
  · intro hagree
    by_contra hcond
    rw [not_or, not_not, Bool.not_eq_true] at hcond
    obtain ⟨hequiv, hdrop⟩ := hcond
    have hbyz : cfg.isByzantine 0 = true := cfg.isByzantine_of_mem hequiv
    have hf : 1 ≤ (n - 1) / 3 := by
      have hmem : 0 ∈ cfg.byzantine n := cfg.mem_byzantine.mpr ⟨hn, hbyz⟩
      exact le_trans (Finset.card_pos.mpr ⟨0, hmem⟩) hcard
    have hcount := cfg.card_byzantine_add_length_honest n
    obtain ⟨w, hw, h0, hcommit⟩ := proposal_run hf hbyz (by omega) hdrop ⟨[]⟩
    -- an odd and an even honest node
    obtain ⟨i, hi, hodd⟩ := cfg.exists_honest_odd hn hcard hbyz
    obtain ⟨j, hj, heven⟩ := cfg.exists_honest_even hn hcard
    have heq := hagree w hw h0 i j (cfg.mem_honest.mp hi).2 (cfg.mem_honest.mp hj).2
      _ (mem_committedBy_of_committed hw (hcommit i hi))
      _ (mem_committedBy_of_committed hw (hcommit j hj)) rfl
    have hlen := congrArg (fun p => p.data.length) heq
    have hpos := cfg.forkBytes_pos hequiv hodd
    have hzero : cfg.forkBytes 0 j = 0 := by rw [FaultConfig.forkBytes, if_pos heven]
    simp only [FaultConfig.length_iterate_alt, hzero] at hlen
    omega
  · intro hcond w hw h0
    exact agreement_of_not_forks hw h0 hcond _

omit [Sha256] in
/-- Both sides of the equivalence fail for four nodes with an equivocating primary. -/
theorem agreement_in_first_view_iff_four :
    ((FaultConfig.withByzantine {} 0 [.equivocate]).byzantine 4).card ≤ 1 ∧
    ((∀ w, (@system Sha256.sample 4 (FaultConfig.withByzantine {} 0 [.equivocate])).Reach
        System.anyStep w → InFirstView 4 w → Agreement w.history fun i =>
          (FaultConfig.withByzantine {} 0 [.equivocate]).isByzantine i = false) ↔
      (.equivocate ∉ (FaultConfig.withByzantine {} 0 [.equivocate]).behaviors 0 ∨
        (FaultConfig.withByzantine {} 0 [.equivocate]).dropsPhase 0 .pbftPrePrepare = true)) := by
  have hcard : ((FaultConfig.withByzantine {} 0 [.equivocate]).byzantine 4).card ≤ 1 := by decide
  exact ⟨hcard, @agreement_in_first_view_iff Sha256.sample 4 _ (by decide) hcard⟩

omit [Sha256] in
/-- Node `0` of four equivocates: nodes `1` and `2` commit different payloads for sequence `1`. -/
theorem equivocating_primary_breaks_agreement : ∃ w,
    (@system Sha256.sample 4 (FaultConfig.withByzantine {} 0 [.equivocate])).Reach
      System.anyStep w ∧ InFirstView 4 w ∧
    ¬ Agreement w.history fun i =>
      (FaultConfig.withByzantine {} 0 [.equivocate]).isByzantine i = false := by
  obtain ⟨w, hw, h0, h1, h2⟩ := System.Reach.exists_of_run
    (S := @system Sha256.sample 4 (FaultConfig.withByzantine {} 0 [.equivocate]))
    (P := fun w => InFirstView 4 w ∧ committedBy w.history 1 = [⟨1, ⟨[0x70, 0xFF]⟩⟩] ∧
      committedBy w.history 2 = [⟨1, ⟨[0x70]⟩⟩])
    (.call 0 (.propose ⟨[0x70]⟩) :: [0, 0, 0, 7, 9, 4, 8, 4, 5, 10, 12, 7, 11].map .deliver)
    (by decide +kernel)
  refine ⟨w, hw, h0, fun hagree => ?_⟩
  have heq := hagree 1 2 (by decide) (by decide) ⟨1, ⟨[0x70, 0xFF]⟩⟩ (by rw [h1]; decide)
    ⟨1, ⟨[0x70]⟩⟩ (by rw [h2]; decide) rfl
  exact absurd heq (by decide)

end Pbft

end ConsensusBench
