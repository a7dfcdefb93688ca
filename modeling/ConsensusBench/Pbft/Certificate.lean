import ConsensusBench.Pbft.Ledger

namespace ConsensusBench

/-!
# PBFT: the commit certificate

A slot that is committed in view `v` rests on `2f + 1` nodes that were `Prepared` in view
`v`, each of which had `Prepare` messages of `2f` other nodes.  The voter sets of a slot
record exactly this as long as the slot is not committed:

* `Effect.slot_step` — what one step can do to a slot that is not committed afterwards.
* `votesBacked_of_reach` — every vote in such a slot is backed by the run, in the node's present
  view.  Slots that survive a view change are committed, so no vote outlives its view.
* `commit_certificate` — the certificate, and that nothing commits within fewer than
  `2f + 1` nodes.
-/

open AsyncNet PbftNode

namespace Pbft

variable [Sha256] {n : ℕ} {cfg : FaultConfig}
variable {ok : System.Guard NodeId PbftState Call NetworkMessage}
variable {w : World NodeId PbftState Call NetworkMessage}

/-! ### What a certificate says -/

/-- The phase of the slot of `q`, if there is one. -/
def phaseOf (s : PbftState) (q : SequenceNumber) : Option Phase :=
  (s.slots.lookup q).map SlotState.phase

/-- The step moves the slot of `q` to phase `ph`. -/
def Becomes (o : NodeStep PbftState) (q : SequenceNumber) (ph : Phase) : Prop :=
  phaseOf o.before q ≠ some ph ∧ phaseOf o.after q = some ph

/-- Node `j` received a `Prepare` for `(v, q)` that node `r` sent as its own. -/
def ReceivedPrepare (h : History PbftState) (j : NodeId) (v : ViewNumber) (q : SequenceNumber)
    (r : NodeId) : Prop :=
  ∃ o ∈ h, o.node = j ∧ ∃ d, o.cause = .recv ⟨r, j, .pbft (.prepare v q d r)⟩

/-- The slot of `q` at node `j` became `Prepared` while `j` was in view `v`, and by then `j`
    had received `Prepare` messages for `(v, q)` from at least `2f` other nodes. -/
def PreparedIn (n : ℕ) (h : History PbftState) (j : NodeId) (v : ViewNumber)
    (q : SequenceNumber) : Prop :=
  ∃ o h₀, (o :: h₀) <:+ h ∧ o.node = j ∧ j < n ∧ o.before.view = v ∧ Becomes o q .prepared ∧
    ∃ R : Finset NodeId, 2 * ((n - 1) / 3) ≤ R.card ∧
      ∀ r ∈ R, r ≠ j ∧ ReceivedPrepare (o :: h₀) j v q r

/-- At least `2f + 1` nodes were `Prepared` for `(v, q)`. -/
def Certified (n : ℕ) (h : History PbftState) (v : ViewNumber) (q : SequenceNumber) : Prop :=
  ∃ Q : Finset NodeId, 2 * ((n - 1) / 3) + 1 ≤ Q.card ∧ ∀ j ∈ Q, PreparedIn n h j v q

omit [Sha256] in
theorem ReceivedPrepare.cons {h : History PbftState} {j r : NodeId} {v : ViewNumber}
    {q : SequenceNumber} (hr : ReceivedPrepare h j v q r) (o : NodeStep PbftState) :
    ReceivedPrepare (o :: h) j v q r := by
  obtain ⟨o', ho', hrest⟩ := hr
  exact ⟨o', List.mem_cons_of_mem _ ho', hrest⟩

omit [Sha256] in
theorem PreparedIn.cons {h : History PbftState} {j : NodeId} {v : ViewNumber}
    {q : SequenceNumber} (hp : PreparedIn n h j v q) (o : NodeStep PbftState) :
    PreparedIn n (o :: h) j v q := by
  obtain ⟨o', h₀, hsuf, hrest⟩ := hp
  exact ⟨o', h₀, hsuf.trans (List.suffix_cons o h), hrest⟩

/-! ### What a step does to a slot -/

/-- What one step can do to the slot of `q`: the slot after it, from the slot before it. -/
inductive SlotStep (self : PbftNode) (s s' : PbftState) (c : Cause Call NetworkMessage)
    (q : SequenceNumber) : SlotState → Prop
  | keep (slot : SlotState) (hv : s'.view = s.view) (hs : s.slots.lookup q = some slot) :
      SlotStep self s s' c q slot
  | retained (slot : SlotState) (hs : s.slots.lookup q = some slot)
      (hph : slot.phase = .committed) : SlotStep self s s' c q slot
  | opened (v : ViewNumber) : SlotStep self s s' c q (openSlot v q)
  | counted (m : NetworkMessage) (d : Digest) (r : NodeId) (slot : SlotState)
      (hv : s'.view = s.view) (hc : c = .recv m)
      (hm : m.payload = .pbft (.prepare s.view q d r)) (hs : s.slots.lookup q = some slot)
      (hph : slot.phase = .prePrepared) : SlotStep self s s' c q (slot.addPrepare r)
  | prepared (m : NetworkMessage) (d : Digest) (r : NodeId) (slot : SlotState)
      (hv : s'.view = s.view) (hc : c = .recv m)
      (hm : m.payload = .pbft (.prepare s.view q d r)) (hs : s.slots.lookup q = some slot)
      (hph : slot.phase = .prePrepared)
      (hq : self.prepareThreshold ≤ (slot.addPrepare r).prepareVoters.card) :
      SlotStep self s s' c q ((slot.addPrepare r).toPrepared self.id)
  | voted (m : NetworkMessage) (d : Digest) (r : NodeId) (slot : SlotState)
      (hv : s'.view = s.view) (hc : c = .recv m)
      (hm : m.payload = .pbft (.commit s.view q d r)) (hs : s.slots.lookup q = some slot)
      (hph : slot.phase = .prepared ∨ slot.phase = .prePrepared) :
      SlotStep self s s' c q (slot.addCommit r)
  | committed (m : NetworkMessage) (d : Digest) (r : NodeId) (slot : SlotState)
      (hc : c = .recv m) (hm : m.payload = .pbft (.commit s.view q d r))
      (hq : completesQuorum self s s.view q r) :
      SlotStep self s s' c q { slot.addCommit r with phase := .committed }

omit [Sha256] in
/-- Only committed slots survive a view change. -/
theorem lookup_enterNewView {s : PbftState} {v : ViewNumber} {q : SequenceNumber}
    {slot : SlotState} (h : (enterNewView s v).slots.lookup q = some slot) :
    s.slots.lookup q = some slot ∧ slot.phase = .committed := by
  change (s.slots.retain fun _ slot => slot.phase = .committed).lookup q = some slot at h
  rw [HashMap.lookup_retain, Option.filter_eq_some_iff] at h
  exact ⟨h.1, of_decide_eq_true h.2⟩

/-- **What a step does to a slot.** -/
theorem Effect.slot_step {self : PbftNode} {s s' : PbftState} {c : Cause Call NetworkMessage}
    {out : List NetworkMessage} (h : Effect self s c s' out) {q : SequenceNumber}
    {slot : SlotState} (hs : s'.slots.lookup q = some slot) : SlotStep self s s' c q slot := by
  cases h with
  | assign p hp =>
    rcases HashMap.of_lookup_insert hs with ⟨rfl, rfl⟩ | ⟨_, hs⟩
    · exact .opened _
    · exact .keep slot rfl hs
  | accept m q' d p hm ha =>
    rcases HashMap.of_lookup_insert hs with ⟨rfl, rfl⟩ | ⟨_, hs⟩
    · exact .opened _
    · exact .keep slot rfl hs
  | countPrepare m q' d r slot' hm hs' hph =>
    rcases HashMap.of_lookup_insert hs with ⟨rfl, rfl⟩ | ⟨_, hs⟩
    · exact .counted m d r slot' rfl rfl hm hs' hph
    · exact .keep slot rfl hs
  | prepare m q' d r slot' hm hs' hph hq =>
    rcases HashMap.of_lookup_insert hs with ⟨rfl, rfl⟩ | ⟨_, hs⟩
    · exact .prepared m d r slot' rfl rfl hm hs' hph hq
    · exact .keep slot rfl hs
  | countCommit m q' d r slot' hm hs' hph =>
    rcases HashMap.of_lookup_insert hs with ⟨rfl, rfl⟩ | ⟨_, hs⟩
    · exact .voted m d r slot' rfl rfl hm hs' hph
    · exact .keep slot rfl hs
  | commitNothing m q' d r slot' hm hs' hph hq hp =>
    rcases HashMap.of_lookup_insert hs with ⟨rfl, rfl⟩ | ⟨_, hs⟩
    · exact .committed m d r slot' rfl hm ⟨rfl, slot', hs', hph, hq⟩
    · exact .keep slot rfl hs
  | commit m q' d r slot' p hm hs' hph hq hp =>
    rcases HashMap.of_lookup_insert hs with ⟨rfl, rfl⟩ | ⟨_, hs⟩
    · exact .committed m d r slot' rfl hm ⟨rfl, slot', hs', hph, hq⟩
    · exact .keep slot rfl hs
  | install m v r l votes out hm hv hvotes hq hp =>
    obtain ⟨hs, hph⟩ := lookup_enterNewView (v := v) hs
    exact .retained slot hs hph
  | adopt m v ns hm hv =>
    obtain ⟨hs, hph⟩ := lookup_enterNewView (v := v) hs
    exact .retained slot hs hph
  | _ => exact .keep slot rfl hs

omit [Sha256] in
/-- A slot that has come to a phase has changed. -/
theorem slot_changed {s s' : PbftState} {q : SequenceNumber} {ph : Phase}
    (hold : phaseOf s q ≠ some ph) (hnew : phaseOf s' q = some ph) :
    ∃ slot, s'.slots.lookup q = some slot ∧ slot.phase = ph ∧ s.slots.lookup q ≠ some slot := by
  obtain ⟨slot, hs, hph⟩ := Option.map_eq_some_iff.mp hnew
  refine ⟨slot, hs, hph, fun hs' => hold ?_⟩
  rw [phaseOf, hs', Option.map_some, hph]

/-- A slot becomes committed by a `Commit` that completes its quorum. -/
theorem Effect.becomes_committed {self : PbftNode} {s s' : PbftState}
    {c : Cause Call NetworkMessage} {out : List NetworkMessage} (h : Effect self s c s' out)
    {q : SequenceNumber} (hold : phaseOf s q ≠ some .committed)
    (hnew : phaseOf s' q = some .committed) :
    ∃ m d r, c = .recv m ∧ m.payload = .pbft (.commit s.view q d r) ∧
      completesQuorum self s s.view q r := by
  obtain ⟨slot, hs, hph, hchanged⟩ := slot_changed hold hnew
  cases h.slot_step hs with
  | keep _ hv hs' => exact absurd hs' hchanged
  | retained _ hs' => exact absurd hs' hchanged
  | opened v => exact absurd hph (by simp [openSlot])
  | counted m d r slot' hv hc hm hs' hph' => exact absurd (hph'.symm.trans hph) (by simp)
  | prepared m d r slot' => exact absurd hph (by simp [SlotState.toPrepared])
  | voted m d r slot' hv hc hm hs' hph' =>
    have hph : slot'.phase = .committed := hph
    rcases hph' with hp | hp <;> exact absurd (hp.symm.trans hph) (by simp)
  | committed m d r slot' hc hm hq => exact ⟨m, d, r, hc, hm, hq⟩

/-- A slot becomes prepared by receiving a `Prepare`. -/
theorem Effect.becomes_prepared {self : PbftNode} {s s' : PbftState}
    {c : Cause Call NetworkMessage} {out : List NetworkMessage} (h : Effect self s c s' out)
    {q : SequenceNumber} (hold : phaseOf s q ≠ some .prepared)
    (hnew : phaseOf s' q = some .prepared) : ∃ m, c = .recv m := by
  obtain ⟨slot, hs, hph, hchanged⟩ := slot_changed hold hnew
  cases h.slot_step hs with
  | keep _ hv hs' => exact absurd hs' hchanged
  | retained _ hs' => exact absurd hs' hchanged
  | opened v => exact absurd hph (by simp [openSlot])
  | counted m d r slot' hv hc => exact ⟨m, hc⟩
  | prepared m d r slot' hv hc => exact ⟨m, hc⟩
  | voted m d r slot' hv hc => exact ⟨m, hc⟩
  | committed m d r slot' hc => exact ⟨m, hc⟩

/-! ### Votes are backed by the run -/

/-- What the votes in a slot of node `i` for `(v, q)` stand for. -/
structure SlotVotes (n : ℕ) (h : History PbftState) (i : NodeId) (v : ViewNumber)
    (q : SequenceNumber) (slot : SlotState) : Prop where
  prepares : ∀ r ∈ slot.prepareVoters, r ≠ i ∧ ReceivedPrepare h i v q r
  commits : ∀ r ∈ slot.commitVoters, PreparedIn n h r v q

omit [Sha256] in
theorem SlotVotes.cons {h : History PbftState} {i : NodeId} {v : ViewNumber}
    {q : SequenceNumber} {slot : SlotState} (hv : SlotVotes n h i v q slot)
    (o : NodeStep PbftState) : SlotVotes n (o :: h) i v q slot where
  prepares r hr := ⟨(hv.prepares r hr).1, (hv.prepares r hr).2.cons o⟩
  commits r hr := (hv.commits r hr).cons o

omit [Sha256] in
theorem slotVotes_openSlot (h : History PbftState) (i : NodeId) (v v' : ViewNumber)
    (q : SequenceNumber) : SlotVotes n h i v q (openSlot v' q) where
  prepares r hr := absurd hr (by simp [openSlot, SlotState.new])
  commits r hr := absurd hr (by simp [openSlot, SlotState.new])

omit [Sha256] in
/-- A received `Prepare` that its sender signed counts. -/
theorem SlotVotes.addPrepare {h : History PbftState} {i r : NodeId} {v : ViewNumber}
    {q : SequenceNumber} {slot : SlotState} (hv : SlotVotes n h i v q slot) (hne : r ≠ i)
    (hr : ReceivedPrepare h i v q r) : SlotVotes n h i v q (slot.addPrepare r) where
  prepares r' hr' := by
    rcases Finset.mem_insert.mp hr' with rfl | hr'
    · exact ⟨hne, hr⟩
    · exact hv.prepares r' hr'
  commits := hv.commits

omit [Sha256] in
/-- A `Commit` of a prepared node counts. -/
theorem SlotVotes.addCommit {h : History PbftState} {i r : NodeId} {v : ViewNumber}
    {q : SequenceNumber} {slot : SlotState} (hv : SlotVotes n h i v q slot)
    (hr : PreparedIn n h r v q) : SlotVotes n h i v q (slot.addCommit r) where
  prepares := hv.prepares
  commits r' hr' := by
    rcases Finset.mem_insert.mp hr' with rfl | hr'
    · exact hr
    · exact hv.commits r' hr'

/-! ### Votes on the wire -/

omit [Sha256] in
/-- A message with the skeleton of a `Prepare` is that `Prepare`, up to its digest. -/
theorem prepare_of_skeleton {x : PbftMessage} {v : ViewNumber} {q : SequenceNumber}
    {d : Digest} {r : NodeId}
    (h : FaultConfig.skeleton (.pbft (.prepare v q d r)) = FaultConfig.skeleton (.pbft x)) :
    ∃ d', x = .prepare v q d' r := by
  cases x <;> simp_all [FaultConfig.skeleton]

omit [Sha256] in
/-- A message with the skeleton of a `Commit` is that `Commit`, up to its digest. -/
theorem commit_of_skeleton {x : PbftMessage} {v : ViewNumber} {q : SequenceNumber}
    {d : Digest} {r : NodeId}
    (h : FaultConfig.skeleton (.pbft (.commit v q d r)) = FaultConfig.skeleton (.pbft x)) :
    ∃ d', x = .commit v q d' r := by
  cases x <;> simp_all [FaultConfig.skeleton]

/-- A received `Prepare` carries the name of the node that sent it, which is another one. -/
theorem prepare_source (hw : (system n cfg).Reach ok w) {o : NodeStep PbftState}
    (hf : (system n cfg).Fires w o) {m : NetworkMessage} (hc : o.cause = .recv m)
    {v : ViewNumber} {q : SequenceNumber} {d : Digest} {r : NodeId}
    (hm : m.payload = .pbft (.prepare v q d r)) :
    r ≠ o.node ∧ m = ⟨r, o.node, .pbft (.prepare v q d r)⟩ := by
  obtain ⟨htarget, hne, o₀, _, x, _, _, hsender, _, hskel, hsaid⟩ := recv_source hw hf hc
  rw [hm] at hskel
  obtain ⟨d', rfl⟩ := prepare_of_skeleton hskel
  have hr : r = o₀.node := by
    cases hsaid with
    | ownPrepare p hc' hp => rfl
    | prepare m' q d p hc' hm' ha => rfl
  rw [hr, ← hsender]
  refine ⟨hne, ?_⟩
  rw [← htarget, hsender, ← hr, ← hm, hr, ← hsender]

/-- The run so far backs every vote: those a node holds in slots that are not committed, for
    the view it is in, and those that were sent. -/
structure VotesBacked (n : ℕ) (nodes : NodeId → PbftState) (h : History PbftState) : Prop where
  slots : ∀ i q slot, (nodes i).slots.lookup q = some slot → slot.phase ≠ .committed →
    SlotVotes n h i (nodes i).view q slot
  commits : ∀ o ∈ h, ∀ j v q d r, ⟨o.node, j, .pbft (.commit v q d r)⟩ ∈ o.sent →
    PreparedIn n h r v q

omit [Sha256] in
/-- A node that becomes `Prepared` on the votes in its slot, the last of them just received. -/
theorem preparedIn_of_step {h : History PbftState} {o : NodeStep PbftState} (hmem : o.node < n)
    {q : SequenceNumber} {d : Digest} {r : NodeId} {slot : SlotState}
    (hc : o.cause = .recv ⟨r, o.node, .pbft (.prepare o.before.view q d r)⟩) (hne : r ≠ o.node)
    (hs : o.before.slots.lookup q = some slot) (hph : slot.phase = .prePrepared)
    (hq : 2 * ((n - 1) / 3) ≤ (slot.addPrepare r).prepareVoters.card)
    (hs' : o.after.slots.lookup q = some ((slot.addPrepare r).toPrepared o.node))
    (hv : SlotVotes n h o.node o.before.view q slot) :
    PreparedIn n (o :: h) o.node o.before.view q := by
  refine ⟨o, h, List.suffix_rfl, rfl, hmem, rfl, ⟨?_, ?_⟩, _, hq, ?_⟩
  · rw [phaseOf, hs, Option.map_some, hph]
    decide
  · rw [phaseOf, hs', Option.map_some]
    rfl
  · exact ((hv.cons o).addPrepare hne ⟨o, List.mem_cons_self, rfl, d, hc⟩).prepares

/-- **Every vote is backed**, in every run. -/
theorem votesBacked_of_reach (hw : (system n cfg).Reach ok w) :
    VotesBacked n w.nodes w.history := by
  refine System.Reach.induct (N := VotesBacked n) ⟨?_, ?_⟩ ?_ hw
  · intro i q slot hs
    exact absurd hs (by simp [system, PbftNode.new])
  · intro o ho
    exact absurd ho (by simp)
  · intro w o hr ih _ hf
    have heff := effect_of_fires hf
    have hmem : o.node < n := Finset.mem_range.mp hf.node_mem
    -- the slots of the stepping node, before the step
    have hbefore : ∀ q slot, o.before.slots.lookup q = some slot → slot.phase ≠ .committed →
        SlotVotes n w.history o.node o.before.view q slot := by
      intro q slot hs hph
      rw [hf.before_eq] at hs ⊢
      exact ih.slots o.node q slot hs hph
    refine ⟨fun i q slot hs hph => ?_, fun o₁ ho₁ j v q d r hm => ?_⟩
    · by_cases hi : i = o.node
      · subst hi
        rw [Function.update_self] at hs ⊢
        cases heff.slot_step hs with
        | keep _ hv hs₀ => rw [hv]; exact (hbefore q slot hs₀ hph).cons o
        | retained _ hs₀ hph₀ => exact absurd hph₀ hph
        | opened v => exact slotVotes_openSlot _ _ _ _ _
        | counted m d r slot₀ hv hc hm hs₀ hph₀ =>
          obtain ⟨hne, hm'⟩ := prepare_source hr hf hc hm
          rw [hv]
          exact ((hbefore q slot₀ hs₀ (by rw [hph₀]; decide)).cons o).addPrepare hne
            ⟨o, List.mem_cons_self, rfl, d, hm' ▸ hc⟩
        | prepared m d r slot₀ hv hc hm hs₀ hph₀ hq =>
          obtain ⟨hne, hm'⟩ := prepare_source hr hf hc hm
          have hvotes := hbefore q slot₀ hs₀ (by rw [hph₀]; decide)
          have hself := preparedIn_of_step hmem (hm' ▸ hc) hne hs₀ hph₀ hq hs hvotes
          rw [hv]
          have hadd := (hvotes.cons o).addPrepare hne ⟨o, List.mem_cons_self, rfl, d, hm' ▸ hc⟩
          exact ⟨hadd.prepares, (hadd.addCommit hself).commits⟩
        | voted m d r slot₀ hv hc hm hs₀ hph₀ =>
          have hvotes := hbefore q slot₀ hs₀ (by rcases hph₀ with h | h <;> rw [h] <;> decide)
          obtain ⟨_, _, o₀, ho₀, x, hsent, _, _, _, hskel, _⟩ := recv_source hr hf hc
          rw [hm] at hskel
          obtain ⟨d', rfl⟩ := commit_of_skeleton hskel
          rw [hv]
          exact (hvotes.addCommit (ih.commits o₀ ho₀ _ _ _ _ _ hsent)).cons o
        | committed m d r slot₀ => exact absurd rfl hph
      · rw [Function.update_of_ne hi] at hs ⊢
        exact (ih.slots i q slot hs hph).cons o
    · rcases List.mem_cons.mp ho₁ with rfl | ho₁
      · obtain ⟨j', x, _, _, hx, hsaid⟩ := heff.sent_said hm
        cases hx
        cases hsaid with
        | commit m' q d r' slot hc hm' hs hph hq hs' =>
          obtain ⟨hne, hm''⟩ := prepare_source hr hf hc hm'
          exact preparedIn_of_step hmem (hm'' ▸ hc) hne hs hph hq hs'
            (hbefore q slot hs (by rw [hph]; decide))
      · exact (ih.commits o₁ ho₁ j v q d r hm).cons o

/-! ### The certificate -/

/-- A `Commit` that completes a quorum completes a certificate. -/
theorem certified_of_quorum (hw : (system n cfg).Reach ok w) {o : NodeStep PbftState}
    (hf : (system n cfg).Fires w o) {m : NetworkMessage} (hc : o.cause = .recv m)
    {q : SequenceNumber} {d : Digest} {r : NodeId}
    (hm : m.payload = .pbft (.commit o.before.view q d r))
    (hq : completesQuorum (node n o.node) o.before o.before.view q r) :
    Certified n w.history o.before.view q := by
  obtain ⟨_, slot, hs, hph, hcard⟩ := hq
  have hinv := votesBacked_of_reach hw
  have hvotes : SlotVotes n w.history o.node o.before.view q slot := by
    rw [hf.before_eq] at hs ⊢
    exact hinv.slots o.node q slot hs (by rcases hph with h | h <;> rw [h] <;> decide)
  obtain ⟨_, _, o₀, ho₀, x, hsent, _, _, _, hskel, _⟩ := recv_source hw hf hc
  rw [hm] at hskel
  obtain ⟨d', rfl⟩ := commit_of_skeleton hskel
  have hlast := hinv.commits o₀ ho₀ _ _ _ _ _ hsent
  exact ⟨_, hcard, (hvotes.addCommit hlast).commits⟩

/-- Only nodes of `C` exchange messages. -/
def Within (C : Finset NodeId) (h : History PbftState) : Prop :=
  ∀ o ∈ h, ∀ m, o.cause = .recv m → m.sender ∈ C ∧ m.target ∈ C

/-- A node that became `Prepared` has received a message. -/
theorem preparedIn_within (hw : (system n cfg).Reach ok w) {C : Finset NodeId}
    (hC : Within C w.history) {j : NodeId} {v : ViewNumber} {q : SequenceNumber}
    (hp : PreparedIn n w.history j v q) : j ∈ C := by
  obtain ⟨o, h₀, hsuf, hnode, _, _, hbecomes, _⟩ := hp
  obtain ⟨w₀, hr₀, _, hf₀, _⟩ := hw.fired_suffix o h₀ hsuf
  obtain ⟨m, hc⟩ := (effect_of_fires hf₀).becomes_prepared hbecomes.1 hbecomes.2
  have htarget := (recv_source hr₀ hf₀ hc).1
  rw [← hnode, ← htarget]
  exact (hC o (hsuf.subset List.mem_cons_self) m hc).2

/-- There is no certificate within fewer than `2f + 1` nodes. -/
theorem not_certified_within (hw : (system n cfg).Reach ok w) {C : Finset NodeId}
    (hcard : C.card < 2 * ((n - 1) / 3) + 1) (hC : Within C w.history) {v : ViewNumber}
    {q : SequenceNumber} : ¬ Certified n w.history v q := by
  rintro ⟨Q, hQ, hprep⟩
  have hsub : Q ⊆ C := fun j hj => preparedIn_within hw hC (hprep j hj)
  have hle := Finset.card_le_card hsub
  omega

/-- **The commit certificate.**  When a slot becomes committed in view `v`, at least `2f + 1`
    nodes have been `Prepared` for it in view `v`, each on `Prepare` messages of `2f` others.
    So nothing commits while fewer than `2f + 1` nodes exchange messages. -/
theorem commit_certificate (hw : (system n cfg).Reach System.anyStep w) :
    (∀ o h₀, (o :: h₀) <:+ w.history → ∀ q, Becomes o q .committed →
      Certified n h₀ o.before.view q) ∧
    ∀ C : Finset NodeId, C.card < 2 * ((n - 1) / 3) + 1 → Within C w.history →
      ∀ o ∈ w.history, emitted o = [] ∧ ∀ q, ¬ Becomes o q .committed := by
  have hcert : ∀ o h₀, (o :: h₀) <:+ w.history → ∀ q, Becomes o q .committed →
      Certified n h₀ o.before.view q := by
    rintro o h₀ hsuf q ⟨hold, hnew⟩
    obtain ⟨w₀, hr₀, _, hf₀, rfl⟩ := hw.fired_suffix o h₀ hsuf
    obtain ⟨m, d, r, hc, hm, hq⟩ := (effect_of_fires hf₀).becomes_committed hold hnew
    exact certified_of_quorum hr₀ hf₀ hc hm hq
  refine ⟨hcert, fun C hcard hC o ho => ?_⟩
  obtain ⟨w₀, hr₀, _, hf₀, hsuf⟩ := hw.fired o ho
  have hC₀ : Within C w₀.history :=
    fun o' ho' => hC o' (hsuf.subset (List.mem_cons_of_mem _ ho'))
  constructor
  · rw [List.eq_nil_iff_forall_not_mem]
    intro e he
    obtain ⟨m, d, r, hc, hm, hq, _⟩ := (effect_of_fires hf₀).commit_inv he
    exact not_certified_within hr₀ hcard hC₀ (certified_of_quorum hr₀ hf₀ hc hm hq)
  · intro q hq
    exact not_certified_within hr₀ hcard hC₀ (hcert o w₀.history hsuf q hq)

omit [Sha256] in
/-- Node `0` of four commits sequence `1`, on the votes of nodes `0`, `1` and `2`. -/
theorem commit_certificate_four : ∃ w,
    (@system Sha256.sample 4 {}).Reach System.anyStep w ∧
      committedBy w.history 0 = [⟨1, ⟨[0x70]⟩⟩] ∧
      (∀ o h₀, (o :: h₀) <:+ w.history → ∀ q, Becomes o q .committed →
        Certified 4 h₀ o.before.view q) ∧
      ∀ C : Finset NodeId, C.card < 3 → Within C w.history →
        ∀ o ∈ w.history, emitted o = [] ∧ ∀ q, ¬ Becomes o q .committed := by
  obtain ⟨w, hw, hcommitted⟩ := System.Reach.exists_of_run (S := @system Sha256.sample 4 {})
    (P := fun w => committedBy w.history 0 = [⟨1, ⟨[0x70]⟩⟩]) (commitRun ⟨[0x70]⟩)
    (by decide +kernel)
  exact ⟨w, hw, hcommitted, @commit_certificate Sha256.sample 4 {} w hw⟩

end Pbft

end ConsensusBench
