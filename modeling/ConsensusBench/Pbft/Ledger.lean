import ConsensusBench.Commits
import ConsensusBench.Pbft.Step

namespace ConsensusBench

/-!
# PBFT keeps a ledger

`pending_payloads` is the ledger of a PBFT node: proposing and accepting a `PrePrepare` bind
a payload in the present view, committing takes it out, entering a view clears it
(`kept`).  Whether slots, votes and quorums are right plays no part in what is committed
under which sequence; that is decided by what is bound.

* `Effect.sent_said`, `recv_source` — what a node sends, and where a received message comes
  from.
* `move_of_effect` — every step is a move of the ledger.
-/

open AsyncNet PbftNode

namespace Pbft

variable [Sha256] {n : ℕ} {cfg : FaultConfig}

/-! ### Messages a node sends -/

omit [Sha256] in
/-- A broadcast goes to every other node. -/
theorem mem_broadcastPbft {i : NodeId} {x : PbftMessage} {m : NetworkMessage} :
    m ∈ (node n i).broadcastPbft x ↔ ∃ j, j < n ∧ j ≠ i ∧ m = ⟨i, j, .pbft x⟩ :=
  mem_map_peerIds

omit [Sha256] in
theorem eq_of_mem_broadcastPbft {i : NodeId} {x y : PbftMessage} {m : NetworkMessage}
    (hm : m ∈ (node n i).broadcastPbft x) (hpl : m.payload = .pbft y) : x = y := by
  obtain ⟨j, _, _, rfl⟩ := mem_broadcastPbft.mp hm
  exact ProtocolMessage.pbft.inj hpl

/-- What a node may say in a step from `s` to `s'` caused by `c`; it is broadcast. -/
inductive Says (self : PbftNode) (s s' : PbftState) (c : Cause Call NetworkMessage) :
    PbftMessage → Prop
  | prePrepare (p : Payload) (hc : c = .call (.propose p)) (hp : canPropose self s) :
      Says self s s' c (.prePrepare s.view s.nextSequence p.digest p)
  | ownPrepare (p : Payload) (hc : c = .call (.propose p)) (hp : canPropose self s) :
      Says self s s' c (.prepare s.view s.nextSequence p.digest self.id)
  | prepare (m : NetworkMessage) (q : SequenceNumber) (d : Digest) (p : Payload)
      (hc : c = .recv m) (hm : m.payload = .pbft (.prePrepare s.view q d p))
      (ha : canAccept s s.view) : Says self s s' c (.prepare s.view q d self.id)
  | commit (m : NetworkMessage) (q : SequenceNumber) (d : Digest) (r : NodeId)
      (slot : SlotState) (hc : c = .recv m) (hm : m.payload = .pbft (.prepare s.view q d r))
      (hs : s.slots.lookup q = some slot) (hph : slot.phase = .prePrepared)
      (hq : self.prepareThreshold ≤ (slot.addPrepare r).prepareVoters.card)
      (hs' : s'.slots.lookup q = some ((slot.addPrepare r).toPrepared self.id)) :
      Says self s s' c (.commit s.view q d self.id)
  | viewChange (v : ViewNumber) (hv : s.view < v) :
      Says self s s' c (.viewChange v self.id s.highestCommittedSeq)
  | newView (v : ViewNumber) (hv : s.view < v) (hp : self.primaryForView v = self.id) :
      Says self s s' c (.newView v (s.highestCommittedSeq + 1))

/-- **What a node sends**: something it may say, signed, to another node. -/
theorem Effect.sent_said {i : NodeId} {s s' : PbftState} {c : Cause Call NetworkMessage}
    {out : List NetworkMessage} (h : Effect (node n i) s c s' out) {m : NetworkMessage}
    (hm : m ∈ out) :
    ∃ j x, j < n ∧ j ≠ i ∧ m = ⟨i, j, .pbft x⟩ ∧ Says (node n i) s s' c x := by
  have hb : ∀ {x}, Says (node n i) s s' c x → m ∈ (node n i).broadcastPbft x →
      ∃ j x, j < n ∧ j ≠ i ∧ m = ⟨i, j, .pbft x⟩ ∧ Says (node n i) s s' c x := by
    intro x hx hmem
    obtain ⟨j, hj, hne, rfl⟩ := mem_broadcastPbft.mp hmem
    exact ⟨j, x, hj, hne, rfl, hx⟩
  cases h with
  | timeout => exact hb (.viewChange _ (Nat.lt_succ_self _)) hm
  | assign p hp =>
    rcases List.mem_append.mp hm with hm | hm
    · exact hb (.prePrepare p rfl hp) hm
    · exact hb (.ownPrepare p rfl hp) hm
  | accept m' q d p hm' ha => exact hb (.prepare m' q d p rfl hm' ha) hm
  | prepare m' q d r slot hm' hs hph hq =>
    exact hb (.commit m' q d r slot rfl hm' hs hph hq (AList.lookup_insert _)) hm
  | vote m' v r l votes out hm' hv hvotes =>
    exact hb (.viewChange v hv) (mem_of_joined hm hvotes)
  | install m' v r l votes out hm' hv hvotes hq hp =>
    rcases List.mem_append.mp hm with hm | hm
    · exact hb (.viewChange v hv) (mem_of_joined hm hvotes)
    · exact hb (.newView v hv hp) hm
  | _ => exact absurd hm (by simp)

/-- Where a received message comes from: a step of its sender sent it, and up to digest and
    payload it arrived as it was sent. -/
theorem recv_source {ok : System.Guard NodeId PbftState Call NetworkMessage}
    {w : World NodeId PbftState Call NetworkMessage} (hw : (system n cfg).Reach ok w)
    {o : NodeStep PbftState} (hf : (system n cfg).Fires w o) {m' : NetworkMessage}
    (hc : o.cause = .recv m') : m'.target = o.node ∧ m'.sender ≠ o.node ∧
      ∃ o₀ ∈ w.history, ∃ x, ⟨o₀.node, o.node, .pbft x⟩ ∈ o₀.sent ∧
        cfg.tamper ⟨o₀.node, o.node, .pbft x⟩ = [m'] ∧ m'.sender = o₀.node ∧ o₀.node < n ∧
        FaultConfig.skeleton m'.payload = FaultConfig.skeleton (.pbft x) ∧
        Says (node n o₀.node) o₀.before o₀.after o₀.cause x := by
  obtain ⟨htarget, o₀, ho₀, m, hmo, hcarry⟩ := hf.recv_inv hc
  obtain ⟨w₁, _, _, hf₁, _⟩ := hw.fired o₀ ho₀
  obtain ⟨j, x, _, hne, rfl, hsaid⟩ := (effect_of_fires hf₁).sent_said hmo
  have htamper : cfg.tamper ⟨o₀.node, j, .pbft x⟩ = [m'] := hcarry
  obtain ⟨hsender, hdst, hskel⟩ :=
    cfg.frame_of_mem (by rw [htamper]; exact List.mem_singleton_self m')
  obtain rfl : j = o.node := hdst.symm.trans htarget
  refine ⟨htarget, ?_, o₀, ho₀, x, hmo, htamper, hsender, Finset.mem_range.mp hf₁.node_mem, hskel,
    hsaid⟩
  rw [hsender]
  exact hne.symm

/-! ### The ledger -/

/-- The view, sequence and payload a step assigns: an accepted `propose`. -/
def assigns (n : ℕ) (o : NodeStep PbftState) :
    Option (ViewNumber × SequenceNumber × Payload) :=
  match o.cause with
  | .call (.propose p) =>
      if canPropose (node n o.node) o.before then
        some (o.before.view, o.before.nextSequence, p)
      else none
  | _ => none

/-- The view, sequence and payload a step accepts from a `PrePrepare`. -/
def accepts (o : NodeStep PbftState) : Option (ViewNumber × SequenceNumber × Payload) :=
  match o.cause with
  | .recv ⟨_, _, .pbft (.prePrepare v q _ p)⟩ =>
      if canAccept o.before v then some (v, q, p) else none
  | _ => none

/-- The ledger of a PBFT node. -/
def ledger (n : ℕ) :
    Ledger NodeId PbftState Call NetworkMessage ViewNumber SequenceNumber Payload where
  view := PbftState.view
  bound s q := s.pendingPayloads.lookup q
  binds o := (assigns n o).or (accepts o)
  commits := commitsOf

omit [Sha256] in
/-- `assigns`, read backwards. -/
theorem assigns_eq_some {o : NodeStep PbftState} {v : ViewNumber} {q : SequenceNumber}
    {p : Payload} : assigns n o = some (v, q, p) ↔ o.cause = .call (.propose p) ∧
      canPropose (node n o.node) o.before ∧ v = o.before.view ∧ q = o.before.nextSequence := by
  show assignedBy (canPropose (node n o.node) o.before) o.before.view o.before.nextSequence
    o.cause = some (v, q, p) ↔ _
  exact assignedBy_eq_some

omit [Sha256] in
/-- `accepts`, read backwards. -/
theorem accepts_eq_some {o : NodeStep PbftState} {v : ViewNumber} {q : SequenceNumber}
    {p : Payload} : accepts o = some (v, q, p) ↔ ∃ m d, o.cause = .recv m ∧
      m.payload = .pbft (.prePrepare v q d p) ∧ canAccept o.before v := by
  unfold accepts
  split
  · rename_i i j v' q' d p' hc
    by_cases hp : canAccept o.before v'
    · simp only [hp, if_true, Option.some.injEq, Prod.mk.injEq, hc, Cause.recv.injEq]
      constructor
      · rintro ⟨rfl, rfl, rfl⟩; exact ⟨_, d, rfl, rfl, hp⟩
      · rintro ⟨m, d', rfl, hm, _⟩; cases hm; exact ⟨rfl, rfl, rfl⟩
    · simp only [hp, if_false, hc, Cause.recv.injEq]
      constructor
      · intro h; exact absurd h (by simp)
      · rintro ⟨m, d', rfl, hm, hcan⟩; cases hm; exact absurd hcan hp
  · rename_i hc
    constructor
    · intro h; exact absurd h (by simp)
    · rintro ⟨⟨i, j, pl⟩, d, hcause, rfl, _⟩
      exact absurd hcause (hc i j v q d p)

omit [Sha256] in
/-- Calls of `propose` and accepted `PrePrepare` messages bind payloads. -/
theorem boundBy (n : ℕ) : BoundBy (ledger n) (assigns n) accepts where
  binds _ := rfl
  propose _ _ ha := (assigns_eq_some.mp ha).1
  receive _ _ ha := by
    obtain ⟨m, _, hc, _⟩ := accepts_eq_some.mp ha
    exact ⟨m, hc⟩

section Move

variable {o : NodeStep PbftState}

omit [Sha256] in
/-- A step that leaves the queue alone commits nothing. -/
theorem commits_eq_nil (h : o.after.committed = o.before.committed) :
    (ledger n).commits o = [] :=
  commitsOf_eq_nil h

omit [Sha256] in
/-- A step that appends an entry to the queue commits it. -/
theorem commits_eq {q : SequenceNumber} {p : Payload}
    (h : o.after.committed = o.before.committed ++ [⟨q, p⟩]) :
    (ledger n).commits o = [(q, p)] :=
  commitsOf_eq h

omit [Sha256] in
/-- A step that neither proposes nor receives a `PrePrepare` binds nothing. -/
theorem binds_eq_none (hc : ∀ p, o.cause = .call (.propose p) →
      ¬ canPropose (node n o.node) o.before)
    (hm : ∀ m v q d p, o.cause = .recv m → m.payload = .pbft (.prePrepare v q d p) →
      ¬ canAccept o.before v) : (ledger n).binds o = none := by
  refine (boundBy n).eq_none (fun e ha => ?_) fun e ha => ?_
  · obtain ⟨hcause, hcan, _⟩ := assigns_eq_some.mp ha
    exact hc _ hcause hcan
  · obtain ⟨m, d, hcause, hpl, hcan⟩ := accepts_eq_some.mp ha
    exact hm m _ _ d _ hcause hpl hcan

omit [Sha256] in
/-- Receiving anything but a `PrePrepare` binds nothing. -/
theorem binds_recv {m : NetworkMessage} {x : PbftMessage} (hc : o.cause = .recv m)
    (hm : m.payload = .pbft x) (hx : ∀ v q d p, x ≠ .prePrepare v q d p) :
    (ledger n).binds o = none := by
  refine (boundBy n).of_recv hc fun e ha => ?_
  obtain ⟨m', d, hcause, hpl, _⟩ := accepts_eq_some.mp ha
  obtain rfl : m' = m := Cause.recv.inj (hcause.symm.trans hc)
  exact hx _ _ d _ (ProtocolMessage.pbft.inj (hm.symm.trans hpl))

/-- **PBFT keeps its ledger**: every step is a ledger move. -/
theorem move_of_effect {i : NodeId} {c : Cause Call NetworkMessage} {s s' : PbftState}
    {out : List NetworkMessage} (h : Effect (node n i) s c s' out) :
    Move s.view s'.view (fun q => s.pendingPayloads.lookup q)
      (fun q => s'.pendingPayloads.lookup q) ((ledger n).binds ⟨i, c, s, s', out⟩)
      ((ledger n).commits ⟨i, c, s, s', out⟩) := by
  cases h with
  | ignore c hc hm => exact .idle_of (binds_eq_none hc hm) (commits_eq_nil rfl) rfl rfl
  | poll =>
    refine .idle_of ((boundBy n).of_call rfl (by simp)) ?_ rfl rfl
    simp [ledger, commitsOf, emitted, CommitQueue.committed]
  | tickDown => exact .idle_of ((boundBy n).of_call rfl (by simp)) (commits_eq_nil rfl) rfl rfl
  | timeout => exact .idle_of ((boundBy n).of_call rfl (by simp)) (commits_eq_nil rfl) rfl rfl
  | assign p hp =>
    rw [(boundBy n).of_assigns (assigns_eq_some.mpr ⟨rfl, hp, rfl, rfl⟩), commits_eq_nil (by rfl)]
    exact .bind s.nextSequence p rfl (HashMap.lookup_insert_eq_update _ _ _)
  | accept m q d p hm ha =>
    rw [(boundBy n).of_accepts (accepts_eq_some.mpr ⟨m, d, rfl, hm, ha⟩), commits_eq_nil (by rfl)]
    exact .bind q p rfl (HashMap.lookup_insert_eq_update _ _ _)
  | countPrepare m q d r slot hm =>
    exact .idle_of (binds_recv rfl hm (by simp)) (commits_eq_nil rfl) rfl rfl
  | prepare m q d r slot hm =>
    exact .idle_of (binds_recv rfl hm (by simp)) (commits_eq_nil rfl) rfl rfl
  | countCommit m q d r slot hm =>
    exact .idle_of (binds_recv rfl hm (by simp)) (commits_eq_nil rfl) rfl rfl
  | commitNothing m q d r slot hm =>
    exact .idle_of (binds_recv rfl hm (by simp)) (commits_eq_nil rfl) rfl rfl
  | commit m q d r slot p hm hs hph hq hp =>
    rw [binds_recv rfl hm (by simp), commits_eq (q := q) (p := p) (by rfl)]
    exact .commit q p rfl hp (HashMap.lookup_erase_eq_update _ _)
  | vote m v r l votes out hm =>
    exact .idle_of (binds_recv rfl hm (by simp)) (commits_eq_nil rfl) rfl rfl
  | install m v r l votes out hm hv =>
    -- entering a view drops what is pending
    exact .enter_of (binds_recv rfl hm (by simp)) (commits_eq_nil rfl) hv rfl
  | adopt m v ns hm hv =>
    exact .enter_of (binds_recv rfl hm (by simp)) (commits_eq_nil rfl) hv rfl

end Move

theorem kept (ok : System.Guard NodeId PbftState Call NetworkMessage) :
    (ledger n).Kept (system n cfg) ok where
  init _ _ := rfl
  move _ _ _ hf := move_of_effect (effect_of_fires hf)

/-- A step extends the queue of the node or drains it. -/
theorem Effect.queue {self : PbftNode} {s s' : PbftState} {c : Cause Call NetworkMessage}
    {out : List NetworkMessage} (h : Effect self s c s' out) :
    (∃ es, s'.committed = s.committed ++ es) ∨ s'.committed = [] := by
  by_cases hc : c = .call .pollCommitted
  · subst hc
    cases h with
    | poll => exact .inr rfl
    | ignore => exact .inl ⟨[], (List.append_nil _).symm⟩
  · exact .inl (h.queue_grows hc)

/-- A step that commits receives the `Commit` that completes the quorum. -/
theorem Effect.commit_inv {i : NodeId} {s s' : PbftState} {c : Cause Call NetworkMessage}
    {out : List NetworkMessage} (h : Effect (node n i) s c s' out) {e : CommittedEntry}
    (he : e ∈ emitted (⟨i, c, s, s', out⟩ : NodeStep PbftState)) :
    ∃ m d r, c = .recv m ∧ m.payload = .pbft (.commit s.view e.sequence d r) ∧
      completesQuorum (node n i) s s.view e.sequence r ∧
      s.pendingPayloads.lookup e.sequence = some e.payload := by
  have hnone : ∀ {c : Cause Call NetworkMessage} {s' : PbftState} {out : List NetworkMessage},
      s'.committed = s.committed → e ∉ emitted (⟨i, c, s, s', out⟩ : NodeStep PbftState) := by
    intro c s' out hs hmem
    rw [emitted_eq_nil hs] at hmem
    exact absurd hmem (by simp)
  cases h with
  | commit m q d r slot p hm hs hph hq hp =>
    have hone : e ∈ [(⟨q, p⟩ : CommittedEntry)] := by rwa [emitted_eq (by rfl)] at he
    rw [List.mem_singleton] at hone
    subst hone
    exact ⟨m, d, r, rfl, hm, ⟨rfl, slot, hs, hph, hq⟩, hp⟩
  | poll => exact absurd he (by simp [emitted, CommitQueue.committed])
  | _ => exact absurd he (hnone rfl)

end Pbft

end ConsensusBench
