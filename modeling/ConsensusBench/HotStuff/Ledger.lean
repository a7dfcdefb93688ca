import ConsensusBench.Commits
import ConsensusBench.HotStuff.Step

namespace ConsensusBench

/-!
# HotStuff keeps a ledger

`pending_payloads` is the ledger of a HotStuff node, as it is of a PBFT node: proposing and
accepting a `Propose` bind a payload, deciding takes it out, entering a view clears it.
Accepting a `Propose` may enter its view in the same step, so it is a move of its own kind.

* `Effect.sent_said` — what a node sends.
* `move_of_effect`, `kept` — every step is a move of the ledger.
* `led` — `Propose` messages are numbered proposals of the leader of a view.
-/

open AsyncNet HotStuffNode

namespace HotStuff

variable [Sha256] {n : ℕ} {cfg : FaultConfig}

/-! ### Messages a node sends -/

omit [Sha256] in
/-- A broadcast goes to every other node. -/
theorem mem_broadcastHotstuff {i : NodeId} {x : HotStuffMessage} {m : NetworkMessage} :
    m ∈ (node n i).broadcastHotstuff x ↔ ∃ j, j < n ∧ j ≠ i ∧ m = ⟨i, j, .hotStuff x⟩ :=
  mem_map_peerIds

/-- What a node may say to node `j` in a step from `s` caused by `c`. -/
inductive Says (self : HotStuffNode) (s : HotStuffState) (c : Cause Call NetworkMessage)
    (j : NodeId) : HotStuffMessage → Prop
  | propose (p : Payload) (hc : c = .call (.propose p)) (hp : canPropose self s)
      (hj : j ≠ self.id) : Says self s c j
        (.propose s.view s.nextSequence p.digest p s.highestQcView s.highestQcPhase)
  | prepareVote (m : NetworkMessage) (v : ViewNumber) (q : SequenceNumber) (d : Digest)
      (p : Payload) (jv : ViewNumber) (jp : HotStuffPhaseTag) (hc : c = .recv m)
      (hm : m.payload = .hotStuff (.propose v q d p jv jp)) (hv : canAccept s v)
      (hj : j = self.leaderForView v) : Says self s c j (.vote v q d .prepare self.id)
  | certificate (m : NetworkMessage) (q : SequenceNumber) (d : Digest) (t : HotStuffPhaseTag)
      (r : NodeId) (slot slot' : SlotState) (vc : ℕ) (hc : c = .recv m)
      (hm : m.payload = .hotStuff (.vote s.view q d t r))
      (hl : self.leaderForView s.view = self.id) (hs : s.slots.lookup q = some slot)
      (hvote : self.countVote slot t r = some (slot', some (t, vc))) (hj : j ≠ self.id) :
      Says self s c j (.quorumCertificate s.view q d t vc)
  | vote (m : NetworkMessage) (q : SequenceNumber) (d : Digest) (t t' : HotStuffPhaseTag)
      (vc : ℕ) (hc : c = .recv m)
      (hm : m.payload = .hotStuff (.quorumCertificate s.view q d t vc))
      (hq : self.quorum ≤ vc) (ht : nextTag t = some t')
      (hj : j = self.leaderForView s.view) : Says self s c j (.vote s.view q d t' self.id)
  | newView (hl : self.leaderForView s.view ≠ self.id) (h0 : s.viewChangeTimeout = 0)
      (hj : j = self.leaderForView (s.view + 1)) : Says self s c j
        (.newView (s.view + 1) s.highestQcView s.highestQcPhase self.id)

/-- **What a node sends**: something it may say to the addressee, signed. -/
theorem Effect.sent_said {i : NodeId} {s s' : HotStuffState} {c : Cause Call NetworkMessage}
    {out : List NetworkMessage} (h : Effect (node n i) s c s' out) {m : NetworkMessage}
    (hm : m ∈ out) : ∃ j x, m = ⟨i, j, .hotStuff x⟩ ∧ Says (node n i) s c j x := by
  cases h with
  | timeout hl h0 =>
    rw [List.mem_singleton] at hm
    exact ⟨_, _, hm, .newView hl h0 rfl⟩
  | assign p hp =>
    obtain ⟨j, _, hne, rfl⟩ := mem_broadcastHotstuff.mp hm
    exact ⟨j, _, rfl, .propose p rfl hp hne⟩
  | accept m' v q d p jv jp hm' hv =>
    rw [List.mem_singleton] at hm
    exact ⟨_, _, hm, .prepareVote m' v q d p jv jp rfl hm' hv rfl⟩
  | certify m' q d t r slot slot' vc hm' hl hs hc =>
    obtain ⟨j, _, hne, rfl⟩ := mem_broadcastHotstuff.mp hm
    exact ⟨j, _, rfl, .certificate m' q d t r slot slot' vc rfl hm' hl hs hc hne⟩
  | advance m' q d t t' vc hm' hq ht =>
    rw [List.mem_singleton] at hm
    exact ⟨_, _, hm, .vote m' q d t t' vc rfl hm' hq ht rfl⟩
  | _ => exact absurd hm (by simp)

/-- Where a received message comes from: a step of its sender sent it, and up to digest and
    payload it arrived as it was sent. -/
theorem recv_source {ok : System.Guard NodeId HotStuffState Call NetworkMessage}
    {w : World NodeId HotStuffState Call NetworkMessage} (hw : (system n cfg).Reach ok w)
    {o : NodeStep HotStuffState} (hf : (system n cfg).Fires w o) {m' : NetworkMessage}
    (hc : o.cause = .recv m') : m'.target = o.node ∧ ∃ o₀ ∈ w.history, ∃ x,
      ⟨o₀.node, o.node, .hotStuff x⟩ ∈ o₀.sent ∧
      cfg.tamper ⟨o₀.node, o.node, .hotStuff x⟩ = [m'] ∧ m'.sender = o₀.node ∧ o₀.node < n ∧
      FaultConfig.skeleton m'.payload = FaultConfig.skeleton (.hotStuff x) ∧
      Says (node n o₀.node) o₀.before o₀.cause o.node x := by
  obtain ⟨htarget, o₀, ho₀, m, hmo, hcarry⟩ := hf.recv_inv hc
  obtain ⟨w₁, _, _, hf₁, _⟩ := hw.fired o₀ ho₀
  obtain ⟨j, x, rfl, hsaid⟩ := (effect_of_fires hf₁).sent_said hmo
  have htamper : cfg.tamper ⟨o₀.node, j, .hotStuff x⟩ = [m'] := hcarry
  obtain ⟨hsender, hdst, hskel⟩ :=
    cfg.frame_of_mem (by rw [htamper]; exact List.mem_singleton_self m')
  obtain rfl : j = o.node := hdst.symm.trans htarget
  exact ⟨htarget, o₀, ho₀, x, hmo, htamper, hsender, Finset.mem_range.mp hf₁.node_mem, hskel, hsaid⟩

/-! ### The ledger -/

/-- The view, sequence and payload a step assigns: an accepted `propose`. -/
def assigns (n : ℕ) (o : NodeStep HotStuffState) :
    Option (ViewNumber × SequenceNumber × Payload) :=
  match o.cause with
  | .call (.propose p) =>
      if canPropose (node n o.node) o.before then
        some (o.before.view, o.before.nextSequence, p)
      else none
  | _ => none

/-- The view, sequence and payload a step accepts from a `Propose`. -/
def accepts (o : NodeStep HotStuffState) : Option (ViewNumber × SequenceNumber × Payload) :=
  match o.cause with
  | .recv ⟨_, _, .hotStuff (.propose v q _ p _ _)⟩ =>
      if canAccept o.before v then some (v, q, p) else none
  | _ => none

/-- The ledger of a HotStuff node. -/
def ledger (n : ℕ) :
    Ledger NodeId HotStuffState Call NetworkMessage ViewNumber SequenceNumber Payload where
  view := HotStuffState.view
  bound s q := s.pendingPayloads.lookup q
  binds o := (assigns n o).or (accepts o)
  commits := commitsOf

omit [Sha256] in
/-- `assigns`, read backwards. -/
theorem assigns_eq_some {o : NodeStep HotStuffState} {v : ViewNumber} {q : SequenceNumber}
    {p : Payload} : assigns n o = some (v, q, p) ↔ o.cause = .call (.propose p) ∧
      canPropose (node n o.node) o.before ∧ v = o.before.view ∧ q = o.before.nextSequence := by
  show assignedBy (canPropose (node n o.node) o.before) o.before.view o.before.nextSequence
    o.cause = some (v, q, p) ↔ _
  exact assignedBy_eq_some

omit [Sha256] in
/-- `accepts`, read backwards. -/
theorem accepts_eq_some {o : NodeStep HotStuffState} {v : ViewNumber} {q : SequenceNumber}
    {p : Payload} : accepts o = some (v, q, p) ↔ ∃ m d jv jp, o.cause = .recv m ∧
      m.payload = .hotStuff (.propose v q d p jv jp) ∧ canAccept o.before v := by
  unfold accepts
  split
  · rename_i i j v' q' d p' jv jp hc
    by_cases hp : canAccept o.before v'
    · simp only [hp, if_true, Option.some.injEq, Prod.mk.injEq, hc, Cause.recv.injEq]
      constructor
      · rintro ⟨rfl, rfl, rfl⟩; exact ⟨_, d, jv, jp, rfl, rfl, hp⟩
      · rintro ⟨m, d', _, _, rfl, hm, _⟩; cases hm; exact ⟨rfl, rfl, rfl⟩
    · simp only [hp, if_false, hc, Cause.recv.injEq]
      constructor
      · intro h; exact absurd h (by simp)
      · rintro ⟨m, d', _, _, rfl, hm, hcan⟩; cases hm; exact absurd hcan hp
  · rename_i hc
    constructor
    · intro h; exact absurd h (by simp)
    · rintro ⟨⟨i, j, pl⟩, d, jv, jp, hcause, rfl, _⟩
      exact absurd hcause (hc i j v q d p jv jp)

omit [Sha256] in
/-- Calls of `propose` and accepted `Propose` messages bind payloads. -/
theorem boundBy (n : ℕ) : BoundBy (ledger n) (assigns n) accepts where
  binds _ := rfl
  propose _ _ ha := (assigns_eq_some.mp ha).1
  receive _ _ ha := by
    obtain ⟨m, _, _, _, hc, _⟩ := accepts_eq_some.mp ha
    exact ⟨m, hc⟩

section Move

variable {o : NodeStep HotStuffState}

omit [Sha256] in
/-- A step that leaves the queue alone commits nothing. -/
theorem commits_eq_nil (h : o.after.committed = o.before.committed) :
    (ledger n).commits o = [] :=
  commitsOf_eq_nil h

omit [Sha256] in
/-- A step that appends an entry to the queue commits it. -/
theorem commits_eq {q : SequenceNumber} {p : Payload}
    (h : o.after.committed = o.before.committed ++ [⟨q, p⟩]) :
    (ledger n).commits o = [(q, p)] :=
  commitsOf_eq h

omit [Sha256] in
/-- A step that neither proposes nor accepts a `Propose` binds nothing. -/
theorem binds_eq_none (hc : ∀ p, o.cause = .call (.propose p) →
      ¬ canPropose (node n o.node) o.before)
    (hm : ∀ m v q d p jv jp, o.cause = .recv m →
      m.payload = .hotStuff (.propose v q d p jv jp) → ¬ canAccept o.before v) :
    (ledger n).binds o = none := by
  refine (boundBy n).eq_none (fun e ha => ?_) fun e ha => ?_
  · obtain ⟨hcause, hcan, _⟩ := assigns_eq_some.mp ha
    exact hc _ hcause hcan
  · obtain ⟨m, d, jv, jp, hcause, hpl, hcan⟩ := accepts_eq_some.mp ha
    exact hm m _ _ d _ jv jp hcause hpl hcan

omit [Sha256] in
/-- Receiving anything but a `Propose` binds nothing. -/
theorem binds_recv {m : NetworkMessage} {x : HotStuffMessage} (hc : o.cause = .recv m)
    (hm : m.payload = .hotStuff x) (hx : ∀ v q d p jv jp, x ≠ .propose v q d p jv jp) :
    (ledger n).binds o = none := by
  refine (boundBy n).of_recv hc fun e ha => ?_
  obtain ⟨m', d, jv, jp, hcause, hpl, _⟩ := accepts_eq_some.mp ha
  obtain rfl : m' = m := Cause.recv.inj (hcause.symm.trans hc)
  exact hx _ _ d _ jv jp (ProtocolMessage.hotStuff.inj (hm.symm.trans hpl))

/-- What a step does to the ledger of the node. -/
abbrev MoveOf (n : ℕ) (i : NodeId) (c : Cause Call NetworkMessage) (s s' : HotStuffState)
    (out : List NetworkMessage) : Prop :=
  Move s.view s'.view (fun q => s.pendingPayloads.lookup q)
    (fun q => s'.pendingPayloads.lookup q) ((ledger n).binds ⟨i, c, s, s', out⟩)
    ((ledger n).commits ⟨i, c, s, s', out⟩)

omit [Sha256] in
/-- Taking a pending payload, if there is one, is a move. -/
theorem move_commitPending {i : NodeId} {c : Cause Call NetworkMessage} {s t : HotStuffState}
    {q : SequenceNumber} {out : List NetworkMessage} (hv : t.view = s.view)
    (hp : t.pendingPayloads = s.pendingPayloads) (hc : t.committed = s.committed)
    (hb : (ledger n).binds ⟨i, c, s, commitPending t q, out⟩ = none) :
    MoveOf n i c s (commitPending t q) out := by
  unfold MoveOf
  rw [hb]
  cases hpend : t.pendingPayloads.lookup q with
  | none =>
    have heq : commitPending t q = t := by rw [commitPending, hpend]
    rw [heq, hp, commits_eq_nil (by exact hc)]
    exact .idle hv rfl
  | some p =>
    have heq : commitPending t q = { t with
        pendingPayloads := t.pendingPayloads.erase q
        committed := t.committed ++ [⟨q, p⟩] } := by rw [commitPending, hpend]
    rw [heq]
    rw [commits_eq (q := q) (p := p) (by rw [← hc])]
    refine .commit q p hv (by rw [← hp]; exact hpend) ?_
    rw [← hp]
    exact HashMap.lookup_erase_eq_update _ _

/-- **HotStuff keeps its ledger**: every step is a ledger move. -/
theorem move_of_effect {i : NodeId} {c : Cause Call NetworkMessage} {s s' : HotStuffState}
    {out : List NetworkMessage} (h : Effect (node n i) s c s' out) : MoveOf n i c s s' out := by
  cases h with
  | ignore c hc hm => exact .idle_of (binds_eq_none hc hm) (commits_eq_nil rfl) rfl rfl
  | poll =>
    refine .idle_of ((boundBy n).of_call rfl (by simp)) ?_ rfl rfl
    simp [ledger, commitsOf, emitted, CommitQueue.committed]
  | tickDown => exact .idle_of ((boundBy n).of_call rfl (by simp)) (commits_eq_nil rfl) rfl rfl
  | timeout => exact .idle_of ((boundBy n).of_call rfl (by simp)) (commits_eq_nil rfl) rfl rfl
  | assign p hp =>
    unfold MoveOf
    rw [(boundBy n).of_assigns (assigns_eq_some.mpr ⟨rfl, hp, rfl, rfl⟩), commits_eq_nil (by rfl)]
    exact .bind s.nextSequence p rfl (HashMap.lookup_insert_eq_update _ _ _)
  | accept m v q d p jv jp hm hv =>
    unfold MoveOf
    rw [(boundBy n).of_accepts (accepts_eq_some.mpr ⟨m, d, jv, jp, rfl, hm, hv⟩)]
    unfold acceptProposal catchUp
    split
    · rename_i hlt
      rw [commits_eq_nil (by rfl)]
      exact .enterBind q p hlt (HashMap.lookup_insert_eq_update _ _ _)
    · -- the replica is in the view already
      rename_i hge
      have heq : v = s.view := le_antisymm (not_lt.mp hge) hv
      rw [commits_eq_nil (by rfl), heq]
      exact .bind q p rfl (HashMap.lookup_insert_eq_update _ _ _)
  | count m q d t r slot slot' hm hl hs hc =>
    exact .idle_of (binds_recv rfl hm (by simp)) (commits_eq_nil rfl) rfl rfl
  | certify m q d t r slot slot' vc hm hl hs hc =>
    have hb : ∀ s' out, (ledger n).binds ⟨i, .recv m, s, s', out⟩ = none :=
      fun _ _ => binds_recv rfl hm (by simp)
    unfold completeQc
    split
    · exact move_commitPending rfl rfl rfl (hb _ _)
    · exact .idle_of (hb _ _) (commits_eq_nil rfl) rfl rfl
  | learn m v q d t vc hm hq hno =>
    exact .idle_of (binds_recv rfl hm (by simp)) (commits_eq_nil (by simp)) (by simp) (by simp)
  | advance m q d t t' vc hm hq ht =>
    exact .idle_of (binds_recv rfl hm (by simp)) (commits_eq_nil (by simp)) (by simp) (by simp)
  | decide m q d vc slot hm hq hs hph =>
    exact move_commitPending (by simp) (by simp) (by simp) (binds_recv rfl hm (by simp))
  | vote m v hv hp r hm hlt =>
    exact .idle_of (binds_recv rfl hm (by simp)) (commits_eq_nil rfl) rfl rfl
  | install m v hv hp r hm hlt hq hl =>
    exact .enter_of (binds_recv rfl hm (by simp)) (commits_eq_nil rfl) hlt rfl

end Move

theorem kept (ok : System.Guard NodeId HotStuffState Call NetworkMessage) :
    (ledger n).Kept (system n cfg) ok where
  init _ _ := rfl
  move _ _ _ hf := move_of_effect (effect_of_fires hf)

end HotStuff

end ConsensusBench
