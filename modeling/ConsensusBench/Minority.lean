import ConsensusBench.HotStuff.Order
import ConsensusBench.Verdict

namespace ConsensusBench

/-!
# Too few nodes commit nothing

The nodes of `I` stay isolated, whatever the other faults are and however they change.  The others
hear of votes of each other only.

* `Listed.silent` — what live nodes keep as long as only live nodes are heard.
* `no_quorum_no_commit` — if the live nodes are fewer than a quorum, nothing is ever committed.
-/

open AsyncNet Cluster

/-- The nodes of `I` are isolated, among others. -/
def Isolates (I : Finset NodeId) (faults : NetworkFaults) : Prop :=
  ∀ i ∈ I, faults.isIsolated i = true

/-- The nodes that are not isolated throughout. -/
def live (n : ℕ) (I : Finset NodeId) : Finset NodeId := Finset.range n \ I

/-- Whatever is called on the cluster `c₀` while `I` is isolated: nothing is recorded, and there is
    nothing to collect. -/
def Silent {σ : Type} [Sha256] (I : Finset NodeId) (code : NodeId → PolledNode σ)
    (c₀ : Cluster σ) : Prop :=
  ∀ faults calls c, Isolates I faults →
    (∀ call ∈ calls, call.Within (fun _ => True) (Isolates I)) →
    (c₀.setFaults faults).drive code calls = some c →
    (∀ i, c.commitLog.recorded i = []) ∧ (collectCommitted code c).1 = []

/-! ### Live nodes -/

section Live

variable {σ : Type} {n : ℕ} {I : Finset NodeId} {code : NodeId → PolledNode σ} {E : StepRelation σ}

/-- An empty queue is not noted down. -/
theorem collectNode_of_nil {note : Cluster σ → NodeId → List CommittedEntry → Cluster σ}
    {c : Cluster σ} {i : NodeId} (h : ((code i).pollCommitted (c.nodes i)).1 = [])
    (r : List (NodeId × List CommittedEntry)) : collectNode code note (r, c) i =
      (r, c.setNode i ((code i).pollCommitted (c.nodes i)).2) := by
  simp [collectNode, h]

theorem collectCommitted_eq_nil {c : Cluster σ}
    (h : ∀ i, ((code i).pollCommitted (c.nodes i)).1 = []) : (collectCommitted code c).1 = [] := by
  -- the queues of the first `k` nodes are drained
  have hloop : ∀ k, ∃ c', (List.range k).foldl (collectNode code fun c _ _ => c) ([], c) =
      ([], c') ∧ ∀ i, k ≤ i → c'.nodes i = c.nodes i := by
    intro k
    induction k with
    | zero => exact ⟨c, rfl, fun _ _ => rfl⟩
    | succ k ih =>
      obtain ⟨c', hfold, hnodes⟩ := ih
      refine ⟨c'.setNode k ((code k).pollCommitted (c'.nodes k)).2, ?_, fun i hi => ?_⟩
      · rw [List.range_succ, List.foldl_append, hfold, List.foldl_cons, List.foldl_nil]
        exact collectNode_of_nil (by rw [hnodes k le_rfl]; exact h k) []
      · show Function.update _ k _ i = _
        rw [Function.update_of_ne (by omega), hnodes i (by omega)]
  obtain ⟨c', hfold, _⟩ := hloop c.size
  rw [collectCommitted, collectWith, hfold]

variable [Sha256] [CommitQueue σ]

/-- **What live nodes keep**: a node that hears of live nodes only, where `M` holds of what is sent
    and `R` of it if it comes from a live node and reaches one. -/
theorem Listed.silent (hE : Listed code E) {K : NodeId → σ → Prop} {M R : NetworkMessage → Prop}
    (hstep : ∀ i s c s' out, i < n → E i s c s' out → (∀ m, c = .recv m → i ∈ live n I ∧
      m.target = i ∧ m.sender ∈ live n I ∧ R m) → K i s →
      K i s' ∧ emitted ⟨i, c, s, s', out⟩ = [] ∧ ∀ m ∈ out, Internal n m ∧ M m)
    (hdeliver : ∀ (cfg : FaultConfig) m m', Internal n m → M m → m' ∈ cfg.tamper m → R m')
    {init : NodeId → σ} (hinit : ∀ i, K i (init i))
    (hempty : ∀ i, CommitQueue.committed (init i) = []) (rng : ℕ → ℚ) :
    Silent I code (Cluster.new n init rng) := by
  intro faults calls c hfaults hcalls hrun
  have hupheld : Upheld n code (fun _ => True) (Isolates I)
      (fun i s es => K i s ∧ es ++ CommitQueue.committed s = []) (fun m => Internal n m ∧ M m)
      fun m => m.target ∈ live n I ∧ m.sender ∈ live n I ∧ R m := by
    refine hE.upheld (I := fun i s all => K i s ∧ all = []) ?_ ?_ fun _ _ hB => hB
    · rintro i s c s' out all hi h _ hrecv ⟨hK, hnil⟩
      obtain ⟨hK', hnone, hsent⟩ := hstep i s c s' out hi h (fun m hc => by
        obtain ⟨htarget, hlive, hsender, hm⟩ := hrecv m hc
        exact ⟨htarget ▸ hlive, htarget, hsender, hm⟩) hK
      rw [hnil, hnone]
      exact ⟨⟨hK', rfl⟩, hsent⟩
    · -- an isolated node sends and receives nothing
      rintro faults m m' hB ⟨hmember, hm⟩ hpass
      have hlive : ∀ {j}, j < n → faults.isIsolated j = false → j ∈ live n I := by
        intro j hj hno
        refine Finset.mem_sdiff.mpr ⟨Finset.mem_range.mpr hj, fun hI => ?_⟩
        exact absurd ((hB j hI).symm.trans hno) (by decide)
      obtain ⟨hsender, htarget, _⟩ := faults.frame_of_mem hpass.tampered
      refine ⟨?_, ?_, hdeliver _ m m' hmember hm hpass.tampered⟩
      · rw [htarget]
        exact hlive hmember.target hpass.target
      · rw [hsender]
        exact hlive hmember.sender hpass.sender
  have hstart : Upholds n (Isolates I)
      (fun i s es => K i s ∧ es ++ CommitQueue.committed s = []) (fun m => Internal n m ∧ M m)
      ((Cluster.new n init rng).setFaults faults) :=
    ⟨rfl, hfaults, fun i => ⟨hinit i, hempty i⟩, by simp [Cluster.new, setFaults]⟩
  have hend := hstart.drive hupheld calls hcalls (fun _ i s es hi hN => ?_) hrun
  · refine ⟨fun i => (List.append_eq_nil_iff.mp (hend.nodes i).2).1,
      collectCommitted_eq_nil fun i => ?_⟩
    rw [hE.taken]
    exact (List.append_eq_nil_iff.mp (hend.nodes i).2).2
  · obtain ⟨hK, hnil⟩ := hN
    refine ⟨(hstep i s _ _ [] hi (hE.poll i s) (fun m hc => absurd hc (by simp)) hK).1, ?_⟩
    rw [hE.emptied, List.append_nil]
    exact (List.append_eq_nil_iff.mp hnil).1

end Live

/-! ### PBFT -/

section Pbft

variable [Sha256] {n : ℕ} {L : Finset NodeId} {i : NodeId} {s s' : PbftState}
variable {c : Cause Call NetworkMessage} {out : List NetworkMessage}

/-- All commit votes that a node has counted are votes of `L`. -/
def Pbft.CountsOnly (L : Finset NodeId) (s : PbftState) : Prop :=
  ∀ q slot, s.slots.lookup q = some slot → slot.commitVoters ⊆ L

/-- A commit vote is signed by its sender. -/
def Pbft.Signed (m : NetworkMessage) : Prop :=
  ∀ v q d r, m.payload = .pbft (.commit v q d r) → r = m.sender

omit [Sha256] in
/-- With fewer than a quorum of voters no quorum is completed. -/
theorem Pbft.not_completesQuorum (hs : Pbft.CountsOnly L s) (hL : L.card < (Pbft.node n i).quorum)
    {q : SequenceNumber} {r : NodeId} (hr : r ∈ L) :
    ¬ Pbft.completesQuorum (Pbft.node n i) s s.view q r := by
  rintro ⟨_, slot, hslot, _, hq⟩
  have hsub : (slot.addCommit r).commitVoters ⊆ L := Finset.insert_subset hr (hs q slot hslot)
  have hle := Finset.card_le_card hsub
  omega

/-- The votes of a node that hears of votes of `L` only. -/
theorem Pbft.Effect.countsOnly (h : Pbft.Effect (Pbft.node n i) s c s' out)
    (hc : ∀ m, c = .recv m → i ∈ L ∧ m.sender ∈ L ∧ Pbft.Signed m) (hs : Pbft.CountsOnly L s)
    (hL : L.card < (Pbft.node n i).quorum) :
    Pbft.CountsOnly L s' ∧ emitted ⟨i, c, s, s', out⟩ = [] := by
  have hvoter : ∀ {m v q d r}, c = .recv m → m.payload = .pbft (.commit v q d r) → r ∈ L := by
    intro m v q d r hm hpl
    obtain ⟨_, hsender, hsigned⟩ := hc m hm
    rw [hsigned v q d r hpl]
    exact hsender
  refine ⟨fun q slot hslot => ?_, List.eq_nil_iff_forall_not_mem.mpr fun e he => ?_⟩
  · cases h.slot_step hslot with
    | keep _ _ hold => exact hs q _ hold
    | retained _ hold => exact hs q _ hold
    | opened => exact Finset.empty_subset L
    | counted _ _ _ slot _ _ _ hold => exact hs q slot hold
    | prepared m _ _ slot _ hm _ hold => exact Finset.insert_subset (hc m hm).1 (hs q slot hold)
    | voted m _ _ slot _ hm hpl hold =>
      exact Finset.insert_subset (hvoter hm hpl) (hs q slot hold)
    | committed m _ _ _ hm hpl hq =>
      exact absurd hq (Pbft.not_completesQuorum hs hL (hvoter hm hpl))
  · obtain ⟨m, d, r, hm, hpl, hq, _⟩ := h.commit_inv he
    exact Pbft.not_completesQuorum hs hL (hvoter hm hpl) hq

/-- Nodes sign their commit votes. -/
theorem Pbft.Effect.signed (h : Pbft.Effect (Pbft.node n i) s c s' out) {m : NetworkMessage}
    (hm : m ∈ out) : Pbft.Signed m := by
  obtain ⟨j, x, _, _, rfl, hsays⟩ := h.sent_said hm
  intro v q d r hpl
  cases hpl
  cases hsays
  rfl

/-- The signature survives tampering. -/
theorem Pbft.Signed.tamper {cfg : FaultConfig} {m m' : NetworkMessage} (h : Pbft.Signed m)
    (hm : m' ∈ cfg.tamper m) : Pbft.Signed m' := by
  refine cfg.survives (P := fun i x => ∀ v q d r, x = .pbft (.commit v q d r) → r = i)
    (fun i x => ?_) h hm
  cases x with
  | pbft x => cases x <;> grind [FaultConfig.skeleton]
  | raft x => cases x <;> grind [FaultConfig.skeleton]
  | hotStuff x => cases x <;> grind [FaultConfig.skeleton]

theorem Pbft.silent {n : ℕ} {I : Finset NodeId} (hI : (live n I).card < (Pbft.node n 0).quorum)
    (rng : ℕ → ℚ) : Silent I (Pbft.polled n) (Pbft.newCluster n rng) := by
  refine (Pbft.listed n).silent (K := fun _ s => Pbft.CountsOnly (live n I) s) (M := Pbft.Signed)
    (R := Pbft.Signed) ?_ (fun cfg m m' _ hm htamper => hm.tamper htamper) (fun i q slot hs => ?_)
    (fun _ => rfl) rng
  · intro i s c s' out hi h hrecv hK
    have hlive : ∀ m, c = .recv m → i ∈ live n I ∧ m.sender ∈ live n I ∧ Pbft.Signed m := by
      intro m hm
      obtain ⟨hin, _, hsender, hsigned⟩ := hrecv m hm
      exact ⟨hin, hsender, hsigned⟩
    obtain ⟨hK', hnone⟩ := h.countsOnly hlive hK hI
    exact ⟨hK', hnone, fun m hm => ⟨h.internal hi m hm, h.signed hm⟩⟩
  · exact absurd hs (by simp [PbftNode.new])

end Pbft

/-! ### HotStuff -/

section HotStuff

variable [Sha256] {n : ℕ} {L : Finset NodeId} {i : NodeId} {s s' : HotStuffState}
variable {c : Cause Call NetworkMessage} {out : List NetworkMessage}

/-- All votes that a node has counted are votes of `L`. -/
def HotStuff.CountsOnly (L : Finset NodeId) (s : HotStuffState) : Prop :=
  ∀ q slot t, s.slots.lookup q = some slot → HotStuff.SlotState.voters slot t ⊆ L

/-- A vote is signed by its sender, and a certificate claims fewer than `k` votes. -/
def HotStuff.Signed (k : ℕ) (m : NetworkMessage) : Prop :=
  (∀ v q d t r, m.payload = .hotStuff (.vote v q d t r) → r = m.sender) ∧
    ∀ v q d t vc, m.payload = .hotStuff (.quorumCertificate v q d t vc) → vc < k

omit [Sha256] in
/-- A vote that is counted is too few to complete a quorum. -/
theorem HotStuff.CountsOnly.counts (hs : HotStuff.CountsOnly L s)
    (hL : L.card < (HotStuff.node n i).quorum) {q : SequenceNumber} {r : NodeId} (hr : r ∈ L)
    {slot slot' : HotStuff.SlotState} {t : HotStuffPhaseTag}
    {action : Option (HotStuffPhaseTag × ℕ)} (hslot : s.slots.lookup q = some slot)
    (hcount : (HotStuff.node n i).countVote slot t r = some (slot', action)) :
    action = none ∧ ∀ t', HotStuff.SlotState.voters slot' t' ⊆ L := by
  have hsub : insert r (HotStuff.SlotState.voters slot t) ⊆ L :=
    Finset.insert_subset hr (hs q slot t hslot)
  obtain ⟨_, ⟨hnone, rfl⟩ | ⟨hq, _⟩⟩ := HotStuff.countVote_inv hcount
  · refine ⟨hnone, fun t' => ?_⟩
    have hold := hs q slot t' hslot
    by_cases ht : t' = t
    · subst ht
      cases t' <;> exact hsub
    · cases t <;> cases t' <;> first | exact absurd rfl ht | exact hold
  · have hle := Finset.card_le_card hsub
    omega

/-- The votes of a node that hears of votes of `L` only. -/
theorem HotStuff.Effect.countsOnly (h : HotStuff.Effect (HotStuff.node n i) s c s' out)
    (hc : ∀ m, c = .recv m → i ∈ L ∧ m.sender ∈ L ∧
      HotStuff.Signed (HotStuff.node n i).quorum m)
    (hs : i ∈ L → HotStuff.CountsOnly L s) (hL : L.card < (HotStuff.node n i).quorum) :
    (i ∈ L → HotStuff.CountsOnly L s') ∧ emitted ⟨i, c, s, s', out⟩ = [] ∧
      ∀ m ∈ out, HotStuff.Signed (HotStuff.node n i).quorum m := by
  have hvoter : ∀ {m v q d t r}, c = .recv m → m.payload = .hotStuff (.vote v q d t r) → r ∈ L := by
    intro m v q d t r hm hpl
    obtain ⟨_, hsender, hsigned, _⟩ := hc m hm
    rw [hsigned v q d t r hpl]
    exact hsender
  have hfew : ∀ {m v q d t vc}, c = .recv m →
      m.payload = .hotStuff (.quorumCertificate v q d t vc) → (HotStuff.node n i).quorum ≤ vc →
      False := by
    intro m v q d t vc hm hpl hq
    exact absurd ((hc m hm).2.2.2 v q d t vc hpl) (not_lt.mpr hq)
  -- no vote completes a certificate
  have hnone : ∀ {m v q d t r slot slot' a}, c = .recv m →
      m.payload = .hotStuff (.vote v q d t r) → s.slots.lookup q = some slot →
      (HotStuff.node n i).countVote slot t r = some (slot', a) →
      a = none ∧ ∀ t', HotStuff.SlotState.voters slot' t' ⊆ L := by
    intro m v q d t r slot slot' a hm hpl hslot hcount
    exact (hs (hc m hm).1).counts hL (hvoter hm hpl) hslot hcount
  refine ⟨fun hi q slot t hslot => ?_, List.eq_nil_iff_forall_not_mem.mpr fun e he => ?_,
    fun m hm => ⟨fun v q d t r hpl => ?_, fun v q d t vc hpl => ?_⟩⟩
  · have hold : ∀ {slot}, s.slots.lookup q = some slot → HotStuff.SlotState.voters slot t ⊆ L :=
      fun hslot => hs hi q _ t hslot
    cases h with
    | assign p hp =>
      rcases HashMap.of_lookup_insert hslot with ⟨rfl, rfl⟩ | ⟨_, hslot⟩
      · cases t with
        | prepare => exact Finset.singleton_subset_iff.mpr hi
        | preCommit => exact Finset.empty_subset L
        | commit => exact Finset.empty_subset L
      · exact hold hslot
    | accept m v q' d p jv jp hm hv =>
      rcases HashMap.of_lookup_insert hslot with ⟨rfl, rfl⟩ | ⟨_, hslot⟩
      · cases t <;> exact Finset.empty_subset L
      · rcases HotStuff.catchUp_cases s v with heq | hkept
        · rw [heq] at hslot
          exact hold hslot
        · exact hold (hkept q slot hslot).1
    | count m q' d t' r slot₀ slot' hm hl hslot₀ hcount =>
      rcases HashMap.of_lookup_insert hslot with ⟨rfl, rfl⟩ | ⟨_, hslot⟩
      · exact (hnone rfl hm hslot₀ hcount).2 t
      · exact hold hslot
    | certify m q' d t' r slot₀ slot' vc hm hl hslot₀ hcount =>
      exact absurd (hnone rfl hm hslot₀ hcount).1 (by simp)
    | learn m v q' d t' vc hm hq => exact (hfew rfl hm hq).elim
    | advance m q' d t' t₁ vc hm hq => exact (hfew rfl hm hq).elim
    | decide m q' d vc slot₀ hm hq => exact (hfew rfl hm hq).elim
    | install m v hv hp r hm hlt hq hl => exact hold (HotStuff.lookup_enterNewView (v := v) hslot).1
    | _ => exact hold hslot
  · obtain ⟨m, hm, ⟨d, r, slot, slot', vc, hpl, _, hslot, hcount⟩ | ⟨d, vc, slot, hpl, hq, _⟩, _⟩ :=
      h.commit_inv he
    · exact absurd (hnone hm hpl hslot hcount).1 (by simp)
    · exact hfew hm hpl hq
  · obtain ⟨j, x, rfl, hsays⟩ := h.sent_said hm
    cases hpl
    cases hsays <;> rfl
  · obtain ⟨j, x, rfl, hsays⟩ := h.sent_said hm
    cases hpl
    cases hsays with
    | certificate m' q d t r slot slot' vc hm' hpl hl hslot hcount =>
      exact absurd (hnone hm' hpl hslot hcount).1 (by simp)

/-- Signatures and claims survive tampering. -/
theorem HotStuff.Signed.tamper {k : ℕ} {cfg : FaultConfig} {m m' : NetworkMessage}
    (h : HotStuff.Signed k m) (hm : m' ∈ cfg.tamper m) : HotStuff.Signed k m' := by
  refine cfg.survives (P := fun i x =>
    (∀ v q d t r, x = .hotStuff (.vote v q d t r) → r = i) ∧
      ∀ v q d t vc, x = .hotStuff (.quorumCertificate v q d t vc) → vc < k) (fun i x => ?_) h hm
  cases x with
  | pbft x => cases x <;> grind [FaultConfig.skeleton]
  | raft x => cases x <;> grind [FaultConfig.skeleton]
  | hotStuff x => cases x <;> grind [FaultConfig.skeleton]

theorem HotStuff.silent {n : ℕ} {I : Finset NodeId}
    (hI : (live n I).card < (HotStuff.node n 0).quorum) (rng : ℕ → ℚ) :
    Silent I (HotStuff.polled n) (HotStuff.newCluster n rng) := by
  refine (HotStuff.listed n).silent
    (K := fun i s => i ∈ live n I → HotStuff.CountsOnly (live n I) s)
    (M := HotStuff.Signed (HotStuff.node n 0).quorum)
    (R := HotStuff.Signed (HotStuff.node n 0).quorum) ?_
    (fun cfg m m' _ hm htamper => hm.tamper htamper) (fun i _ q slot t hs => ?_) (fun _ => rfl) rng
  · intro i s c s' out hi h hrecv hK
    obtain ⟨hK', hnone, hsigned⟩ := h.countsOnly (fun m hm => by
      obtain ⟨hin, _, hsender, hsigned⟩ := hrecv m hm
      exact ⟨hin, hsender, hsigned⟩) hK hI
    exact ⟨hK', hnone, fun m hm => ⟨h.internal hi m hm, hsigned m hm⟩⟩
  · exact absurd hs (by simp [HotStuffNode.new])

end HotStuff

/-! ### Raft -/

section Raft

variable {n : ℕ} {L : Finset NodeId} {i : NodeId} {s s' : RaftState}
variable {c : Cause Call NetworkMessage} {out : List NetworkMessage}

/-- The node has committed nothing, and knows of entries at other nodes of `L` only. -/
structure Raft.CountsOnly (L : Finset NodeId) (i : NodeId) (s : RaftState) : Prop where
  commitIndex : s.commitIndex = 0
  matchIndex : ∀ j mi, s.matchIndex.lookup j = some mi → 0 < mi → j ∈ L ∧ j ≠ i

/-- A message goes to another node, and tells of no commit. -/
structure Raft.Uncommitted (m : NetworkMessage) : Prop where
  apart : m.sender ≠ m.target
  commit : ∀ t l pi pt es lc, m.payload = .raft (.appendEntries t l pi pt es lc) → lc = 0

/-- What a node writes to itself would answer a message from itself. -/
theorem Raft.Effect.apart (h : Raft.Effect (Raft.node n i) s c s' out)
    (hc : ∀ m, c = .recv m → m.sender ≠ i) : ∀ m ∈ out, m.sender ≠ m.target := by
  have hnone : ∀ m ∈ ([] : List NetworkMessage), m.sender ≠ m.target := by simp
  have hfeed : ∀ s, ∀ m ∈ (Raft.node n i).broadcastAppendEntries s, m.sender ≠ m.target := by
    intro s m hm
    obtain ⟨j, _, hne, rfl⟩ := Raft.mem_broadcastAppendEntries.mp hm
    exact hne.symm
  have hback : ∀ m x, c = .recv m → ∀ m' ∈ [(Raft.node n i).msgTo m.sender x],
      m'.sender ≠ m'.target := by
    intro m x hm m' hm'
    rw [List.mem_singleton.mp hm']
    exact (hc m hm).symm
  cases h with
  | append => exact hfeed _
  | heartbeat => exact hfeed _
  | win => exact hfeed _
  | stand =>
    intro m hm
    obtain ⟨j, hj, rfl⟩ := List.mem_map.mp hm
    exact (mem_peerIds.mp hj).2.symm
  | deny => exact hback _ _ rfl
  | grant => exact hback _ _ rfl
  | reject => exact hback _ _ rfl
  | miss => exact hback _ _ rfl
  | conflict => exact hback _ _ rfl
  | accept => exact hback _ _ rfl
  | retry => exact hback _ _ rfl
  | _ => exact hnone

/-- With fewer than a majority of nodes there is no index to commit. -/
theorem Raft.CountsOnly.nextCommit (hs : Raft.CountsOnly L i s) (hi : i ∈ L)
    (hL : L.card < (Raft.node n i).majority) : (Raft.node n i).nextCommit s = none := by
  cases hk : (Raft.node n i).nextCommit s with
  | none => rfl
  | some k =>
    obtain ⟨hlt, _, _, hq⟩ := Raft.nextCommit_eq_some hk
    obtain ⟨S, hcard, hS⟩ := s.matchIndex.exists_keys fun mi => decide (k ≤ mi)
    have hsub : S ⊆ L.erase i := by
      intro j hj
      obtain ⟨mi, hmi, hle⟩ := hS j hj
      have hpos : 0 < mi := lt_of_lt_of_le (Nat.zero_lt_of_lt hlt) (of_decide_eq_true hle)
      obtain ⟨hjL, hne⟩ := hs.matchIndex j mi hmi hpos
      exact Finset.mem_erase.mpr ⟨hne, hjL⟩
    have hle := Finset.card_le_card hsub
    rw [Finset.card_erase_of_mem hi, hcard] at hle
    have hpos : 0 < L.card := Finset.card_pos.mpr ⟨i, hi⟩
    unfold RaftNode.replicatedOn at hq
    omega

/-- What a node knows that hears of nodes of `L` only. -/
theorem Raft.Effect.countsOnly (h : Raft.Effect (Raft.node n i) s c s' out)
    (hc : ∀ m, c = .recv m → i ∈ L ∧ m.sender ∈ L ∧ m.sender ≠ i ∧ Raft.Uncommitted m)
    (hs : Raft.CountsOnly L i s) (hL : L.card < (Raft.node n i).majority) :
    Raft.CountsOnly L i s' := by
  have hrecord : ∀ {m mi}, c = .recv m →
      Raft.CountsOnly L i (Raft.recordMatch s m.sender mi) := by
    intro m mi hm
    refine ⟨hs.commitIndex, fun j mi' hmi hpos => ?_⟩
    obtain ⟨_, hsender, hne, _⟩ := hc m hm
    rw [Raft.recordMatch, HashMap.lookup_insert_ite] at hmi
    split at hmi
    · rename_i hj
      rw [hj]
      exact ⟨hsender, hne⟩
    · exact hs.matchIndex j mi' hmi hpos
  cases h with
  | deny m t =>
    exact ⟨(Raft.observe_commitIndex s t).trans hs.commitIndex,
      by rw [Raft.observe_matchIndex]; exact hs.matchIndex⟩
  | grant m t =>
    refine ⟨?_, ?_⟩
    · show (Raft.observe s t).commitIndex = 0
      rw [Raft.observe_commitIndex]
      exact hs.commitIndex
    · show ∀ j mi, (Raft.observe s t).matchIndex.lookup j = some mi → _
      rw [Raft.observe_matchIndex]
      exact hs.matchIndex
  | win =>
    -- the counts of a new leader start at zero
    refine ⟨hs.commitIndex, fun j mi hmi hpos => ?_⟩
    rw [Raft.lead, RaftNode.initIndices, HashMap.lookup_foldl_insert] at hmi
    split at hmi
    · cases hmi
      exact absurd hpos (lt_irrefl 0)
    · exact hs.matchIndex j mi hmi hpos
  | accept m t l pi pt es lc log s' hm ht hprev hlog hs' =>
    obtain ⟨_, _, _, _, hcommit⟩ := hc m rfl
    rw [hcommit t l pi pt es lc hm, if_neg (Nat.not_lt_zero _)] at hs'
    cases hs'
    exact ⟨hs.commitIndex, hs.matchIndex⟩
  | record m t mi hm => exact hrecord rfl
  | commit m t mi k s' hm ht hr hk hs' =>
    rw [(hrecord rfl).nextCommit (hc m rfl).1 hL] at hk
    exact absurd hk (by simp)
  | retry m t mi hm =>
    exact ⟨by rw [Raft.backOff_commitIndex]; exact hs.commitIndex,
      by rw [Raft.backOff_matchIndex]; exact hs.matchIndex⟩
  | _ => exact ⟨hs.commitIndex, hs.matchIndex⟩

/-- Nodes that have committed nothing tell of no commit. -/
theorem Raft.Effect.uncommitted (h : Raft.Effect (Raft.node n i) s c s' out)
    (hc : ∀ m, c = .recv m → m.sender ≠ i) (hs : s'.commitIndex = 0) :
    ∀ m ∈ out, Raft.Uncommitted m := by
  refine fun m hm => ⟨h.apart hc m hm, fun t l pi pt es lc hpl => ?_⟩
  obtain ⟨j, x, rfl, hsays⟩ := h.sent_said hm
  cases hpl
  cases hsays with
  | appendEntries _ _ hbuild =>
    obtain ⟨_, _, _, hlc, _⟩ := Raft.buildAppendEntries_eq (congrArg NetworkMessage.payload hbuild)
    rw [hlc]
    exact hs

/-- Commit indices survive tampering. -/
theorem Raft.Uncommitted.tamper [Sha256] {cfg : FaultConfig} {m m' : NetworkMessage}
    (h : Raft.Uncommitted m) (hm : m' ∈ cfg.tamper m) : Raft.Uncommitted m' := by
  obtain ⟨hsender, htarget, hskel⟩ := cfg.frame_of_mem hm
  refine ⟨?_, fun t l pi pt es lc hpl => ?_⟩
  · rw [hsender, htarget]
    exact h.apart
  · obtain ⟨es₀, hpl₀, _⟩ := Raft.appendEntries_of_skeleton hskel hpl
    exact h.commit t l pi pt es₀ lc hpl₀

theorem Raft.silent [Sha256] {n : ℕ} {I : Finset NodeId}
    (hI : (live n I).card < (Raft.node n 0).majority) {init : NodeId → RaftState}
    (hinit : ∀ i, (init i).log = [] ∧ (init i).commitIndex = 0 ∧ (init i).committed = [])
    (hmatch : ∀ i j mi, (init i).matchIndex.lookup j = some mi → mi = 0) (rng : ℕ → ℚ) :
    Silent I (Raft.polled n) (Cluster.new n init rng) := by
  refine (Raft.listed n).silent (K := Raft.CountsOnly (live n I)) (M := Raft.Uncommitted)
    (R := Raft.Uncommitted) ?_ (fun cfg m m' _ hm htamper => hm.tamper htamper) (fun i => ?_)
    (fun i => (hinit i).2.2) rng
  · intro i s c s' out hi h hrecv hK
    have hmember : ∀ {j}, j ∈ live n I → j < n := fun hj =>
      Finset.mem_range.mp (Finset.mem_sdiff.mp hj).1
    have hapart : ∀ m, c = .recv m → m.sender ≠ i := by
      intro m hm
      obtain ⟨_, htarget, _, huncommitted⟩ := hrecv m hm
      rw [← htarget]
      exact huncommitted.apart
    have hK' := h.countsOnly (fun m hm => by
      obtain ⟨hin, _, hsender, huncommitted⟩ := hrecv m hm
      exact ⟨hin, hsender, hapart m hm, huncommitted⟩) hK hI
    refine ⟨hK', List.eq_nil_iff_forall_not_mem.mpr fun e he => ?_, fun m hm => ⟨?_, ?_⟩⟩
    · obtain ⟨x, hx, _⟩ := h.emitted_inv (i := i) he
      rw [hK'.commitIndex, List.take_zero] at hx
      exact absurd hx (by simp)
    · refine h.internal hi (fun m' hm' => ?_) m hm
      obtain ⟨_, htarget, hsender, _⟩ := hrecv m' hm'
      exact ⟨hmember hsender, htarget ▸ hi⟩
    · exact h.uncommitted hapart hK'.commitIndex m hm
  · refine ⟨(hinit i).2.1, fun j mi hmi hpos => ?_⟩
    rw [hmatch i j mi hmi] at hpos
    exact absurd hpos (lt_irrefl 0)

end Raft

/-! ### All protocols -/

/-- **Without a quorum nothing is committed**, whatever else happens: neither by PBFT and HotStuff
    nodes of which at most `2f` are not isolated, nor by Raft nodes that are no majority. -/
theorem no_quorum_no_commit [Sha256] (n : ℕ) (I : Finset NodeId) (rngs : NodeId → Raft.StdRng)
    (rng : ℕ → ℚ) :
    ((live n I).card ≤ 2 * ((n - 1) / 3) →
      Silent I (Pbft.polled n) (Pbft.newCluster n rng) ∧
      Silent I (HotStuff.polled n) (HotStuff.newCluster n rng)) ∧
    ((live n I).card ≤ n / 2 →
      Silent I (Raft.polled n) (Raft.newCluster n rngs rng) ∧
      Silent I (Raft.polled n) (Raft.newClusterWithLeader n rngs rng)) := by
  refine ⟨fun hI => ?_, fun hI => ?_⟩
  · have hlt : (live n I).card < 2 * ((n - 1) / 3) + 1 := Nat.lt_succ_of_le hI
    exact ⟨Pbft.silent hlt rng, HotStuff.silent hlt rng⟩
  · have hlt : (live n I).card < n / 2 + 1 := Nat.lt_succ_of_le hI
    refine ⟨Raft.silent hlt (fun i => ⟨rfl, rfl, rfl⟩) (fun i j mi hmi => ?_) rng,
      Raft.silent hlt (Raft.forced_init n rngs rng) (fun i j mi hmi => ?_) rng⟩
    · exact absurd hmi (by simp [RaftNode.newSeeded])
    · -- the indices that a forced leader starts with
      by_cases hi : i = 0
      · subst hi
        have hfold : ((peerIds 0 n).foldl (fun m peer => m.insert peer 0)
            (∅ : HashMap NodeId ℕ)).lookup j = some mi := hmi
        rw [HashMap.lookup_foldl_insert] at hfold
        split at hfold
        · exact (Option.some.inj hfold).symm
        · exact absurd hfold (by simp)
      · have hnone : (∅ : HashMap NodeId ℕ).lookup j = some mi := by
          have hinit : (Raft.newClusterWithLeader n rngs rng).nodes i =
              (RaftNode.newSeeded i n (rngs i)).2 := if_neg hi
          rw [← hmi]
          exact congrArg (fun s : RaftState => s.matchIndex.lookup j) hinit.symm
        exact absurd hnone (by simp)

/-- Two of four nodes are isolated. -/
def halfIsolated : NetworkFaults where
  isolatedNodes := {2, 3}
  rng _ := 0

/-- A proposal that is delivered as far as it goes. -/
def attempt : List HarnessCall := [.call (.propose ⟨[0x70]⟩), .call (.runToCompletion 30)]

/-- Two of four nodes hear of a proposal and commit nothing. -/
theorem no_quorum_no_commit_four :
    (∃ c, @drive _ (@Pbft.polled Sha256.sample 4) Sha256.sample
        ((Pbft.newCluster 4 fun _ => 0).setFaults halfIsolated) attempt = some c ∧
      c.stats.messagesDelivered = 3 ∧ (∀ i, c.commitLog.recorded i = []) ∧
      (collectCommitted (@Pbft.polled Sha256.sample 4) c).1 = []) ∧
    (∃ c, @drive _ (@HotStuff.polled Sha256.sample 4) Sha256.sample
        ((HotStuff.newCluster 4 fun _ => 0).setFaults halfIsolated) attempt = some c ∧
      c.stats.messagesDelivered = 2 ∧ (∀ i, c.commitLog.recorded i = []) ∧
      (collectCommitted (@HotStuff.polled Sha256.sample 4) c).1 = []) ∧
    ∃ c, @drive _ (Raft.polled 4) Sha256.sample
        ((Raft.newClusterWithLeader 4 (fun _ => ⟨fun _ => 0⟩) fun _ => 0).setFaults halfIsolated)
        attempt = some c ∧
      c.stats.messagesDelivered = 2 ∧ (∀ i, c.commitLog.recorded i = []) ∧
      (collectCommitted (Raft.polled 4) c).1 = [] := by
  have hfaults : Isolates {2, 3} halfIsolated := by
    simp [Isolates, halfIsolated, NetworkFaults.isIsolated]
  have hcalls : ∀ call ∈ attempt, call.Within (fun _ => True) (Isolates {2, 3}) := by
    simp [attempt, HarnessCall.Within]
  have hpbft : (@drive _ (@Pbft.polled Sha256.sample 4) Sha256.sample
      ((Pbft.newCluster 4 fun _ => 0).setFaults halfIsolated) attempt).map
        (fun c => c.stats.messagesDelivered) = some 3 := by decide +kernel
  have hhotstuff : (@drive _ (@HotStuff.polled Sha256.sample 4) Sha256.sample
      ((HotStuff.newCluster 4 fun _ => 0).setFaults halfIsolated) attempt).map
        (fun c => c.stats.messagesDelivered) = some 2 := by decide +kernel
  have hraft : (@drive _ (Raft.polled 4) Sha256.sample
      ((Raft.newClusterWithLeader 4 (fun _ => ⟨fun _ => 0⟩) fun _ => 0).setFaults halfIsolated)
        attempt).map (fun c => c.stats.messagesDelivered) = some 2 := by decide +kernel
  obtain ⟨c, hc, hcount⟩ := Option.map_eq_some_iff.mp hpbft
  obtain ⟨c', hc', hcount'⟩ := Option.map_eq_some_iff.mp hhotstuff
  obtain ⟨c'', hc'', hcount''⟩ := Option.map_eq_some_iff.mp hraft
  obtain ⟨hbft, hcrash⟩ := @no_quorum_no_commit Sha256.sample 4 {2, 3} (fun _ => ⟨fun _ => 0⟩)
    fun _ => 0
  have hlive : (live 4 {2, 3}).card = 2 := by decide
  exact ⟨⟨c, hc, hcount, (hbft hlive.le).1 _ _ c hfaults hcalls hc⟩,
    ⟨c', hc', hcount', (hbft hlive.le).2 _ _ c' hfaults hcalls hc'⟩,
    c'', hc'', hcount'', (hcrash hlive.le).2 _ _ c'' hfaults hcalls hc''⟩

end ConsensusBench
