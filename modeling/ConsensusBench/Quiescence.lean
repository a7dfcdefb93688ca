import ConsensusBench.Harness

namespace ConsensusBench

/-!
# Running to completion completes

`run_to_completion` stops when nothing is pending, or after a number of steps that its caller
chooses.  In PBFT and HotStuff no message is answered without end, from whatever states and whatever
messages a cluster starts.

* `Cluster.Fades` — a measure that bounds for how many steps a message can have consequences.
* `Pbft.fades` — the phases of a slot, and the nodes that have not joined a view change yet.
* `HotStuff.fades` — the phases of a slot.
* `runs_to_completion` — so both drain in a number of steps that depends on the protocol and the
  number of nodes only.
-/

namespace Cluster

variable {σ : Type} [Sha256] {inner : NodeId → ConsensusNode σ} {c c' : Cluster σ}

/-! ### Steps without panics -/

variable (inner) in
/-- A step returns if all handlers do. -/
theorem exists_step (htotal : ∀ i s m, (inner i).handleMessage s m ≠ none) (c : Cluster σ) :
    ∃ c', c.step inner = some c' := by
  have hhand : ∀ (acc : Cluster σ × List NetworkMessage) m, ∃ acc', handOver inner acc m =
      some acc' := by
    rintro ⟨c, sent⟩ m
    unfold handOver
    dsimp only
    split
    · obtain ⟨r, hr⟩ := Option.ne_none_iff_exists'.mp (htotal m.target (c.countDelivered.nodes
        m.target) m)
      exact ⟨_, by rw [hr, Option.map_some]⟩
    · exact ⟨_, rfl⟩
  have hfold : ∀ {α β : Type} {f : β → α → Option β} (l : List α), (∀ b a, ∃ b', f b a = some b') →
      ∀ b, ∃ b', l.foldlM f b = some b' := by
    intro α β f l hf
    induction l with
    | nil => exact fun b => ⟨b, rfl⟩
    | cons a l ih =>
      intro b
      obtain ⟨b₁, hb₁⟩ := hf b a
      obtain ⟨b', hb'⟩ := ih b₁
      exact ⟨b', by rw [List.foldlM_cons, hb₁, Option.bind_eq_bind, Option.bind_some, hb']⟩
  have hone : ∀ (acc : Cluster σ × List NetworkMessage) m, ∃ acc', deliverOne inner acc m =
      some acc' := by
    rintro ⟨c, sent⟩ m
    unfold deliverOne
    dsimp only
    split
    · exact ⟨_, rfl⟩
    · split
      · exact ⟨_, rfl⟩
      · exact hfold _ (fun acc tmsg => hhand _ tmsg) _
  obtain ⟨acc, hacc⟩ := hfold c.pending hone ({ c with pending := [] }, [])
  exact ⟨_, by rw [step, hacc, Option.map_some]⟩

/-! ### Measures -/

/-- `Φ t` holds of the nodes and the messages that can be pending after `t` steps: it survives what
    nodes do and tampering, and what a node sends on a message is one step further. -/
structure Fades (inner : NodeId → ConsensusNode σ) (n : ℕ)
    (Φ : ℕ → (NodeId → σ) → NetworkMessage → Prop) : Prop where
  tamper : ∀ t nodes cfg m, Φ t nodes m → ∀ m' ∈ FaultConfig.tamper cfg m, Φ t nodes m'
  handle : ∀ t nodes m r, m.target < n → Φ t nodes m →
    (inner m.target).handleMessage (nodes m.target) m = some r →
    (∀ t' x, Φ t' nodes x → Φ t' (Function.update nodes m.target r.1) x) ∧
    ∀ m' ∈ r.2, Φ (t + 1) (Function.update nodes m.target r.1) m'

namespace Fades

variable {n : ℕ} {Φ : ℕ → (NodeId → σ) → NetworkMessage → Prop}

/-- One step further. -/
theorem step (h : Fades inner n Φ) {t : ℕ} (hsize : c.size = n)
    (hpending : ∀ m ∈ c.pending, Φ t c.nodes m) (hstep : c.step inner = some c') :
    ∀ m ∈ c'.pending, Φ (t + 1) c'.nodes m := by
  have hrule : (∀ t' x, Φ t' c.nodes x → Φ t' c'.nodes x) ∧
      ∀ m ∈ c'.pending, Φ (t + 1) c'.nodes m := by
    refine step_rule (J := fun nodes sent => (∀ t' x, Φ t' c.nodes x → Φ t' nodes x) ∧
      ∀ m ∈ sent, Φ (t + 1) nodes m) ⟨fun _ _ hx => hx, by simp⟩ ?_ hstep
    rintro nodes sent m m' r ⟨hlater, hsent⟩ hm hpass ht hr
    have hnow := h.tamper t nodes _ m (hlater t m (hpending m hm)) m' hpass.tampered
    obtain ⟨hkeep, hout⟩ := h.handle t nodes m' r (hsize ▸ ht) hnow hr
    refine ⟨fun t' x hx => hkeep t' x (hlater t' x hx), fun x hx => ?_⟩
    rcases List.mem_append.mp hx with hx | hx
    · exact hkeep _ x (hsent x hx)
    · exact hout x hx
  exact hrule.2

/-- **What fades drains**: if nothing is left after `K` steps. -/
theorem drains (h : Fades inner n Φ) (htotal : ∀ i s m, (inner i).handleMessage s m ≠ none)
    (hstart : ∀ nodes m, Φ 0 nodes m) {K : ℕ} (hend : ∀ nodes m, ¬ Φ K nodes m)
    (hsize : c.size = n) {k : ℕ} (hk : K ≤ k) : ∃ steps c',
      runToCompletion inner c k = some (steps, c') ∧ steps ≤ K ∧ c'.pending = [] := by
  have hrun : ∀ (k t : ℕ) (c : Cluster σ), c.size = n → (∀ m ∈ c.pending, Φ t c.nodes m) →
      t ≤ K → K ≤ t + k → ∃ steps c',
        runToCompletion inner c k = some (steps, c') ∧ t + steps ≤ K ∧ c'.pending = [] := by
    intro k
    induction k with
    | zero =>
      intro t c _ hpending htK hKt
      obtain rfl : t = K := le_antisymm htK hKt
      exact ⟨0, c, rfl, htK, List.eq_nil_iff_forall_not_mem.mpr fun m hm =>
        hend _ m (hpending m hm)⟩
    | succ k ih =>
      intro t c hsize hpending htK hKt
      rw [runToCompletion]
      by_cases hnil : c.pending = []
      · exact ⟨0, c, by rw [hnil]; rfl, htK, hnil⟩
      · -- something is pending, so the last step is not reached
        have hlt : t < K := by
          refine lt_of_le_of_ne htK ?_
          rintro rfl
          obtain ⟨m, hm⟩ := List.exists_mem_of_ne_nil _ hnil
          exact hend _ m (hpending m hm)
        obtain ⟨c₁, hc₁⟩ := exists_step _ htotal c
        obtain ⟨steps, c', hrun, hle, hempty⟩ := ih (t + 1) c₁
          ((step_same hc₁).size.trans hsize) (h.step hsize hpending hc₁) hlt (by omega)
        refine ⟨steps + 1, c', ?_, by omega, hempty⟩
        rw [if_neg (by simpa using hnil), hc₁, Option.bind_some, hrun, Option.map_some]
  obtain ⟨steps, c', hc', hle, hempty⟩ := hrun k 0 c hsize (fun m _ => hstart _ m) (Nat.zero_le K)
    (by omega)
  exact ⟨steps, c', hc', by omega, hempty⟩

end Fades

end Cluster

/-! ### HotStuff -/

section HotStuff

open Cluster

variable [Sha256]

/-- For how many steps a HotStuff message can have consequences. -/
def HotStuff.lifetime : ProtocolMessage → ℕ
  | .hotStuff (.propose ..) => 7
  | .hotStuff (.vote _ _ _ .prepare _) => 6
  | .hotStuff (.quorumCertificate _ _ _ .prepare _) => 5
  | .hotStuff (.vote _ _ _ .preCommit _) => 4
  | .hotStuff (.quorumCertificate _ _ _ .preCommit _) => 3
  | .hotStuff (.vote _ _ _ .commit _) => 2
  | _ => 1

omit [Sha256] in
/-- Every message has a lifetime. -/
theorem HotStuff.lifetime_pos (m : ProtocolMessage) : 0 < HotStuff.lifetime m := by
  unfold HotStuff.lifetime
  split <;> omega

omit [Sha256] in
/-- No lifetime exceeds `7`. -/
theorem HotStuff.lifetime_le (m : ProtocolMessage) : HotStuff.lifetime m ≤ 7 := by
  unfold HotStuff.lifetime
  split <;> omega

omit [Sha256] in
/-- Tampering leaves it alone. -/
theorem HotStuff.lifetime_skeleton (m : ProtocolMessage) :
    HotStuff.lifetime (FaultConfig.skeleton m) = HotStuff.lifetime m := by
  cases m with
  | pbft m => cases m <;> rfl
  | raft m => cases m <;> rfl
  | hotStuff m =>
    cases m with
    | vote v q d t r => cases t <;> rfl
    | quorumCertificate v q d t vc => cases t <;> rfl
    | _ => rfl

/-- An answer has consequences for less long. -/
theorem HotStuff.Effect.lifetime_lt {n : ℕ} {i : NodeId} {s s' : HotStuffState}
    {m m' : NetworkMessage} {out : List NetworkMessage}
    (h : HotStuff.Effect (HotStuff.node n i) s (.recv m) s' out) (hm' : m' ∈ out) :
    HotStuff.lifetime m'.payload < HotStuff.lifetime m.payload := by
  cases h with
  | accept _ v q d p jv jp hm =>
    rw [List.mem_singleton.mp hm', hm]
    show 6 < 7
    omega
  | certify _ q d t r slot slot' vc hm =>
    obtain ⟨j, _, _, rfl⟩ := HotStuff.mem_broadcastHotstuff.mp hm'
    rw [hm]
    cases t <;> simp [HotStuff.lifetime]
  | advance _ q d t t' vc hm hq ht =>
    rw [List.mem_singleton.mp hm', hm]
    cases t <;> simp [HotStuff.nextTag] at ht <;> subst ht <;>
      simp [HotStuff.lifetime, HotStuffNode.msgTo]
  | _ => exact absurd hm' (by simp)

/-- **The traffic of HotStuff fades**: an answer has less of a lifetime than what it answers. -/
theorem HotStuff.fades (n : ℕ) :
    Fades (HotStuff.code n) n fun t _ m => t + HotStuff.lifetime m.payload ≤ 7 where
  tamper t nodes cfg m h m' hm' := by
    rw [cfg.eq_alter_of_mem hm', ← HotStuff.lifetime_skeleton, cfg.alter_skeleton,
      HotStuff.lifetime_skeleton]
    exact h
  handle t nodes m r _ h hr := by
    refine ⟨fun _ _ hx => hx, fun m' hm' => ?_⟩
    cases hr
    have hlt := (HotStuff.handleMessage_effect (HotStuff.node n m.target) _ m).lifetime_lt hm'
    omega

/-- A HotStuff cluster drains within `7` steps. -/
theorem HotStuff.drains (n : ℕ) (c : Cluster HotStuffState) (k : ℕ) (hsize : c.size = n)
    (hk : 7 ≤ k) : ∃ steps c', c.runToCompletion (HotStuff.code n) k = some (steps, c') ∧
      steps ≤ 7 ∧ c'.pending = [] := by
  refine (HotStuff.fades n).drains (fun i s m => by simp [HotStuff.code]) (fun nodes m => ?_)
    (fun nodes m hle => ?_) hsize hk
  · have hle := HotStuff.lifetime_le m.payload
    omega
  · have hpos := HotStuff.lifetime_pos m.payload
    omega

end HotStuff

/-! ### PBFT -/

section Pbft

open AsyncNet Cluster Pbft

variable [Sha256] {n : ℕ} {i : NodeId} {s s' : PbftState} {nodes : NodeId → PbftState}

omit [Sha256] in
/-- Node `i` has voted for view `v`, or does not care for it any more. -/
def Pbft.Joined (i : NodeId) (s : PbftState) (v : ViewNumber) : Prop :=
  v ≤ s.view ∨ i ∈ (s.viewChangeVotes.lookup v).getD ∅

instance (i : NodeId) (s : PbftState) (v : ViewNumber) : Decidable (Pbft.Joined i s v) :=
  inferInstanceAs (Decidable (_ ∨ _))

/-- The nodes that have joined view `v`. -/
def Pbft.joiners (n : ℕ) (nodes : NodeId → PbftState) (v : ViewNumber) : Finset NodeId :=
  (Finset.range n).filter fun i => Pbft.Joined i (nodes i) v

omit [Sha256] in
/-- No more nodes can join than there are. -/
theorem Pbft.card_joiners_le (nodes : NodeId → PbftState) (v : ViewNumber) :
    (Pbft.joiners n nodes v).card ≤ n := by
  have hle := Finset.card_filter_le (Finset.range n) fun i => Pbft.Joined i (nodes i) v
  rwa [Finset.card_range] at hle

omit [Sha256] in
/-- Who adds its own vote has joined. -/
theorem Pbft.mem_of_voted {self : PbftNode} {r : NodeId} {V votes : Finset NodeId} {v : ViewNumber}
    {l : SequenceNumber} {out : List NetworkMessage}
    (h : votes = insert r V ∧ self.id ∈ votes ∧ out = [] ∨
      votes = insert self.id (insert r V) ∧ out = self.broadcastPbft (.viewChange v self.id l)) :
    self.id ∈ votes := by
  rcases h with ⟨_, hmem, _⟩ | ⟨rfl, _⟩
  · exact hmem
  · exact Finset.mem_insert_self _ _

/-- A node that has joined stays so. -/
theorem Pbft.Effect.joined {c : Cause Call NetworkMessage} {out : List NetworkMessage}
    (h : Pbft.Effect (node n i) s c s' out) {v : ViewNumber} (hv : Pbft.Joined i s v) :
    Pbft.Joined i s' v := by
  -- votes are only added to
  have hinsert : ∀ {v' : ViewNumber} {votes : Finset NodeId}, i ∈ votes →
      i ∈ (s.viewChangeVotes.lookup v).getD ∅ →
      i ∈ ((s.viewChangeVotes.insert v' votes).lookup v).getD ∅ := by
    intro v' votes hmem hold
    by_cases hvv : v = v'
    · subst hvv
      rw [AList.lookup_insert]
      exact hmem
    · rw [AList.lookup_insert_ne hvv]
      exact hold
  cases h with
  | timeout _ _ _ votes hvotes =>
    exact hv.imp_right (hinsert (by rw [hvotes]; exact Finset.mem_insert_self _ _))
  | vote m v' r l votes out _ _ hvotes => exact hv.imp_right (hinsert (Pbft.mem_of_voted hvotes))
  | install m v' r l votes out _ hlt hvotes =>
    exact hv.imp (fun hle => hle.trans hlt.le) (hinsert (Pbft.mem_of_voted hvotes))
  | adopt m v' ns _ hlt => exact hv.imp_left fun hle => hle.trans hlt.le
  | _ => exact hv

omit [Sha256] in
/-- A node answers a vote with its own only if it had not joined. -/
theorem Pbft.not_joined_of_answer {m m' : NetworkMessage} {v : ViewNumber} {r r' : NodeId}
    {l l' : SequenceNumber} (hm : m.payload = .pbft (.viewChange v r l))
    (hm' : m' ∈ ((node n i).handleMessage s m).2)
    (hpl : m'.payload = .pbft (.viewChange v r' l')) : ¬ Pbft.Joined i s v := by
  have hnone : m' ∉ ([] : List NetworkMessage) := List.not_mem_nil
  unfold PbftNode.handleMessage at hm'
  simp only [hm] at hm'
  unfold PbftNode.handleViewChange at hm'
  split at hm'
  · exact absurd hm' hnone
  · rename_i hv
    rw [not_le] at hv
    by_cases hin : (node n i).id ∈ insert r ((s.viewChangeVotes.lookup v).getD ∅)
    · -- only the new view is announced
      simp only [hin, not_true_eq_false, if_false] at hm'
      split at hm'
      · have hnew : m' ∈ (node n i).broadcastPbft (.newView v (s.highestCommittedSeq + 1)) := hm'
        obtain ⟨j, _, _, rfl⟩ := mem_broadcastPbft.mp hnew
        exact absurd hpl (by simp)
      · exact absurd hm' hnone
    · rintro (hle | hmem)
      · exact absurd hle (not_le.mpr hv)
      · exact hin (Finset.mem_insert_of_mem hmem)

/-- **What a message is answered with**: that of the next phase, or, to a vote for a view, the vote
    of the node, or the new view. -/
theorem Pbft.Effect.answer {m m' : NetworkMessage} {out : List NetworkMessage}
    (h : Pbft.Effect (node n i) s (.recv m) s' out) (hm' : m' ∈ out) :
    (∃ v q d p q' d' r, m.payload = .pbft (.prePrepare v q d p) ∧
      m'.payload = .pbft (.prepare v q' d' r)) ∨
    (∃ v q d r q' d' r', m.payload = .pbft (.prepare v q d r) ∧
      m'.payload = .pbft (.commit v q' d' r')) ∨
    (∃ v r l r' l', m.payload = .pbft (.viewChange v r l) ∧
      m'.payload = .pbft (.viewChange v r' l') ∧ Pbft.Joined i s' v) ∨
    ∃ v r l ns, m.payload = .pbft (.viewChange v r l) ∧ m'.payload = .pbft (.newView v ns) := by
  cases h with
  | accept _ q d p hm =>
    obtain ⟨j, _, _, rfl⟩ := mem_broadcastPbft.mp hm'
    exact .inl ⟨_, _, _, _, _, _, _, hm, rfl⟩
  | prepare _ q d r slot hm =>
    obtain ⟨j, _, _, rfl⟩ := mem_broadcastPbft.mp hm'
    exact .inr (.inl ⟨_, _, _, _, _, _, _, hm, rfl⟩)
  | vote _ v r l votes out hm hlt hvotes =>
    obtain ⟨j, _, _, rfl⟩ := mem_broadcastPbft.mp (mem_of_joined hm' hvotes)
    refine .inr (.inr (.inl ⟨v, r, l, _, _, hm, rfl, .inr ?_⟩))
    rw [AList.lookup_insert]
    exact Pbft.mem_of_voted hvotes
  | install _ v r l votes out hm hlt hvotes =>
    rcases List.mem_append.mp hm' with hm' | hm'
    · obtain ⟨j, _, _, rfl⟩ := mem_broadcastPbft.mp (mem_of_joined hm' hvotes)
      exact .inr (.inr (.inl ⟨v, r, l, _, _, hm, rfl, .inl (le_refl v)⟩))
    · obtain ⟨j, _, _, rfl⟩ := mem_broadcastPbft.mp hm'
      exact .inr (.inr (.inr ⟨_, _, _, _, hm, rfl⟩))
  | _ => exact absurd hm' (by simp)

/-- What can be pending after `t` steps: votes for a view only if as many nodes have joined it. -/
def Pbft.Lasts (n t : ℕ) (nodes : NodeId → PbftState) : ProtocolMessage → Prop
  | .pbft (.prePrepare ..) => t < 1
  | .pbft (.prepare ..) => t < 2
  | .pbft (.commit ..) => t < 3
  | .pbft (.viewChange v _ _) => t ≤ (Pbft.joiners n nodes v).card
  | .pbft (.newView ..) => t ≤ n + 1
  | _ => t < 1

omit [Sha256] in
/-- What can be pending is a matter of skeletons. -/
theorem Pbft.lasts_skeleton (t : ℕ) (nodes : NodeId → PbftState) (m : ProtocolMessage) :
    Pbft.Lasts n t nodes (FaultConfig.skeleton m) ↔ Pbft.Lasts n t nodes m := by
  cases m with
  | pbft m => cases m <;> rfl
  | raft m => cases m <;> rfl
  | hotStuff m => cases m <;> rfl

omit [Sha256] in
/-- The more nodes have joined, the longer votes for a view can be pending. -/
theorem Pbft.Lasts.mono {t : ℕ} {nodes' : NodeId → PbftState} {m : ProtocolMessage}
    (h : ∀ v, Pbft.joiners n nodes v ⊆ Pbft.joiners n nodes' v) (hm : Pbft.Lasts n t nodes m) :
    Pbft.Lasts n t nodes' m := by
  cases m with
  | pbft m =>
    cases m with
    | viewChange v => exact le_trans hm (Finset.card_le_card (h v))
    | _ => exact hm
  | _ => exact hm

omit [Sha256] in
/-- At the start anything can be pending. -/
theorem Pbft.lasts_zero (m : ProtocolMessage) : Pbft.Lasts n 0 nodes m := by
  unfold Pbft.Lasts
  split <;> omega

omit [Sha256] in
/-- There are not enough nodes to keep a view change going. -/
theorem Pbft.not_lasts (hn : 0 < n) (m : ProtocolMessage) : ¬ Pbft.Lasts n (n + 2) nodes m := by
  intro h
  cases m with
  | pbft m =>
    cases m with
    | viewChange v =>
      have hle : n + 2 ≤ (Pbft.joiners n nodes v).card := h
      have hcard := Pbft.card_joiners_le (n := n) nodes v
      omega
    | newView => exact absurd h (by simp [Pbft.Lasts])
    | _ =>
      unfold Pbft.Lasts at h
      omega
  | _ =>
    unfold Pbft.Lasts at h
    omega

/-- **The traffic of PBFT fades**: a node that has joined a view answers no more votes for it. -/
theorem Pbft.fades (n : ℕ) : Fades (Pbft.code n) n fun t nodes m =>
    Pbft.Lasts n t nodes m.payload ∧ (t = 0 ∨ 0 < n) where
  tamper t nodes cfg m h m' hm' := by
    rw [cfg.eq_alter_of_mem hm', ← Pbft.lasts_skeleton, cfg.alter_skeleton, Pbft.lasts_skeleton]
    exact h
  handle t nodes m r ht h hr := by
    cases hr
    obtain ⟨hlasts, _⟩ := h
    have heff := Pbft.handleMessage_effect (node n m.target) (nodes m.target) m
    -- whoever has joined a view stays so
    have hmono : ∀ v, Pbft.joiners n nodes v ⊆ Pbft.joiners n (Function.update nodes m.target
        ((node n m.target).handleMessage (nodes m.target) m).1) v := by
      intro v i hi
      obtain ⟨hin, hjoined⟩ := Finset.mem_filter.mp hi
      refine Finset.mem_filter.mpr ⟨hin, ?_⟩
      by_cases hit : i = m.target
      · subst hit
        rw [Function.update_self]
        exact heff.joined hjoined
      · rw [Function.update_of_ne hit]
        exact hjoined
    refine ⟨fun t' x hx => ⟨hx.1.mono hmono, hx.2⟩, fun m' hm' => ⟨?_, .inr (by omega)⟩⟩
    rcases heff.answer hm' with ⟨v, q, d, p, q', d', r, hm, hpl⟩ |
      ⟨v, q, d, r, q', d', r', hm, hpl⟩ | ⟨v, r, l, r', l', hm, hpl, hjoined⟩ |
      ⟨v, r, l, ns, hm, hpl⟩
    · rw [hm] at hlasts
      rw [hpl]
      exact Nat.succ_lt_succ hlasts
    · rw [hm] at hlasts
      rw [hpl]
      exact Nat.succ_lt_succ hlasts
    · -- one more node has joined
      have hnot := Pbft.not_joined_of_answer hm hm' hpl
      rw [hm] at hlasts
      rw [hpl]
      refine le_trans (Nat.succ_le_succ hlasts) (Finset.card_lt_card ?_)
      refine Finset.ssubset_iff_subset_ne.mpr ⟨hmono v, fun heq => ?_⟩
      have hmem : m.target ∈ Pbft.joiners n nodes v := by
        rw [heq]
        refine Finset.mem_filter.mpr ⟨Finset.mem_range.mpr ht, ?_⟩
        rw [Function.update_self]
        exact hjoined
      exact hnot (Finset.mem_filter.mp hmem).2
    · rw [hm] at hlasts
      rw [hpl]
      exact Nat.succ_le_succ (le_trans hlasts (Pbft.card_joiners_le nodes v))

/-- A PBFT cluster drains within `n + 2` steps. -/
theorem Pbft.drains (n : ℕ) (c : Cluster PbftState) (k : ℕ) (hsize : c.size = n) (hk : n + 2 ≤ k) :
    ∃ steps c', c.runToCompletion (Pbft.code n) k = some (steps, c') ∧ steps ≤ n + 2 ∧
      c'.pending = [] := by
  refine (Pbft.fades n).drains (fun i s m => by simp [Pbft.code])
    (fun nodes m => ⟨Pbft.lasts_zero _, .inl rfl⟩) ?_ hsize hk
  rintro nodes m ⟨hlasts, hpos⟩
  exact Pbft.not_lasts (hpos.resolve_left (by omega)) _ hlasts

end Pbft

/-! ### Both -/

section Both

open Cluster

variable [Sha256]

/-- **Running to completion completes**: whatever the nodes, the messages and the faults are, PBFT
    drains within `n + 2` steps and HotStuff within `7`. -/
theorem runs_to_completion (n : ℕ) :
    (∀ (c : Cluster PbftState) (k : ℕ), c.size = n → n + 2 ≤ k → ∃ steps c',
      c.runToCompletion (Pbft.code n) k = some (steps, c') ∧ steps ≤ n + 2 ∧ c'.pending = []) ∧
    ∀ (c : Cluster HotStuffState) (k : ℕ), c.size = n → 7 ≤ k → ∃ steps c',
      c.runToCompletion (HotStuff.code n) k = some (steps, c') ∧ steps ≤ 7 ∧ c'.pending = [] :=
  ⟨Pbft.drains n, HotStuff.drains n⟩

omit [Sha256] in
/-- Four nodes deliver all of a proposal, in either protocol. -/
theorem runs_to_completion_four :
    (∃ steps c', @runToCompletion _ (@Pbft.code Sha256.sample 4) Sha256.sample
      (propose (@Pbft.code Sha256.sample 4) (Pbft.newCluster 4 fun _ => 0) ⟨[0x70]⟩).2 100 =
        some (steps, c') ∧ steps ≤ 6 ∧ c'.pending = []) ∧
    ∃ steps c', @runToCompletion _ (@HotStuff.code Sha256.sample 4) Sha256.sample
      (propose (@HotStuff.code Sha256.sample 4) (HotStuff.newCluster 4 fun _ => 0) ⟨[0x70]⟩).2 100 =
        some (steps, c') ∧ steps ≤ 7 ∧ c'.pending = [] := by
  obtain ⟨hpbft, hhotstuff⟩ := @runs_to_completion Sha256.sample 4
  have hsize : (propose (@Pbft.code Sha256.sample 4) (Pbft.newCluster 4 fun _ => 0)
      ⟨[0x70]⟩).2.size = 4 := by decide +kernel
  have hsize' : (propose (@HotStuff.code Sha256.sample 4) (HotStuff.newCluster 4 fun _ => 0)
      ⟨[0x70]⟩).2.size = 4 := by decide +kernel
  exact ⟨hpbft _ 100 hsize (by decide), hhotstuff _ 100 hsize' (by decide)⟩

end Both

end ConsensusBench
