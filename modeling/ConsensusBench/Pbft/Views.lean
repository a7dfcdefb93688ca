import ConsensusBench.Pbft.Ledger

namespace ConsensusBench

/-!
# PBFT: how views are entered

A `NewView` carries no certificate and a node joins a view change on the first vote it sees;
that a view is entered only with a quorum has to be read off the whole run.

* `Effect.view_inv`, `Effect.votes_inv`, `Effect.viewChange_inv` — how a node comes to a view,
  to a vote it counts, and to a vote of its own.
* `Justified` — counted votes were cast, a vote goes back to a timeout in every earlier view,
  and every view was entered with the votes of a quorum (`Elected`).
* `view_certificate` — so views are entered with a quorum, and none is skipped.
-/

open AsyncNet PbftNode

namespace Pbft

/-! ### Timeouts and votes -/

/-- Node `j` has broadcast a `ViewChange` vote of its own for view `v`. -/
def Cast (h : History PbftState) (j : NodeId) (v : ViewNumber) : Prop :=
  ∃ o ∈ h, o.node = j ∧ ∃ m ∈ o.sent, ∃ l, m.payload = .pbft (.viewChange v j l)

/-- A tick that finds the timeout of a node in view `v` expired, and starts a view change. -/
def TimesOut (n : ℕ) (o : NodeStep PbftState) (v : ViewNumber) : Prop :=
  o.cause = .call .tick ∧ o.before.view = v ∧ o.before.viewChangeTimeout = 0 ∧
    (node n o.node).primaryForView v ≠ o.node ∧ o.before.viewChangeInProgress = false

/-- Some node timed out while it was in view `v`. -/
def TimedOut (n : ℕ) (h : History PbftState) (v : ViewNumber) : Prop := ∃ o ∈ h, TimesOut n o v

/-- At least `2f + 1` nodes, the primary of view `v` among them, have voted for view `v`. -/
def Elected (n : ℕ) (h : History PbftState) (v : ViewNumber) : Prop :=
  ∃ V : Finset NodeId, 2 * ((n - 1) / 3) + 1 ≤ V.card ∧ v % n ∈ V ∧ ∀ j ∈ V, j < n ∧ Cast h j v

section Histories

variable {n : ℕ} {h : History PbftState} {j : NodeId} {v : ViewNumber}

theorem Cast.cons (hc : Cast h j v) (o : NodeStep PbftState) : Cast (o :: h) j v := by
  obtain ⟨o', ho', hrest⟩ := hc
  exact ⟨o', List.mem_cons_of_mem _ ho', hrest⟩

theorem TimedOut.cons (ht : TimedOut n h v) (o : NodeStep PbftState) : TimedOut n (o :: h) v := by
  obtain ⟨o', ho', hrest⟩ := ht
  exact ⟨o', List.mem_cons_of_mem _ ho', hrest⟩

theorem Elected.cons (he : Elected n h v) (o : NodeStep PbftState) : Elected n (o :: h) v := by
  obtain ⟨V, hcard, hp, hV⟩ := he
  exact ⟨V, hcard, hp, fun j hj => ⟨(hV j hj).1, (hV j hj).2.cons o⟩⟩

end Histories

/-! ### What a step does to the view and the votes -/

section Inversion

variable [Sha256] {n : ℕ} {i : NodeId} {s s' : PbftState} {c : Cause Call NetworkMessage}
variable {out : List NetworkMessage}

/-- **How a node comes to a view**: it was in it, it installs it as its primary with the votes
    of a quorum, or it hears of it. -/
theorem Effect.view_inv (h : Effect (node n i) s c s' out) : s'.view = s.view ∨
    (∃ S, s'.viewChangeVotes.lookup s'.view = some S ∧ 2 * ((n - 1) / 3) + 1 ≤ S.card ∧
      i ∈ S ∧ s'.view % n = i ∧ ∃ m, c = .recv m) ∨
    ∃ m ns, c = .recv m ∧ m.payload = .pbft (.newView s'.view ns) := by
  cases h with
  | install m v r l votes out hm hv hvotes hq hp =>
    refine .inr (.inl ⟨votes, AList.lookup_insert _, hq, ?_, hp, m, rfl⟩)
    rcases hvotes with ⟨_, hself, _⟩ | ⟨rfl, _⟩
    · exact hself
    · exact Finset.mem_insert_self _ _
  | adopt m v ns hm hv => exact .inr (.inr ⟨m, ns, rfl, hm⟩)
  | _ => exact .inl rfl

/-- **How a node comes to a vote it counts**: it had it, it receives it, or it is its own, which
    it broadcasts because it suspects another node or heard from one. -/
theorem Effect.votes_inv (h : Effect (node n i) s c s' out) {v : ViewNumber} {S : Finset NodeId}
    {r : NodeId} (hS : s'.viewChangeVotes.lookup v = some S) (hr : r ∈ S) :
    (∃ S₀, s.viewChangeVotes.lookup v = some S₀ ∧ r ∈ S₀) ∨
    (∃ m l, c = .recv m ∧ m.payload = .pbft (.viewChange v r l)) ∨
    (r = i ∧ ((node n i).primaryForView s.view ≠ i ∨ ∃ m, c = .recv m) ∧
      ∃ l, ∀ m ∈ (node n i).broadcastPbft (.viewChange v i l), m ∈ out) := by
  -- a received vote is counted, together with the node's own if it had not voted
  have hjoin : ∀ {m : NetworkMessage} {v' : ViewNumber} {r' : NodeId} {l : SequenceNumber}
      {votes : Finset NodeId} {out' : List NetworkMessage},
      c = .recv m → m.payload = .pbft (.viewChange v' r' l) →
      (∀ x ∈ out', x ∈ out) →
      (votes = insert r' ((s.viewChangeVotes.lookup v').getD ∅) ∧ i ∈ votes ∧ out' = [] ∨
        votes = insert i (insert r' ((s.viewChangeVotes.lookup v').getD ∅)) ∧
          out' = (node n i).broadcastPbft (.viewChange v' i s.highestCommittedSeq)) →
      (s.viewChangeVotes.insert v' votes).lookup v = some S →
      (∃ S₀, s.viewChangeVotes.lookup v = some S₀ ∧ r ∈ S₀) ∨
      (∃ m l, c = .recv m ∧ m.payload = .pbft (.viewChange v r l)) ∨
      (r = i ∧ ((node n i).primaryForView s.view ≠ i ∨ ∃ m, c = .recv m) ∧
      ∃ l, ∀ m ∈ (node n i).broadcastPbft (.viewChange v i l), m ∈ out) := by
    intro m v' r' l votes out' hc hm hout hvotes hS
    rcases HashMap.mem_lookup_insert hS hr with ⟨rfl, hr⟩ | hold
    · have hinner : r ∈ insert r' ((s.viewChangeVotes.lookup v).getD ∅) →
          (∃ S₀, s.viewChangeVotes.lookup v = some S₀ ∧ r ∈ S₀) ∨
          (∃ m l, c = .recv m ∧ m.payload = .pbft (.viewChange v r l)) ∨
          (r = i ∧ ((node n i).primaryForView s.view ≠ i ∨ ∃ m, c = .recv m) ∧
      ∃ l, ∀ m ∈ (node n i).broadcastPbft (.viewChange v i l), m ∈ out) := by
        intro hr
        rcases Finset.mem_insert.mp hr with rfl | hr
        · exact .inr (.inl ⟨m, l, hc, hm⟩)
        · exact .inl (HashMap.mem_lookup_getD hr)
      rcases hvotes with ⟨rfl, _, _⟩ | ⟨rfl, rfl⟩
      · exact hinner hr
      · rcases Finset.mem_insert.mp hr with rfl | hr
        · exact .inr (.inr ⟨rfl, .inr ⟨m, hc⟩, _, hout⟩)
        · exact hinner hr
    · exact .inl hold
  cases h with
  | timeout hp hv h0 votes hvotes =>
    rcases HashMap.mem_lookup_insert hS hr with ⟨rfl, hr⟩ | hold
    · rw [hvotes] at hr
      rcases Finset.mem_insert.mp hr with rfl | hr
      · exact .inr (.inr ⟨rfl, .inl hp, _, fun m hm => hm⟩)
      · exact .inl (HashMap.mem_lookup_getD hr)
    · exact .inl hold
  | vote m v' r' l votes out hm hv hvotes => exact hjoin rfl hm (fun x hx => hx) hvotes hS
  | install m v' r' l votes out hm hv hvotes hq hp =>
    exact hjoin rfl hm (fun x hx => List.mem_append_left _ hx) hvotes hS
  | _ => exact .inl ⟨S, hS, hr⟩

/-- **How a node comes to vote for a view**: it times out in the view before, or it receives a
    vote for the view.  It takes its own vote down, and names the highest sequence it has
    committed, behind the step as before it. -/
theorem Effect.viewChange_inv (h : Effect (node n i) s c s' out) {m : NetworkMessage}
    (hm : m ∈ out) {v : ViewNumber} {r : NodeId} {l : SequenceNumber}
    (hpl : m.payload = .pbft (.viewChange v r l)) : r = i ∧
      ((v = s.view + 1 ∧ TimesOut n ⟨i, c, s, s', out⟩ s.view) ∨
        ∃ m' r' l', c = .recv m' ∧ m'.payload = .pbft (.viewChange v r' l')) ∧
      (∃ S, s'.viewChangeVotes.lookup v = some S ∧ i ∈ S) ∧ l = s'.highestCommittedSeq := by
  have hsaid : ∀ {x}, m ∈ (node n i).broadcastPbft x → x = .viewChange v r l := fun hx =>
    eq_of_mem_broadcastPbft hx hpl
  -- a vote that answers another one is taken down with it
  have hjoined : ∀ {V votes : Finset NodeId} {r' : NodeId} {out' : List NetworkMessage},
      (votes = insert r' V ∧ i ∈ votes ∧ out' = [] ∨ votes = insert i (insert r' V) ∧
        out' = (node n i).broadcastPbft (.viewChange v i s.highestCommittedSeq)) → i ∈ votes := by
    rintro V votes r' out' (⟨_, hself, _⟩ | ⟨rfl, _⟩)
    · exact hself
    · exact Finset.mem_insert_self _ _
  cases h with
  | timeout hp hv h0 votes hvotes =>
    cases hsaid hm
    refine ⟨rfl, .inl ⟨rfl, rfl, rfl, h0, hp, hv⟩, ⟨votes, AList.lookup_insert _, ?_⟩, rfl⟩
    rw [hvotes]
    exact Finset.mem_insert_self _ _
  | assign p hp =>
    rcases List.mem_append.mp hm with hm | hm
    · exact absurd (hsaid hm) (by simp)
    · exact absurd (hsaid hm) (by simp)
  | accept m' q d p hm' ha => exact absurd (hsaid hm) (by simp)
  | prepare m' q d r slot hm' hs hph hq => exact absurd (hsaid hm) (by simp)
  | vote m' v' r' l' votes out hm' hv hvotes =>
    cases hsaid (mem_of_joined hm hvotes)
    exact ⟨rfl, .inr ⟨m', r', l', rfl, hm'⟩, ⟨votes, AList.lookup_insert _, hjoined hvotes⟩, rfl⟩
  | install m' v' r' l' votes out hm' hv hvotes hq hp =>
    rcases List.mem_append.mp hm with hm | hm
    · cases hsaid (mem_of_joined hm hvotes)
      exact ⟨rfl, .inr ⟨m', r', l', rfl, hm'⟩, ⟨votes, AList.lookup_insert _, hjoined hvotes⟩, rfl⟩
    · exact absurd (hsaid hm) (by simp)
  | _ => exact absurd hm (by simp)

/-- A node that announces a view is in it. -/
theorem Effect.newView_inv (h : Effect (node n i) s c s' out) {m : NetworkMessage} (hm : m ∈ out)
    {v : ViewNumber} {ns : SequenceNumber} (hpl : m.payload = .pbft (.newView v ns)) :
    s'.view = v := by
  have hsaid : ∀ {x}, m ∈ (node n i).broadcastPbft x → x = .newView v ns := fun hx =>
    eq_of_mem_broadcastPbft hx hpl
  cases h with
  | timeout => exact absurd (hsaid hm) (by simp)
  | assign p hp =>
    rcases List.mem_append.mp hm with hm | hm
    · exact absurd (hsaid hm) (by simp)
    · exact absurd (hsaid hm) (by simp)
  | accept m' q d p hm' ha => exact absurd (hsaid hm) (by simp)
  | prepare m' q d r slot hm' hs hph hq => exact absurd (hsaid hm) (by simp)
  | vote m' v' r' l' votes out hm' hv hvotes =>
    exact absurd (hsaid (mem_of_joined hm hvotes)) (by simp)
  | install m' v' r' l' votes out hm' hv hvotes hq hp =>
    rcases List.mem_append.mp hm with hm | hm
    · exact absurd (hsaid (mem_of_joined hm hvotes)) (by simp)
    · cases hsaid hm
      rfl
  | _ => exact absurd hm (by simp)

end Inversion

/-! ### Every view is justified -/

/-- What the run knows about votes and views. -/
structure Justified (n : ℕ) (nodes : NodeId → PbftState) (h : History PbftState) : Prop where
  counted : ∀ i v S, (nodes i).viewChangeVotes.lookup v = some S → ∀ r ∈ S, r < n ∧ Cast h r v
  timed : ∀ j v, Cast h j v → ∀ u, 0 < u → u ≤ v → TimedOut n h (u - 1)
  entered : ∀ o ∈ h, 0 < o.after.view → Elected n h o.after.view
  now : ∀ i, 0 < (nodes i).view → Elected n h (nodes i).view

section Runs

variable [Sha256] {n : ℕ} {cfg : FaultConfig}
variable {ok : System.Guard NodeId PbftState Call NetworkMessage}
variable {w : World NodeId PbftState Call NetworkMessage}

/-- A received vote was broadcast by the node it names, as it arrived. -/
theorem viewChange_source (hw : (system n cfg).Reach ok w) {o : NodeStep PbftState}
    (hf : (system n cfg).Fires w o) {m : NetworkMessage} (hc : o.cause = .recv m)
    {v : ViewNumber} {r : NodeId} {l : SequenceNumber}
    (hm : m.payload = .pbft (.viewChange v r l)) :
    r < n ∧ ∃ o₀ ∈ w.history, o₀.node = r ∧
      ∃ m ∈ o₀.sent, m.payload = .pbft (.viewChange v r l) := by
  obtain ⟨_, _, o₀, ho₀, x, hsent, _, _, hn, hskel, hsaid⟩ := recv_source hw hf hc
  rw [hm] at hskel
  cases hsaid with
  | viewChange v' hv' =>
    simp only [FaultConfig.skeleton, ProtocolMessage.pbft.injEq, PbftMessage.viewChange.injEq]
      at hskel
    obtain ⟨rfl, rfl, rfl⟩ := hskel
    exact ⟨hn, o₀, ho₀, rfl, _, hsent, rfl⟩
  | _ => exact absurd hskel (by simp [FaultConfig.skeleton])

/-- A received vote was cast by the node it names. -/
theorem cast_of_recv (hw : (system n cfg).Reach ok w) {o : NodeStep PbftState}
    (hf : (system n cfg).Fires w o) {m : NetworkMessage} (hc : o.cause = .recv m)
    {v : ViewNumber} {r : NodeId} {l : SequenceNumber}
    (hm : m.payload = .pbft (.viewChange v r l)) : r < n ∧ Cast w.history r v := by
  obtain ⟨hr, o₀, ho₀, hnode, m₀, hsent, hpl⟩ := viewChange_source hw hf hc hm
  exact ⟨hr, o₀, ho₀, hnode, m₀, hsent, l, hpl⟩

/-- A `NewView` comes from a node that is in the view. -/
theorem newView_source (hw : (system n cfg).Reach ok w) {o : NodeStep PbftState}
    (hf : (system n cfg).Fires w o) {m : NetworkMessage} (hc : o.cause = .recv m)
    {v : ViewNumber} {ns : SequenceNumber} (hm : m.payload = .pbft (.newView v ns)) :
    ∃ o₀ ∈ w.history, o₀.after.view = v := by
  obtain ⟨_, _, o₀, ho₀, x, hsent, _, _, _, hskel, hsaid⟩ := recv_source hw hf hc
  rw [hm] at hskel
  obtain ⟨w₀, _, _, hf₀, _⟩ := hw.fired o₀ ho₀
  cases hsaid with
  | newView v' hv' hp =>
    simp only [FaultConfig.skeleton, ProtocolMessage.pbft.injEq, PbftMessage.newView.injEq]
      at hskel
    obtain ⟨rfl, _⟩ := hskel
    exact ⟨o₀, ho₀, (effect_of_fires hf₀).newView_inv hsent rfl⟩
  | _ => exact absurd hskel (by simp [FaultConfig.skeleton])

/-- **Every step keeps views justified.** -/
theorem Justified.step (h : Justified n w.nodes w.history) (hw : (system n cfg).Reach ok w)
    {o : NodeStep PbftState} (hf : (system n cfg).Fires w o) :
    Justified n (Function.update w.nodes o.node o.after) (o :: w.history) := by
  have heff := effect_of_fires hf
  have hs := hf.before_eq
  have hi := Finset.mem_range.mp hf.node_mem
  have hcounted : ∀ v S, o.after.viewChangeVotes.lookup v = some S → ∀ r ∈ S,
      r < n ∧ Cast (o :: w.history) r v := by
    intro v S hS r hr
    rcases heff.votes_inv hS hr with ⟨S₀, hS₀, hr₀⟩ | ⟨m, l, hc, hm⟩ | ⟨rfl, hwhy, l, hout⟩
    · rw [hs] at hS₀
      obtain ⟨hn, hold⟩ := h.counted o.node v S₀ hS₀ r hr₀
      exact ⟨hn, hold.cons o⟩
    · obtain ⟨hn, hold⟩ := cast_of_recv hw hf hc hm
      exact ⟨hn, hold.cons o⟩
    · -- the node it suspects, or heard from, is one it sends its vote to
      have hpeer : ∃ j, j < n ∧ j ≠ o.node := by
        rcases hwhy with hne | ⟨m, hc⟩
        · exact ⟨_, Nat.mod_lt _ (by omega), hne⟩
        · obtain ⟨_, hne, o₀, _, x, _, _, hsender, hn, _⟩ := recv_source hw hf hc
          exact ⟨m.sender, by rw [hsender]; exact hn, hne⟩
      obtain ⟨j, hj, hne⟩ := hpeer
      exact ⟨hi, o, List.mem_cons_self, rfl, _,
        hout _ (mem_broadcastPbft.mpr ⟨j, hj, hne, rfl⟩), l, rfl⟩
  -- a view is entered with counted votes, or after a node that was in it before
  have helected : 0 < o.after.view → Elected n (o :: w.history) o.after.view := by
    intro hpos
    rcases heff.view_inv with hsame | ⟨S, hS, hcard, hself, hp, _⟩ | ⟨m, ns, hc, hm⟩
    · rw [hsame, hs] at hpos ⊢
      exact (h.now o.node hpos).cons o
    · exact ⟨S, hcard, by rw [hp]; exact hself, hcounted _ S hS⟩
    · obtain ⟨o₀, ho₀, hview⟩ := newView_source hw hf hc hm
      rw [← hview] at hpos ⊢
      exact (h.entered o₀ ho₀ hpos).cons o
  refine ⟨fun i v S hS r hr => ?_, fun j v hc u hu huv => ?_, fun o' ho' hpos => ?_,
    fun i hpos => ?_⟩
  · by_cases hne : i = o.node
    · subst hne
      rw [Function.update_self] at hS
      exact hcounted v S hS r hr
    · rw [Function.update_of_ne hne] at hS
      obtain ⟨hn, hold⟩ := h.counted i v S hS r hr
      exact ⟨hn, hold.cons o⟩
  · obtain ⟨o', ho', rfl, m, hm, l, hpl⟩ := hc
    rcases List.mem_cons.mp ho' with rfl | hold
    · rcases (heff.viewChange_inv hm hpl).2.1 with ⟨rfl, htime⟩ | ⟨m', r', l', hc, hm'⟩
      · -- the node is in the view before, which was entered with votes of its own
        rcases Nat.lt_or_eq_of_le huv with hlt | rfl
        · have hle : u ≤ (w.nodes o'.node).view := by
            rw [← hs]
            exact Nat.lt_succ_iff.mp hlt
          obtain ⟨V, _, hp, hV⟩ := h.now o'.node (lt_of_lt_of_le hu hle)
          exact (h.timed _ _ (hV _ hp).2 u hu hle).cons o'
        · exact ⟨o', List.mem_cons_self, htime⟩
      · exact (h.timed r' v (cast_of_recv hw hf hc hm').2 u hu huv).cons o'
    · exact (h.timed _ v ⟨o', hold, rfl, m, hm, l, hpl⟩ u hu huv).cons o
  · rcases List.mem_cons.mp ho' with rfl | hold
    · exact helected hpos
    · exact (h.entered o' hold hpos).cons o
  · by_cases hne : i = o.node
    · subst hne
      rw [Function.update_self] at hpos ⊢
      exact helected hpos
    · rw [Function.update_of_ne hne] at hpos ⊢
      exact (h.now i hpos).cons o

theorem justified (hw : (system n cfg).Reach ok w) : Justified n w.nodes w.history := by
  refine System.Reach.induct (N := Justified n) ?_ ?_ hw
  · refine ⟨fun i v S hS => absurd hS (by simp [system, PbftNode.new]), fun j v hc => ?_,
      fun o ho => absurd ho (by simp), fun i hpos => absurd hpos (by simp [system, PbftNode.new])⟩
    obtain ⟨o, ho, _⟩ := hc
    exact absurd ho (by simp)
  · intro w o hr ih _ hf
    exact ih.step hr hf

/-- **Views are entered only with a quorum, and none is skipped**: if a node is in view `v > 0`,
    at least `2f + 1` nodes have voted for `v`, its primary among them, and some node timed out
    in every view before. -/
theorem view_certificate (hw : (system n cfg).Reach System.anyStep w) (i : NodeId)
    (hpos : 0 < (w.nodes i).view) : Elected n w.history (w.nodes i).view ∧
      ∀ u, 0 < u → u ≤ (w.nodes i).view → TimedOut n w.history (u - 1) := by
  have hjust := justified hw
  obtain ⟨V, hcard, hp, hV⟩ := hjust.now i hpos
  exact ⟨⟨V, hcard, hp, hV⟩, hjust.timed _ _ (hV _ hp).2⟩

omit [Sha256] in
/-- Node `1` of four times out; nodes `2` and `3` join, and node `3` hears of view `1`. -/
theorem view_certificate_four : ∃ w, (@system Sha256.sample 4 {}).Reach System.anyStep w ∧
    (w.nodes 3).view = 1 ∧ Elected 4 w.history 1 := by
  obtain ⟨w, hw, hview⟩ := System.Reach.exists_of_run (S := @system Sha256.sample 4 {})
    (P := fun w => (w.nodes 3).view = 1)
    (List.replicate 41 (.call 1 .tick) ++ [1, 1, 2, 4, 7].map .deliver)
    (by decide +kernel)
  have helected := (@view_certificate Sha256.sample 4 {} w hw 3 (by rw [hview]; decide)).1
  rw [hview] at helected
  exact ⟨w, hw, hview, helected⟩

end Runs

end Pbft

end ConsensusBench
