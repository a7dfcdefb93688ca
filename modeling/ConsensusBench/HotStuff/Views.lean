import ConsensusBench.HotStuff.Ledger

namespace ConsensusBench

/-!
# HotStuff: how views are entered

A replica follows a `Propose` into any higher view, and the next leader counts `NewView`
messages of its own and of others alike.  That a view is entered only with a quorum of
timeouts has to be read off the whole run.

* `Effect.view_inv`, `Effect.votes_inv` — how a node comes to a view and to a vote it counts.
* `Justified` — counted votes go back to timeouts in the view before, and every view a node was
  in was entered with the votes of a quorum (`Elected`).
-/

open AsyncNet HotStuffNode

namespace HotStuff

/-! ### Timeouts -/

/-- Node `j` timed out while it was in the view before `v`, and sent `NewView` for `v`. -/
def Requested (n : ℕ) (h : History HotStuffState) (j : NodeId) (v : ViewNumber) : Prop :=
  ∃ o ∈ h, o.node = j ∧ o.cause = .call .tick ∧ o.before.view + 1 = v ∧
    o.before.viewChangeTimeout = 0 ∧ (node n j).leaderForView o.before.view ≠ j ∧
    ∃ m ∈ o.sent, ∃ hv hp, m.payload = .hotStuff (.newView v hv hp j)

/-- At least `2f + 1` nodes requested view `v` after they timed out in the view before. -/
def Elected (n : ℕ) (h : History HotStuffState) (v : ViewNumber) : Prop :=
  ∃ V : Finset NodeId, 2 * ((n - 1) / 3) + 1 ≤ V.card ∧ ∀ j ∈ V, j < n ∧ Requested n h j v

section Histories

variable {n : ℕ} {h : History HotStuffState} {j : NodeId} {v : ViewNumber}

theorem Requested.cons (hr : Requested n h j v) (o : NodeStep HotStuffState) :
    Requested n (o :: h) j v := by
  obtain ⟨o', ho', hrest⟩ := hr
  exact ⟨o', List.mem_cons_of_mem _ ho', hrest⟩

theorem Elected.cons (he : Elected n h v) (o : NodeStep HotStuffState) : Elected n (o :: h) v := by
  obtain ⟨V, hcard, hV⟩ := he
  exact ⟨V, hcard, fun j hj => ⟨(hV j hj).1, (hV j hj).2.cons o⟩⟩

end Histories

/-! ### What a step does to the view and the votes -/

section Inversion

variable [Sha256] {n : ℕ} {i : NodeId} {s s' : HotStuffState} {c : Cause Call NetworkMessage}
variable {out : List NetworkMessage}

omit [Sha256] in
/-- A commit leaves the view and the votes alone. -/
theorem commitPending_frame (s : HotStuffState) (q : SequenceNumber) :
    (commitPending s q).view = s.view ∧
      (commitPending s q).newViewMessages = s.newViewMessages := by
  unfold commitPending
  split <;> exact ⟨rfl, rfl⟩

omit [Sha256] in
theorem completeQc_view_votes (s : HotStuffState) (q : SequenceNumber) (slot : SlotState)
    (t : HotStuffPhaseTag) : (completeQc s q slot t).view = s.view ∧
      (completeQc s q slot t).newViewMessages = s.newViewMessages := by
  unfold completeQc
  split
  · exact commitPending_frame _ q
  · exact ⟨rfl, rfl⟩

omit [Sha256] in
@[simp] theorem seeQc_newViewMessages (s : HotStuffState) (v : ViewNumber)
    (t : HotStuffPhaseTag) : (seeQc s v t).newViewMessages = s.newViewMessages := by
  unfold seeQc; split <;> rfl

omit [Sha256] in
@[simp] theorem advanceSlot_newViewMessages (s : HotStuffState) (q : SequenceNumber)
    (e e' : Phase) : (advanceSlot s q e e').newViewMessages = s.newViewMessages := by
  unfold advanceSlot; split <;> [rfl; split <;> rfl]

omit [Sha256] in
theorem catchUp_view (s : HotStuffState) (v : ViewNumber) : (catchUp s v).view = max s.view v := by
  unfold catchUp
  split
  · rename_i hlt
    exact (max_eq_right_of_lt hlt).symm
  · rename_i hge
    exact (max_eq_left (not_lt.mp hge)).symm

/-- **How a node comes to a view**: it was in it, it leads it with the votes of a quorum, or it
    follows a `Propose`. -/
theorem Effect.view_inv (h : Effect (node n i) s c s' out) : s'.view = s.view ∨
    (∃ S, s'.newViewMessages.lookup s'.view = some S ∧ 2 * ((n - 1) / 3) + 1 ≤ S.card ∧
      s'.view % n = i ∧ ∃ m, c = .recv m) ∨
    ∃ m q d p jv jp, c = .recv m ∧ m.payload = .hotStuff (.propose s'.view q d p jv jp) := by
  cases h with
  | accept m v q d p jv jp hm hv =>
    have hview : (acceptProposal (catchUp s v) v q p).view = v :=
      (catchUp_view s v).trans (max_eq_right hv)
    rw [hview]
    exact .inr (.inr ⟨m, q, d, p, jv, jp, rfl, hm⟩)
  | certify m q d t r slot slot' vc => exact .inl (completeQc_view_votes s q slot' t).1
  | learn m v q d t vc => exact .inl (seeQc_view s v t)
  | advance => exact .inl (by simp)
  | decide m q d vc slot => exact .inl ((commitPending_frame _ q).1.trans (seeQc_view s _ _))
  | install m v hv hp r hm hlt hq hl =>
    exact .inr (.inl ⟨_, AList.lookup_insert _, hq, hl, m, rfl⟩)
  | _ => exact .inl rfl

/-- **How a node comes to a vote it counts**: it had it, it receives it, or it times out. -/
theorem Effect.votes_inv (h : Effect (node n i) s c s' out) {v : ViewNumber} {S : Finset NodeId}
    {r : NodeId} (hS : s'.newViewMessages.lookup v = some S) (hr : r ∈ S) :
    (∃ S₀, s.newViewMessages.lookup v = some S₀ ∧ r ∈ S₀) ∨
    (∃ m hv hp, c = .recv m ∧ m.payload = .hotStuff (.newView v hv hp r)) ∨
    (r = i ∧ Requested n [⟨i, c, s, s', out⟩] i v) := by
  -- one vote is added to those of its view
  have hadd : ∀ {v' : ViewNumber} {r' : NodeId},
      (s.newViewMessages.insert v'
        (insert r' ((s.newViewMessages.lookup v').getD ∅))).lookup v = some S →
      (v = v' ∧ r = r') ∨ ∃ S₀, s.newViewMessages.lookup v = some S₀ ∧ r ∈ S₀ := by
    intro v' r' hS
    rcases HashMap.mem_lookup_insert hS hr with ⟨hv, hr⟩ | hold
    · rcases Finset.mem_insert.mp hr with hr | hr
      · exact .inl ⟨hv, hr⟩
      · rw [← hv] at hr
        exact .inr (HashMap.mem_lookup_getD hr)
    · exact .inr hold
  have hsame : s'.newViewMessages = s.newViewMessages →
      ∃ S₀, s.newViewMessages.lookup v = some S₀ ∧ r ∈ S₀ := fun heq => ⟨S, by rwa [← heq], hr⟩
  cases h with
  | timeout hl h0 =>
    rcases hadd hS with ⟨rfl, rfl⟩ | hold
    · exact .inr (.inr ⟨rfl, _, List.mem_singleton_self _, rfl, rfl, rfl, h0, hl, _,
        List.mem_singleton_self _, _, _, rfl⟩)
    · exact .inl hold
  | vote m v' hv hp r' hm hlt =>
    rcases hadd hS with ⟨rfl, rfl⟩ | hold
    · exact .inr (.inl ⟨m, hv, hp, rfl, hm⟩)
    · exact .inl hold
  | install m v' hv hp r' hm hlt hq hl =>
    rcases hadd hS with ⟨rfl, rfl⟩ | hold
    · exact .inr (.inl ⟨m, hv, hp, rfl, hm⟩)
    · exact .inl hold
  | accept m v' q d p jv jp hm hv =>
    refine .inl (hsame ?_)
    unfold acceptProposal catchUp
    split <;> rfl
  | certify m q d t r' slot slot' vc => exact .inl (hsame (completeQc_view_votes s q slot' t).2)
  | learn => exact .inl (hsame (seeQc_newViewMessages _ _ _))
  | advance => exact .inl (hsame (by simp))
  | decide m q d vc slot =>
    exact .inl (hsame ((commitPending_frame _ q).2.trans (seeQc_newViewMessages s _ _)))
  | _ => exact .inl (hsame rfl)

end Inversion

/-! ### Every view is justified -/

/-- What the run knows about votes and views. -/
structure Justified (n : ℕ) (nodes : NodeId → HotStuffState) (h : History HotStuffState) :
    Prop where
  counted : ∀ i v S, (nodes i).newViewMessages.lookup v = some S →
    ∀ r ∈ S, r < n ∧ Requested n h r v
  entered : ∀ o ∈ h, 0 < o.before.view → Elected n h o.before.view
  now : ∀ i, 0 < (nodes i).view → Elected n h (nodes i).view

section Runs

variable [Sha256] {n : ℕ} {cfg : FaultConfig}
variable {ok : System.Guard NodeId HotStuffState Call NetworkMessage}
variable {w : World NodeId HotStuffState Call NetworkMessage}

/-- A step that says `NewView` is a timeout of its node. -/
theorem requested_of_says {o : NodeStep HotStuffState} (hf : (system n cfg).Fires w o)
    {j : NodeId} {v hv : ViewNumber} {hp : HotStuffPhaseTag} {r : NodeId}
    (hm : ⟨o.node, j, .hotStuff (.newView v hv hp r)⟩ ∈ o.sent) :
    r = o.node ∧ Requested n [o] o.node v := by
  have heff := effect_of_fires hf
  obtain ⟨i, c, s, s', out⟩ := o
  dsimp only at heff hm ⊢
  cases heff with
  | timeout hl h0 =>
    have heq := List.mem_singleton.mp hm
    rw [msgTo, NetworkMessage.mk.injEq] at heq
    obtain ⟨_, _, hpl⟩ := heq
    cases hpl
    exact ⟨rfl, _, List.mem_singleton_self _, rfl, rfl, rfl, h0, hl, _, hm, _, _, rfl⟩
  | assign p hcan =>
    obtain ⟨_, _, _, heq⟩ := mem_broadcastHotstuff.mp hm
    exact absurd heq (by simp)
  | certify m q d t r slot slot' vc hm' hl hs hc =>
    obtain ⟨_, _, _, heq⟩ := mem_broadcastHotstuff.mp hm
    exact absurd heq (by simp)
  | accept => exact absurd (List.mem_singleton.mp hm) (by simp [msgTo])
  | advance => exact absurd (List.mem_singleton.mp hm) (by simp [msgTo])
  | _ => exact absurd hm (by simp)

/-- A received request was sent by the node it names. -/
theorem requested_of_recv (hw : (system n cfg).Reach ok w) {o : NodeStep HotStuffState}
    (hf : (system n cfg).Fires w o) {m : NetworkMessage} (hc : o.cause = .recv m)
    {v hv : ViewNumber} {hp : HotStuffPhaseTag} {r : NodeId}
    (hm : m.payload = .hotStuff (.newView v hv hp r)) : r < n ∧ Requested n w.history r v := by
  obtain ⟨_, o₀, ho₀, x, hsent, _, _, hn, hskel, hsaid⟩ := recv_source hw hf hc
  rw [hm] at hskel
  obtain ⟨w₀, _, _, hf₀, _⟩ := hw.fired o₀ ho₀
  cases hsaid with
  | newView hl h0 hj =>
    simp only [FaultConfig.skeleton, ProtocolMessage.hotStuff.injEq,
      HotStuffMessage.newView.injEq] at hskel
    obtain ⟨rfl, rfl, rfl, rfl⟩ := hskel
    obtain ⟨_, o', ho', hrest⟩ := requested_of_says hf₀ hsent
    rw [List.mem_singleton.mp ho'] at hrest
    exact ⟨hn, o₀, ho₀, hrest⟩
  | _ => exact absurd hskel (by simp [FaultConfig.skeleton])

/-- A `Propose` comes from the leader of its view, in its view, and never to itself. -/
theorem propose_source (hw : (system n cfg).Reach ok w) {o : NodeStep HotStuffState}
    (hf : (system n cfg).Fires w o) {m : NetworkMessage} (hc : o.cause = .recv m)
    {v : ViewNumber} {q : SequenceNumber} {d : Digest} {p : Payload} {jv : ViewNumber}
    {jp : HotStuffPhaseTag} (hm : m.payload = .hotStuff (.propose v q d p jv jp)) :
    ∃ o₀ ∈ w.history, o₀.before.view = v ∧ o₀.node = v % n ∧ o.node ≠ v % n := by
  obtain ⟨_, o₀, ho₀, x, _, _, _, _, hskel, hsaid⟩ := recv_source hw hf hc
  rw [hm] at hskel
  cases hsaid with
  | propose p' _ hcan hj =>
    simp only [FaultConfig.skeleton, ProtocolMessage.hotStuff.injEq,
      HotStuffMessage.propose.injEq] at hskel
    obtain ⟨rfl, _⟩ := hskel
    have hnode : o₀.before.view % n = o₀.node := hcan
    rw [hnode]
    exact ⟨o₀, ho₀, rfl, rfl, hj⟩
  | _ => exact absurd hskel (by simp [FaultConfig.skeleton])

/-- **Every step keeps views justified.** -/
theorem Justified.step (h : Justified n w.nodes w.history) (hw : (system n cfg).Reach ok w)
    {o : NodeStep HotStuffState} (hf : (system n cfg).Fires w o) :
    Justified n (Function.update w.nodes o.node o.after) (o :: w.history) := by
  have heff := effect_of_fires hf
  have hs := hf.before_eq
  have hi := Finset.mem_range.mp hf.node_mem
  have hcounted : ∀ v S, o.after.newViewMessages.lookup v = some S → ∀ r ∈ S,
      r < n ∧ Requested n (o :: w.history) r v := by
    intro v S hS r hr
    rcases heff.votes_inv hS hr with ⟨S₀, hS₀, hr₀⟩ | ⟨m, hv, hp, hc, hm⟩ | ⟨rfl, hreq⟩
    · rw [hs] at hS₀
      obtain ⟨hn, hold⟩ := h.counted o.node v S₀ hS₀ r hr₀
      exact ⟨hn, hold.cons o⟩
    · obtain ⟨hn, hold⟩ := requested_of_recv hw hf hc hm
      exact ⟨hn, hold.cons o⟩
    · obtain ⟨o', ho', hrest⟩ := hreq
      rw [List.mem_singleton.mp ho'] at hrest
      exact ⟨hi, o, List.mem_cons_self, hrest⟩
  -- a view is entered with counted requests, or behind the leader that proposes in it
  have helected : 0 < o.after.view → Elected n (o :: w.history) o.after.view := by
    intro hpos
    rcases heff.view_inv with hsame | ⟨S, hS, hcard, _⟩ | ⟨m, q, d, p, jv, jp, hc, hm⟩
    · rw [hsame, hs] at hpos ⊢
      exact (h.now o.node hpos).cons o
    · exact ⟨S, hcard, hcounted _ S hS⟩
    · obtain ⟨o₀, ho₀, hview, _, _⟩ := propose_source hw hf hc hm
      rw [← hview] at hpos ⊢
      exact (h.entered o₀ ho₀ hpos).cons o
  refine ⟨fun i v S hS r hr => ?_, fun o' ho' hpos => ?_, fun i hpos => ?_⟩
  · by_cases hne : i = o.node
    · subst hne
      rw [Function.update_self] at hS
      exact hcounted v S hS r hr
    · rw [Function.update_of_ne hne] at hS
      obtain ⟨hn, hold⟩ := h.counted i v S hS r hr
      exact ⟨hn, hold.cons o⟩
  · rcases List.mem_cons.mp ho' with rfl | hold
    · rw [hs] at hpos ⊢
      exact (h.now o'.node hpos).cons o'
    · exact (h.entered o' hold hpos).cons o
  · by_cases hne : i = o.node
    · subst hne
      rw [Function.update_self] at hpos ⊢
      exact helected hpos
    · rw [Function.update_of_ne hne] at hpos ⊢
      exact (h.now i hpos).cons o

theorem justified (hw : (system n cfg).Reach ok w) : Justified n w.nodes w.history := by
  refine System.Reach.induct (N := Justified n) ?_ ?_ hw
  · exact ⟨fun i v S hS => absurd hS (by simp [system, HotStuffNode.new]),
      fun o ho => absurd ho (by simp),
      fun i hpos => absurd hpos (by simp [system, HotStuffNode.new])⟩
  · intro w o hr ih _ hf
    exact ih.step hr hf

/-- **Views are entered only with a quorum of timeouts**: if a node is in view `v > 0`, at least
    `2f + 1` nodes sent `NewView` for `v` when they timed out in the view before. -/
theorem view_elected (hw : (system n cfg).Reach System.anyStep w) (i : NodeId)
    (hpos : 0 < (w.nodes i).view) : Elected n w.history (w.nodes i).view :=
  (justified hw).now i hpos

omit [Sha256] in
/-- Nodes `1`, `2` and `3` of four time out, node `1` leads view `1`, and its first proposal
    takes node `0` there. -/
theorem view_elected_four : ∃ w, (@system Sha256.sample 4 {}).Reach System.anyStep w ∧
    (w.nodes 0).view = 1 ∧ Elected 4 w.history 1 := by
  obtain ⟨w, hw, hview⟩ := System.Reach.exists_of_run (S := @system Sha256.sample 4 {})
    (P := fun w => (w.nodes 0).view = 1)
    (List.replicate 41 (.call 1 .tick) ++ List.replicate 41 (.call 2 .tick) ++
      List.replicate 41 (.call 3 .tick) ++ [.deliver 0, .deliver 0, .deliver 0,
        .call 1 (.propose ⟨[0x70]⟩), .deliver 0])
    (by decide +kernel)
  have helected := @view_elected Sha256.sample 4 {} w hw 0 (by rw [hview]; decide)
  rw [hview] at helected
  exact ⟨w, hw, hview, helected⟩

end Runs

end HotStuff

end ConsensusBench
