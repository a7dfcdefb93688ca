import ConsensusBench.Pbft.Views
import ConsensusBench.Pbft.Order

namespace ConsensusBench

/-!
# PBFT: what a view-change vote promises

A `ViewChange` names the highest sequence that its sender has committed, and a new primary numbers
its proposals from what it knows to be committed.  But the handlers of `Prepare` and `Commit` look
at the view only, so a node goes on committing in the view that it has voted to leave.

* `vote_remembered` — a node that has voted for a view has its own vote for it in its table.
* `primary_leads` — no node is in a view ahead of the primary of the view.
* `votes_final` — votes are final if, and only if, nobody completes a quorum in a view below one it
  has voted for; and then the sequence that a vote names is still the highest committed one of its
  sender when the new primary acts on it.
-/

open AsyncNet PbftNode

namespace Pbft

/-! ### Votes and the commits after them -/

/-- Node `i` has broadcast a `ViewChange` for `v` that names `c` as its last committed sequence. -/
def VotedWith (h : History PbftState) (i : NodeId) (v : ViewNumber) (c : SequenceNumber) : Prop :=
  ∃ o ∈ h, o.node = i ∧ ∃ m ∈ o.sent, m.payload = .pbft (.viewChange v i c)

instance (h : History PbftState) (i : NodeId) (v : ViewNumber) (c : SequenceNumber) :
    Decidable (VotedWith h i v c) :=
  inferInstanceAs (Decidable (∃ o ∈ h, _))

/-- A node that has voted for a view commits nothing before it is in that view or a later one. -/
def VotesFinal (h : History PbftState) : Prop :=
  ∀ o older, (o :: older) <:+ h → ∀ v c, VotedWith older o.node v c → o.before.view < v →
    emitted o = []

/-- The node has a vote of its own for a view above the one it is in. -/
def VotedBeyond (self : PbftNode) (state : PbftState) : Prop :=
  ∃ v ∈ state.viewChangeVotes.keys, state.view < v ∧
    self.id ∈ (state.viewChangeVotes.lookup v).getD ∅

instance (self : PbftNode) (state : PbftState) : Decidable (VotedBeyond self state) :=
  inferInstanceAs (Decidable (∃ v ∈ _, _))

instance (self : PbftNode) (state : PbftState) (view : ViewNumber) (sequence : SequenceNumber)
    (replica : NodeId) : Decidable (completesQuorum self state view sequence replica) :=
  inferInstanceAs (Decidable (_ ∧ ∃ slot ∈ state.slots.lookup sequence, _))

/-- The `Commit` messages that complete a quorum meet a node that has not voted for a view above
    its own. -/
def CommitsUnvoted (self : PbftNode) (state : PbftState) : Cause Call NetworkMessage → Prop
  | .recv ⟨_, _, .pbft (.commit view sequence _ replica)⟩ =>
      completesQuorum self state view sequence replica → ¬ VotedBeyond self state
  | _ => True

instance (self : PbftNode) (state : PbftState) : DecidablePred (CommitsUnvoted self state)
  | .recv ⟨_, _, .pbft (.commit ..)⟩ => inferInstanceAs (Decidable (_ → _))
  | .recv ⟨_, _, .pbft (.prePrepare ..)⟩ => .isTrue trivial
  | .recv ⟨_, _, .pbft (.prepare ..)⟩ => .isTrue trivial
  | .recv ⟨_, _, .pbft (.viewChange ..)⟩ => .isTrue trivial
  | .recv ⟨_, _, .pbft (.newView ..)⟩ => .isTrue trivial
  | .recv ⟨_, _, .hotStuff _⟩ => .isTrue trivial
  | .recv ⟨_, _, .raft _⟩ => .isTrue trivial
  | .call _ => .isTrue trivial

theorem votedBeyond_iff {self : PbftNode} {s : PbftState} : VotedBeyond self s ↔
    ∃ v S, s.viewChangeVotes.lookup v = some S ∧ s.view < v ∧ self.id ∈ S := by
  constructor
  · rintro ⟨v, _, hlt, hself⟩
    obtain ⟨S, hS, hmem⟩ := HashMap.mem_lookup_getD hself
    exact ⟨v, S, hS, hlt, hmem⟩
  · rintro ⟨v, S, hS, hlt, hmem⟩
    have hkey : v ∈ s.viewChangeVotes.keys :=
      AList.mem_keys.mpr (AList.lookup_isSome.mp (by rw [hS]; rfl))
    exact ⟨v, hkey, hlt, by rwa [hS]⟩

section Histories

variable {h : History PbftState} {i : NodeId} {v : ViewNumber} {c : SequenceNumber}

theorem VotedWith.cast (hv : VotedWith h i v c) : Cast h i v := by
  obtain ⟨o, ho, hnode, m, hm, hpl⟩ := hv
  exact ⟨o, ho, hnode, m, hm, c, hpl⟩

theorem Cast.votedWith (hc : Cast h i v) : ∃ c, VotedWith h i v c := by
  obtain ⟨o, ho, hnode, m, hm, c, hpl⟩ := hc
  exact ⟨c, o, ho, hnode, m, hm, hpl⟩

/-- A vote is an old one, or it is sent in the newest step. -/
theorem VotedWith.cons_inv {o : NodeStep PbftState} (hv : VotedWith (o :: h) i v c) :
    VotedWith h i v c ∨
      o.node = i ∧ ∃ m ∈ o.sent, m.payload = .pbft (.viewChange v i c) := by
  obtain ⟨o', ho', hrest⟩ := hv
  rcases List.mem_cons.mp ho' with rfl | hold
  · exact .inr hrest
  · exact .inl ⟨o', hold, hrest⟩

end Histories

/-! ### What a step does to the votes and the commits -/

section Steps

variable [Sha256] {n : ℕ} {i : NodeId} {s s' : PbftState} {c : Cause Call NetworkMessage}
variable {out : List NetworkMessage}

omit [Sha256] in
/-- The votes that a node counts when a vote reaches it are those it had, and more. -/
theorem subset_of_joined {self : PbftNode} {V votes : Finset NodeId} {r : NodeId}
    {v : ViewNumber} {l : SequenceNumber}
    (h : votes = insert r V ∧ self.id ∈ votes ∧ out = [] ∨
      votes = insert self.id (insert r V) ∧
        out = self.broadcastPbft (.viewChange v self.id l)) : V ⊆ votes := by
  rcases h with ⟨rfl, _⟩ | ⟨rfl, _⟩
  · exact Finset.subset_insert _ _
  · exact (Finset.subset_insert _ _).trans (Finset.subset_insert _ _)

/-- A step forgets no vote. -/
theorem Effect.votes_kept (h : Effect (node n i) s c s' out) {v : ViewNumber} {S : Finset NodeId}
    {r : NodeId} (hS : s.viewChangeVotes.lookup v = some S) (hr : r ∈ S) :
    ∃ S', s'.viewChangeVotes.lookup v = some S' ∧ r ∈ S' := by
  cases h with
  | timeout hp hv h0 votes hvotes =>
    refine HashMap.mem_lookup_insert_of_subset hS hr ?_
    rw [hvotes]
    exact Finset.subset_insert _ _
  | vote m v' r' l votes out hm hv hvotes =>
    exact HashMap.mem_lookup_insert_of_subset hS hr (subset_of_joined hvotes)
  | install m v' r' l votes out hm hv hvotes hq hp =>
    exact HashMap.mem_lookup_insert_of_subset hS hr (subset_of_joined hvotes)
  | _ => exact ⟨S, hS, hr⟩

/-- A step that completes no quorum leaves the highest committed sequence as it is. -/
theorem Effect.highest_kept (h : Effect (node n i) s c s' out)
    (hno : ∀ m v q d r, c = .recv m → m.payload = .pbft (.commit v q d r) →
      ¬ completesQuorum (node n i) s v q r) : s'.highestCommittedSeq = s.highestCommittedSeq := by
  cases h with
  | commitNothing m q d r slot hm hs hph hq hp =>
    exact absurd ⟨rfl, slot, hs, hph, hq⟩ (hno m s.view q d r rfl hm)
  | commit m q d r slot p hm hs hph hq hp =>
    exact absurd ⟨rfl, slot, hs, hph, hq⟩ (hno m s.view q d r rfl hm)
  | _ => rfl

end Steps

/-! ### Runs -/

section Runs

variable [Sha256] {n : ℕ} {cfg : FaultConfig}
variable {ok : System.Guard NodeId PbftState Call NetworkMessage}
variable {w : World NodeId PbftState Call NetworkMessage} {o : NodeStep PbftState}

/-- **A node remembers its votes.** -/
theorem vote_remembered (hw : (system n cfg).Reach ok w) : ∀ i v, Cast w.history i v →
    ∃ S, (w.nodes i).viewChangeVotes.lookup v = some S ∧ i ∈ S := by
  have hkept := hw.since (R := fun o s => ∀ m ∈ o.sent, ∀ v l,
    m.payload = .pbft (.viewChange v o.node l) →
      ∃ S, s.viewChangeVotes.lookup v = some S ∧ o.node ∈ S) ?_ ?_
  · rintro i v ⟨o, ho, rfl, m, hm, l, hpl⟩
    exact hkept o ho m hm v l hpl
  · intro w o _ hf m hm v l hpl
    exact ((effect_of_fires hf).viewChange_inv hm hpl).2.2.1
  · intro w o o' _ _ hold _ hf hnode m hm v l hpl
    obtain ⟨S, hS, hself⟩ := hold m hm v l hpl
    rw [← hnode] at hself ⊢
    exact (effect_of_fires hf).votes_kept hS hself

/-- The table of a node tells whether it has voted for a view above its own. -/
theorem votedBeyond_iff_votedWith (hw : (system n cfg).Reach ok w) (i : NodeId) :
    VotedBeyond (node n i) (w.nodes i) ↔
      ∃ v c, VotedWith w.history i v c ∧ (w.nodes i).view < v := by
  rw [votedBeyond_iff]
  constructor
  · rintro ⟨v, S, hS, hlt, hself⟩
    obtain ⟨c, hc⟩ := ((justified hw).counted i v S hS i hself).2.votedWith
    exact ⟨v, c, hc, hlt⟩
  · rintro ⟨v, c, hvoted, hlt⟩
    obtain ⟨S, hS, hself⟩ := vote_remembered hw i v hvoted.cast
    exact ⟨v, S, hS, hlt, hself⟩

/-- A `Commit` that completes a quorum makes the node commit. -/
theorem emitted_of_completes (hw : (system n cfg).Reach ok w) (hf : (system n cfg).Fires w o)
    {m : NetworkMessage} (hc : o.cause = .recv m) {v : ViewNumber} {q : SequenceNumber}
    {d : Digest} {r : NodeId} (hm : m.payload = .pbft (.commit v q d r))
    (hcomplete : completesQuorum (node n o.node) o.before v q r) : emitted o ≠ [] := by
  obtain ⟨_, slot, hs, hph, _⟩ := id hcomplete
  rw [hf.before_eq] at hs
  -- the slot is open, so its payload is pending
  obtain ⟨p, hp⟩ := slots_kept.backed hw o.node q slot hs (open_of_phase hph)
  have hp' : o.before.pendingPayloads.lookup q = some p := by
    rw [hf.before_eq]
    exact hp
  have hcommit := commit_of_completes hf hc hm hcomplete hp'
  exact List.ne_nil_of_mem ((mem_ledger_commits (e := ⟨q, p⟩)).mp hcommit)

/-- **A step respects the votes of its node** if, and only if, it completes no quorum in a view
    below one that the node has voted for. -/
theorem commitsUnvoted_iff (hw : (system n cfg).Reach ok w) (hf : (system n cfg).Fires w o) :
    (∀ v c, VotedWith w.history o.node v c → o.before.view < v → emitted o = []) ↔
      CommitsUnvoted (node n o.node) o.before o.cause := by
  have hbeyond := votedBeyond_iff_votedWith hw o.node
  rw [← hf.before_eq] at hbeyond
  constructor
  · intro hfinal
    unfold CommitsUnvoted
    split
    · rename_i src dst view q d r hc
      intro hcomplete hvoted
      obtain ⟨v, c, hvote, hlt⟩ := hbeyond.mp hvoted
      exact emitted_of_completes hw hf hc rfl hcomplete (hfinal v c hvote hlt)
    · trivial
  · intro hunvoted v c hvote hlt
    rw [List.eq_nil_iff_forall_not_mem]
    intro e he
    obtain ⟨⟨src, dst, payload⟩, d, r, hc, hm, hcomplete, _⟩ := (effect_of_fires hf).commit_inv he
    cases hm
    rw [hc] at hunvoted
    exact hunvoted hcomplete (hbeyond.mpr ⟨v, c, hvote, hlt⟩)

/-- **The sequence that a vote names stays the highest** that its sender has committed, as long as
    it is in a view below the one it voted for. -/
theorem highest_of_vote (hw : (system n cfg).Reach ok w)
    (hunvoted : ∀ o ∈ w.history, CommitsUnvoted (node n o.node) o.before o.cause) :
    ∀ i v c, VotedWith w.history i v c → (w.nodes i).view < v →
      (w.nodes i).highestCommittedSeq = c := by
  suffices hall : (∀ o ∈ w.history, CommitsUnvoted (node n o.node) o.before o.cause) →
      ∀ i v c, VotedWith w.history i v c → (w.nodes i).view < v →
        (w.nodes i).highestCommittedSeq = c from hall hunvoted
  refine System.Reach.induct (N := fun nodes hist =>
    (∀ o ∈ hist, CommitsUnvoted (node n o.node) o.before o.cause) → ∀ i v c,
      VotedWith hist i v c → (nodes i).view < v → (nodes i).highestCommittedSeq = c) ?_ ?_ hw
  · rintro _ i v c ⟨o, ho, _⟩
    exact absurd ho (by simp)
  · intro w o hr ih _ hf hunvoted i v c hvote hlt
    have hih := ih fun o' ho' => hunvoted o' (List.mem_cons_of_mem _ ho')
    by_cases hi : i = o.node
    · subst hi
      rw [Function.update_self] at hlt ⊢
      rcases hvote.cons_inv with hold | ⟨_, m, hm, hpl⟩
      · have hview : o.before.view < v :=
          lt_of_le_of_lt ((kept ok).move w o hr hf).view_le hlt
        have hbefore : o.before.highestCommittedSeq = c := by
          rw [hf.before_eq] at hview ⊢
          exact hih o.node v c hold hview
        rw [← hbefore]
        refine (effect_of_fires hf).highest_kept fun m v' q d r hc hm hcomplete => ?_
        -- the node has voted for a view above its own, so it completes no quorum
        have hnow := hunvoted o List.mem_cons_self
        obtain ⟨src, dst, payload⟩ := m
        cases hm
        rw [hc] at hnow
        refine hnow hcomplete ?_
        rw [hf.before_eq] at hview ⊢
        exact (votedBeyond_iff_votedWith hr o.node).mpr ⟨v, c, hold, hview⟩
      · exact ((effect_of_fires hf).viewChange_inv hm hpl).2.2.2.symm
    · rw [Function.update_of_ne hi] at hlt ⊢
      rcases hvote.cons_inv with hold | ⟨hnode, _⟩
      · exact hih i v c hold hlt
      · exact absurd hnode.symm hi

/-- **No node is ahead of the primary of its view**: the primary enters the view first. -/
theorem primary_leads (hw : (system n cfg).Reach ok w) :
    ∀ i, (w.nodes i).view ≤ (w.nodes ((w.nodes i).view % n)).view := by
  suffices hall : (∀ o ∈ w.history, o.after.view ≤ (w.nodes (o.after.view % n)).view) ∧
      ∀ i, (w.nodes i).view ≤ (w.nodes ((w.nodes i).view % n)).view from hall.2
  refine System.Reach.induct (N := fun nodes hist =>
    (∀ o ∈ hist, o.after.view ≤ (nodes (o.after.view % n)).view) ∧
      ∀ i, (nodes i).view ≤ (nodes ((nodes i).view % n)).view) ?_ ?_ hw
  · exact ⟨fun o ho => absurd ho (by simp), fun i => le_refl _⟩
  · rintro w o hr ⟨hpast, hnow⟩ _ hf
    have hgrow : ∀ k, (w.nodes k).view ≤ (Function.update w.nodes o.node o.after k).view := by
      intro k
      by_cases hk : k = o.node
      · subst hk
        rw [Function.update_self, ← hf.before_eq]
        exact ((kept ok).move w o hr hf).view_le
      · rw [Function.update_of_ne hk]
    have hnew : o.after.view ≤
        (Function.update w.nodes o.node o.after (o.after.view % n)).view := by
      rcases (effect_of_fires hf).view_inv with hsame | ⟨S, _, _, _, hp, _⟩ | ⟨m, ns, hc, hm⟩
      · have hold := hnow o.node
        rw [← hf.before_eq] at hold
        rw [hsame]
        exact hold.trans (hgrow _)
      · -- it is the primary of the view itself
        rw [hp, Function.update_self]
      · obtain ⟨o₀, ho₀, hview⟩ := newView_source hr hf hc hm
        have hold := hpast o₀ ho₀
        rw [hview] at hold
        exact hold.trans (hgrow _)
    refine ⟨fun o' ho' => ?_, fun i => ?_⟩
    · rcases List.mem_cons.mp ho' with rfl | hold
      · exact hnew
      · exact (hpast o' hold).trans (hgrow _)
    · by_cases hi : i = o.node
      · subst hi
        have hself : Function.update w.nodes o.node o.after o.node = o.after :=
          Function.update_self ..
        rw [hself]
        exact hnew
      · rw [Function.update_of_ne hi]
        exact (hnow i).trans (hgrow _)

/-- The primary of view `v`, not yet in it, is handed the vote of node `j` for it, which names
    `c`. -/
def ActsOnVote (n : ℕ) (o : NodeStep PbftState) (j : NodeId) (v : ViewNumber)
    (c : SequenceNumber) : Prop :=
  o.node = v % n ∧ o.before.view < v ∧
    ∃ m, o.cause = .recv m ∧ m.payload = .pbft (.viewChange v j c)

/-- **View-change votes are final** in the runs in which nobody completes a quorum in a view below
    one it has voted for.  There the sequence that a vote names is the highest committed one of its
    sender until that enters a later view, and so it is when the new primary acts on the vote,
    unless the sender has gone on to another view by then. -/
theorem votes_final (hw : (system n cfg).Reach System.anyStep w) :
    (VotesFinal w.history ↔
      ∀ o ∈ w.history, CommitsUnvoted (node n o.node) o.before o.cause) ∧
    ((∀ o ∈ w.history, CommitsUnvoted (node n o.node) o.before o.cause) →
      (∀ i v c, VotedWith w.history i v c → (w.nodes i).view < v →
        (w.nodes i).highestCommittedSeq = c) ∧
      ∀ o j v c, (system n cfg).Fires w o → ActsOnVote n o j v c → (w.nodes j).view ≤ v →
        (w.nodes j).highestCommittedSeq = c) := by
  refine ⟨⟨fun hfinal o ho => ?_, fun hunvoted o older hsuf => ?_⟩, fun hunvoted =>
    ⟨highest_of_vote hw hunvoted, ?_⟩⟩
  · obtain ⟨w₀, hr₀, _, hf₀, hsuf⟩ := hw.fired o ho
    exact (commitsUnvoted_iff hr₀ hf₀).mp (hfinal o w₀.history hsuf)
  · obtain ⟨w₀, hr₀, _, hf₀, rfl⟩ := hw.fired_suffix o older hsuf
    exact (commitsUnvoted_iff hr₀ hf₀).mpr (hunvoted o (hsuf.subset List.mem_cons_self))
  · rintro o j v c hf ⟨hprimary, hbelow, m, hc, hm⟩ hle
    obtain ⟨_, hvote⟩ := viewChange_source hw hf hc hm
    rcases lt_or_eq_of_le hle with hlt | heq
    · exact highest_of_vote hw hunvoted j v c hvote hlt
    · -- nobody is in the view before its primary
      have hlead := primary_leads hw j
      rw [heq, ← hprimary, ← hf.before_eq] at hlead
      exact absurd hlead (not_le.mpr hbelow)

end Runs

/-- Node `0` commits, and then joins the view change that node `3` has started. -/
theorem votes_final_four : ∃ w, (@system Sha256.sample 4 {}).Reach System.anyStep w ∧
    VotedWith w.history 0 1 1 ∧ VotesFinal w.history := by
  obtain ⟨w, hw, hunvoted, hvote⟩ := System.Reach.exists_of_run (S := @system Sha256.sample 4 {})
    (P := fun w => (∀ o ∈ w.history, CommitsUnvoted (node 4 o.node) o.before o.cause) ∧
      VotedWith w.history 0 1 1)
    (commitRun ⟨[0x70]⟩ ++ List.replicate 41 (.call 3 .tick) ++ [.deliver 11]) (by decide +kernel)
  exact ⟨w, hw, hvote, (@votes_final Sha256.sample 4 {} w hw).1.mpr hunvoted⟩

/-- Node `0` joins the view change first, naming sequence `0`, and is then handed the last `Commit`
    message it needs for sequence `1`. -/
theorem commit_after_vote : ∃ w, (@system Sha256.sample 4 {}).Reach System.anyStep w ∧
    ¬ VotesFinal w.history := by
  obtain ⟨w, hw, o, ho, hcommits, hbelow, hvote⟩ := System.Reach.exists_of_run
    (S := @system Sha256.sample 4 {})
    (P := fun w => ∃ o ∈ w.history.head?, emitted o ≠ [] ∧ o.before.view < 1 ∧
      VotedWith w.history.tail o.node 1 0)
    (.call 0 (.propose ⟨[0x70]⟩) :: [0, 0, 4, 6, 1, 5, 1, 2, 7].map .deliver ++
      List.replicate 41 (.call 3 .tick) ++ [.deliver 12, .deliver 9]) (by decide +kernel)
  have hsplit : o :: w.history.tail = w.history := List.cons_head?_tail ho
  refine ⟨w, hw, fun hfinal => hcommits ?_⟩
  exact hfinal o w.history.tail (hsplit ▸ List.suffix_rfl) 1 0 hvote hbelow

end Pbft

end ConsensusBench
