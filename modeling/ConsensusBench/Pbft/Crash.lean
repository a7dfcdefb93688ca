import ConsensusBench.Crash
import ConsensusBench.Pbft.Views

namespace ConsensusBench

/-!
# PBFT with crashed nodes

A node that times out votes for the next view once, and then waits for it: its timer stands still
as long as the view change is in progress.

* `Waiting` — what the primary of view `1` knows before it installs the view: fewer votes than a
  quorum, and every vote it received.
* `rotation` — so PBFT is one of the protocols of `Rotation`.
-/

open AsyncNet PbftNode

namespace Pbft

variable [Sha256] {n : ℕ}

/-! ### Accepting proposals -/

/-- Node `i` would accept a proposal. -/
def Accepts (n : ℕ) (i : NodeId) (s : PbftState) : Prop :=
  ∀ p, ((node n i).propose s p).1 = .accepted

theorem accepts_iff {i : NodeId} {s : PbftState} :
    Accepts n i s ↔ s.view % n = i ∧ s.viewChangeInProgress = false := by
  constructor
  · intro h
    have hacc := h ⟨[]⟩
    unfold propose at hacc
    dsimp only at hacc
    split at hacc
    · exact absurd hacc (by simp)
    · rename_i hp
      split at hacc
      · exact absurd hacc (by simp)
      · rename_i hv
        exact ⟨not_not.mp hp, by simpa using hv⟩
  · rintro ⟨hp, hv⟩ p
    have hprimary : (node n i).primaryForView s.view = (node n i).id := hp
    rw [propose, if_neg (not_not.mpr hprimary), hv]
    rfl

section Inversion

variable {i : NodeId} {s s' : PbftState} {c : Cause Call NetworkMessage}
variable {out : List NetworkMessage}

/-- **How a node comes to a view change**: it was in one, or it starts one and says so. -/
theorem Effect.progress_inv (h : Effect (node n i) s c s' out)
    (hv : s'.viewChangeInProgress = true) : s'.view = s.view ∧
      (s.viewChangeInProgress = true ∨ (node n i).primaryForView s.view ≠ i ∧
        ∃ l, out = (node n i).broadcastPbft (.viewChange (s.view + 1) i l)) := by
  cases h with
  | timeout hp => exact ⟨rfl, .inr ⟨hp, _, rfl⟩⟩
  | install => exact absurd hv (by simp [enterNewView])
  | adopt => exact absurd hv (by simp [enterNewView])
  | _ => exact ⟨rfl, .inl hv⟩

end Inversion

variable {cfg : FaultConfig} {ok : System.Guard NodeId PbftState Call NetworkMessage}
variable {w : World NodeId PbftState Call NetworkMessage}

/-- A primary never takes part in a view change against itself. -/
theorem primary_idle (hw : (system n cfg).Reach ok w) : ∀ i, (w.nodes i).view % n = i →
    (w.nodes i).viewChangeInProgress = false := by
  refine hw.everywhere (I := fun i s => s.view % n = i → s.viewChangeInProgress = false)
    (fun _ _ => rfl) ?_
  intro w o hr ih _ hf hi
  by_contra hprog
  obtain ⟨hview, hold | ⟨hp, _⟩⟩ :=
    (effect_of_fires hf).progress_inv (Bool.eq_true_of_not_eq_false hprog)
  · rw [hview] at hi
    rw [ih hi] at hold
    exact absurd hold (by simp)
  · rw [hview] at hi
    exact hp hi

/-! ### Votes for view 1 -/

/-- The votes for view `1` that node `1` has, or would have on the next one. -/
def held (s : PbftState) : Finset NodeId := insert 1 ((s.viewChangeVotes.lookup 1).getD ∅)

omit [Sha256] in
/-- A vote for a later view is counted together with the node's own, and makes the primary of the
    view install it if they are a quorum. -/
theorem handleViewChange_of_lt (self : PbftNode) {s : PbftState} {v : ViewNumber} (r : NodeId)
    (hv : s.view < v) : ∃ votes, insert r ((s.viewChangeVotes.lookup v).getD ∅) ⊆ votes ∧
      self.id ∈ votes ∧
      (self.handleViewChange s v r).1.viewChangeVotes = s.viewChangeVotes.insert v votes ∧
      ((self.handleViewChange s v r).1.view = v ∨
        (self.primaryForView v = self.id → votes.card < self.quorum)) := by
  unfold handleViewChange
  rw [if_neg (not_le.mpr hv)]
  by_cases hself : self.id ∈ insert r ((s.viewChangeVotes.lookup v).getD ∅)
  · refine ⟨_, Finset.Subset.refl _, hself, ?_⟩
    simp only [hself, not_true_eq_false, if_false]
    split
    · exact ⟨rfl, .inl rfl⟩
    · rename_i hnot
      exact ⟨rfl, .inr fun hp => not_le.mp fun hq => hnot ⟨hq, hp⟩⟩
  · refine ⟨_, Finset.subset_insert _ _, Finset.mem_insert_self self.id _, ?_⟩
    simp only [hself, not_false_eq_true, if_true]
    split
    · exact ⟨rfl, .inl rfl⟩
    · rename_i hnot
      exact ⟨rfl, .inr fun hp => not_le.mp fun hq => hnot ⟨hq, hp⟩⟩

omit [Sha256] in
/-- What node `1` holds after it counted a vote for view `1`, and did not install the view. -/
theorem held_handleViewChange (hn : 2 ≤ n) {s : PbftState} (hv : s.view = 0) (r : NodeId) :
    0 < ((node n 1).handleViewChange s 1 r).1.view ∨
      held s ⊆ held ((node n 1).handleViewChange s 1 r).1 ∧
        r ∈ held ((node n 1).handleViewChange s 1 r).1 ∧
        (held ((node n 1).handleViewChange s 1 r).1).card < 2 * ((n - 1) / 3) + 1 := by
  obtain ⟨votes, hsub, hself, hvotes, hview | hcard⟩ :=
    handleViewChange_of_lt (node n 1) r (by rw [hv]; exact Nat.one_pos)
  · left
    rw [hview]
    exact Nat.one_pos
  · right
    have hone : 1 ∈ votes := hself
    have hheld : held ((node n 1).handleViewChange s 1 r).1 = votes := by
      rw [held, hvotes, AList.lookup_insert]
      exact Finset.insert_eq_of_mem hone
    rw [hheld]
    refine ⟨?_, hsub (Finset.mem_insert_self _ _), hcard (Nat.mod_eq_of_lt hn)⟩
    exact Finset.insert_subset hone ((Finset.subset_insert _ _).trans hsub)

/-- A step of node `1` in view `0` that receives no vote for view `1` leaves what it holds. -/
theorem Effect.held_eq {s s' : PbftState} {c : Cause Call NetworkMessage}
    {out : List NetworkMessage} (h : Effect (node n 1) s c s' out) (hv : s.view = 0)
    (hv' : s'.view = 0)
    (hno : ∀ m r l, c = .recv m → m.payload ≠ .pbft (.viewChange 1 r l)) :
    held s' = held s := by
  cases h with
  | timeout hp hprog h0 votes hvotes =>
    have hone : s.view + 1 = 1 := by rw [hv]
    rw [hone] at hvotes
    have hheld : held { s with
        viewChangeInProgress := true
        viewChangeVotes := s.viewChangeVotes.insert (s.view + 1) votes } = insert 1 votes := by
      rw [held, hone, AList.lookup_insert]
      rfl
    rw [hheld, hvotes]
    exact Finset.insert_idem 1 _
  | vote m v r l votes out hm hlt =>
    have hne : 1 ≠ v := by
      rintro rfl
      exact hno m r l rfl hm
    show insert 1 (((s.viewChangeVotes.insert v votes).lookup 1).getD ∅) = held s
    rw [AList.lookup_insert_ne hne]
    rfl
  | install m v r l votes out hm hlt =>
    have hview : v = 0 := hv'
    rw [hview] at hlt
    exact absurd hlt (Nat.not_lt_zero _)
  | adopt m v ns hm hlt =>
    have hview : v = 0 := hv'
    rw [hview] at hlt
    exact absurd hlt (Nat.not_lt_zero _)
  | _ => rfl

/-- What node `1` knows in view `0`. -/
structure Waiting (n : ℕ) (s : PbftState) (h : History PbftState) : Prop where
  card_lt : (held s).card < 2 * ((n - 1) / 3) + 1
  heard : ∀ o ∈ h, o.node = 1 → ∀ m r l, o.cause = .recv m →
    m.payload = .pbft (.viewChange 1 r l) → r ∈ held s

theorem waiting (hn : 4 ≤ n) (hw : (system n cfg).Reach ok w) :
    (w.nodes 1).view = 0 → Waiting n (w.nodes 1) w.history := by
  refine hw.induct_party (I := fun i s h => i = 1 → s.view = 0 → Waiting n s h) ?_ ?_ ?_ 1 rfl
  · rintro i rfl _
    refine ⟨?_, fun o ho => absurd ho (by simp)⟩
    have hheld : held ((system n cfg).init 1) = {1} := rfl
    rw [hheld, Finset.card_singleton]
    omega
  -- only the steps of node `1` matter, and of them only the votes it receives
  · intro w o hr ih _ hf hi hview
    have hbefore : o.before.view = 0 := by
      have hle : o.before.view ≤ o.after.view := ((kept _).move w o hr hf).view_le
      rw [hview] at hle
      exact Nat.le_zero.mp hle
    have hold := ih hi hbefore
    by_cases hvote : ∃ m r l, o.cause = .recv m ∧ m.payload = .pbft (.viewChange 1 r l)
    · obtain ⟨m, r, l, hc, hm⟩ := hvote
      have hafter : o.after = ((node n 1).handleViewChange o.before 1 r).1 := by
        rw [after_of_recv hf hc, hi, handleMessage, hm]
      rcases held_handleViewChange (n := n) (by omega) hbefore r with hpos | ⟨hsub, hr', hcard⟩
      · rw [← hafter, hview] at hpos
        exact absurd hpos (lt_irrefl 0)
      · rw [← hafter] at hsub hr' hcard
        refine ⟨hcard, fun o' ho' hi' m' r' l' hc' hm' => ?_⟩
        rcases List.mem_cons.mp ho' with rfl | ho'
        · cases hc.symm.trans hc'
          rw [hm] at hm'
          cases hm'
          exact hr'
        · exact hsub (hold.heard o' ho' hi' m' r' l' hc' hm')
    · have heff := effect_of_fires hf
      rw [hi] at heff
      have hheld : held o.after = held o.before :=
        heff.held_eq hbefore hview fun m r l hc hm => hvote ⟨m, r, l, hc, hm⟩
      refine ⟨by rw [hheld]; exact hold.card_lt, fun o' ho' hi' m' r' l' hc' hm' => ?_⟩
      rw [hheld]
      rcases List.mem_cons.mp ho' with rfl | ho'
      · exact absurd ⟨m', r', l', hc', hm'⟩ hvote
      · exact hold.heard o' ho' hi' m' r' l' hc' hm'
  · rintro i s o h hne ih rfl hview
    have hold := ih rfl hview
    refine ⟨hold.card_lt, fun o' ho' hi' m' r' l' hc' hm' => ?_⟩
    rcases List.mem_cons.mp ho' with rfl | ho'
    · exact absurd hi' hne
    · exact hold.heard o' ho' hi' m' r' l' hc' hm'

/-- A node in a view change in view `0` has voted for view `1`. -/
theorem voted (hw : (system n cfg).Reach ok w) : ∀ j, (w.nodes j).view = 0 →
    (w.nodes j).viewChangeInProgress = true →
    ∃ o ∈ w.history, ∃ l, o.sent = (node n j).broadcastPbft (.viewChange 1 j l) := by
  refine hw.induct_party (I := fun j s h => s.view = 0 → s.viewChangeInProgress = true →
    ∃ o ∈ h, ∃ l, o.sent = (node n j).broadcastPbft (.viewChange 1 j l)) ?_ ?_ ?_
  · intro j _ hprog
    exact absurd hprog (by simp [system, PbftNode.new])
  · intro w o hr ih _ hf hv hprog
    -- the view change was under way, or begins now, and then the vote is sent
    obtain ⟨hview, hold | ⟨_, l, hout⟩⟩ := (effect_of_fires hf).progress_inv hprog
    · rw [hview] at hv
      obtain ⟨o', ho', hrest⟩ := ih hv hold
      exact ⟨o', List.mem_cons_of_mem _ ho', hrest⟩
    · have hone : o.before.view + 1 = 1 := by rw [← hview, hv]
      rw [hone] at hout
      exact ⟨o, List.mem_cons_self, l, hout⟩
  · intro j s o h _ ih hv hprog
    obtain ⟨o', ho', hrest⟩ := ih hv hprog
    exact ⟨o', List.mem_cons_of_mem _ ho', hrest⟩

/-! ### Bringing a vote to node 1 -/

variable {I : Finset NodeId}

/-- A vote of a live node that is in flight is brought to node `1`. -/
theorem bring (hn : 2 ≤ n) (h1 : 1 ∉ I) (hview : (w.nodes 1).view = 0) {j : NodeId}
    (hlive : j ∉ I) {l : SequenceNumber}
    (hm : (⟨j, 1, .pbft (.viewChange 1 j l)⟩ : NetworkMessage) ∈ w.inFlight) :
    ∃ w', ((system n {}).blocking (stops I)).Via Continuation w w' ∧
      (Moved n I PbftState.view w' ∨ held (w.nodes 1) ⊆ held (w'.nodes 1) ∧
        j ∈ held (w'.nodes 1) ∧ (held (w'.nodes 1)).card < 2 * ((n - 1) / 3) + 1) := by
  have hpass : stops I ⟨j, 1, .pbft (.viewChange 1 j l)⟩ = false :=
    stops_eq_false.mpr ⟨hlive, h1⟩
  have hcarry := (System.blocking_carry_of_not (S := system n {}) hpass).trans
    (FaultConfig.tamper_none _)
  obtain ⟨w', hs, hnodes⟩ := System.Via.deliver (S := (system n {}).blocking (stops I))
    (P := Continuation) (s := ((node n 1).handleViewChange (w.nodes 1) 1 j).1)
    (fun _ => trivial) hm hcarry (Finset.mem_range.mpr hn) rfl
  have hnode : w'.nodes 1 = ((node n 1).handleViewChange (w.nodes 1) 1 j).1 := by
    rw [hnodes]
    exact Function.update_self _ _ _
  refine ⟨w', hs, ?_⟩
  rw [hnode]
  rcases held_handleViewChange hn hview j with hpos | hheld
  · exact .inl ⟨1, hn, h1, by rw [hnode]; exact hpos⟩
  · exact .inr hheld

omit [Sha256] in
/-- A tick of a node that waits for another primary counts its timeout down. -/
theorem tick_down {self : PbftNode} {s : PbftState} (hp : self.primaryForView s.view ≠ self.id)
    (hv : s.viewChangeInProgress = false) (ht : 0 < s.viewChangeTimeout) :
    self.tick s = ({ s with viewChangeTimeout := s.viewChangeTimeout - 1 }, []) := by
  rw [tick, if_neg hp, hv, if_neg (by simp), if_neg (Nat.ne_of_gt ht)]

omit [Sha256] in
/-- A node whose timeout expires in view `0` votes for view `1`. -/
theorem tick_vote {i : NodeId} {s : PbftState} (hi : i ≠ 0) (hv : s.view = 0)
    (hprog : s.viewChangeInProgress = false) (ht : s.viewChangeTimeout = 0) :
    ((node n i).tick s).2 =
      (node n i).broadcastPbft (.viewChange 1 i s.highestCommittedSeq) := by
  have hprimary : (node n i).primaryForView s.view ≠ (node n i).id := by
    rw [hv]
    show 0 % n ≠ i
    rw [Nat.zero_mod]
    exact hi.symm
  have hone : s.view + 1 = 1 := by rw [hv]
  rw [tick, if_neg hprimary, hprog, if_neg (by simp), if_pos ht]
  dsimp only
  rw [hone]
  rfl

/-- **A live node brings its vote to the primary of view `1`**: it times out, or it has, and then
    its vote is on the way or was counted. -/
theorem gather (hn : 4 ≤ n) (h0 : 0 ∈ I) (h1 : 1 ∉ I) (hw : Crashed (system n {}) I w)
    (hstuck : ¬ Moved n I PbftState.view w) {j : NodeId} (hj : j < n) (hlive : j ∉ I) :
    ∃ w', ((system n {}).blocking (stops I)).Via Continuation w w' ∧
      (Moved n I PbftState.view w' ∨ held (w.nodes 1) ⊆ held (w'.nodes 1) ∧
        j ∈ held (w'.nodes 1) ∧ (held (w'.nodes 1)).card < 2 * ((n - 1) / 3) + 1) := by
  have hzero : ∀ i < n, i ∉ I → (w.nodes i).view = 0 := fun i =>
    view_eq_zero_of_not_moved hstuck
  have hview := hzero 1 (by omega) h1
  have hwait := waiting hn hw.reach.of_blocking hview
  have hj0 : j ≠ 0 := fun h => hlive (h ▸ h0)
  by_cases hj1 : j = 1
  · subst hj1
    exact ⟨w, .refl w, .inr ⟨Finset.Subset.refl _, Finset.mem_insert_self _ _, hwait.card_lt⟩⟩
  have hmem : (1 : NodeId) ∈ ((system n {}).blocking (stops I)).members :=
    Finset.mem_range.mpr (by omega)
  by_cases hprog : (w.nodes j).viewChangeInProgress = true
  · -- its vote is in flight, unless node `1` received it
    obtain ⟨o, ho, l, hsent⟩ := voted hw.reach.of_blocking j (hzero j hj hlive) hprog
    have hm : w.Sent ⟨j, 1, .pbft (.viewChange 1 j l)⟩ :=
      ⟨o, ho, by rw [hsent]; exact mem_broadcastPbft.mpr ⟨1, by omega, Ne.symm hj1, rfl⟩⟩
    have hpass : stops I ⟨j, 1, .pbft (.viewChange 1 j l)⟩ = false :=
      stops_eq_false.mpr ⟨hlive, h1⟩
    have hcarry := (System.blocking_carry_of_not (S := system n {}) hpass).trans
      (FaultConfig.tamper_none _)
    rcases System.Via.received (fun _ h => h) hw hcarry hmem hm with hflight | ⟨o', ho', hc⟩
    · exact bring (by omega) h1 hview hlive hflight
    · obtain ⟨w₀, _, _, hf₀, _⟩ := hw.reach.fired o' ho'
      have hnode : o'.node = 1 := (hf₀.recv_inv hc).1.symm
      exact ⟨w, .refl w, .inr ⟨Finset.Subset.refl _, hwait.heard o' ho' hnode _ j l hc rfl,
        hwait.card_lt⟩⟩
  · have hidle : (w.nodes j).viewChangeInProgress = false := by simpa using hprog
    obtain ⟨w₂, s₁, hs₂, ⟨hv₁, hidle₁⟩, ht₁, hnodes₂, hflight₂⟩ :=
      System.Via.expire (S := (system n {}).blocking (stops I)) (P := Continuation) (w := w)
        (a := .tick) trivial (Finset.mem_range.mpr hj) PbftState.viewChangeTimeout
        (Q := fun s => s.view = 0 ∧ s.viewChangeInProgress = false)
        (fun s hs ht => by
          refine ⟨_, tick_down ?_ hs.2 ht, Nat.sub_add_cancel ht, hs⟩
          rw [hs.1]
          show 0 % n ≠ j
          rw [Nat.zero_mod]
          exact hj0.symm)
        ⟨hzero j hj hlive, hidle⟩
    have hother : w₂.nodes 1 = w.nodes 1 := by
      rw [hnodes₂, Function.update_of_ne (Ne.symm hj1)]
    have hflight : ⟨j, 1, .pbft (.viewChange 1 j s₁.highestCommittedSeq)⟩ ∈ w₂.inFlight := by
      apply hflight₂
      show _ ∈ ((node n j).tick s₁).2
      rw [tick_vote hj0 hv₁ hidle₁ ht₁]
      exact mem_broadcastPbft.mpr ⟨1, by omega, Ne.symm hj1, rfl⟩
    obtain ⟨w₃, hs₃, hcase⟩ :=
      bring (n := n) (by omega) h1 (by rw [hother]; exact hview) hlive hflight
    rw [hother] at hcase
    exact ⟨w₃, hs₂.trans hs₃, hcase⟩

/-- **PBFT rotates its primaries.** -/
theorem rotation (hn : 2 ≤ n) {I : Finset NodeId} (hI : I.card ≤ (n - 1) / 3) :
    Rotation (system n {}) n I PbftState.view (Accepts n) held (2 * ((n - 1) / 3) + 1) where
  members := rfl
  dst _ := rfl
  carry := FaultConfig.tamper_none
  init _ := rfl
  mono w o hr hf := ((kept _).move w o hr.of_blocking hf.of_blocking).view_le
  enters w o hr hf := by
    rcases (effect_of_fires hf.of_blocking).view_inv with hsame |
      ⟨_, _, _, _, hself, hrecv⟩ | ⟨m, ns, hc, hm⟩
    · exact .inl hsame
    · exact .inr (.inl ⟨hself.symm, hrecv⟩)
    · obtain ⟨o₀, ho₀, hview⟩ := newView_source hr.of_blocking hf.of_blocking hc hm
      exact .inr (.inr ⟨o₀, ho₀, .inr hview⟩)
  earlier w hr i hpos := by
    have hjust := justified hr.of_blocking
    obtain ⟨V, _, hp, hV⟩ := hjust.now i hpos
    obtain ⟨o, ho, _, hview, _⟩ := hjust.timed _ _ (hV _ hp).2 _ hpos (le_refl _)
    exact ⟨o, ho, by rw [hview]; exact Nat.sub_add_cancel hpos⟩
  accepts_iff w hr i := accepts_iff.trans
    ⟨fun h => h.1, fun h => ⟨h, primary_idle hr.of_blocking i h⟩⟩
  quorum_le := quorum_le_live hn hI
  gather h0 h1 _ hw hstuck _ hj hlive := by
    -- one node has crashed, so there are at least four
    have hpos : 0 < I.card := Finset.card_pos.mpr ⟨0, h0⟩
    exact gather (by omega) h0 h1 hw hstuck hj hlive

end Pbft

end ConsensusBench
