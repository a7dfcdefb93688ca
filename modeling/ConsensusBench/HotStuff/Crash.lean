import ConsensusBench.Crash
import ConsensusBench.HotStuff.Views

namespace ConsensusBench

/-!
# HotStuff with crashed nodes

A node that times out asks the leader of the next view for it, again and again; it never asks for
a view after that.

* `handleNewView_of_lt` — a leader counts the requests for its view until they are a quorum.
* `rotation` — so HotStuff is one of the protocols of `Rotation`.
-/

open AsyncNet HotStuffNode

namespace HotStuff

variable [Sha256] {n : ℕ}

/-- Node `i` would accept a proposal. -/
def Accepts (n : ℕ) (i : NodeId) (s : HotStuffState) : Prop :=
  ∀ p, ((node n i).propose s p).1 = .accepted

theorem accepts_iff {i : NodeId} {s : HotStuffState} : Accepts n i s ↔ s.view % n = i := by
  constructor
  · intro h
    by_contra hne
    have hleader : (node n i).leaderForView s.view ≠ (node n i).id := hne
    have hacc := h ⟨[]⟩
    rw [propose, if_pos hleader] at hacc
    exact absurd hacc (by simp)
  · intro hv p
    have hleader : (node n i).leaderForView s.view = (node n i).id := hv
    rw [propose, if_neg (not_not.mpr hleader)]

/-- The requests for view `1` that a node has. -/
def held (s : HotStuffState) : Finset NodeId := (s.newViewMessages.lookup 1).getD ∅

omit [Sha256] in
/-- A request for a later view is counted, and takes the leader of the view there if it completes
    the quorum. -/
theorem handleNewView_of_lt {self : HotStuffNode} {s : HotStuffState} {v : ViewNumber}
    {r : NodeId} (hv : s.view < v) (hl : self.leaderForView v = self.id) :
    (self.handleNewView s v r).1.view = v ∨
      (self.handleNewView s v r).1.newViewMessages = s.newViewMessages.insert v
          (insert r ((s.newViewMessages.lookup v).getD ∅)) ∧
        (insert r ((s.newViewMessages.lookup v).getD ∅)).card < self.quorum := by
  unfold handleNewView
  rw [if_neg (not_le.mpr hv)]
  by_cases hq : self.quorum ≤ (insert r ((s.newViewMessages.lookup v).getD ∅)).card
  · left
    simp only [hq, hl, and_self, if_true]
    rfl
  · right
    simp only [hq, false_and, if_false]
    exact ⟨trivial, not_le.mp hq⟩

variable {I : Finset NodeId} {w : World NodeId HotStuffState Call NetworkMessage}

omit [Sha256] in
/-- A tick of a node that waits for another leader counts its timeout down. -/
theorem tick_down {self : HotStuffNode} {s : HotStuffState}
    (hl : self.leaderForView s.view ≠ self.id) (ht : 0 < s.viewChangeTimeout) :
    self.tick s = ({ s with viewChangeTimeout := s.viewChangeTimeout - 1 }, []) := by
  rw [tick, if_neg hl, if_neg (Nat.ne_of_gt ht)]

/-- The state of a node that asks for view `1`. -/
def ask (i : NodeId) (s : HotStuffState) : HotStuffState :=
  { s with
    newViewMessages := s.newViewMessages.insert 1 (insert i (held s))
    viewChangeTimeout := VIEW_CHANGE_TIMEOUT }

/-- Its request. -/
def request (i : NodeId) (s : HotStuffState) : NetworkMessage :=
  ⟨i, 1, .hotStuff (.newView 1 s.highestQcView s.highestQcPhase i)⟩

omit [Sha256] in
/-- A node whose timeout expires in view `0` asks node `1` for view `1`. -/
theorem tick_ask (hn : 2 ≤ n) {i : NodeId} {s : HotStuffState} (hi : i ≠ 0) (hv : s.view = 0)
    (ht : s.viewChangeTimeout = 0) : (node n i).tick s = (ask i s, [request i s]) := by
  have hleader : (node n i).leaderForView s.view ≠ (node n i).id := by
    rw [hv]
    show 0 % n ≠ i
    rw [Nat.zero_mod]
    exact hi.symm
  have hnext : (node n i).leaderForView (s.view + 1) = 1 := by
    rw [hv]
    exact Nat.mod_eq_of_lt hn
  have hone : s.view + 1 = 1 := by rw [hv]
  rw [tick, if_neg hleader, if_pos ht]
  dsimp only
  rw [hnext, hone]
  rfl

omit [Sha256] in
theorem held_ask (i : NodeId) (s : HotStuffState) : held (ask i s) = insert i (held s) := by
  show ((s.newViewMessages.insert 1 (insert i (held s))).lookup 1).getD ∅ = _
  rw [AList.lookup_insert]
  rfl

variable {I : Finset NodeId} {w : World NodeId HotStuffState Call NetworkMessage}

/-- **A live node brings its request to the leader of view `1`**, by timing out. -/
theorem gather (hn : 2 ≤ n) (h0 : 0 ∈ I) (h1 : 1 ∉ I)
    (hstuck : ¬ Moved n I HotStuffState.view w) {j : NodeId} (hj : j < n) (hlive : j ∉ I) :
    ∃ w', ((system n {}).blocking (stops I)).Via Continuation w w' ∧
      (Moved n I HotStuffState.view w' ∨
        held (w.nodes 1) ⊆ held (w'.nodes 1) ∧ j ∈ held (w'.nodes 1) ∧
          (held (w'.nodes 1)).card < 2 * ((n - 1) / 3) + 1) := by
  have hzero : ∀ i < n, i ∉ I → (w.nodes i).view = 0 := fun i =>
    view_eq_zero_of_not_moved hstuck
  have hj0 : j ≠ 0 := fun h => hlive (h ▸ h0)
  have hmem : ∀ i < n, i ∈ ((system n {}).blocking (stops I)).members := fun i hi =>
    Finset.mem_range.mpr hi
  -- the node waits until its timeout expires, and asks node `1`
  obtain ⟨w₂, s₁, hs₂, ⟨hv₁, hheld₁⟩, ht₁, hnodes₂, hflight₂⟩ :=
    System.Via.expire (S := (system n {}).blocking (stops I)) (P := Continuation) (w := w)
      (a := .tick) trivial (hmem j hj) HotStuffState.viewChangeTimeout
      (Q := fun s => s.view = 0 ∧ held s = held (w.nodes j))
      (fun s hs ht => by
        refine ⟨_, tick_down ?_ ht, Nat.sub_add_cancel ht, hs⟩
        rw [hs.1]
        show 0 % n ≠ j
        rw [Nat.zero_mod]
        exact hj0.symm)
      ⟨hzero j hj hlive, rfl⟩
  have hact : ((system n {}).blocking (stops I)).act j s₁ .tick = (ask j s₁, [request j s₁]) :=
    tick_ask hn hj0 hv₁ ht₁
  rw [hact] at hnodes₂ hflight₂
  have hflight : request j s₁ ∈ w₂.inFlight := hflight₂ _ (List.mem_singleton_self _)
  have hview₂ : (w₂.nodes 1).view = 0 := by
    rw [hnodes₂]
    by_cases hj1 : 1 = j
    · rw [hj1, Function.update_self]
      exact hv₁
    · rw [Function.update_of_ne hj1]
      exact hzero 1 hn h1
  have hheld₂ : held (w.nodes 1) ⊆ held (w₂.nodes 1) := by
    rw [hnodes₂]
    by_cases hj1 : 1 = j
    · subst hj1
      rw [Function.update_self, held_ask, hheld₁]
      exact Finset.subset_insert _ _
    · rw [Function.update_of_ne hj1]
  -- node `1` counts the request
  have hpass : stops I (request j s₁) = false := stops_eq_false.mpr ⟨hlive, h1⟩
  have hcarry : ((system n {}).blocking (stops I)).carry (request j s₁) = [request j s₁] := by
    rw [System.blocking_carry_of_not hpass]
    exact FaultConfig.tamper_none _
  obtain ⟨w₃, hs₃, hn₃⟩ := System.Via.deliver (S := (system n {}).blocking (stops I))
    (P := Continuation) (s := ((node n 1).handleNewView (w₂.nodes 1) 1 j).1) (fun _ => trivial)
    hflight hcarry (hmem 1 hn) rfl
  have hnode₃ : w₃.nodes 1 = ((node n 1).handleNewView (w₂.nodes 1) 1 j).1 := by
    rw [hn₃]
    exact Function.update_self _ _ _
  refine ⟨w₃, hs₂.trans hs₃, ?_⟩
  -- node `1` enters view `1` if the request completes the quorum, and keeps it otherwise
  have hleader : (node n 1).leaderForView 1 = (node n 1).id := Nat.mod_eq_of_lt hn
  rcases handleNewView_of_lt (r := j) (by rw [hview₂]; exact Nat.one_pos) hleader with
    hview | ⟨hvotes, hcard⟩
  · refine .inl ⟨1, hn, h1, ?_⟩
    rw [hnode₃, hview]
    exact Nat.one_pos
  · have hheld₃ : held (w₃.nodes 1) = insert j (held (w₂.nodes 1)) := by
      rw [hnode₃, held, hvotes, AList.lookup_insert]
      rfl
    rw [hheld₃]
    exact .inr ⟨hheld₂.trans (Finset.subset_insert _ _), Finset.mem_insert_self _ _, hcard⟩

/-- **HotStuff rotates its leaders.** -/
theorem rotation (hn : 2 ≤ n) {I : Finset NodeId} (hI : I.card ≤ (n - 1) / 3) :
    Rotation (system n {}) n I HotStuffState.view (Accepts n) held (2 * ((n - 1) / 3) + 1) where
  members := rfl
  dst _ := rfl
  carry := FaultConfig.tamper_none
  init _ := rfl
  mono w o hr hf := ((kept _).move w o hr.of_blocking hf.of_blocking).view_le
  enters w o hr hf := by
    rcases (effect_of_fires hf.of_blocking).view_inv with hsame | ⟨_, _, _, hself, hrecv⟩ |
      ⟨m, q, d, p, jv, jp, hc, hm⟩
    · exact .inl hsame
    · exact .inr (.inl ⟨hself.symm, hrecv⟩)
    · obtain ⟨o₀, ho₀, hview, _⟩ := propose_source hr.of_blocking hf.of_blocking hc hm
      exact .inr (.inr ⟨o₀, ho₀, .inl hview⟩)
  earlier w hr i hpos := by
    obtain ⟨V, hcard, hV⟩ := (justified hr.of_blocking).now i hpos
    obtain ⟨j, hj⟩ := Finset.card_pos.mp (lt_of_lt_of_le (Nat.succ_pos _) hcard)
    obtain ⟨_, o, ho, _, _, hview, _⟩ := hV j hj
    exact ⟨o, ho, hview⟩
  accepts_iff _ _ _ := accepts_iff
  quorum_le := quorum_le_live hn hI
  gather h0 h1 _ _ hstuck _ hj hlive := gather hn h0 h1 hstuck hj hlive

end HotStuff

end ConsensusBench
