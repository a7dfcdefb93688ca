import ConsensusBench.Consensus
import ConsensusBench.Lib.Blocking
import Mathlib.Data.Finset.Max

namespace ConsensusBench

/-!
# Crashed nodes and rotating leaders

A cluster whose nodes of `I` are isolated from the start, and in which nothing else is lost.

* `NoDeadEnd` — whatever happened, ticks and deliveries alone can take the cluster to a state in
  which a live node accepts proposals.
* `Rotation` — what the two view-based protocols share: the leader of view `v` is node `v % n`,
  nobody is in a view its leader is not in, and a view is entered from the view before.
* `Rotation.noDeadEnd_iff` — there is no dead end unless the leaders of views `0` and `1` have
  both crashed: nodes vote for the view after their own, and no vote takes them past view `1`.
-/

open AsyncNet

/-! ### Runs with crashed nodes -/

/-- The messages that isolating the nodes of `I` stops. -/
def stops (I : Finset NodeId) (m : NetworkMessage) : Bool := m.sender ∈ I ∨ m.target ∈ I

/-- What may happen while the nodes of `I` are isolated: ticks, proposals to the other nodes, and
    deliveries. -/
def CrashRun (I : Finset NodeId) : Event NodeId Call → Prop
  | .call _ .tick => True
  | .call i (.propose _) => i ∉ I
  | .call _ .pollCommitted => False
  | .deliver _ => True
  | .lose _ => False

/-- Ticks and deliveries. -/
def Continuation : Event NodeId Call → Prop
  | .call _ .tick => True
  | .deliver _ => True
  | _ => False

variable {σ : Type}

/-- A world of a cluster whose nodes of `I` are isolated from the start. -/
def Crashed (S : System NodeId σ Call NetworkMessage) (I : Finset NodeId)
    (w : World NodeId σ Call NetworkMessage) : Prop :=
  (S.blocking (stops I)).Via (CrashRun I) S.start w

/-- **No dead end**: some continuation makes a live node accept proposals. -/
def NoDeadEnd (S : System NodeId σ Call NetworkMessage) (accepts : NodeId → σ → Prop)
    (I : Finset NodeId) : Prop :=
  ∀ w, Crashed S I w → ∃ w', (S.blocking (stops I)).Via Continuation w w' ∧
    ∃ i ∈ S.members, i ∉ I ∧ accepts i (w'.nodes i)

theorem stops_eq_false {I : Finset NodeId} {m : NetworkMessage} :
    stops I m = false ↔ m.sender ∉ I ∧ m.target ∉ I := by
  simp [stops]

section Runs

variable {S : System NodeId σ Call NetworkMessage} {I : Finset NodeId}
variable {w w' : World NodeId σ Call NetworkMessage}

/-- A continued run is a run. -/
theorem Crashed.continued (h : Crashed S I w)
    (h' : (S.blocking (stops I)).Via Continuation w w') : Crashed S I w' := by
  refine System.Via.trans h (h'.mono fun e he => ?_)
  cases e with
  | call i a =>
    cases a with
    | propose p => exact absurd he (by simp [Continuation])
    | tick => trivial
    | pollCommitted => exact absurd he (by simp [Continuation])
  | deliver k => trivial
  | lose k => exact absurd he (by simp [Continuation])

theorem Crashed.reach (h : Crashed S I w) : (S.blocking (stops I)).Reach System.anyStep w :=
  h.steps

end Runs

/-- With at most `f` crashed nodes, the live ones are a quorum. -/
theorem quorum_le_live {n : ℕ} {I : Finset NodeId} (hn : 2 ≤ n) (hI : I.card ≤ (n - 1) / 3) :
    2 * ((n - 1) / 3) + 1 ≤ (Finset.range n \ I).card := by
  have hle := Finset.le_card_sdiff I (Finset.range n)
  rw [Finset.card_range] at hle
  omega

theorem two_le_live {n : ℕ} {I : Finset NodeId} (hn : 2 ≤ n) (hI : I.card ≤ (n - 1) / 3) :
    2 ≤ (Finset.range n \ I).card := by
  have hle := Finset.le_card_sdiff I (Finset.range n)
  rw [Finset.card_range] at hle
  omega

/-! ### Rotating leaders -/

/-- Some live node is past view `0`. -/
def Moved (n : ℕ) (I : Finset NodeId) (view : σ → ViewNumber)
    (w : World NodeId σ Call NetworkMessage) : Prop :=
  ∃ i < n, i ∉ I ∧ 0 < view (w.nodes i)

theorem view_eq_zero_of_not_moved {n : ℕ} {I : Finset NodeId} {view : σ → ViewNumber}
    {w : World NodeId σ Call NetworkMessage} (h : ¬ Moved n I view w) {i : NodeId} (hi : i < n)
    (hlive : i ∉ I) : view (w.nodes i) = 0 := by
  by_contra hne
  exact h ⟨i, hi, hlive, Nat.pos_of_ne_zero hne⟩

/-- A protocol whose views are led by the nodes in turn.  `held` are the votes for view `1` that a
    node has, and `quorum` of them make its leader enter it. -/
structure Rotation (S : System NodeId σ Call NetworkMessage) (n : ℕ) (I : Finset NodeId)
    (view : σ → ViewNumber) (accepts : NodeId → σ → Prop) (held : σ → Finset NodeId)
    (quorum : ℕ) : Prop where
  members : S.members = Finset.range n
  dst : ∀ m, S.dst m = m.target
  carry : ∀ m, S.carry m = [m]
  init : ∀ i, view (S.init i) = 0
  mono : ∀ w o, (S.blocking (stops I)).Reach System.anyStep w →
    (S.blocking (stops I)).Fires w o → view o.before ≤ view o.after
  enters : ∀ w o, (S.blocking (stops I)).Reach System.anyStep w →
    (S.blocking (stops I)).Fires w o → view o.after = view o.before ∨
      (o.node = view o.after % n ∧ ∃ m, o.cause = .recv m) ∨
      ∃ o₀ ∈ w.history, view o₀.before = view o.after ∨ view o₀.after = view o.after
  earlier : ∀ w, (S.blocking (stops I)).Reach System.anyStep w → ∀ i, 0 < view (w.nodes i) →
    ∃ o ∈ w.history, view o.before + 1 = view (w.nodes i)
  accepts_iff : ∀ w, (S.blocking (stops I)).Reach System.anyStep w → ∀ i,
    accepts i (w.nodes i) ↔ view (w.nodes i) % n = i
  quorum_le : quorum ≤ (Finset.range n \ I).card
  gather : 0 ∈ I → 1 ∉ I → ∀ w, Crashed S I w → ¬ Moved n I view w → ∀ j < n, j ∉ I →
    ∃ w', (S.blocking (stops I)).Via Continuation w w' ∧ (Moved n I view w' ∨
      held (w.nodes 1) ⊆ held (w'.nodes 1) ∧ j ∈ held (w'.nodes 1) ∧
        (held (w'.nodes 1)).card < quorum)

namespace Rotation

variable {S : System NodeId σ Call NetworkMessage} {n : ℕ} {I : Finset NodeId}
variable {view : σ → ViewNumber} {accepts : NodeId → σ → Prop} {held : σ → Finset NodeId}
variable {quorum : ℕ} {w : World NodeId σ Call NetworkMessage}

/-- The leader of view `v` is live and has entered it, if `v` is not the first. -/
def Led (n : ℕ) (I : Finset NodeId) (view : σ → ViewNumber) (nodes : NodeId → σ)
    (v : ViewNumber) : Prop :=
  0 < v → v % n ∉ I ∧ v ≤ view (nodes (v % n))

/-- A node that receives a message is live. -/
theorem live_of_recv (h : Rotation S n I view accepts held quorum)
    {o : NodeStep σ} (hf : (S.blocking (stops I)).Fires w o) {m : NetworkMessage}
    (hc : o.cause = .recv m) : o.node ∉ I := by
  obtain ⟨hdst, _, _, m₀, _, hcarry⟩ := hf.recv_inv hc
  obtain ⟨hstop, hcarry⟩ := System.blocking_carry_inv hcarry
  rw [h.carry, List.cons.injEq] at hcarry
  obtain ⟨rfl, _⟩ := hcarry
  have htarget : m₀.target = o.node := (h.dst m₀).symm.trans hdst
  rw [← htarget]
  exact (stops_eq_false.mp hstop).2

/-- **Nobody is in a view its leader is not in.** -/
theorem led (h : Rotation S n I view accepts held quorum)
    (hw : (S.blocking (stops I)).Reach System.anyStep w) :
    (∀ i, Led n I view w.nodes (view (w.nodes i))) ∧
      ∀ o ∈ w.history, Led n I view w.nodes (view o.before) ∧
        Led n I view w.nodes (view o.after) := by
  refine System.Reach.induct (N := fun nodes hist => (∀ i, Led n I view nodes (view (nodes i))) ∧
    ∀ o ∈ hist, Led n I view nodes (view o.before) ∧ Led n I view nodes (view o.after)) ?_ ?_ hw
  · refine ⟨fun i hpos => ?_, fun o ho => absurd ho (by simp)⟩
    have hzero : view ((S.blocking (stops I)).init i) = 0 := h.init i
    rw [hzero] at hpos
    exact absurd hpos (lt_irrefl 0)
  · intro w o hr ⟨hnodes, hhist⟩ _ hf
    have hmono := h.mono w o hr hf
    -- no leader goes back, so what was led still is
    have hkeep : ∀ v, Led n I view w.nodes v →
        Led n I view (Function.update w.nodes o.node o.after) v := by
      intro v hled hpos
      obtain ⟨hlive, hle⟩ := hled hpos
      refine ⟨hlive, ?_⟩
      by_cases hi : v % n = o.node
      · rw [hi, Function.update_self]
        rw [hi, ← hf.before_eq] at hle
        exact le_trans hle hmono
      · rw [Function.update_of_ne hi]
        exact hle
    have hbefore : Led n I view w.nodes (view o.before) := by
      rw [hf.before_eq]
      exact hnodes o.node
    have hafter : Led n I view (Function.update w.nodes o.node o.after) (view o.after) := by
      -- the node stays, leads the view itself, or hears of it from one that is in it
      rcases h.enters w o hr hf with hsame | ⟨hself, m, hc⟩ | ⟨o₀, ho₀, hv | hv⟩
      · rw [hsame]
        exact hkeep _ hbefore
      · intro _
        rw [← hself, Function.update_self]
        exact ⟨h.live_of_recv hf hc, le_refl _⟩
      · rw [← hv]
        exact hkeep _ (hhist o₀ ho₀).1
      · rw [← hv]
        exact hkeep _ (hhist o₀ ho₀).2
    refine ⟨fun i => ?_, fun o' ho' => ?_⟩
    · by_cases hi : i = o.node
      · subst hi
        rw [Function.update_self]
        exact hafter
      · rw [Function.update_of_ne hi]
        exact hkeep _ (hnodes i)
    · rcases List.mem_cons.mp ho' with rfl | ho'
      · exact ⟨hkeep _ hbefore, hafter⟩
      · exact ⟨hkeep _ (hhist o' ho').1, hkeep _ (hhist o' ho').2⟩

/-- **A leader is ready**: once a live node is past view `0`, the leader of the highest view of
    the live nodes accepts proposals. -/
theorem accepts_of_moved (h : Rotation S n I view accepts held quorum)
    (hw : (S.blocking (stops I)).Reach System.anyStep w) (hmoved : Moved n I view w) :
    ∃ i ∈ S.members, i ∉ I ∧ accepts i (w.nodes i) := by
  obtain ⟨i₀, hi₀, hlive₀, hpos₀⟩ := hmoved
  obtain ⟨i, hi, hmax⟩ := Finset.exists_max_image (Finset.range n \ I)
    (fun i => view (w.nodes i)) ⟨i₀, by simp [hi₀, hlive₀]⟩
  have hpos : 0 < view (w.nodes i) :=
    lt_of_lt_of_le hpos₀ (hmax i₀ (by simp [hi₀, hlive₀]))
  obtain ⟨hlive, hle⟩ := (h.led hw).1 i hpos
  have hn : view (w.nodes i) % n < n := Nat.mod_lt _ (Nat.zero_lt_of_lt hi₀)
  -- the leader of the highest view is in it
  have hge := hmax (view (w.nodes i) % n) (by simp [hn, hlive])
  have heq : view (w.nodes (view (w.nodes i) % n)) = view (w.nodes i) := le_antisymm hge hle
  refine ⟨view (w.nodes i) % n, ?_, hlive, (h.accepts_iff w hw _).mpr (by rw [heq])⟩
  rw [h.members]
  exact Finset.mem_range.mpr hn

/-- The votes of the nodes of a list can be brought to node `1`. -/
theorem gather_list (h : Rotation S n I view accepts held quorum) (h0 : 0 ∈ I) (h1 : 1 ∉ I)
    (hw : Crashed S I w) (js : List NodeId) (hjs : ∀ j ∈ js, j < n ∧ j ∉ I) :
    ∃ w', (S.blocking (stops I)).Via Continuation w w' ∧ (Moved n I view w' ∨
      (∀ j ∈ js, j ∈ held (w'.nodes 1)) ∧
        (js ≠ [] → (held (w'.nodes 1)).card < quorum)) := by
  induction js with
  | nil => exact ⟨w, .refl w, .inr ⟨fun j hj => absurd hj (by simp), fun hne => absurd rfl hne⟩⟩
  | cons j js ih =>
    obtain ⟨w₁, hs₁, hcase⟩ := ih fun j' hj' => hjs j' (List.mem_cons_of_mem _ hj')
    by_cases hmoved : Moved n I view w₁
    · exact ⟨w₁, hs₁, .inl hmoved⟩
    · obtain ⟨hheld, _⟩ := hcase.resolve_left hmoved
      obtain ⟨hj, hlive⟩ := hjs j List.mem_cons_self
      obtain ⟨w₂, hs₂, hcase₂⟩ := h.gather h0 h1 w₁ (hw.continued hs₁) hmoved j hj hlive
      refine ⟨w₂, hs₁.trans hs₂, hcase₂.imp_right fun ⟨hsub, hnew, hcard⟩ => ⟨?_, fun _ => hcard⟩⟩
      intro j' hj'
      rcases List.mem_cons.mp hj' with rfl | hj'
      · exact hnew
      · exact hsub (hheld j' hj')

/-- **A live leader of view `1` takes the cluster there.** -/
theorem exists_moved (h : Rotation S n I view accepts held quorum) (hn : 2 ≤ n) (h0 : 0 ∈ I)
    (h1 : 1 ∉ I) (hw : Crashed S I w) :
    ∃ w', (S.blocking (stops I)).Via Continuation w w' ∧ Moved n I view w' := by
  have hmem : ∀ j, j ∈ (Finset.range n \ I).toList ↔ j < n ∧ j ∉ I := by simp
  obtain ⟨w', hs, hcase⟩ := h.gather_list h0 h1 hw (Finset.range n \ I).toList
    fun j hj => (hmem j).mp hj
  refine ⟨w', hs, hcase.resolve_right fun ⟨hheld, hcard⟩ => ?_⟩
  have hone : 1 ∈ (Finset.range n \ I).toList := (hmem 1).mpr ⟨hn, h1⟩
  have hlt := hcard (List.ne_nil_of_mem hone)
  have hsub : Finset.range n \ I ⊆ held (w'.nodes 1) := fun j hj =>
    hheld j (Finset.mem_toList.mpr hj)
  have hle := le_trans h.quorum_le (Finset.card_le_card hsub)
  omega

/-- If the leader of view `1` has crashed, nobody ever leaves view `0`. -/
theorem view_eq_zero (h : Rotation S n I view accepts held quorum) (hn : 2 ≤ n) (h1 : 1 ∈ I)
    (v : ℕ) : ∀ w, (S.blocking (stops I)).Reach System.anyStep w → ∀ i,
      view (w.nodes i) = v → v = 0 := by
  induction v with
  | zero => exact fun _ _ _ _ => rfl
  | succ v ih =>
    intro w hw i hv
    obtain ⟨o, ho, hbefore⟩ := h.earlier w hw i (by rw [hv]; exact Nat.succ_pos v)
    obtain ⟨w₀, hr₀, _, hf₀, _⟩ := hw.fired o ho
    have hprev : view (w₀.nodes o.node) = v := by
      rw [← hf₀.before_eq]
      exact Nat.succ_injective (hbefore.trans hv)
    -- the view before is view `0`, so this one is view `1`
    obtain rfl := ih w₀ hr₀ o.node hprev
    have hlive := ((h.led hw).1 i (by rw [hv]; exact Nat.succ_pos 0)).1
    rw [hv, Nat.mod_eq_of_lt (by omega)] at hlive
    exact absurd h1 hlive

/-- **No dead end, unless the first two leaders have crashed.** -/
theorem noDeadEnd_iff (h : Rotation S n I view accepts held quorum) (hn : 2 ≤ n) :
    NoDeadEnd S accepts I ↔ ¬ (0 ∈ I ∧ 1 ∈ I) := by
  constructor
  · rintro hno ⟨h0, h1⟩
    obtain ⟨w, hs, i, hi, hlive, hacc⟩ := hno S.start (.refl _)
    have hw : Crashed S I w := Crashed.continued (.refl _) hs
    have hzero := h.view_eq_zero hn h1 _ w hw.reach i rfl
    have hview := (h.accepts_iff w hw.reach i).mp hacc
    rw [hzero, Nat.zero_mod] at hview
    rw [← hview] at hlive
    exact hlive h0
  · intro hnot w hw
    by_cases hmoved : Moved n I view w
    · exact ⟨w, .refl w, h.accepts_of_moved hw.reach hmoved⟩
    · by_cases h0 : 0 ∈ I
      · obtain ⟨w', hs, hmoved'⟩ := h.exists_moved hn h0 (fun h1 => hnot ⟨h0, h1⟩) hw
        exact ⟨w', hs, h.accepts_of_moved (hw.continued hs).reach hmoved'⟩
      · -- node `0` leads view `0`, and is still in it
        have hview : view (w.nodes 0) = 0 :=
          view_eq_zero_of_not_moved hmoved (Nat.lt_of_lt_of_le Nat.zero_lt_two hn) h0
        refine ⟨w, .refl w, 0, ?_, h0, (h.accepts_iff w hw.reach 0).mpr ?_⟩
        · rw [h.members]
          exact Finset.mem_range.mpr (by omega)
        · rw [hview, Nat.zero_mod]

end Rotation

end ConsensusBench
