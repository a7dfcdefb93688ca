import ConsensusBench.HotStuff.Crash
import ConsensusBench.Timed

namespace ConsensusBench

/-!
# HotStuff clusters that have nothing to do

A replica that times out asks the next leader for the next view, and its timer starts again.  The
next leader tells nobody when it enters the view, so all others stay in view `0` and go on asking.

* `suspects` — the live nodes that ask for view `1`.
* `Gathering` — the cluster while they ask.
* `turning` — one round.
-/

open AsyncNet HotStuffNode

namespace HotStuff

/-- The live nodes besides the leader of view `0`. -/
def suspects (n : ℕ) (I : Finset NodeId) : Finset NodeId := (Finset.range n \ I).erase 0

/-- They are enough to have node `1` enter view `1`. -/
def Enough (n : ℕ) (I : Finset NodeId) : Prop := 2 * ((n - 1) / 3) + 1 ≤ (suspects n I).card

instance (n : ℕ) (I : Finset NodeId) : Decidable (Enough n I) := inferInstanceAs (Decidable (_ ≤ _))

theorem mem_suspects {n : ℕ} {I : Finset NodeId} {i : NodeId} :
    i ∈ suspects n I ↔ i ≠ 0 ∧ i < n ∧ i ∉ I := by
  rw [suspects, Finset.mem_erase, Finset.mem_sdiff, Finset.mem_range]

/-- A node in view `0` that times out in `τ` ticks, unless it is the leader. -/
structure Idle (τ : ℕ) (i : NodeId) (s : HotStuffState) : Prop where
  view : s.view = 0
  timer : i ≠ 0 → s.viewChangeTimeout = τ

/-- Node `1` in view `0`, without a quorum. -/
structure Waiting (n : ℕ) (I : Finset NodeId) (s : HotStuffState) : Prop where
  heard : held s ⊆ suspects n I
  few : (held s).card < 2 * ((n - 1) / 3) + 1

section Ticks

variable {n τ : ℕ} {i : NodeId} {s : HotStuffState}

/-- The leader of a view does not tick. -/
theorem tick_leader (h : s.view % n = i) : (node n i).tick s = (s, []) := by
  have hleader : (node n i).leaderForView s.view = (node n i).id := h
  rw [tick, if_pos hleader]

/-- A tick before the timeout. -/
theorem Idle.tick_down (h : Idle (τ + 1) i s) : Idle τ i ((node n i).tick s).1 ∧
    held ((node n i).tick s).1 = held s ∧ ((node n i).tick s).2 = [] := by
  by_cases hi : i = 0
  · subst hi
    rw [tick_leader (by rw [h.view, Nat.zero_mod])]
    exact ⟨⟨h.view, fun hne => absurd rfl hne⟩, rfl, rfl⟩
  · have hleader : (node n i).leaderForView s.view ≠ (node n i).id := by
      rw [h.view]
      show 0 % n ≠ i
      rw [Nat.zero_mod]
      exact Ne.symm hi
    rw [HotStuff.tick_down hleader (by rw [h.timer hi]; exact Nat.succ_pos τ)]
    refine ⟨⟨h.view, fun _ => ?_⟩, rfl, rfl⟩
    show s.viewChangeTimeout - 1 = τ
    rw [h.timer hi, Nat.add_sub_cancel]

/-- The tick at the timeout. -/
theorem Idle.tick_ask (hn : 2 ≤ n) (h : Idle 0 i s) :
    Idle VIEW_CHANGE_TIMEOUT i ((node n i).tick s).1 ∧ (i = 0 ∧ ((node n i).tick s).2 = [] ∨
      i ≠ 0 ∧ held ((node n i).tick s).1 = insert i (held s) ∧
        ((node n i).tick s).2 = [request i s]) := by
  by_cases hi : i = 0
  · subst hi
    rw [tick_leader (by rw [h.view, Nat.zero_mod])]
    exact ⟨⟨h.view, fun hne => absurd rfl hne⟩, .inl ⟨rfl, rfl⟩⟩
  · rw [HotStuff.tick_ask hn hi h.view (h.timer hi)]
    exact ⟨⟨h.view, fun _ => rfl⟩, .inr ⟨hi, held_ask i s, rfl⟩⟩

end Ticks

/-! ### Rounds -/

/-- The live nodes after `t` rounds. -/
structure At (n : ℕ) (I : Finset NodeId) (t : ℕ) (nodes : NodeId → HotStuffState) : Prop where
  idle : ∀ i < n, i ∉ I → i ≠ 1 →
    Idle (VIEW_CHANGE_TIMEOUT - t % (VIEW_CHANGE_TIMEOUT + 1)) i (nodes i)
  next : 1 ∉ I → ((nodes 1).view = 1 ∧ VIEW_CHANGE_TIMEOUT + 1 ≤ t ∧ Enough n I) ∨
    (Idle (VIEW_CHANGE_TIMEOUT - t % (VIEW_CHANGE_TIMEOUT + 1)) 1 (nodes 1) ∧
      Waiting n I (nodes 1) ∧ (VIEW_CHANGE_TIMEOUT + 1 ≤ t → ¬ Enough n I))

/-- The view of a live node after `t` rounds. -/
def viewAt (n : ℕ) (I : Finset NodeId) (t : ℕ) (i : NodeId) : ViewNumber :=
  if i = 1 ∧ VIEW_CHANGE_TIMEOUT + 1 ≤ t ∧ Enough n I then 1 else 0

/-- The live node that leads after `t` rounds. -/
def leaderAt (n : ℕ) (I : Finset NodeId) (t : ℕ) : Option NodeId :=
  if 0 ∉ I then some 0 else if 1 ∉ I ∧ viewAt n I t 1 = 1 then some 1 else none

theorem leaderAt_eq_some {n t : ℕ} {I : Finset NodeId} {l : NodeId} :
    leaderAt n I t = some l ↔ l < 2 ∧ l ∉ I ∧ (∀ i < l, i ∈ I) ∧ viewAt n I t l = l := by
  have hzero : viewAt n I t 0 = 0 := if_neg fun h => absurd h.1 Nat.zero_ne_one
  unfold leaderAt
  split
  · rename_i h0
    refine ⟨fun h => ?_, fun ⟨_, _, hbefore, _⟩ => ?_⟩
    · obtain rfl := Option.some.inj h
      exact ⟨Nat.two_pos, h0, fun i hi => absurd hi (Nat.not_lt_zero i), hzero⟩
    · rcases Nat.eq_zero_or_pos l with rfl | hl
      · rfl
      · exact absurd (hbefore 0 hl) h0
  · rename_i h0
    rw [not_not] at h0
    have hone : ∀ {l : NodeId}, l < 2 → l ∉ I → l = 1 := fun hl hlI =>
      Nat.le_antisymm (Nat.lt_succ_iff.mp hl) (Nat.pos_of_ne_zero fun h => hlI (h ▸ h0))
    split
    · rename_i h1
      refine ⟨fun h => ?_, fun ⟨hl, hlI, _, _⟩ => by rw [hone hl hlI]⟩
      obtain rfl := Option.some.inj h
      refine ⟨Nat.one_lt_two, h1.1, fun i hi => ?_, h1.2⟩
      rw [Nat.lt_one_iff.mp hi]
      exact h0
    · rename_i h1
      refine ⟨(nomatch ·), fun ⟨hl, hlI, _, hv⟩ => ?_⟩
      obtain rfl := hone hl hlI
      exact absurd ⟨hlI, hv⟩ h1

/-- Nobody else leads. -/
theorem viewAt_mod_ne {n t : ℕ} {I : Finset NodeId} (h : leaderAt n I t = none)
    {i : NodeId} (hiI : i ∉ I) : viewAt n I t i % n ≠ i := by
  intro heq
  have hmoved : viewAt n I t i = i ∧ i < 2 := by
    by_cases hi : i = 1 ∧ VIEW_CHANGE_TIMEOUT + 1 ≤ t ∧ Enough n I
    · rw [viewAt, if_pos hi]
      exact ⟨hi.1.symm, hi.1 ▸ Nat.one_lt_two⟩
    · rw [viewAt, if_neg hi] at heq ⊢
      rw [Nat.zero_mod] at heq
      exact ⟨heq, heq ▸ Nat.two_pos⟩
  have hno : ¬ leaderAt n I t = some i := by
    rw [h]
    exact (nomatch ·)
  refine hno (leaderAt_eq_some.mpr ⟨hmoved.2, hiI, fun j hj => ?_, hmoved.1⟩)
  by_contra hjI
  have hj0 : j = 0 := Nat.lt_one_iff.mp (lt_of_lt_of_le hj (Nat.lt_succ_iff.mp hmoved.2))
  rw [leaderAt, if_pos (hj0 ▸ hjI)] at h
  exact nomatch h

theorem At.view {n t : ℕ} {I : Finset NodeId} {nodes : NodeId → HotStuffState}
    (h : At n I t nodes) {i : NodeId} (hi : i < n) (hiI : i ∉ I) :
    (nodes i).view = viewAt n I t i := by
  by_cases hi1 : i = 1
  · subst hi1
    rcases h.next hiI with ⟨hv, ht, henough⟩ | ⟨hidle, _, hnot⟩
    · rw [viewAt, if_pos ⟨rfl, ht, henough⟩, hv]
    · rw [viewAt, if_neg fun hmoved => hnot hmoved.2.1 hmoved.2.2, hidle.view]
  · rw [viewAt, if_neg fun hmoved => hi1 hmoved.1, (h.idle i hi hiI hi1).view]

/-- The live nodes while requests for view `1` are under way. -/
structure Gathering (n : ℕ) (I : Finset NodeId) (nodes : NodeId → HotStuffState)
    (q : List NetworkMessage) : Prop where
  idle : ∀ i < n, i ∉ I → i ≠ 1 → Idle VIEW_CHANGE_TIMEOUT i (nodes i)
  next : 1 ∉ I → ((nodes 1).view = 1 ∧ Enough n I) ∨
    (Idle VIEW_CHANGE_TIMEOUT 1 (nodes 1) ∧ held (nodes 1) ⊆ suspects n I ∧
      (∀ r ∈ suspects n I, r ∈ held (nodes 1) ∨ ∃ m ∈ q, m.sender = r) ∧
      ((held (nodes 1)).card < 2 * ((n - 1) / 3) + 1 ∨ ∃ m ∈ q, m.sender ∉ I))
  content : ∀ m ∈ q, m.sender ∉ I → m.sender ∈ suspects n I ∧ m.target = 1 ∧
    ∃ v p, m.payload = .hotStuff (.newView 1 v p m.sender)

/-- The nodes and the messages in round `t`. -/
def Turn (n : ℕ) (I : Finset NodeId) (t : ℕ) (nodes : NodeId → HotStuffState)
    (q : List NetworkMessage) : Prop :=
  (At n I (t + 1) nodes ∧ ∀ m ∈ q, m.sender ∈ I) ∨
  t % (VIEW_CHANGE_TIMEOUT + 1) = VIEW_CHANGE_TIMEOUT ∧ Gathering n I nodes q

section Rounds

variable [Sha256] {n t : ℕ} {faults : NetworkFaults} {I : Finset NodeId}
variable {nodes : NodeId → HotStuffState}

omit [Sha256] in
/-- Node `1` leads view `1`. -/
theorem tick_next (hn : 2 ≤ n) {s : HotStuffState} (hv : s.view = 1) :
    (node n 1).tick s = (s, []) := by
  refine tick_leader ?_
  rw [hv]
  exact Nat.mod_eq_of_lt hn

/-- The tick of a round before the timeout. -/
theorem At.tick_down (hn : 2 ≤ n) (h : At n I t nodes)
    (hlt : t % (VIEW_CHANGE_TIMEOUT + 1) < VIEW_CHANGE_TIMEOUT) :
    Turn n I t (fun i => if i < n then ((node n i).tick (nodes i)).1 else nodes i)
      ((List.range n).flatMap fun i => ((node n i).tick (nodes i)).2) := by
  obtain ⟨_, hmod⟩ := clock_tick (Nat.succ_lt_succ hlt)
  have hone : VIEW_CHANGE_TIMEOUT - t % (VIEW_CHANGE_TIMEOUT + 1) =
      VIEW_CHANGE_TIMEOUT - (t % (VIEW_CHANGE_TIMEOUT + 1) + 1) + 1 := by omega
  obtain ⟨hidle, hnext⟩ := h
  rw [hone] at hidle hnext
  refine .inl ⟨⟨fun i hi hiI hi1 => ?_, fun h1 => ?_⟩,
    Cluster.sender_of_silent (HotStuff.signs n) fun i hi hiI => ?_⟩
  · rw [hmod, if_pos hi]
    exact (hidle i hi hiI hi1).tick_down.1
  · rw [hmod, if_pos (show 1 < n from hn)]
    rcases hnext h1 with ⟨hv, ht, henough⟩ | ⟨hone, hwait, hnot⟩
    · rw [tick_next hn hv]
      exact .inl ⟨hv, Nat.le_succ_of_le ht, henough⟩
    · obtain ⟨hdown, hheld, _⟩ := hone.tick_down (n := n)
      refine .inr ⟨hdown, ⟨by rw [hheld]; exact hwait.heard, by rw [hheld]; exact hwait.few⟩,
        fun ht => hnot ?_⟩
      -- the first turn does not end here
      refine Nat.lt_succ_iff.mp (lt_of_le_of_ne ht fun heq => ?_)
      rw [Nat.succ.inj heq.symm, Nat.mod_eq_of_lt (Nat.lt_succ_self _)] at hlt
      exact absurd hlt (lt_irrefl _)
  · by_cases hi1 : i = 1
    · subst hi1
      rcases hnext hiI with ⟨hv, _⟩ | ⟨hone, _⟩
      · exact congrArg Prod.snd (tick_next hn hv)
      · exact hone.tick_down.2.2
    · exact (hidle i hi hiI hi1).tick_down.2.2

/-- The tick of a round at the timeout. -/
theorem At.tick_ask (hn : 2 ≤ n) (h : At n I t nodes)
    (hlast : t % (VIEW_CHANGE_TIMEOUT + 1) = VIEW_CHANGE_TIMEOUT) :
    Turn n I t (fun i => if i < n then ((node n i).tick (nodes i)).1 else nodes i)
      ((List.range n).flatMap fun i => ((node n i).tick (nodes i)).2) := by
  obtain ⟨hidle, hnext⟩ := h
  rw [hlast, Nat.sub_self] at hidle hnext
  -- whoever is in view `0`, and not its leader, asks
  have hasks : ∀ {i}, i < n → i ≠ 0 → Idle 0 i (nodes i) → ∃ m ∈ (List.range n).flatMap
      fun i => ((node n i).tick (nodes i)).2, m.sender = i := by
    intro i hi h0 hi'
    refine ⟨request i (nodes i), List.mem_flatMap.mpr ⟨i, List.mem_range.mpr hi, ?_⟩, rfl⟩
    rw [((hi'.tick_ask hn).2.resolve_left fun h => h0 h.1).2.2]
    exact List.mem_singleton_self _
  refine .inr ⟨hlast, fun i hi hiI hi1 => ?_, fun h1 => ?_, fun m hm hmI => ?_⟩
  · rw [if_pos hi]
    exact ((hidle i hi hiI hi1).tick_ask hn).1
  · rw [if_pos (show 1 < n from hn)]
    rcases hnext h1 with ⟨hv, _, henough⟩ | ⟨hone, hwait, _⟩
    · rw [tick_next hn hv]
      exact .inl ⟨hv, henough⟩
    · obtain ⟨hafter, hcase⟩ := hone.tick_ask hn
      obtain ⟨_, hheld, _⟩ := hcase.resolve_left fun h => Nat.one_ne_zero h.1
      have hself := hasks hn Nat.one_ne_zero hone
      refine .inr ⟨hafter, ?_, fun r hr => ?_, .inr ?_⟩
      · rw [hheld]
        exact Finset.insert_subset (mem_suspects.mpr ⟨Nat.one_ne_zero, hn, h1⟩) hwait.heard
      · obtain ⟨hr0, hrn, hrI⟩ := mem_suspects.mp hr
        by_cases hr1 : r = 1
        · rw [hheld, hr1]
          exact .inl (Finset.mem_insert_self _ _)
        · exact .inr (hasks hrn hr0 (hidle r hrn hrI hr1))
      · obtain ⟨m, hm, hs⟩ := hself
        exact ⟨m, hm, by rw [hs]; exact h1⟩
  · obtain ⟨i, hi, hmi⟩ := List.mem_flatMap.mp hm
    have hs : m.sender = i := (HotStuff.signs n i).tick _ m hmi
    replace hi := List.mem_range.mp hi
    have hiI : i ∉ I := hs ▸ hmI
    have hwhole : Idle 0 i (nodes i) := by
      by_cases hi1 : i = 1
      · subst hi1
        rcases hnext hiI with ⟨hv, _⟩ | ⟨hone, _⟩
        · rw [tick_next hn hv] at hmi
          exact absurd hmi List.not_mem_nil
        · exact hone
      · exact hidle i hi hiI hi1
    rcases (hwhole.tick_ask hn).2 with ⟨_, hnil⟩ | ⟨hi0, _, hout⟩
    · rw [hnil] at hmi
      exact absurd hmi List.not_mem_nil
    · rw [hout] at hmi
      obtain rfl := List.mem_singleton.mp hmi
      exact ⟨mem_suspects.mpr ⟨hi0, hi, hiI⟩, rfl, _, _, rfl⟩

omit [Sha256] in
/-- A request that reaches node `1` in view `0` is counted, and takes it to view `1` if it completes
    a quorum. -/
theorem handleNewView_cases (hn : 2 ≤ n) {s : HotStuffState} (hs : Idle VIEW_CHANGE_TIMEOUT 1 s)
    (r : NodeId) :
    ((node n 1).handleNewView s 1 r).2 = [] ∧
    (((node n 1).handleNewView s 1 r).1.view = 1 ∧
        2 * ((n - 1) / 3) + 1 ≤ (insert r (held s)).card ∨
      Idle VIEW_CHANGE_TIMEOUT 1 ((node n 1).handleNewView s 1 r).1 ∧
        held ((node n 1).handleNewView s 1 r).1 = insert r (held s) ∧
        (insert r (held s)).card < 2 * ((n - 1) / 3) + 1) := by
  have hlt : ¬ 1 ≤ s.view := by
    rw [hs.view]
    exact Nat.not_succ_le_zero 0
  have hleader : (node n 1).leaderForView 1 = (node n 1).id := Nat.mod_eq_of_lt hn
  rw [handleNewView, if_neg hlt]
  dsimp only
  by_cases hq : 2 * ((n - 1) / 3) + 1 ≤ (insert r (held s)).card
  · rw [if_pos ⟨hq, hleader⟩]
    exact ⟨rfl, .inl ⟨rfl, hq⟩⟩
  · rw [if_neg fun h => hq h.1]
    refine ⟨rfl, .inr ⟨⟨hs.view, fun h1 => hs.timer h1⟩, ?_, not_le.mp hq⟩⟩
    rw [held, AList.lookup_insert]
    rfl

/-- **A delivery of a round.** -/
theorem Turn.receive (hn : 2 ≤ n) (hhonest : ∀ i, faults.isByzantine i = false)
    {m : NetworkMessage} {q : List NetworkMessage}
    (h : Turn n faults.isolatedNodes t nodes (m :: q)) : ∃ nodes' out,
      Cluster.receive (code n) n faults nodes m = some (nodes', out) ∧
        Turn n faults.isolatedNodes t nodes' (q ++ out) := by
  rcases h with ⟨hat, hfrom⟩ | ⟨hlast, hidle, hnext, hcontent⟩
  · rcases NetworkFaults.carried_cases (hhonest m.sender) with ⟨_, hcarried⟩ | ⟨hsender, _⟩
    · refine ⟨nodes, [], Cluster.receive_of_lost hcarried nodes, .inl ⟨hat, fun m' hm' => ?_⟩⟩
      rw [List.append_nil] at hm'
      exact hfrom m' (List.mem_cons_of_mem _ hm')
    · exact absurd (hfrom m List.mem_cons_self) hsender
  · rcases NetworkFaults.carried_cases (hhonest m.sender) with
      ⟨hm, hcarried⟩ | ⟨hsender, htarget, hcarried⟩
    · refine ⟨nodes, [], Cluster.receive_of_lost hcarried nodes, .inr ⟨hlast, hidle, fun h1 => ?_,
        fun m' hm' => ?_⟩⟩
      · rw [List.append_nil]
        -- what is lost was not for node `1`
        have hkeep : ∀ m' ∈ m :: q, m'.sender ∉ faults.isolatedNodes → m' ∈ q := by
          intro m' hm' hs
          refine (List.mem_cons.mp hm').resolve_left ?_
          rintro rfl
          rcases hm with hm | hm
          · exact hs hm
          · rw [(hcontent m' hm' hs).2.1] at hm
            exact h1 hm
        refine (hnext h1).imp id fun ⟨hone, hheard, hall, hfew⟩ =>
          ⟨hone, hheard, fun r hr => ?_, ?_⟩
        · refine (hall r hr).imp id fun ⟨m', hm', hs⟩ => ⟨m', hkeep m' hm' ?_, hs⟩
          rw [hs]
          exact (mem_suspects.mp hr).2.2
        · exact hfew.imp id fun ⟨m', hm', hs⟩ => ⟨m', hkeep m' hm' hs, hs⟩
      · rw [List.append_nil] at hm'
        exact hcontent m' (List.mem_cons_of_mem _ hm')
    · obtain ⟨hsus, htone, v, p, hpl⟩ := hcontent m List.mem_cons_self hsender
      obtain ⟨src, dst, x⟩ := m
      dsimp only at hsus htone hpl hsender htarget
      subst htone hpl
      obtain ⟨s', hstep, hnext'⟩ : ∃ s', (node n 1).handleNewView (nodes 1) 1 src = (s', []) ∧
          ((s'.view = 1 ∧ Enough n faults.isolatedNodes) ∨ (Idle VIEW_CHANGE_TIMEOUT 1 s' ∧
            held s' ⊆ suspects n faults.isolatedNodes ∧
            (∀ r ∈ suspects n faults.isolatedNodes, r ∈ held s' ∨ ∃ m ∈ q, m.sender = r) ∧
            ((held s').card < 2 * ((n - 1) / 3) + 1 ∨
              ∃ m ∈ q, m.sender ∉ faults.isolatedNodes))) := by
        rcases hnext htarget with ⟨hv, henough⟩ | ⟨hone, hheard, hall, _⟩
        · refine ⟨nodes 1, ?_, .inl ⟨hv, henough⟩⟩
          rw [handleNewView, if_pos (show 1 ≤ (nodes 1).view from hv.ge)]
        · obtain ⟨hnil, hcase⟩ := handleNewView_cases hn hone src
          have hmore := Finset.insert_subset hsus hheard
          refine ⟨_, Prod.ext rfl hnil, ?_⟩
          rcases hcase with ⟨hv, hq⟩ | ⟨hidle', hheld, hcard⟩
          · exact .inl ⟨hv, hq.trans (Finset.card_le_card hmore)⟩
          · refine .inr ⟨hidle', by rw [hheld]; exact hmore, fun r hr => ?_,
              .inl (by rw [hheld]; exact hcard)⟩
            rw [hheld]
            rcases hall r hr with hr | ⟨m', hm', hs⟩
            · exact .inl (Finset.mem_insert_of_mem hr)
            · rcases List.mem_cons.mp hm' with rfl | hm'
              · exact .inl (hs ▸ Finset.mem_insert_self src _)
              · exact .inr ⟨m', hm', hs⟩
      refine ⟨Function.update nodes 1 s', [],
        Cluster.receive_of_handled hcarried (show 1 < n from hn) (congrArg some hstep),
        .inr ⟨hlast, fun i hi hiI hi1 => ?_, fun _ => ?_, fun m' hm' => ?_⟩⟩
      · rw [Function.update_of_ne hi1]
        exact hidle i hi hiI hi1
      · rw [Function.update_self, List.append_nil]
        exact hnext'
      · rw [List.append_nil] at hm'
        exact hcontent m' (List.mem_cons_of_mem _ hm')

/-- **One round** of a cluster that nobody proposes to. -/
theorem turning (hn : 2 ≤ n) (hhonest : ∀ i, faults.isByzantine i = false) :
    Cluster.Turning (code n) n faults (At n faults.isolatedNodes)
      (Turn n faults.isolatedNodes) := by
  refine ⟨fun t nodes hat => ?_, fun t nodes m q hturn => hturn.receive hn hhonest,
    fun t nodes hturn => ?_⟩
  · by_cases hlast : t % (VIEW_CHANGE_TIMEOUT + 1) = VIEW_CHANGE_TIMEOUT
    · exact hat.tick_ask hn hlast
    · have hle : t % (VIEW_CHANGE_TIMEOUT + 1) ≤ VIEW_CHANGE_TIMEOUT :=
        Nat.lt_succ_iff.mp (Nat.mod_lt t (Nat.succ_pos _))
      exact hat.tick_down hn (lt_of_le_of_ne hle hlast)
  · rcases hturn with ⟨hat, _⟩ | ⟨hlast, hidle, hnext, _⟩
    · exact hat
    · obtain ⟨_, hmod⟩ := clock_turn (congrArg (· + 1) hlast)
      have hturned : VIEW_CHANGE_TIMEOUT + 1 ≤ t + 1 := by
        rw [← hlast]
        exact Nat.succ_le_succ (Nat.mod_le _ _)
      refine ⟨fun i hi hiI hi1 => ?_, fun h1 => ?_⟩
      · rw [hmod]
        exact hidle i hi hiI hi1
      · rw [hmod]
        rcases hnext h1 with ⟨hv, henough⟩ | ⟨hone, hheard, hall, hfew⟩
        · exact .inl ⟨hv, hturned, henough⟩
        · -- all requests have been counted
          have hsub : suspects n faults.isolatedNodes ⊆ held (nodes 1) := fun r hr =>
            (hall r hr).resolve_right fun ⟨m, hm, _⟩ => absurd hm List.not_mem_nil
          have hcard := hfew.resolve_right fun ⟨m, hm, _⟩ => absurd hm List.not_mem_nil
          refine .inr ⟨hone, ⟨hheard, hcard⟩, fun _ henough => ?_⟩
          exact absurd (lt_of_le_of_lt (Finset.card_le_card hsub) hcard) (not_lt.mpr henough)

end Rounds

/-! ### The first round -/

section Start

@[simp] theorem commitPending_viewChangeTimeout (s : HotStuffState) (q : SequenceNumber) :
    (commitPending s q).viewChangeTimeout = s.viewChangeTimeout := by
  unfold commitPending
  split
  · rfl
  · rfl

@[simp] theorem seeQc_viewChangeTimeout (s : HotStuffState) (v : ViewNumber)
    (ph : HotStuffPhaseTag) : (seeQc s v ph).viewChangeTimeout = s.viewChangeTimeout := by
  unfold seeQc
  split
  · rfl
  · rfl

@[simp] theorem advanceSlot_viewChangeTimeout (s : HotStuffState) (q : SequenceNumber)
    (e e' : Phase) : (advanceSlot s q e e').viewChangeTimeout = s.viewChangeTimeout := by
  unfold advanceSlot
  split
  · rfl
  · split
    · rfl
    · rfl

variable [Sha256] {n : ℕ} {cfg : FaultConfig} {w : World NodeId HotStuffState Call NetworkMessage}

/-- Nobody but the clock counts a timer down. -/
theorem Effect.timer_inv {i : NodeId} {s s' : HotStuffState} {c : Cause Call NetworkMessage}
    {out : List NetworkMessage} (h : Effect (node n i) s c s' out) (hc : c ≠ .call .tick) :
    s'.viewChangeTimeout = s.viewChangeTimeout ∨ s'.viewChangeTimeout = VIEW_CHANGE_TIMEOUT := by
  cases h with
  | tickDown => exact absurd rfl hc
  | timeout => exact absurd rfl hc
  | accept => exact .inr rfl
  | certify m q d t r slot slot' vc =>
    unfold completeQc
    split
    · exact .inl (commitPending_viewChangeTimeout _ _)
    · exact .inl rfl
  | learn => exact .inl (seeQc_viewChangeTimeout _ _ _)
  | advance =>
    left
    rw [advanceSlot_viewChangeTimeout, seeQc_viewChangeTimeout]
  | decide =>
    left
    rw [commitPending_viewChangeTimeout]
    exact seeQc_viewChangeTimeout _ _ _
  | install => exact .inr rfl
  | _ => exact .inl rfl

/-- **Before the first tick** all nodes wait for their first timeout. -/
theorem idle_of_called (hw : (system n cfg).Reach System.anyStep w)
    (hcalled : ∀ o ∈ w.history, o.cause ≠ .call .tick) (i : NodeId) :
    Idle VIEW_CHANGE_TIMEOUT i (w.nodes i) ∧ held (w.nodes i) = ∅ := by
  have htimer : (w.nodes i).viewChangeTimeout = VIEW_CHANGE_TIMEOUT := by
    refine System.Reach.induct (N := fun nodes hist => (∀ o ∈ hist, o.cause ≠ .call .tick) →
      ∀ i, (nodes i).viewChangeTimeout = VIEW_CHANGE_TIMEOUT) (fun _ _ => rfl) ?_ hw hcalled i
    intro w o _ ih _ hf hno j
    have hold := ih fun o' ho' => hno o' (List.mem_cons_of_mem _ ho')
    by_cases hj : j = o.node
    · subst hj
      rw [Function.update_self]
      have hbefore := hold o.node
      rw [← hf.before_eq] at hbefore
      exact ((effect_of_fires hf).timer_inv (hno o List.mem_cons_self)).elim
        (fun h => h.trans hbefore) id
    · rw [Function.update_of_ne hj]
      exact hold j
  -- whoever asks for a view has seen a timeout
  have hjust := justified hw
  have hnever : ∀ {j v}, ¬ Requested n w.history j v := by
    rintro j v ⟨o, ho, _, htick, _⟩
    exact hcalled o ho htick
  refine ⟨⟨?_, fun _ => htimer⟩, ?_⟩
  · by_contra hne
    obtain ⟨V, hcard, hV⟩ := hjust.now i (Nat.pos_of_ne_zero hne)
    obtain ⟨j, hj⟩ := Finset.card_pos.mp (lt_of_lt_of_le (Nat.succ_pos _) hcard)
    exact hnever (hV j hj).2
  · unfold held
    cases hS : (w.nodes i).newViewMessages.lookup 1 with
    | none => rfl
    | some S =>
      rw [Option.getD_some]
      exact Finset.eq_empty_of_forall_notMem fun r hr => hnever (hjust.counted i 1 S hS r hr).2

end Start

end HotStuff

end ConsensusBench
