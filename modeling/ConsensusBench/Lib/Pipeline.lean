import Mathlib.Algebra.BigOperators.Group.Finset.Basic
import Mathlib.Data.List.Basic
import Mathlib.Logic.Function.Iterate
import Mathlib.Data.Nat.Basic

namespace Pipeline

/-!
# Identical rounds on one FIFO queue

A `Round` is a deterministic program on a queue of letters: take the first letter out, move,
append what the move sends.  A `Pipe` runs any number of copies of it, numbered `1, 2, …`, whose
letters share one queue: a round may start at any time, and behind those already started.

* `Waves`, `Duty` — two ways in which the queue of one round is orderly.
* `Pipe.Reach.clocked` — every copy is where the round alone would be after some number of
  deliveries, its clock, and at every cut of the shared queue an earlier copy has had no fewer
  letters in front of the cut than a later one.
* `Clocked.antitone` — so the clock of an earlier copy is never behind.
* `Pipe.Reach.always` — what holds of the round alone at all times holds of every copy.
* `Pipe.Reach.closed` — what a round never loses holds of an initial segment of the copies, and
  comes to hold of them one after the other (`Pipe.Reach.next`).
* `Round.Accounts`, `Pipe.Spent` — counting letters: if the state of a round alone says how many
  letters it has sent, the states of all copies say how many were delivered.
-/

variable {X Y : Type}

/-! ### One round -/

/-- A program on a queue of letters. -/
structure Round (X Y : Type) where
  idle : X
  start : X
  opening : List Y
  step : X → Y → X × List Y

/-- Where a round is: its state, and its letters in the queue. -/
structure Solo (X Y : Type) where
  state : X
  queue : List Y

namespace Round

variable (R : Round X Y)

/-- Deliver the first letter. -/
def next (c : Solo X Y) : Solo X Y :=
  match c.queue with
  | [] => c
  | y :: ys => ⟨(R.step c.state y).1, ys ++ (R.step c.state y).2⟩

/-- The round alone, after `t` deliveries. -/
def solo (t : ℕ) : Solo X Y := (next R)^[t] ⟨R.start, R.opening⟩

/-- How many letters the round has sent after `t` deliveries. -/
def sent (t : ℕ) : ℕ := t + (R.solo t).queue.length

variable {R}

/-- Nothing was delivered yet. -/
@[simp] theorem solo_zero : R.solo 0 = ⟨R.start, R.opening⟩ := rfl

/-- One delivery more. -/
theorem solo_succ (t : ℕ) : R.solo (t + 1) = R.next (R.solo t) :=
  Function.iterate_succ_apply' _ _ _

/-- **Invariant rule** of one round. -/
theorem solo_induct {I : Solo X Y → Prop} (h0 : I ⟨R.start, R.opening⟩)
    (hnext : ∀ x y ys, I ⟨x, y :: ys⟩ → I ⟨(R.step x y).1, ys ++ (R.step x y).2⟩) (t : ℕ) :
    I (R.solo t) := by
  induction t with
  | zero => exact h0
  | succ t ih =>
    rw [solo_succ, next]
    generalize R.solo t = c at ih ⊢
    obtain ⟨x, q⟩ := c
    cases q with
    | nil => exact ih
    | cons y ys => exact hnext x y ys ih

/-- What survives every delivery is never lost. -/
theorem solo_mono {D : X → Prop}
    (hD : ∀ t y ys, (R.solo t).queue = y :: ys → D (R.solo t).state →
      D (R.step (R.solo t).state y).1) {t t' : ℕ} (h : t ≤ t') (ht : D (R.solo t).state) :
    D (R.solo t').state := by
  induction t', h using Nat.le_induction with
  | base => exact ht
  | succ u _ ih =>
    rw [solo_succ, next]
    cases hq : (R.solo u).queue with
    | nil => exact ih
    | cons y ys => exact hD u y ys hq ih

/-- What was sent has been sent. -/
theorem sent_mono {t t' : ℕ} (h : t ≤ t') : R.sent t ≤ R.sent t' := by
  induction t', h using Nat.le_induction with
  | base => exact le_rfl
  | succ u _ ih =>
    apply le_trans ih
    rw [sent, sent, solo_succ, next]
    cases hq : (R.solo u).queue with
    | nil => rw [hq, List.length_nil]; omega
    | cons y ys => rw [List.length_append, List.length_cons]; omega

end Round

/-! ### Waves and duties -/

/-- The letters stand in the order of their rank, and no two ranks of one queue are further than
    one apart. -/
def Waves (rank : Y → ℕ) (q : List Y) : Prop :=
  q.Pairwise fun y y' => rank y ≤ rank y' ∧ rank y' ≤ rank y + 1

/-- Letters of one rank, and then letters of the next. -/
theorem waves_append {rank : Y → ℕ} {r : ℕ} {ys ys' : List Y} (h : ∀ y ∈ ys, rank y = r)
    (h' : ∀ y ∈ ys', rank y = r + 1) : Waves rank (ys ++ ys') := by
  refine List.pairwise_append.mpr ⟨?_, ?_, ?_⟩
  · refine List.pairwise_of_forall_mem_list fun a ha b hb => ?_
    rw [h a ha, h b hb]
    omega
  · refine List.pairwise_of_forall_mem_list fun a ha b hb => ?_
    rw [h' a ha, h' b hb]
    omega
  · intro a ha b hb
    rw [h a ha, h' b hb]
    omega

/-- Letters that are answered by letters of the next rank keep the waves apart. -/
theorem Waves.next {rank : Y → ℕ} {y : Y} {ys out : List Y} (h : Waves rank (y :: ys))
    (hout : ∀ y' ∈ out, rank y' = rank y + 1) : Waves rank (ys ++ out) := by
  obtain ⟨hfront, hrest⟩ := List.pairwise_cons.mp h
  refine List.pairwise_append.mpr ⟨hrest, ?_, ?_⟩
  · refine List.pairwise_of_forall_mem_list fun a ha b hb => ?_
    rw [hout a ha, hout b hb]
    omega
  · intro a ha b hb
    rw [hout b hb]
    have := hfront a ha
    omega

/-- Behind the front there is nothing of a lower rank. -/
theorem Waves.le_of_mem {rank : Y → ℕ} {y : Y} {ys : List Y} (h : Waves rank (y :: ys)) :
    ∀ y' ∈ y :: ys, rank y ≤ rank y' := by
  intro y' hy'
  rcases List.mem_cons.mp hy' with rfl | hy'
  · exact le_rfl
  · exact ((List.pairwise_cons.mp h).1 y' hy').1

/-- Every letter of interest that is due is in the queue, or it had its effect. -/
def Duty (wanted : Y → Prop) (Due Done : X → Y → Prop) (c : Solo X Y) : Prop :=
  ∀ y, wanted y → Due c.state y → y ∈ c.queue ∨ Done c.state y

variable {wanted : Y → Prop} {Due Done : X → Y → Prop}

/-- **A delivery keeps the duties**, if the letter has its effect and no effect is lost. -/
theorem Duty.next {x x' : X} {y : Y} {ys out : List Y} (h : Duty wanted Due Done ⟨x, y :: ys⟩)
    (hdone : wanted y → Done x' y) (hkeep : ∀ y', wanted y' → Done x y' → Done x' y')
    (hnew : ∀ y', wanted y' → Due x' y' → Due x y' ∨ y' ∈ out) :
    Duty wanted Due Done ⟨x', ys ++ out⟩ := by
  intro y' hw hdue
  rcases hnew y' hw hdue with hold | hmem
  · rcases h y' hw hold with hmem | hd
    · rcases List.mem_cons.mp hmem with rfl | hmem
      · exact .inr (hdone hw)
      · exact .inl (List.mem_append_left _ hmem)
    · exact .inr (hkeep y' hw hd)
  · exact .inl (List.mem_append_right _ hmem)

/-! ### Many rounds -/

/-- The rounds `1, …, opened` on one queue; the letters carry the number of their round. -/
structure Pipe (X Y : Type) where
  opened : ℕ
  rounds : ℕ → X
  queue : List (ℕ × Y)

namespace Pipe

/-- The letters of round `s` in the queue. -/
def traffic (P : Pipe X Y) (s : ℕ) : List Y :=
  P.queue.filterMap fun l => if l.1 = s then some l.2 else none

variable (R : Round X Y)

/-- No round was started. -/
def empty : Pipe X Y := ⟨0, fun _ => R.idle, []⟩

/-- Start the next round. -/
def launch (P : Pipe X Y) : Pipe X Y where
  opened := P.opened + 1
  rounds := Function.update P.rounds (P.opened + 1) R.start
  queue := P.queue ++ R.opening.map fun y => (P.opened + 1, y)

/-- What is left after the letter `(s, y)` in front of `q` was delivered. -/
def deliver (P : Pipe X Y) (s : ℕ) (y : Y) (q : List (ℕ × Y)) : Pipe X Y where
  opened := P.opened
  rounds := Function.update P.rounds s (R.step (P.rounds s) y).1
  queue := q ++ (R.step (P.rounds s) y).2.map fun y' => (s, y')

section Traffic

variable {P : Pipe X Y} {s : ℕ} {y : Y} {q : List (ℕ × Y)}

/-- Starting a round adds its opening letters to its own traffic. -/
theorem traffic_launch (P : Pipe X Y) (s : ℕ) : (P.launch R).traffic s =
    P.traffic s ++ if s = P.opened + 1 then R.opening else [] := by
  rw [traffic, launch, List.filterMap_append, List.filterMap_map]
  congr 1
  by_cases h : s = P.opened + 1
  · simp [h]
  · simp [h, Ne.symm h]

/-- The delivered letter is the first of its round. -/
theorem traffic_deliver_self (hq : P.queue = (s, y) :: q) : ∃ ys, P.traffic s = y :: ys ∧
    (P.deliver R s y q).traffic s = ys ++ (R.step (P.rounds s) y).2 := by
  refine ⟨q.filterMap fun l => if l.1 = s then some l.2 else none, ?_, ?_⟩
  · rw [traffic, hq]
    simp
  · rw [traffic, deliver, List.filterMap_append, List.filterMap_map]
    simp

/-- A delivery leaves the traffic of the other rounds. -/
theorem traffic_deliver_of_ne (hq : P.queue = (s, y) :: q) {a : ℕ} (ha : a ≠ s) :
    (P.deliver R s y q).traffic a = P.traffic a := by
  rw [traffic, traffic, deliver, hq, List.filterMap_append, List.filterMap_map]
  simp [ha.symm]

end Traffic

/-- The pipes that come about. -/
inductive Reach : Pipe X Y → Prop
  | empty : Reach (empty R)
  | launch {P : Pipe X Y} (h : Reach P) : Reach (P.launch R)
  | deliver {P : Pipe X Y} {s : ℕ} {y : Y} {q : List (ℕ × Y)} (h : Reach P)
      (hq : P.queue = (s, y) :: q) : Reach (P.deliver R s y q)

end Pipe

/-! ### Clocks -/

/-- How many letters of round `s` are among `q`. -/
def countOf (s : ℕ) (q : List (ℕ × Y)) : ℕ := q.countP fun l => l.1 = s

/-- The letters of a round in two queues. -/
@[simp] theorem countOf_append (s : ℕ) (q q' : List (ℕ × Y)) :
    countOf s (q ++ q') = countOf s q + countOf s q' :=
  List.countP_append

/-- The letters of a round with one more in front. -/
theorem countOf_cons (s : ℕ) (l : ℕ × Y) (q : List (ℕ × Y)) :
    countOf s (l :: q) = countOf s q + if l.1 = s then 1 else 0 := by
  rw [countOf, List.countP_cons]
  simp [countOf]

/-- The letters that a round sends are its own. -/
theorem countOf_map_self (s : ℕ) (ys : List Y) :
    countOf s (ys.map fun y => (s, y)) = ys.length := by
  rw [countOf, List.countP_map]
  simp [Function.comp_def]

/-- The letters that a round sends are no other round's. -/
theorem countOf_map_of_ne {s s' : ℕ} (h : s ≠ s') (ys : List Y) :
    countOf s' (ys.map fun y => (s, y)) = 0 := by
  rw [countOf, List.countP_map]
  simp [Function.comp_def, h]

/-- A prefix has no more letters. -/
theorem countOf_le_of_prefix {s : ℕ} {q q' : List (ℕ × Y)} (h : q <+: q') :
    countOf s q ≤ countOf s q' :=
  h.sublist.countP_le

/-- The traffic of a round counted. -/
theorem length_traffic (P : Pipe X Y) (s : ℕ) : (P.traffic s).length = countOf s P.queue := by
  rw [Pipe.traffic, countOf]
  generalize P.queue = q
  induction q with
  | nil => rfl
  | cons l q ih =>
    rw [List.countP_cons]
    by_cases h : l.1 = s
    · simp [h, ih]
    · simp [h, ih]

/-- Every round of `P` is where its clock says, and none is ahead of an earlier one. -/
structure Clocked (R : Round X Y) (P : Pipe X Y) (τ : ℕ → ℕ) : Prop where
  idle : ∀ s, s = 0 ∨ P.opened < s → P.rounds s = R.idle
  known : ∀ l ∈ P.queue, 1 ≤ l.1 ∧ l.1 ≤ P.opened
  solo : ∀ s, 1 ≤ s → s ≤ P.opened → R.solo (τ s) = ⟨P.rounds s, P.traffic s⟩
  ahead : ∀ s s', 1 ≤ s → s ≤ s' → s' ≤ P.opened → ∀ q, q <+: P.queue →
    τ s' + countOf s' q ≤ τ s + countOf s q

variable {R : Round X Y} {P : Pipe X Y} {τ : ℕ → ℕ}

/-- What round `s` has sent is what it took out of the queue, and what is still in it. -/
theorem Clocked.sent_eq (h : Clocked R P τ) {s : ℕ} (h1 : 1 ≤ s) (hs : s ≤ P.opened) :
    R.sent (τ s) = τ s + countOf s P.queue := by
  rw [Round.sent, h.solo s h1 hs, length_traffic]

/-- Only letters of rounds that were started are in the queue. -/
theorem Clocked.countOf_fresh (h : Clocked R P τ) {q : List (ℕ × Y)} (hq : q <+: P.queue) :
    countOf (P.opened + 1) q = 0 := by
  apply List.countP_eq_zero.mpr
  intro l hl hfresh
  have hle := (h.known l (hq.subset hl)).2
  rw [decide_eq_true_eq] at hfresh
  omega

/-- All clocks start at zero. -/
theorem clocked_empty : Clocked R (Pipe.empty R) fun _ => 0 where
  idle _ _ := rfl
  known l hl := absurd hl (by simp [Pipe.empty])
  solo s h1 hs := by
    have h0 : s ≤ 0 := hs
    omega
  ahead s s' h1 hle hs' := by
    have h0 : s' ≤ 0 := hs'
    omega

/-- A prefix of a queue with letters appended stops before or among the new letters. -/
private theorem prefix_append_cases {q q' o : List (ℕ × Y)} (h : q <+: q' ++ o) :
    q <+: q' ∨ ∃ o', o' <+: o ∧ q = q' ++ o' := by
  rcases List.prefix_or_prefix_of_prefix h (List.prefix_append q' o) with h' | ⟨o', rfl⟩
  · exact .inl h'
  · exact .inr ⟨o', (List.prefix_append_right_inj q').mp h, rfl⟩

/-- A new round has its clock at zero. -/
theorem Clocked.launch (h : Clocked R P τ) :
    Clocked R (P.launch R) (Function.update τ (P.opened + 1) 0) where
  idle s hs := by
    have hs : s = 0 ∨ P.opened + 1 < s := hs
    show Function.update P.rounds (P.opened + 1) R.start s = R.idle
    rw [Function.update_of_ne (by omega), h.idle s (by omega)]
  known l hl := by
    show 1 ≤ l.1 ∧ l.1 ≤ P.opened + 1
    rcases List.mem_append.mp hl with hl | hl
    · have hk := h.known l hl
      omega
    · obtain ⟨y, _, rfl⟩ := List.mem_map.mp hl
      exact ⟨Nat.le_add_left 1 _, Nat.le_refl _⟩
  solo s h1 hs := by
    have hs : s ≤ P.opened + 1 := hs
    rw [Pipe.traffic_launch]
    by_cases he : s = P.opened + 1
    -- the new round starts with its opening letters, and nobody has sent for it before
    · have hempty : P.traffic s = [] := by
        rw [← List.length_eq_zero_iff, length_traffic, he]
        exact h.countOf_fresh List.prefix_rfl
      rw [hempty, if_pos he, he, Function.update_self]
      simp [Pipe.launch]
    · rw [if_neg he, List.append_nil, Function.update_of_ne he, h.solo s h1 (by omega)]
      simp [Pipe.launch, Function.update_of_ne he]
  ahead s s' h1 hle hs' q hq := by
    have hs' : s' ≤ P.opened + 1 := hs'
    rcases Nat.eq_or_lt_of_le hle with rfl | hlt
    · exact le_rfl
    rw [Function.update_of_ne (show s ≠ P.opened + 1 by omega)]
    by_cases he : s' = P.opened + 1
    · subst he
      rw [Function.update_self, Nat.zero_add]
      rcases prefix_append_cases hq with hq | ⟨o, ho, rfl⟩
      · rw [h.countOf_fresh hq]
        exact Nat.zero_le _
      · -- whatever the new round has sent so far, the earlier one has sent as much
        have hnew : countOf (P.opened + 1) o ≤ R.sent 0 := by
          have hle := countOf_le_of_prefix (s := P.opened + 1) ho
          rw [countOf_map_self] at hle
          rw [Round.sent, Nat.zero_add]
          exact hle
        have hold := h.sent_eq h1 (by omega : s ≤ P.opened)
        have hmono : R.sent 0 ≤ R.sent (τ s) := Round.sent_mono (Nat.zero_le _)
        rw [countOf_append, countOf_append, h.countOf_fresh List.prefix_rfl]
        omega
    · rw [Function.update_of_ne he]
      rcases prefix_append_cases hq with hq | ⟨o, ho, rfl⟩
      · exact h.ahead s s' h1 hle (by omega) q hq
      · have hzero : ∀ a, a ≠ P.opened + 1 → countOf a o = 0 := by
          intro a ha
          have hle := countOf_le_of_prefix (s := a) ho
          rw [countOf_map_of_ne (Ne.symm ha)] at hle
          omega
        rw [countOf_append, countOf_append, hzero s (by omega), hzero s' he]
        exact h.ahead s s' h1 hle (by omega) _ List.prefix_rfl

section Deliver

variable {s : ℕ} {y : Y} {q : List (ℕ × Y)}

/-- After a delivery every round is where its clock says. -/
theorem Clocked.solo_deliver (h : Clocked R P τ) (hq : P.queue = (s, y) :: q) (a : ℕ) (h1 : 1 ≤ a)
    (ha : a ≤ P.opened) : R.solo (Function.update τ s (τ s + 1) a) =
      ⟨(P.deliver R s y q).rounds a, (P.deliver R s y q).traffic a⟩ := by
  by_cases he : a = s
  · subst he
    obtain ⟨ys, hfront, hrest⟩ := Pipe.traffic_deliver_self R hq
    rw [Function.update_self, Round.solo_succ, h.solo a h1 ha, hfront, hrest]
    simp [Round.next, Pipe.deliver]
  · rw [Function.update_of_ne he, Pipe.traffic_deliver_of_ne R hq he, h.solo a h1 ha]
    simp [Pipe.deliver, Function.update_of_ne he]

/-- A cut of the rest of the queue is a cut of the queue, one letter less. -/
theorem update_add_countOf (τ : ℕ → ℕ) (s : ℕ) (y : Y) (a : ℕ) (p : List (ℕ × Y)) :
    Function.update τ s (τ s + 1) a + countOf a p = τ a + countOf a ((s, y) :: p) := by
  rw [countOf_cons]
  by_cases he : a = s
  · subst he
    rw [Function.update_self, if_pos rfl]
    omega
  · rw [Function.update_of_ne he, if_neg (Ne.symm he), Nat.add_zero]

/-- An earlier round has gone as far as the one that moves, so it has sent as much. -/
theorem Clocked.sent_deliver (h : Clocked R P τ) (hq : P.queue = (s, y) :: q) {a : ℕ}
    (h1 : 1 ≤ a) (hlt : a < s) (hs : s ≤ P.opened) :
    τ s + 1 + (countOf s q + (R.step (P.rounds s) y).2.length) ≤ τ a + countOf a q := by
  have hle := Nat.le_of_lt hlt
  have hne := Nat.ne_of_lt hlt
  have hlead : τ s + 1 ≤ τ a := by
    have hcut := h.ahead a s h1 hle hs [(s, y)] (by rw [hq]; simp)
    rw [← update_add_countOf, ← update_add_countOf, Function.update_self,
      Function.update_of_ne hne] at hcut
    simpa [countOf] using hcut
  have hsent : R.sent (τ a) = τ a + countOf a q := by
    rw [h.sent_eq h1 (Nat.le_trans hle hs), hq, countOf_cons, if_neg (Ne.symm hne),
      Nat.add_zero]
  have hmoved : R.sent (τ s + 1) =
      τ s + 1 + (countOf s q + (R.step (P.rounds s) y).2.length) := by
    have hsolo := h.solo_deliver hq s (Nat.le_trans h1 hle) hs
    rw [Function.update_self] at hsolo
    rw [Round.sent, hsolo, length_traffic, Pipe.deliver, countOf_append, countOf_map_self]
  rw [← hmoved, ← hsent]
  exact Round.sent_mono hlead

/-- A delivery puts no round ahead of an earlier one. -/
theorem Clocked.ahead_deliver (h : Clocked R P τ) (hq : P.queue = (s, y) :: q) {a b : ℕ}
    (h1 : 1 ≤ a) (hlt : a < b) (hb : b ≤ P.opened) {q' : List (ℕ × Y)}
    (hq' : q' <+: (P.deliver R s y q).queue) :
    Function.update τ s (τ s + 1) b + countOf b q' ≤
      Function.update τ s (τ s + 1) a + countOf a q' := by
  have hle := Nat.le_of_lt hlt
  rcases prefix_append_cases hq' with hq' | ⟨o, ho, rfl⟩
  · rw [update_add_countOf τ s y, update_add_countOf τ s y]
    exact h.ahead a b h1 hle hb _ (by rw [hq]; exact (List.prefix_cons_inj _).mpr hq')
  · rw [countOf_append, countOf_append]
    by_cases he : b = s
    · subst he
      have hsent := h.sent_deliver hq h1 hlt hb
      have hcut := countOf_le_of_prefix (s := b) ho
      rw [countOf_map_self] at hcut
      rw [Function.update_self, Function.update_of_ne (Nat.ne_of_lt hlt)]
      omega
    · -- the new letters are not of round `b`
      have hzero := countOf_le_of_prefix (s := b) ho
      rw [countOf_map_of_ne (Ne.symm he)] at hzero
      have hfull := h.ahead a b h1 hle hb P.queue List.prefix_rfl
      rw [hq, ← update_add_countOf, ← update_add_countOf] at hfull
      omega

/-- **A delivery moves one clock.** -/
theorem Clocked.deliver (h : Clocked R P τ) (hq : P.queue = (s, y) :: q) :
    Clocked R (P.deliver R s y q) (Function.update τ s (τ s + 1)) := by
  have hs : 1 ≤ s ∧ s ≤ P.opened := h.known (s, y) (by rw [hq]; exact List.mem_cons_self)
  refine ⟨fun a ha => ?_, fun l hl => ?_, h.solo_deliver hq, fun a b h1 hle hb q' hq' => ?_⟩
  · have ha : a = 0 ∨ P.opened < a := ha
    show Function.update P.rounds s _ a = R.idle
    rw [Function.update_of_ne (by omega), h.idle a ha]
  · show 1 ≤ l.1 ∧ l.1 ≤ P.opened
    rcases List.mem_append.mp hl with hl | hl
    · exact h.known l (by rw [hq]; exact List.mem_cons_of_mem _ hl)
    · obtain ⟨y', _, rfl⟩ := List.mem_map.mp hl
      exact hs
  · rcases Nat.eq_or_lt_of_le hle with rfl | hlt
    · exact le_rfl
    · exact h.ahead_deliver hq h1 hlt hb hq'

end Deliver

/-- **Every pipe is clocked.** -/
theorem Pipe.Reach.clocked (h : Pipe.Reach R P) : ∃ τ, Clocked R P τ := by
  induction h with
  | empty => exact ⟨_, clocked_empty⟩
  | launch _ ih =>
    obtain ⟨τ, hτ⟩ := ih
    exact ⟨_, hτ.launch⟩
  | deliver _ hq ih =>
    obtain ⟨τ, hτ⟩ := ih
    exact ⟨_, hτ.deliver hq⟩

/-- An earlier round is never behind a later one. -/
theorem Clocked.antitone (h : Clocked R P τ) {s s' : ℕ} (h1 : 1 ≤ s) (hle : s ≤ s')
    (hs' : s' ≤ P.opened) : τ s' ≤ τ s :=
  h.ahead s s' h1 hle hs' [] List.nil_prefix

/-! ### What rounds have in common -/

namespace Pipe.Reach

/-- What holds of the round alone at all times, holds of every round of a pipe. -/
theorem always {I : Solo X Y → Prop} (hI : ∀ t, I (R.solo t)) (h : Pipe.Reach R P) {s : ℕ}
    (h1 : 1 ≤ s) (hs : s ≤ P.opened) : I ⟨P.rounds s, P.traffic s⟩ := by
  obtain ⟨τ, hτ⟩ := h.clocked
  rw [← hτ.solo s h1 hs]
  exact hI (τ s)

/-- Rounds that were not started are idle. -/
theorem idle (h : Pipe.Reach R P) {s : ℕ} (hs : s = 0 ∨ P.opened < s) : P.rounds s = R.idle := by
  obtain ⟨τ, hτ⟩ := h.clocked
  exact hτ.idle s hs

/-- Letters are of rounds that were started. -/
theorem known (h : Pipe.Reach R P) {l : ℕ × Y} (hl : l ∈ P.queue) : 1 ≤ l.1 ∧ l.1 ≤ P.opened := by
  obtain ⟨τ, hτ⟩ := h.clocked
  exact hτ.known l hl

variable {D : X → Prop}

/-- What a round never loses holds of the earlier rounds if it holds of a later one. -/
theorem closed (hD : ∀ t t', t ≤ t' → D (R.solo t).state → D (R.solo t').state)
    (h : Pipe.Reach R P) {s s' : ℕ} (h1 : 1 ≤ s) (hle : s ≤ s') (hs' : s' ≤ P.opened)
    (hd : D (P.rounds s')) : D (P.rounds s) := by
  obtain ⟨τ, hτ⟩ := h.clocked
  have hlater := hτ.solo s' (by omega) hs'
  have hearlier := hτ.solo s h1 (by omega)
  have hstate : D (R.solo (τ s')).state := by rw [hlater]; exact hd
  have hmoved := hD _ _ (hτ.antitone h1 hle hs') hstate
  rwa [hearlier] at hmoved

/-- **Rounds finish in order.**  If exactly the first `m` rounds satisfy what a round never loses,
    a round that comes to satisfy it is the next one. -/
theorem next (hD : ∀ t t', t ≤ t' → D (R.solo t).state → D (R.solo t').state)
    (h : Pipe.Reach R P) {s : ℕ} {y : Y} {q : List (ℕ × Y)} (hq : P.queue = (s, y) :: q) {m : ℕ}
    (hm : ∀ a, 1 ≤ a → a ≤ P.opened → (D (P.rounds a) ↔ a ≤ m)) (hnot : ¬ D (P.rounds s))
    (hd : D (R.step (P.rounds s) y).1) : s = m + 1 := by
  obtain ⟨h1, hs⟩ := h.known (l := (s, y)) (by rw [hq]; exact List.mem_cons_self)
  have hlt : m < s := Nat.lt_of_not_le fun hle => hnot ((hm s h1 hs).mpr hle)
  by_contra hne
  have hlt' : m + 1 < s := by omega
  have hmoved : D (Function.update P.rounds s (R.step (P.rounds s) y).1 s) := by
    rwa [Function.update_self]
  have hafter := (h.deliver hq).closed hD (Nat.le_add_left 1 m) (Nat.le_of_lt hlt') hs hmoved
  have hbefore : D (P.rounds (m + 1)) := by
    have hother : D (Function.update P.rounds s (R.step (P.rounds s) y).1 (m + 1)) := hafter
    rwa [Function.update_of_ne (by omega)] at hother
  have hle := (hm (m + 1) (by omega) (by omega)).mp hbefore
  omega

end Pipe.Reach

/-! ### Counting letters -/

/-- The state of a round says how many letters it has sent. -/
structure Round.Accounts (R : Round X Y) (Φ : X → ℕ) : Prop where
  opening : Φ R.start = R.opening.length
  step : ∀ t y ys, (R.solo t).queue = y :: ys →
    Φ (R.step (R.solo t).state y).1 = Φ (R.solo t).state + (R.step (R.solo t).state y).2.length

/-- The sum over all rounds that were started. -/
def Pipe.weight (Φ : X → ℕ) (P : Pipe X Y) : ℕ := ∑ s ∈ Finset.range P.opened, Φ (P.rounds (s + 1))

/-- Of all letters that were sent, `k` are not in the queue any more. -/
def Pipe.Spent (Φ : X → ℕ) (P : Pipe X Y) (k : ℕ) : Prop := P.weight Φ = k + P.queue.length

namespace Pipe.Spent

variable {Φ : X → ℕ} {k : ℕ}

/-- No letter was sent before the first round. -/
theorem empty (R : Round X Y) (Φ : X → ℕ) : (Pipe.empty R).Spent Φ 0 := rfl

/-- Starting a round sends its opening letters. -/
theorem launch (hΦ : R.Accounts Φ) (h : P.Spent Φ k) : (P.launch R).Spent Φ k := by
  have hold : ∀ s ∈ Finset.range P.opened, Φ ((P.launch R).rounds (s + 1)) =
      Φ (P.rounds (s + 1)) := by
    intro s hs
    have hne : s + 1 ≠ P.opened + 1 := Nat.ne_of_lt (Nat.succ_lt_succ (Finset.mem_range.mp hs))
    exact congrArg Φ (Function.update_of_ne hne _ _)
  have hnew : Φ ((P.launch R).rounds (P.opened + 1)) = R.opening.length := by
    show Φ (Function.update P.rounds (P.opened + 1) R.start (P.opened + 1)) = _
    rw [Function.update_self, hΦ.opening]
  show ∑ s ∈ Finset.range (P.opened + 1), Φ ((P.launch R).rounds (s + 1)) =
    k + (P.queue ++ R.opening.map fun y => (P.opened + 1, y)).length
  rw [Finset.sum_range_succ, Finset.sum_congr rfl hold, hnew, List.length_append, List.length_map]
  have hsum : ∑ s ∈ Finset.range P.opened, Φ (P.rounds (s + 1)) = k + P.queue.length := h
  omega

/-- A delivery takes a letter out, and the round sends what it then accounts for. -/
theorem deliver (hΦ : R.Accounts Φ) (hr : P.Reach R) {s : ℕ} {y : Y} {q : List (ℕ × Y)}
    (hq : P.queue = (s, y) :: q) (h : P.Spent Φ k) : (P.deliver R s y q).Spent Φ (k + 1) := by
  obtain ⟨h1, hs⟩ := hr.known (l := (s, y)) (by rw [hq]; exact List.mem_cons_self)
  -- in the round alone `y` would be the next letter, too
  have hstep : Φ (R.step (P.rounds s) y).1 =
      Φ (P.rounds s) + (R.step (P.rounds s) y).2.length := by
    obtain ⟨ys, hfront, _⟩ := Pipe.traffic_deliver_self R hq
    exact hr.always (I := fun c => ∀ y ys, c.queue = y :: ys →
      Φ (R.step c.state y).1 = Φ c.state + (R.step c.state y).2.length) hΦ.step h1 hs y ys hfront
  have hmem : s - 1 ∈ Finset.range P.opened := Finset.mem_range.mpr (by omega)
  have hpred : s - 1 + 1 = s := Nat.sub_add_cancel h1
  have hothers : ∀ a ∈ (Finset.range P.opened).erase (s - 1),
      Φ ((P.deliver R s y q).rounds (a + 1)) = Φ (P.rounds (a + 1)) := by
    intro a ha
    have hne : a + 1 ≠ s := by
      have hne := (Finset.mem_erase.mp ha).1
      omega
    exact congrArg Φ (Function.update_of_ne hne _ _)
  have hself : Φ ((P.deliver R s y q).rounds s) = Φ (R.step (P.rounds s) y).1 :=
    congrArg Φ (Function.update_self s _ _)
  have hsum : ∑ a ∈ Finset.range P.opened, Φ (P.rounds (a + 1)) = k + P.queue.length := h
  rw [← Finset.add_sum_erase _ _ hmem, hpred, hq, List.length_cons] at hsum
  show ∑ a ∈ Finset.range P.opened, Φ ((P.deliver R s y q).rounds (a + 1)) =
    k + 1 + (q ++ (R.step (P.rounds s) y).2.map fun y' => (s, y')).length
  rw [← Finset.add_sum_erase _ _ hmem, Finset.sum_congr rfl hothers, hpred, hself, hstep,
    List.length_append, List.length_map]
  omega

/-- **When nothing is left** every round has sent what the round alone sends. -/
theorem drained {N : ℕ} (hN : ∀ t, (R.solo t).queue = [] → Φ (R.solo t).state = N)
    (hr : P.Reach R) (hq : P.queue = []) (h : P.Spent Φ k) : k = P.opened * N := by
  have hall : ∀ s ∈ Finset.range P.opened, Φ (P.rounds (s + 1)) = N := by
    intro s hs
    refine hr.always (I := fun c => c.queue = [] → Φ c.state = N) hN (Nat.le_add_left 1 s)
      (Finset.mem_range.mp hs) ?_
    show P.traffic (s + 1) = []
    rw [Pipe.traffic, hq, List.filterMap_nil]
  have hsum : ∑ s ∈ Finset.range P.opened, Φ (P.rounds (s + 1)) = k + P.queue.length := h
  rw [Finset.sum_const_nat hall, Finset.card_range, hq, List.length_nil] at hsum
  exact hsum.symm

end Pipe.Spent

end Pipeline
