import ConsensusBench.Lib.AsyncNet
import Mathlib.Order.Defs.LinearOrder

namespace AsyncNet

/-!
# Single-assignment ledgers

The common core of view-based agreement protocols.  Every party is in a *view* and holds,
for some sequence numbers, a value it has *bound* to them in this view.  It may bind a value,
commit what it has bound (which closes the sequence), and move to a later view (which forgets
what is bound).  `Move` lists these steps; `Ledger.Kept` says that a system's parties take
no others.

* `Kept.commit_bound` — a committed value was bound by the same party in the same view.
* `Kept.commitCount_le` — a party commits a sequence at most as often as it binds it.
* `Kept.totalCount_le` — if moreover all its commits of a sequence belong to one view, it
  commits the sequence at most once.
* `Kept.commits_same_view` — if no sequence is assigned after it was committed, and none is
  committed in a view older than one it is assigned in, then all commits of a sequence
  belong to one view.
-/

variable {ι σ α μ V K P : Type} [DecidableEq ι] [LinearOrder V] [DecidableEq K]

/-- What a step does to the view and the bound values of the party that takes it, given
    what it binds (with the view it binds it in) and what it commits. -/
inductive Move (v v' : V) (b b' : K → Option P) : Option (V × K × P) → List (K × P) → Prop
  | idle (hv : v' = v) (hb : b' = b) : Move v v' b b' none []
  | enter (hv : v < v') (hb : b' = fun _ => none) : Move v v' b b' none []
  | bind (k : K) (p : P) (hv : v' = v) (hb : b' = Function.update b k (some p)) :
      Move v v' b b' (some (v', k, p)) []
  | enterBind (k : K) (p : P) (hv : v < v')
      (hb : b' = Function.update (fun _ => none) k (some p)) :
      Move v v' b b' (some (v', k, p)) []
  | commit (k : K) (p : P) (hv : v' = v) (hk : b k = some p)
      (hb : b' = Function.update b k none) : Move v v' b b' none [(k, p)]

omit [DecidableEq ι] in
/-- A step that binds and commits nothing, and changes nothing, is idle. -/
theorem Move.idle_of {v v' : V} {b b' : K → Option P} {bo : Option (V × K × P)}
    {co : List (K × P)} (hbo : bo = none) (hco : co = []) (hv : v' = v) (hb : b' = b) :
    Move v v' b b' bo co := by
  rw [hbo, hco]
  exact .idle hv hb

omit [DecidableEq ι] in
/-- A step that binds and commits nothing, and drops what is bound, enters a view. -/
theorem Move.enter_of {v v' : V} {b b' : K → Option P} {bo : Option (V × K × P)}
    {co : List (K × P)} (hbo : bo = none) (hco : co = []) (hv : v < v')
    (hb : b' = fun _ => none) : Move v v' b b' bo co := by
  rw [hbo, hco]
  exact .enter hv hb

omit [DecidableEq ι] in
/-- A move never goes back in views. -/
theorem Move.view_le {v v' : V} {b b' : K → Option P} {bo : Option (V × K × P)}
    {co : List (K × P)} (h : Move v v' b b' bo co) : v ≤ v' := by
  cases h with
  | idle hv => exact le_of_eq hv.symm
  | enter hv => exact le_of_lt hv
  | bind k p hv => exact le_of_eq hv.symm
  | enterBind k p hv => exact le_of_lt hv
  | commit k p hv => exact le_of_eq hv.symm

omit [DecidableEq ι] in
/-- A move that binds commits nothing. -/
theorem Move.commits_nil {v v' : V} {b b' : K → Option P} {bo : Option (V × K × P)}
    {co : List (K × P)} (h : Move v v' b b' bo co) (hb : bo ≠ none) : co = [] := by
  cases h with
  | commit => exact absurd rfl hb
  | _ => rfl

omit [DecidableEq ι] in
/-- A move commits at most one value. -/
theorem Move.length_commits_le {v v' : V} {b b' : K → Option P} {bo : Option (V × K × P)}
    {co : List (K × P)} (h : Move v v' b b' bo co) : co.length ≤ 1 := by
  cases h with
  | commit => exact le_refl 1
  | _ => exact Nat.zero_le 1

omit [DecidableEq ι] in
/-- What is bound behind a move was bound before it, or the move binds it. -/
theorem Move.bound_source {v v' : V} {b b' : K → Option P} {bo : Option (V × K × P)}
    {co : List (K × P)} (h : Move v v' b b' bo co) {k : K} {p : P} (hk : b' k = some p) :
    b k = some p ∨ bo = some (v', k, p) := by
  have hupdate : ∀ {b₀ : K → Option P} {k' : K} {p' : P},
      Function.update b₀ k' (some p') k = some p →
        b₀ k = some p ∨ some (v', k', p') = some (v', k, p) := by
    intro b₀ k' p' hup
    by_cases hkk : k = k'
    · subst hkk
      rw [Function.update_self] at hup
      exact .inr (by rw [Option.some.inj hup])
    · rw [Function.update_of_ne hkk] at hup
      exact .inl hup
  cases h with
  | idle hv hb => exact .inl (by rw [← hb]; exact hk)
  | enter hv hb =>
    rw [hb] at hk
    exact absurd hk (by simp)
  | bind k' p' hv hb =>
    rw [hb] at hk
    exact hupdate hk
  | enterBind k' p' hv hb =>
    rw [hb] at hk
    exact .inr ((hupdate hk).resolve_left (by simp))
  | commit k' p' hv hk' hb =>
    rw [hb] at hk
    by_cases hkk : k = k'
    · subst hkk
      rw [Function.update_self] at hk
      exact absurd hk (by simp)
    · rw [Function.update_of_ne hkk] at hk
      exact .inl hk

omit [DecidableEq ι] in
/-- What a move commits was bound before it. -/
theorem Move.commit_source {v v' : V} {b b' : K → Option P} {bo : Option (V × K × P)}
    {co : List (K × P)} (h : Move v v' b b' bo co) {e : K × P} (he : e ∈ co) :
    b e.1 = some e.2 := by
  cases h with
  | commit k p hv hk hb =>
    rw [List.mem_singleton.mp he]
    exact hk
  | _ => exact absurd he (by simp)

/-- How many values of `k` are bound and not yet committed in view `v₀`, by a party in view `v`
    with the bound values `b`. -/
def outstanding (v₀ : V) (k : K) (v : V) (b : K → Option P) : ℕ :=
  if v = v₀ ∧ (b k).isSome then 1 else 0

omit [DecidableEq ι] [DecidableEq K] in
theorem outstanding_le_one (v₀ : V) (k : K) (v : V) (b : K → Option P) :
    outstanding v₀ k v b ≤ 1 := by
  unfold outstanding
  split
  · exact le_refl 1
  · exact Nat.zero_le 1

omit [DecidableEq ι] [DecidableEq K] in
theorem outstanding_of_none {b : K → Option P} {k : K} (hb : b k = none) (v₀ v : V) :
    outstanding v₀ k v b = 0 := by
  rw [outstanding, hb]
  simp

omit [DecidableEq ι] [DecidableEq K] in
theorem outstanding_of_ne {v₀ v : V} (hv : v ≠ v₀) (k : K) (b : K → Option P) :
    outstanding v₀ k v b = 0 :=
  if_neg fun h => hv h.1

omit [DecidableEq ι] in
theorem outstanding_update_of_ne {k k' : K} (hk : k' ≠ k) (v₀ v : V) (b : K → Option P)
    (o : Option P) : outstanding v₀ k v (Function.update b k' o) = outstanding v₀ k v b := by
  rw [outstanding, outstanding, Function.update_of_ne (Ne.symm hk)]

omit [DecidableEq ι] in
/-- **What a move commits was outstanding**, and what it binds is outstanding behind it. -/
theorem Move.outstanding_le {v v' : V} {b b' : K → Option P} {bo : Option (V × K × P)}
    {co : List (K × P)} (h : Move v v' b b' bo co) (v₀ : V) (k : K) :
    (if v = v₀ then co.countP (fun e => e.1 = k) else 0) + outstanding v₀ k v' b' ≤
      outstanding v₀ k v b + if bo.any fun e => e.1 = v₀ ∧ e.2.1 = k then 1 else 0 := by
  have hone := outstanding_le_one v₀ k v' b'
  cases h with
  | idle hv hb =>
    rw [hv, hb]
    simp
  | enter hv hb =>
    rw [outstanding_of_none (congrFun hb k)]
    simp
  | bind k' p hv hb =>
    by_cases hk : k' = k
    · by_cases hv₀ : v' = v₀
      · -- it is counted as bound
        subst hv₀
        simp [hk]
        omega
      · rw [outstanding_of_ne hv₀]
        simp
    · rw [hb, outstanding_update_of_ne hk, hv]
      simp [hk]
  | enterBind k' p hv hb =>
    by_cases hk : k' = k
    · by_cases hv₀ : v' = v₀
      · subst hv₀
        simp [hk]
        omega
      · rw [outstanding_of_ne hv₀]
        simp
    · rw [hb, outstanding_update_of_ne hk, outstanding_of_none rfl]
      simp
  | commit k' p hv hk' hb =>
    by_cases hk : k' = k
    · subst hk
      rw [outstanding_of_none (by rw [hb, Function.update_self])]
      by_cases hv₀ : v = v₀
      · -- it was outstanding, and is counted as committed
        simp [hv₀, outstanding, hk']
      · simp [hv₀]
    · rw [hb, outstanding_update_of_ne hk, hv]
      simp [hk]

/-- How to read a ledger off the states and steps of a system. -/
structure Ledger (ι σ α μ V K P : Type) where
  view : σ → V
  bound : σ → K → Option P
  binds : Occurrence ι σ α μ → Option (V × K × P)
  commits : Occurrence ι σ α μ → List (K × P)

namespace Ledger

variable (L : Ledger ι σ α μ V K P) (S : System ι σ α μ)

/-- Nothing is bound at the start, and every step is a `Move`. -/
structure Kept (ok : System.Guard ι σ α μ) : Prop where
  init : ∀ i k, L.bound (S.init i) k = none
  move : ∀ w o, S.Reach ok w → S.Fires w o →
    Move (L.view o.before) (L.view o.after) (L.bound o.before) (L.bound o.after)
      (L.binds o) (L.commits o)

/-- How often party `i` committed `k` while in view `v`. -/
def commitCount (i : ι) (v : V) (k : K) (h : List (Occurrence ι σ α μ)) : ℕ :=
  ((h.filter fun o => o.node = i ∧ L.view o.before = v).flatMap L.commits).countP
    fun e => e.1 = k

/-- Whether step `o` of party `i` binds `k` in view `v`. -/
def bindsAt (i : ι) (v : V) (k : K) (o : Occurrence ι σ α μ) : Bool :=
  o.node = i ∧ (L.binds o).any fun e => e.1 = v ∧ e.2.1 = k

theorem commitCount_cons (i : ι) (v : V) (k : K) (o : Occurrence ι σ α μ)
    (h : List (Occurrence ι σ α μ)) :
    L.commitCount i v k (o :: h) = L.commitCount i v k h +
      if o.node = i ∧ L.view o.before = v then (L.commits o).countP (fun e => e.1 = k)
      else 0 := by
  unfold commitCount
  by_cases ho : o.node = i ∧ L.view o.before = v
  · rw [List.filter_cons_of_pos (by simpa using ho), List.flatMap_cons, List.countP_append,
      if_pos ho, Nat.add_comm]
  · rw [List.filter_cons_of_neg (by simpa using ho), if_neg ho, Nat.add_zero]

variable {L S} {ok : System.Guard ι σ α μ} {w : World ι σ α μ}

/-- A bound value was bound by a step of the party in its present view. -/
theorem Kept.bound_of_reach (h : L.Kept S ok) (hw : S.Reach ok w) :
    ∀ i k p, L.bound (w.nodes i) k = some p →
      ∃ o ∈ w.history, o.node = i ∧ L.binds o = some (L.view (w.nodes i), k, p) := by
  have hold : ∀ {i v k p} {o : Occurrence ι σ α μ} {hist : List (Occurrence ι σ α μ)},
      (∃ o ∈ hist, o.node = i ∧ L.binds o = some (v, k, p)) →
      ∃ o' ∈ o :: hist, o'.node = i ∧ L.binds o' = some (v, k, p) :=
    fun ⟨o', ho', heq⟩ => ⟨o', List.mem_cons_of_mem _ ho', heq⟩
  refine hw.induct_party (I := fun i s hist => ∀ k p, L.bound s k = some p →
    ∃ o ∈ hist, o.node = i ∧ L.binds o = some (L.view s, k, p)) ?_ ?_
    fun i s o hist _ ih k p hb => hold (ih k p hb)
  · intro i k p hb
    rw [h.init] at hb
    exact absurd hb (by simp)
  · intro w o hr ih _ hf k p hb
    -- what the party has bound now it binds in this step, or had bound before in the same view
    have hm := h.move w o hr hf
    generalize hbo : L.binds o = bo at hm
    generalize L.commits o = co at hm
    cases hm with
    | idle hv hb' => rw [hv]; rw [hb'] at hb; exact hold (ih k p hb)
    | enter hv hb' => rw [hb'] at hb; exact absurd hb (by simp)
    | bind k' p' hv hb' =>
      rw [hb', Function.update_apply] at hb
      split at hb
      · rename_i hk
        subst hk
        rw [Option.some.injEq] at hb
        subst hb
        exact ⟨o, List.mem_cons_self, rfl, hbo⟩
      · rw [hv]; exact hold (ih k p hb)
    | enterBind k' p' hv hb' =>
      rw [hb', Function.update_apply] at hb
      split at hb
      · rename_i hk
        subst hk
        rw [Option.some.injEq] at hb
        subst hb
        exact ⟨o, List.mem_cons_self, rfl, hbo⟩
      · exact absurd hb (by simp)
    | commit k' p' hv hk' hb' =>
      rw [hb', Function.update_apply] at hb
      split at hb
      · exact absurd hb (by simp)
      · rw [hv]; exact hold (ih k p hb)

/-- **A committed value was bound** by the same party in the same view. -/
theorem Kept.commit_bound (h : L.Kept S ok) (hw : S.Reach ok w) :
    ∀ o ∈ w.history, ∀ e ∈ L.commits o,
      ∃ o' ∈ w.history, o'.node = o.node ∧ L.binds o' = some (L.view o.before, e.1, e.2) := by
  intro o ho e he
  obtain ⟨w₀, hr₀, _, hf₀, hsuf⟩ := hw.fired o ho
  -- a step commits only what is bound before it
  have hm := h.move w₀ o hr₀ hf₀
  generalize L.binds o = bo at hm
  generalize L.commits o = co at hm he
  cases hm with
  | commit k p hv hk hb =>
    rw [List.mem_singleton] at he
    subst he
    rw [hf₀.before_eq] at hk ⊢
    obtain ⟨o', ho', heq⟩ := h.bound_of_reach hr₀ _ _ _ hk
    exact ⟨o', hsuf.subset (List.mem_cons_of_mem _ ho'), heq⟩
  | _ => exact absurd he (by simp)

/-- **A party commits a sequence at most as often as it binds it** in the same view. -/
theorem Kept.commitCount_le (h : L.Kept S ok) (hw : S.Reach ok w) (i : ι) (v : V) (k : K) :
    L.commitCount i v k w.history ≤ w.history.countP (L.bindsAt i v k) := by
  -- what is outstanding was bound, and is still to be committed
  suffices hinv : L.commitCount i v k w.history +
      outstanding v k (L.view (w.nodes i)) (L.bound (w.nodes i))
        ≤ w.history.countP (L.bindsAt i v k) by omega
  refine System.Reach.induct (N := fun nodes hist => L.commitCount i v k hist +
    outstanding v k (L.view (nodes i)) (L.bound (nodes i))
      ≤ hist.countP (L.bindsAt i v k)) ?_ ?_ hw
  · rw [outstanding_of_none (h.init i k)]
    exact Nat.le_refl 0
  · intro w o hr ih _ hf
    rw [commitCount_cons, List.countP_cons]
    by_cases hi : o.node = i
    · subst hi
      have hmove := (h.move w o hr hf).outstanding_le v k
      have hbind : L.bindsAt o.node v k o = (L.binds o).any fun e => e.1 = v ∧ e.2.1 = k := by
        simp [bindsAt]
      rw [Function.update_self, hbind]
      rw [hf.before_eq] at hmove ⊢
      simp only [true_and]
      omega
    · have hbind : L.bindsAt i v k o = false := by simp [bindsAt, hi]
      rw [Function.update_of_ne (Ne.symm hi), if_neg fun hc => hi hc.1, hbind]
      simpa using ih

/-- Every step was taken in a view no later than the present one of its party. -/
theorem Kept.view_le (h : L.Kept S ok) (hw : S.Reach ok w) :
    ∀ o ∈ w.history, L.view o.before ≤ L.view (w.nodes o.node) := by
  refine hw.since (R := fun o s => L.view o.before ≤ L.view s) ?_ ?_
  · intro w o hr hf
    exact (h.move w o hr hf).view_le
  · intro w o o' hr _ hle _ hf _
    exact le_trans hle (h.move w o' hr hf).view_le

/-- If no party is past a view now, no step was taken past it. -/
theorem Kept.view_le_of_now (h : L.Kept S ok) (hw : S.Reach ok w) {v : V}
    (hv : ∀ i ∈ S.members, L.view (w.nodes i) ≤ v) : ∀ o ∈ w.history, L.view o.before ≤ v := by
  intro o ho
  obtain ⟨_, _, _, hf, _⟩ := hw.fired o ho
  exact (h.view_le hw o ho).trans (hv o.node hf.node_mem)

/-! ### Commits across views -/

/-- How often party `i` committed `k`, in any view. -/
def totalCount (L : Ledger ι σ α μ V K P) (i : ι) (k : K) (h : List (Occurrence ι σ α μ)) : ℕ :=
  ((h.filter fun o => o.node = i).flatMap L.commits).countP fun e => e.1 = k

omit [LinearOrder V] in
theorem totalCount_cons (L : Ledger ι σ α μ V K P) (i : ι) (k : K) (o : Occurrence ι σ α μ)
    (h : List (Occurrence ι σ α μ)) :
    L.totalCount i k (o :: h) = L.totalCount i k h +
      if o.node = i then (L.commits o).countP (fun e => e.1 = k) else 0 := by
  unfold totalCount
  by_cases ho : o.node = i
  · rw [List.filter_cons_of_pos (by simpa using ho), List.flatMap_cons, List.countP_append,
      if_pos ho, Nat.add_comm]
  · rw [List.filter_cons_of_neg (by simpa using ho), if_neg ho, Nat.add_zero]

/-- If a party commits `k` in no view but `v`, its commits in `v` are all its commits. -/
theorem totalCount_eq_commitCount {i : ι} {k : K} {v : V} {h : List (Occurrence ι σ α μ)}
    (hv : ∀ o ∈ h, ∀ e ∈ L.commits o, e.1 = k → L.view o.before = v) :
    L.totalCount i k h = L.commitCount i v k h := by
  induction h with
  | nil => rfl
  | cons o h ih =>
    rw [totalCount_cons, commitCount_cons, ih fun o' ho' => hv o' (List.mem_cons_of_mem _ ho')]
    congr 1
    by_cases hview : L.view o.before = v
    · simp only [hview, and_true]
    · -- a step in another view does not commit `k`
      have hzero : (L.commits o).countP (fun e => e.1 = k) = 0 := by
        rw [List.countP_eq_zero]
        intro e he hk
        exact hview (hv o List.mem_cons_self e he (of_decide_eq_true hk))
      rw [hzero, ite_self, ite_self]

/-- **No party commits `k` twice**, if it binds `k` at most once in each view and all commits
    of `k` belong to one view. -/
theorem Kept.totalCount_le (h : L.Kept S ok) (hw : S.Reach ok w) {i : ι} {k : K}
    (hbind : ∀ v, w.history.countP (L.bindsAt i v k) ≤ 1)
    (hsame : ∀ o₁ ∈ w.history, ∀ o₂ ∈ w.history, ∀ e₁ ∈ L.commits o₁, ∀ e₂ ∈ L.commits o₂,
      e₁.1 = k → e₂.1 = k → L.view o₁.before = L.view o₂.before) :
    L.totalCount i k w.history ≤ 1 := by
  by_cases hnone : ∀ o ∈ w.history, ∀ e ∈ L.commits o, e.1 ≠ k
  · have hzero : L.totalCount i k w.history = 0 := by
      unfold totalCount
      rw [List.countP_eq_zero]
      intro e he hk
      obtain ⟨o, ho, heo⟩ := List.mem_flatMap.mp he
      exact hnone o (List.mem_filter.mp ho).1 e heo (of_decide_eq_true hk)
    omega
  · push Not at hnone
    obtain ⟨o, ho, e, he, hk⟩ := hnone
    rw [totalCount_eq_commitCount (v := L.view o.before)
      fun o' ho' e' he' hk' => hsame o' ho' o ho e' he' e he hk' hk]
    exact le_trans (h.commitCount_le hw i _ k) (hbind _)

/-- A step that takes a sequence number for a value in a view. -/
abbrev Assigns (ι σ α μ V K P : Type) := Occurrence ι σ α μ → Option (V × K × P)

/-- Step `o` binds nothing again after the history `hist`: it assigns no sequence that was
    committed, and commits none that was assigned in a later view. -/
def BindsOnce (L : Ledger ι σ α μ V K P) (assigns : Assigns ι σ α μ V K P)
    (hist : List (Occurrence ι σ α μ)) (o : Occurrence ι σ α μ) : Prop :=
  (∀ a ∈ assigns o, ∀ o' ∈ hist, ∀ e ∈ L.commits o', e.1 ≠ a.2.1) ∧
  ∀ e ∈ L.commits o, ∀ o' ∈ hist, ∀ a ∈ assigns o', a.2.1 = e.1 → a.1 ≤ L.view o.before

instance (L : Ledger ι σ α μ V K P) (assigns : Assigns ι σ α μ V K P)
    (hist : List (Occurrence ι σ α μ)) (o : Occurrence ι σ α μ) :
    Decidable (L.BindsOnce assigns hist o) := inferInstanceAs (Decidable (_ ∧ _))

/-- A committed sequence is assigned in no view later than that of the commit, if nothing is bound
    again. -/
theorem Kept.assigned_le (assigns : Assigns ι σ α μ V K P) (h : L.Kept S ok)
    (hbinds : ∀ o, assigns o ≠ none → L.binds o ≠ none) (hw : S.Reach ok w)
    (honce : System.Along (L.BindsOnce assigns) w.history) :
    ∀ o ∈ w.history, ∀ e ∈ L.commits o, ∀ o' ∈ w.history, ∀ a ∈ assigns o', a.2.1 = e.1 →
      a.1 ≤ L.view o.before := by
  suffices hsuffix : ∀ hist, hist <:+ w.history → ∀ o ∈ hist, ∀ e ∈ L.commits o, ∀ o' ∈ hist,
      ∀ a ∈ assigns o', a.2.1 = e.1 → a.1 ≤ L.view o.before from hsuffix _ List.suffix_rfl
  intro hist
  induction hist with
  | nil => exact fun _ o ho => absurd ho List.not_mem_nil
  | cons o₀ hist ih =>
    intro hsuf o ho e he o' ho' a ha hk
    obtain ⟨hfresh, hlate⟩ := honce.of_suffix hsuf
    rcases List.mem_cons.mp ho with rfl | hin <;> rcases List.mem_cons.mp ho' with rfl | hin'
    · -- a step that assigns commits nothing
      obtain ⟨w₀, hr, _, hf, _⟩ := hw.fired o' (hsuf.subset List.mem_cons_self)
      rw [(h.move w₀ o' hr hf).commits_nil (hbinds o' (by rw [ha]; simp))] at he
      exact absurd he List.not_mem_nil
    · exact hlate e he o' hin' a ha hk
    · exact absurd hk.symm (hfresh a ha o hin e he)
    · exact ih ((List.suffix_cons _ _).trans hsuf) o hin e he o' hin' a ha hk

/-- **All commits of a sequence belong to one view**, if committed values have been assigned and
    nothing is bound again. -/
theorem Kept.commits_same_view (assigns : Assigns ι σ α μ V K P) (h : L.Kept S ok)
    (hbinds : ∀ o, assigns o ≠ none → L.binds o ≠ none)
    (hassigned : ∀ o ∈ w.history, ∀ e ∈ L.commits o,
      ∃ o' ∈ w.history, assigns o' = some (L.view o.before, e.1, e.2))
    (hw : S.Reach ok w) (honce : System.Along (L.BindsOnce assigns) w.history)
    {o₁ o₂ : Occurrence ι σ α μ} (h₁ : o₁ ∈ w.history) (h₂ : o₂ ∈ w.history) {e₁ e₂ : K × P}
    (he₁ : e₁ ∈ L.commits o₁) (he₂ : e₂ ∈ L.commits o₂) (hk : e₁.1 = e₂.1) :
    L.view o₁.before = L.view o₂.before := by
  have hle := h.assigned_le assigns hbinds hw honce
  obtain ⟨a₁, ha₁, hs₁⟩ := hassigned o₁ h₁ e₁ he₁
  obtain ⟨a₂, ha₂, hs₂⟩ := hassigned o₂ h₂ e₂ he₂
  exact le_antisymm (hle o₂ h₂ e₂ he₂ a₁ ha₁ _ hs₁ hk) (hle o₁ h₁ e₁ he₁ a₂ ha₂ _ hs₂ hk.symm)

end Ledger

end AsyncNet
