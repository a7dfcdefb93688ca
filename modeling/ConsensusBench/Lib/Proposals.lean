import ConsensusBench.Lib.Ledger

namespace AsyncNet

/-!
# Numbered proposals of a leader per view

The part of a view-based protocol that decides what is bound to a sequence.  Each view has a
leader.  It *assigns* sequences to values, counting up, and sends each assignment out as a
proposal, at most one copy to a party; the other parties bind what they *accept* from a
proposal.  `Proposals.Led` collects what a protocol has to show about single steps.

* `Led.assigned_unique` — at most one value is assigned to a sequence in a view.
* `Led.accept_source` — an accepted proposal was sent by the leader when it assigned it.
* `Led.bind_assigned` — what is bound was assigned, if the medium does not change the
  values of the leader's proposals.
* `Led.bindCount_le` — a party binds a sequence at most once in a view.
* `Led.agree_across_views` — agreement and integrity in the runs in which nothing is bound again;
  `Led.bindsOnce_of_view` finds such runs within a view.
-/

variable {ι σ α μ V K P : Type} [DecidableEq ι] [LinearOrder V] [LinearOrder K]

/-- How to read proposals off the states, steps and messages of a system. -/
structure Proposals (ι σ α μ V K P : Type) where
  leader : V → ι
  next : σ → K
  assigns : Occurrence ι σ α μ → Option (V × K × P)
  accepts : Occurrence ι σ α μ → Option (V × K × P)
  proposal : μ → Option (V × K × P)

namespace Proposals

variable (D : Proposals ι σ α μ V K P) (L : Ledger ι σ α μ V K P) (S : System ι σ α μ)

/-- Whether step `o` assigns `k` in view `v`. -/
def assignsAt (v : V) (k : K) (o : Occurrence ι σ α μ) : Bool :=
  (D.assigns o).any fun e => e.1 = v ∧ e.2.1 = k

/-- Whether `m` proposes something for `(v, k)` to party `j`. -/
def proposesTo (j : ι) (v : V) (k : K) (m : μ) : Bool :=
  S.dst m = j ∧ (D.proposal m).any fun e => e.1 = v ∧ e.2.1 = k

/-- The leader of each view numbers its proposals, sends each at most once to a party, and
    the parties bind nothing else. -/
structure Led (ok : System.Guard ι σ α μ) : Prop where
  binds : ∀ o, L.binds o = (D.assigns o).or (D.accepts o)
  next_mono : ∀ w o, S.Reach ok w → S.Fires w o → L.view o.after = L.view o.before →
    D.next o.before ≤ D.next o.after
  assign : ∀ w o v k p, S.Reach ok w → S.Fires w o → D.assigns o = some (v, k, p) →
    o.node = D.leader v ∧ v = L.view o.before ∧ L.view o.after = L.view o.before ∧
      k = D.next o.before ∧ D.next o.before < D.next o.after
  accept : ∀ o v k p, D.accepts o = some (v, k, p) →
    ∃ m, o.cause = .recv m ∧ D.proposal m = some (v, k, p)
  sent : ∀ w o, S.Reach ok w → S.Fires w o → ∀ m ∈ o.sent, ∀ v k p,
    D.proposal m = some (v, k, p) → D.assigns o = some (v, k, p) ∧ S.dst m ≠ o.node
  sent_once : ∀ w o, S.Reach ok w → S.Fires w o → ∀ j v k,
    o.sent.countP (D.proposesTo S j v k) ≤ 1
  carry : ∀ m m', m' ∈ S.carry m → S.dst m' = S.dst m ∧ ∀ v k p',
    D.proposal m' = some (v, k, p') → ∃ p, D.proposal m = some (v, k, p)

variable {D L S} {ok : System.Guard ι σ α μ} {w : World ι σ α μ}

omit [DecidableEq ι] in
theorem assignsAt_iff {v : V} {k : K} {o : Occurrence ι σ α μ} :
    D.assignsAt v k o = true ↔ ∃ p, D.assigns o = some (v, k, p) := by
  simp only [assignsAt, Option.any_eq_true, Prod.exists, decide_eq_true_eq]
  constructor
  · rintro ⟨v, k, p, h, rfl, rfl⟩; exact ⟨p, h⟩
  · rintro ⟨p, h⟩; exact ⟨v, k, p, h, rfl, rfl⟩

theorem proposesTo_iff {j : ι} {v : V} {k : K} {m : μ} :
    D.proposesTo S j v k m = true ↔ S.dst m = j ∧ ∃ p, D.proposal m = some (v, k, p) := by
  simp only [proposesTo, Option.any_eq_true, Prod.exists, decide_eq_true_eq]
  constructor
  · rintro ⟨hd, v, k, p, h, rfl, rfl⟩; exact ⟨hd, p, h⟩
  · rintro ⟨hd, p, h⟩; exact ⟨hd, v, k, p, h, rfl, rfl⟩

/-! ### One value per view and sequence -/

/-- What was assigned lies behind the view and the counter of the leader that assigned it. -/
theorem Led.assign_behind (h : D.Led L S ok) (hL : L.Kept S ok) (hw : S.Reach ok w) :
    ∀ o ∈ w.history, ∀ v k p, D.assigns o = some (v, k, p) → o.node = D.leader v ∧
      v ≤ L.view (w.nodes o.node) ∧
      (v = L.view (w.nodes o.node) → k < D.next (w.nodes o.node)) := by
  refine hw.since (R := fun o s => ∀ v k p, D.assigns o = some (v, k, p) →
    o.node = D.leader v ∧ v ≤ L.view s ∧ (v = L.view s → k < D.next s)) ?_ ?_
  · intro w o hr hf v k p ha
    obtain ⟨hnode, hv, hsame, hk, hlt⟩ := h.assign w o v k p hr hf ha
    refine ⟨hnode, ?_, fun _ => ?_⟩
    · rw [hv, hsame]
    · rw [hk]
      exact hlt
  · intro w o o' hr _ hold _ hf _ v k p ha
    obtain ⟨hnode, hle, hlt⟩ := hold v k p ha
    have hmono := (hL.move w o' hr hf).view_le
    refine ⟨hnode, le_trans hle hmono, fun hv => ?_⟩
    -- the view is the same before and after, and the counter does not go back in it
    have hsame : L.view o'.before = v := le_antisymm (hv ▸ hmono) hle
    have hnext := h.next_mono w o' hr hf (by rw [← hv, hsame])
    exact lt_of_lt_of_le (hlt hsame.symm) hnext

/-- A sequence is assigned at most once in each view. -/
theorem Led.assignCount_le (h : D.Led L S ok) (hL : L.Kept S ok) (hw : S.Reach ok w) (v : V)
    (k : K) : w.history.countP (D.assignsAt v k) ≤ 1 := by
  refine System.Reach.induct (N := fun _ hist => hist.countP (D.assignsAt v k) ≤ 1) ?_ ?_ hw
  · simp
  · intro w o hr ih _ hf
    rw [List.countP_cons]
    by_cases ha : D.assignsAt v k o = true
    · -- the counter of the leader is past every sequence it has assigned in this view
      have hzero : w.history.countP (D.assignsAt v k) = 0 := by
        rw [List.countP_eq_zero]
        intro o' ho' ha'
        obtain ⟨p', ha'⟩ := assignsAt_iff.mp ha'
        obtain ⟨p, ha⟩ := assignsAt_iff.mp ha
        obtain ⟨hnode', hle, hlt⟩ := h.assign_behind hL hr o' ho' v k p' ha'
        obtain ⟨hnode, hv, _, hk, _⟩ := h.assign w o v k p hr hf ha
        rw [hnode', ← hnode, ← hf.before_eq] at hlt
        have hlt' := hlt hv
        rw [hk] at hlt'
        exact lt_irrefl _ hlt'
      rw [hzero, if_pos ha]
    · rw [if_neg ha]
      exact ih

/-- **One value per view and sequence.** -/
theorem Led.assigned_unique (h : D.Led L S ok) (hL : L.Kept S ok) (hw : S.Reach ok w)
    {o o' : Occurrence ι σ α μ} (ho : o ∈ w.history) (ho' : o' ∈ w.history) {v : V} {k : K}
    {p p' : P} (ha : D.assigns o = some (v, k, p)) (ha' : D.assigns o' = some (v, k, p')) :
    p = p' := by
  have heq : o = o' := System.eq_of_countP_le_one (h.assignCount_le hL hw v k) ho ho'
    (assignsAt_iff.mpr ⟨p, ha⟩) (assignsAt_iff.mpr ⟨p', ha'⟩)
  subst heq
  rw [ha, Option.some.injEq] at ha'
  exact congrArg (fun e => e.2.2) ha'

/-! ### What the parties bind -/

/-- **Where an accepted proposal comes from**: the leader of its view sent it when it
    assigned the sequence; only its value may have changed on the way. -/
theorem Led.accept_source (h : D.Led L S ok) (hL : L.Kept S ok) (hw : S.Reach ok w)
    {o : Occurrence ι σ α μ} (ho : o ∈ w.history) {v : V} {k : K} {p : P}
    (ha : D.accepts o = some (v, k, p)) :
    o.node ≠ D.leader v ∧ ∃ o₀ ∈ w.history, ∃ m ∈ o₀.sent, ∃ m' p₀, S.carry m = [m'] ∧
      o₀.node = D.leader v ∧ D.assigns o₀ = some (v, k, p₀) ∧
      D.proposal m = some (v, k, p₀) ∧ D.proposal m' = some (v, k, p) ∧
      o.cause = .recv m' := by
  obtain ⟨m', hc, hm'⟩ := h.accept o v k p ha
  obtain ⟨w₀, hr₀, _, hf₀, hsuf⟩ := hw.fired o ho
  obtain ⟨hdst, o₀, ho₀, m, hmo, hcarry⟩ := hf₀.recv_inv hc
  have ho₀w : o₀ ∈ w.history := hsuf.subset (List.mem_cons_of_mem _ ho₀)
  obtain ⟨w₁, hr₁, _, hf₁, _⟩ := hw.fired o₀ ho₀w
  -- the medium may change the value, but neither the view nor the sequence
  have hmem : m' ∈ S.carry m := by rw [hcarry]; exact List.mem_singleton_self _
  obtain ⟨hdst', hkey⟩ := h.carry m m' hmem
  obtain ⟨p₀, hm⟩ := hkey v k p hm'
  obtain ⟨hass, hne⟩ := h.sent w₁ o₀ hr₁ hf₁ m hmo v k p₀ hm
  have hlead := (h.assign_behind hL hw o₀ ho₀w v k p₀ hass).1
  refine ⟨?_, o₀, ho₀w, m, hmo, m', p₀, hcarry, hlead, hass, hm, hm', hc⟩
  rw [← hdst, hdst', ← hlead]
  exact hne

/-- The medium keeps the values of the proposals that party `i` sends. -/
def KeepsValues (D : Proposals ι σ α μ V K P) (S : System ι σ α μ) (i : ι)
    (h : List (Occurrence ι σ α μ)) : Prop :=
  ∀ o ∈ h, o.node = i → ∀ m ∈ o.sent, ∀ m', S.carry m = [m'] → ∀ v k p p',
    D.proposal m = some (v, k, p) → D.proposal m' = some (v, k, p') → p' = p

/-- **What is bound was assigned**, in views whose leader's proposals keep their values. -/
theorem Led.bind_assigned (h : D.Led L S ok) (hL : L.Kept S ok) (hw : S.Reach ok w)
    {o : Occurrence ι σ α μ} (ho : o ∈ w.history) {v : V} {k : K} {p : P}
    (hkeep : D.KeepsValues S (D.leader v) w.history) (hb : L.binds o = some (v, k, p)) :
    ∃ o₀ ∈ w.history, D.assigns o₀ = some (v, k, p) := by
  rw [h.binds, Option.or_eq_some_iff] at hb
  rcases hb with ha | ⟨_, ha⟩
  · exact ⟨o, ho, ha⟩
  · obtain ⟨_, o₀, ho₀, m, hmo, m', p₀, hcarry, hlead, hass, hm, hm', _⟩ :=
      h.accept_source hL hw ho ha
    rw [hkeep o₀ ho₀ hlead m hmo m' hcarry v k p₀ p hm hm']
    exact ⟨o₀, ho₀, hass⟩

/-- The medium makes no proposal for `(v, k)` out of anything else. -/
theorem Led.proposesTo_carry (h : D.Led L S ok) {j : ι} {v : V} {k : K} {m m' : μ}
    (hm : m' ∈ S.carry m) (hp : D.proposesTo S j v k m') : D.proposesTo S j v k m := by
  obtain ⟨hd, p', hp'⟩ := proposesTo_iff.mp hp
  obtain ⟨hdst, hkey⟩ := h.carry m m' hm
  exact proposesTo_iff.mpr ⟨hdst ▸ hd, hkey v k p' hp'⟩

/-- A step sends at most one proposal for `(v, k)` to a party, and only if it assigns. -/
theorem Led.proposal_count (h : D.Led L S ok) (hw : S.Reach ok w) {o : Occurrence ι σ α μ}
    (hf : S.Fires w o) (j : ι) (v : V) (k : K) :
    o.sent.countP (D.proposesTo S j v k) ≤ if D.assignsAt v k o then 1 else 0 := by
  by_cases ha : D.assignsAt v k o = true
  · rw [if_pos ha]
    exact h.sent_once w o hw hf j v k
  · rw [if_neg ha, Nat.le_zero, List.countP_eq_zero]
    intro m hm hp
    obtain ⟨_, p, hp⟩ := proposesTo_iff.mp hp
    exact ha (assignsAt_iff.mpr ⟨p, (h.sent w o hw hf m hm v k p hp).1⟩)

/-- **A party binds a sequence at most once in each view.** -/
theorem Led.bindCount_le (h : D.Led L S ok) (hL : L.Kept S ok) (hw : S.Reach ok w) (i : ι)
    (v : V) (k : K) : w.history.countP (L.bindsAt i v k) ≤ 1 := by
  have hassign := h.assignCount_le hL hw v k
  have hbinds : ∀ o, L.bindsAt i v k o → o.node = i ∧
      ∃ p, D.assigns o = some (v, k, p) ∨ D.accepts o = some (v, k, p) := by
    intro o hb
    simp only [Ledger.bindsAt, decide_eq_true_eq, Option.any_eq_true, Prod.exists] at hb
    obtain ⟨hnode, v', k', p, hb, rfl, rfl⟩ := hb
    rw [h.binds, Option.or_eq_some_iff] at hb
    exact ⟨hnode, p, hb.imp_right And.right⟩
  by_cases hi : i = D.leader v
  · -- the leader binds by assigning: it gets no proposal of its own view
    refine le_trans (List.countP_mono_left fun o ho hb => ?_) hassign
    obtain ⟨hnode, p, ha | ha⟩ := hbinds o hb
    · exact assignsAt_iff.mpr ⟨p, ha⟩
    · exact absurd (hnode.trans hi) (h.accept_source hL hw ho ha).1
  · -- any other party binds by accepting one of at most one proposal sent to it
    have hrecv := hw.receivedCount_le (D.proposesTo S i v k) fun m m' hm => h.proposesTo_carry hm
    have hsent : System.sentCount (D.proposesTo S i v k) w.history
        ≤ w.history.countP (D.assignsAt v k) := by
      refine System.sentCount_le_countP _ fun o ho => ?_
      obtain ⟨w₀, hr₀, _, hf₀, _⟩ := hw.fired o ho
      exact h.proposal_count hr₀ hf₀ i v k
    refine le_trans (List.countP_mono_left fun o ho hb => ?_)
      (le_trans hrecv (le_trans hsent hassign))
    obtain ⟨hnode, p, ha | ha⟩ := hbinds o hb
    · exact absurd (hnode ▸ (h.assign_behind hL hw o ho _ _ _ ha).1) hi
    · obtain ⟨m, hc, hm⟩ := h.accept o v k p ha
      obtain ⟨w₀, _, _, hf₀, _⟩ := hw.fired o ho
      rw [hc]
      exact proposesTo_iff.mpr ⟨(hf₀.recv_inv hc).1.trans hnode, p, hm⟩

/-! ### What the parties commit -/

/-- **Committed values were assigned** in the view they are committed in, if its leader's
    proposals keep their values. -/
theorem Led.commit_assigned (h : D.Led L S ok) (hL : L.Kept S ok) (hw : S.Reach ok w)
    {o : Occurrence ι σ α μ} (ho : o ∈ w.history) {e : K × P} (he : e ∈ L.commits o)
    (hkeep : D.KeepsValues S (D.leader (L.view o.before)) w.history) :
    ∃ o' ∈ w.history, D.assigns o' = some (L.view o.before, e.1, e.2) := by
  obtain ⟨o₁, ho₁, _, hbind⟩ := hL.commit_bound hw o ho e he
  exact h.bind_assigned hL hw ho₁ hkeep hbind

/-- Two commits of one sequence in one view are commits of one value, if the leader's
    proposals keep their values. -/
theorem Led.commits_eq_of_view (h : D.Led L S ok) (hL : L.Kept S ok) (hw : S.Reach ok w)
    {o o' : Occurrence ι σ α μ} (ho : o ∈ w.history) (ho' : o' ∈ w.history) {e e' : K × P}
    (he : e ∈ L.commits o) (he' : e' ∈ L.commits o')
    (hview : L.view o.before = L.view o'.before) (hk : e.1 = e'.1)
    (hkeep : D.KeepsValues S (D.leader (L.view o.before)) w.history) : e.2 = e'.2 := by
  obtain ⟨a, ha, hass⟩ := h.commit_assigned hL hw ho he hkeep
  obtain ⟨a', ha', hass'⟩ := h.commit_assigned hL hw ho' he' (hview ▸ hkeep)
  rw [← hview, ← hk] at hass'
  exact h.assigned_unique hL hw ha ha' hass hass'

/-- A party commits a sequence at most once in each view. -/
theorem Led.commitCount_le (h : D.Led L S ok) (hL : L.Kept S ok) (hw : S.Reach ok w) (i : ι)
    (v : V) (k : K) : L.commitCount i v k w.history ≤ 1 :=
  le_trans (hL.commitCount_le hw i v k) (h.bindCount_le hL hw i v k)

/-- All commits of a sequence belong to one view, if nothing is bound again. -/
theorem Led.commits_same_view (h : D.Led L S ok) (hL : L.Kept S ok)
    (hkeep : ∀ i, D.KeepsValues S i w.history) (hw : S.Reach ok w)
    (honce : System.Along (L.BindsOnce D.assigns) w.history) {o o' : Occurrence ι σ α μ}
    (ho : o ∈ w.history) (ho' : o' ∈ w.history) {e e' : K × P} (he : e ∈ L.commits o)
    (he' : e' ∈ L.commits o') (hk : e.1 = e'.1) : L.view o.before = L.view o'.before := by
  refine hL.commits_same_view D.assigns ?_ ?_ hw honce ho ho' he he' hk
  · intro o ha
    obtain ⟨x, hx⟩ := Option.ne_none_iff_exists'.mp ha
    rw [h.binds, hx, Option.some_or]
    exact Option.some_ne_none x
  · intro o ho e he
    exact h.commit_assigned hL hw ho he (hkeep _)

/-- **Agreement and integrity across views**, if nothing is bound again. -/
theorem Led.agree_across_views (h : D.Led L S ok) (hL : L.Kept S ok)
    (hkeep : ∀ i, D.KeepsValues S i w.history) (hw : S.Reach ok w)
    (honce : System.Along (L.BindsOnce D.assigns) w.history) :
    (∀ i k, L.totalCount i k w.history ≤ 1) ∧
    ∀ o ∈ w.history, ∀ o' ∈ w.history, ∀ e ∈ L.commits o, ∀ e' ∈ L.commits o',
      e.1 = e'.1 → e.2 = e'.2 := by
  constructor
  · intro i k
    refine hL.totalCount_le hw (fun v => h.bindCount_le hL hw i v k) ?_
    intro o₁ h₁ o₂ h₂ e₁ he₁ e₂ he₂ hk₁ hk₂
    exact h.commits_same_view hL hkeep hw honce h₁ h₂ he₁ he₂ (hk₁.trans hk₂.symm)
  · intro o ho o' ho' e he e' he' hk
    have hview := h.commits_same_view hL hkeep hw honce ho ho' he he' hk
    exact h.commits_eq_of_view hL hw ho ho' he he' hview hk (hkeep _)

/-- **Within one view nothing is bound again**: the leader has counted past all it assigned, and so
    past all that was committed. -/
theorem Led.bindsOnce_of_view (h : D.Led L S ok) (hL : L.Kept S ok) (hw : S.Reach ok w)
    {o : Occurrence ι σ α μ} (hf : S.Fires w o)
    (hview : ∀ o' ∈ w.history, L.view o'.before = L.view o.before)
    (hkeep : D.KeepsValues S (D.leader (L.view o.before)) w.history) :
    L.BindsOnce D.assigns w.history o := by
  refine ⟨?_, ?_⟩
  · rintro ⟨v, k, p⟩ ha o' ho' e he
    obtain ⟨hnode, rfl, _, rfl, _⟩ := h.assign w o v k p hw hf ha
    obtain ⟨a, ha', hass⟩ := h.commit_assigned hL hw ho' he (by rw [hview o' ho']; exact hkeep)
    rw [hview o' ho'] at hass
    obtain ⟨hleader, _, hlt⟩ := h.assign_behind hL hw a ha' _ _ _ hass
    rw [hleader, ← hnode, ← hf.before_eq] at hlt
    exact ne_of_lt (hlt rfl)
  · rintro e _ o' ho' ⟨v, k, p⟩ ha _
    obtain ⟨w₀, hr₀, _, hf₀, _⟩ := hw.fired o' ho'
    obtain ⟨_, hv, _⟩ := h.assign w₀ o' v k p hr₀ hf₀ ha
    exact le_of_eq (hv.trans (hview o' ho'))

end Proposals

end AsyncNet
