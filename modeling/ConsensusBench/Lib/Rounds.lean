import ConsensusBench.Lib.AsyncNet

namespace AsyncNet

/-!
# Rounds of an asynchronous system

How to show that a run exists.  In a *round*, each party of a list handles messages that are
in flight to it, one after another; what the parties become and send is a computation on
each party's own state (`absorb`).  `Steps.round` turns these computations into a run: the
parties of the round end up as computed, the others are untouched, what they sent is in
flight, and so is whatever was in flight and not part of the round.
-/

variable {ι σ α μ : Type} [DecidableEq ι] {S : System ι σ α μ} {w : World ι σ α μ}

namespace System

/-- What party `i` becomes, and sends, when the messages `ms` reach it one after another. -/
def absorb (S : System ι σ α μ) (i : ι) : σ → List μ → Option (σ × List μ)
  | s, [] => some (s, [])
  | s, m :: ms => (S.recv i s m).bind fun r =>
      (absorb S i r.1 ms).map fun r' => (r'.1, r.2 ++ r'.2)

omit [DecidableEq ι] in
@[simp] theorem absorb_nil (i : ι) (s : σ) : S.absorb i s [] = some (s, []) := rfl

omit [DecidableEq ι] in
theorem absorb_cons {i : ι} {s s' : σ} {m : μ} {ms out : List μ}
    (h : S.recv i s m = some (s', out)) :
    S.absorb i s (m :: ms) = (S.absorb i s' ms).map fun r => (r.1, out ++ r.2) := by
  rw [absorb, h, Option.bind_some]

omit [DecidableEq ι] in
/-- Messages a party ignores change nothing. -/
theorem absorb_ignore {i : ι} {s : σ} {ms : List μ}
    (h : ∀ m ∈ ms, S.recv i s m = some (s, [])) : S.absorb i s ms = some (s, []) := by
  induction ms with
  | nil => rfl
  | cons m ms ih =>
    rw [absorb_cons (h m List.mem_cons_self), ih fun m' hm' => h m' (List.mem_cons_of_mem _ hm')]
    rfl

omit [DecidableEq ι] in
/-- **Counting votes.**  A party that in the states `C _ V` has the votes of `V`, takes further
    ones silently and acts on the one that makes them `k`, acts once on enough new votes. -/
theorem absorb_votes {ρ : Type} [DecidableEq ρ] {i : ι} (vote : ρ → μ) (k : ℕ)
    {C : σ → Finset ρ → Prop} {R : σ → List μ → Prop}
    (hadd : ∀ s V r, C s V → (insert r V).card < k →
      ∃ s', S.recv i s (vote r) = some (s', []) ∧ C s' (insert r V))
    (hfull : ∀ s V r, C s V → k ≤ (insert r V).card →
      ∃ s' out, S.recv i s (vote r) = some (s', out) ∧ R s' out ∧
        ∀ r', S.recv i s' (vote r') = some (s', []))
    {rs : List ρ} (hrs : rs ≠ []) (hnodup : rs.Nodup) {s : σ} {V : Finset ρ} (hC : C s V)
    (hnew : ∀ r ∈ rs, r ∉ V) (hk : k ≤ V.card + rs.length) :
    ∃ s' out, S.absorb i s (rs.map vote) = some (s', out) ∧ R s' out := by
  induction rs generalizing s V with
  | nil => exact absurd rfl hrs
  | cons r rs ih =>
    obtain ⟨hr, hnodup'⟩ := List.nodup_cons.mp hnodup
    rw [List.map_cons]
    by_cases hq : k ≤ (insert r V).card
    · -- the threshold is reached; what comes after is ignored
      obtain ⟨s', out, hrecv, hR, hignore⟩ := hfull s V r hC hq
      refine ⟨s', out, ?_, hR⟩
      rw [absorb_cons hrecv, absorb_ignore, Option.map_some, List.append_nil]
      intro m hm
      obtain ⟨r', _, rfl⟩ := List.mem_map.mp hm
      exact hignore r'
    · obtain ⟨s₁, hrecv, hC₁⟩ := hadd s V r hC (not_le.mp hq)
      have hcard : (insert r V).card = V.card + 1 :=
        Finset.card_insert_of_notMem (hnew r List.mem_cons_self)
      rw [List.length_cons] at hk
      have hrs' : rs ≠ [] := by
        rintro rfl
        rw [hcard] at hq
        exact hq hk
      have hnew' : ∀ r' ∈ rs, r' ∉ insert r V := by
        intro r' hr' hin
        rcases Finset.mem_insert.mp hin with rfl | hin
        · exact hr hr'
        · exact hnew r' (List.mem_cons_of_mem _ hr') hin
      obtain ⟨s', out, habs, hR⟩ := ih hrs' hnodup' hC₁ hnew' (by omega)
      refine ⟨s', out, ?_, hR⟩
      rw [absorb_cons hrecv, habs]
      rfl

/-- The messages `ms` are in flight and reach party `i`. -/
structure Arriving (S : System ι σ α μ) (w : World ι σ α μ) (i : ι) (ms : List μ) : Prop where
  nodup : ms.Nodup
  mem : ∀ m ∈ ms, m ∈ w.inFlight
  reaches : ∀ m ∈ ms, ∃ m', S.carry m = [m'] ∧ S.dst m' = i

/-- `w'` has in flight what was in flight in `w`, except for `ms`, and `out`. -/
structure Handled (w w' : World ι σ α μ) (ms out : List μ) : Prop where
  kept : ∀ m ∈ w.inFlight, m ∉ ms → m ∈ w'.inFlight
  sent : ∀ m ∈ out, m ∈ w'.inFlight

/-- Make one call. -/
theorem Steps.call {i : ι} (hi : i ∈ S.members) {a : α} {s : σ} {out : List μ}
    (h : S.act i (w.nodes i) a = (s, out)) : S.Steps anyStep w (w.record i (.call a) s out) := by
  refine .tail (.call i a) (.refl w) (fun _ _ _ => trivial) ?_
  rw [step, if_pos hi, h]

/-- Deliver one message that is in flight. -/
theorem Steps.deliver {i : ι} (hi : i ∈ S.members) {m m' : μ} (hm : m ∈ w.inFlight)
    (hc : S.carry m = [m']) (hd : S.dst m' = i) {s : σ} {out : List μ}
    (hr : S.recv i (w.nodes i) m' = some (s, out)) :
    ∃ w', S.Steps anyStep w w' ∧ w'.nodes = Function.update w.nodes i s ∧
      Handled w w' [m] out := by
  subst hd
  obtain ⟨k, hk⟩ := List.mem_iff_getElem?.mp hm
  refine ⟨(w.lose k).record (S.dst m') (.recv m') s out, ?_, rfl, ?_, ?_⟩
  · refine .tail (.deliver k) (.refl w) (fun _ _ _ => trivial) ?_
    simp only [step, hk, hc, List.foldlM_cons, List.foldlM_nil, receive, World.lose_nodes, hi,
      if_true, hr, Option.map_some, Option.bind_eq_bind, Option.bind_some, Option.pure_def]
  · intro x hx hne
    refine List.mem_append_left _ ?_
    rw [List.mem_singleton] at hne
    obtain ⟨j, hj⟩ := List.mem_iff_getElem?.mp hx
    refine List.mem_eraseIdx_iff_getElem?.mpr ⟨j, ?_, hj⟩
    rintro rfl
    rw [hj, Option.some.injEq] at hk
    exact hne hk
  · intro x hx
    exact List.mem_append_right _ hx

/-- Deliver a list of messages to one party, which sends none of them again. -/
theorem Steps.absorb {i : ι} (hi : i ∈ S.members) {ms : List μ} (hms : Arriving S w i ms)
    {s : σ} {out : List μ} (ha : S.absorb i (w.nodes i) (ms.flatMap S.carry) = some (s, out))
    (hnew : ∀ m ∈ out, m ∉ ms) :
    ∃ w', S.Steps anyStep w w' ∧ w'.nodes = Function.update w.nodes i s ∧
      Handled w w' ms out := by
  induction ms generalizing w out with
  | nil =>
    simp only [List.flatMap_nil, absorb_nil, Option.some.injEq, Prod.mk.injEq] at ha
    obtain ⟨rfl, rfl⟩ := ha
    exact ⟨w, .refl w, (Function.update_eq_self i w.nodes).symm, fun m hm _ => hm,
      fun m hm => absurd hm (by simp)⟩
  | cons m ms ih =>
    obtain ⟨m', hc, hd⟩ := hms.reaches m List.mem_cons_self
    have hnotin : m ∉ ms := (List.nodup_cons.mp hms.nodup).1
    rw [List.flatMap_cons, hc, List.singleton_append] at ha
    cases hr : S.recv i (w.nodes i) m' with
    | none => rw [System.absorb, hr] at ha; exact absurd ha (by simp)
    | some r =>
      rw [absorb_cons hr, Option.map_eq_some_iff] at ha
      obtain ⟨⟨s', out'⟩, ha', heq⟩ := ha
      rw [Prod.mk.injEq] at heq
      obtain ⟨rfl, rfl⟩ := heq
      have hnew' : ∀ x ∈ r.2 ++ out', x ∉ ms := fun x hx hin =>
        hnew x hx (List.mem_cons_of_mem _ hin)
      obtain ⟨w₁, hs₁, hn₁, hh₁⟩ :=
        Steps.deliver hi (hms.mem m List.mem_cons_self) hc hd hr
      have hms₁ : Arriving S w₁ i ms := by
        refine ⟨(List.nodup_cons.mp hms.nodup).2, fun x hx => ?_, fun x hx =>
          hms.reaches x (List.mem_cons_of_mem _ hx)⟩
        refine hh₁.kept x (hms.mem x (List.mem_cons_of_mem _ hx)) ?_
        rw [List.mem_singleton]
        rintro rfl
        exact hnotin hx
      obtain ⟨w₂, hs₂, hn₂, hh₂⟩ := ih hms₁ (by rw [hn₁, Function.update_self]; exact ha')
        fun x hx => hnew' x (List.mem_append_right _ hx)
      refine ⟨w₂, hs₁.trans hs₂, by rw [hn₂, hn₁, Function.update_idem], fun x hx hne => ?_,
        fun x hx => ?_⟩
      · rw [List.mem_cons, not_or] at hne
        exact hh₂.kept x (hh₁.kept x hx (by simpa using hne.1)) hne.2
      · rcases List.mem_append.mp hx with hx | hx
        · exact hh₂.kept x (hh₁.sent x hx) (hnew' x (List.mem_append_left _ hx))
        · exact hh₂.sent x hx

/-- **A round.**  Every party of `hs` handles its messages `ms`; `R` says what becomes of it
    and what it sends.  No message of the round is sent again in it. -/
theorem Steps.round {hs : List ι} (hnodup : hs.Nodup) (hmem : ∀ i ∈ hs, i ∈ S.members)
    (ms : ι → List μ) (hms : ∀ i ∈ hs, Arriving S w i (ms i)) (R : ι → σ → List μ → Prop)
    (ha : ∀ i ∈ hs, ∃ s out, S.absorb i (w.nodes i) ((ms i).flatMap S.carry) = some (s, out) ∧
      R i s out)
    (hnew : ∀ i ∈ hs, ∀ s out, R i s out → ∀ m ∈ out, ∀ j ∈ hs, m ∉ ms j) :
    ∃ w', S.Steps anyStep w w' ∧
      (∀ i ∈ hs, ∃ out, R i (w'.nodes i) out ∧ ∀ m ∈ out, m ∈ w'.inFlight) ∧
      (∀ i, i ∉ hs → w'.nodes i = w.nodes i) ∧
      ∀ m ∈ w.inFlight, (∀ i ∈ hs, m ∉ ms i) → m ∈ w'.inFlight := by
  induction hs generalizing w with
  | nil =>
    exact ⟨w, .refl w, fun i hi => absurd hi (by simp), fun _ _ => rfl, fun m hm _ => hm⟩
  | cons i hs ih =>
    obtain ⟨hnotin, hnodup'⟩ := List.nodup_cons.mp hnodup
    obtain ⟨s, out, habs, hR⟩ := ha i List.mem_cons_self
    obtain ⟨w₁, hs₁, hn₁, hh₁⟩ := Steps.absorb (hmem i List.mem_cons_self)
      (hms i List.mem_cons_self) habs fun m hm => hnew i List.mem_cons_self s out hR m hm i
        List.mem_cons_self
    have hne : ∀ j ∈ hs, j ≠ i := fun j hj h => hnotin (h ▸ hj)
    -- messages that reach different parties are different
    have hdisj : ∀ j ∈ hs, ∀ m ∈ ms j, m ∉ ms i := by
      intro j hj m hm hmi
      obtain ⟨m₁, hc₁, hd₁⟩ := (hms j (List.mem_cons_of_mem _ hj)).reaches m hm
      obtain ⟨m₂, hc₂, hd₂⟩ := (hms i List.mem_cons_self).reaches m hmi
      rw [hc₁, List.cons.injEq] at hc₂
      exact hne j hj (by rw [← hd₁, ← hd₂, hc₂.1])
    have hms₁ : ∀ j ∈ hs, Arriving S w₁ j (ms j) := fun j hj =>
      have h := hms j (List.mem_cons_of_mem _ hj)
      ⟨h.nodup, fun m hm => hh₁.kept m (h.mem m hm) (hdisj j hj m hm), h.reaches⟩
    have hold : ∀ j, j ≠ i → w₁.nodes j = w.nodes j := fun j hj => by
      rw [hn₁, Function.update_of_ne hj]
    obtain ⟨w₂, hs₂, hpost, hframe, hkept⟩ := ih hnodup'
      (fun j hj => hmem j (List.mem_cons_of_mem _ hj)) hms₁
      (fun j hj => by rw [hold j (hne j hj)]; exact ha j (List.mem_cons_of_mem _ hj))
      fun j hj s out hR m hm j' hj' => hnew j (List.mem_cons_of_mem _ hj) s out hR m hm j'
        (List.mem_cons_of_mem _ hj')
    refine ⟨w₂, hs₁.trans hs₂, fun j hj => ?_, fun j hj => ?_, fun m hm hout => ?_⟩
    · rcases List.mem_cons.mp hj with rfl | hj
      · refine ⟨out, ?_, fun m hm => ?_⟩
        · rw [hframe j hnotin, hn₁, Function.update_self]
          exact hR
        · exact hkept m (hh₁.sent m hm) fun j' hj' =>
            hnew j List.mem_cons_self s out hR m hm j' (List.mem_cons_of_mem _ hj')
      · exact hpost j hj
    · rw [List.mem_cons, not_or] at hj
      rw [hframe j hj.2, hold j hj.1]
    · exact hkept m (hh₁.kept m hm (hout i List.mem_cons_self)) fun j hj =>
        hout j (List.mem_cons_of_mem _ hj)

end System

end AsyncNet
