import ConsensusBench.Raft.Stream

namespace ConsensusBench

/-!
# Raft: the loop that appends the entries of a message

The loop of `AppendEntries` looks every entry up in the log that the entries before it have left,
and cuts that log where an entry conflicts.

* `foldlM_appendEntry_of_there`, `foldlM_appendEntry_end` — what the log has stays, and what lies
  behind its end is appended.
* `append_loop` — so the log stays as it is up to the first entry that is new to it, and goes on
  with the entries from there.
-/

open RaftNode

namespace Raft

/-- The log has everything: an entry of the same term at the position of each of the entries. -/
def AllThere (F : List LogEntry) (p : ℕ) (E : List LogEntry) : Prop :=
  (∀ k e x, E[k]? = some e → F[p + k]? = some x → x.term = e.term) ∧ p + E.length ≤ F.length

/-- Entry `j` lies past the end of the log, or the log has an entry of another term there. -/
def NewAt (F : List LogEntry) (p : ℕ) (E : List LogEntry) (j : ℕ) : Prop :=
  ∃ e, E[j]? = some e ∧ (F.length ≤ p + j ∨ ∃ x, F[p + j]? = some x ∧ x.term ≠ e.term)

section Loop

variable {F E : List LogEntry} {p : ℕ}

/-- An entry that the log has. -/
theorem appendEntry_of_there {e x : LogEntry} (he : e.index = p + 1) (hx : F[p]? = some x)
    (ht : x.term = e.term) : appendEntry F e = some F := by
  rw [appendEntry, if_neg (by omega)]
  simp only [he, Nat.add_sub_cancel, hx]
  rw [if_neg (not_not.mpr ht)]

/-- An entry that is new cuts the log and is its last one then. -/
theorem appendEntry_of_new {e : LogEntry} (he : e.index = p + 1)
    (hnew : F.length ≤ p ∨ ∃ x, F[p]? = some x ∧ x.term ≠ e.term) :
    appendEntry F e = some (F.take p ++ [e]) := by
  rw [appendEntry, if_neg (by omega)]
  simp only [he, Nat.add_sub_cancel]
  rcases hnew with hend | ⟨x, hx, ht⟩
  · rw [List.getElem?_eq_none hend, List.take_of_length_le hend]
  · rw [hx]
    dsimp only
    rw [if_pos ht]

/-- A log has all entries if it has the first one and all others. -/
theorem allThere_cons {e : LogEntry} : AllThere F p (e :: E) ↔
    (∃ x, F[p]? = some x ∧ x.term = e.term) ∧ AllThere F (p + 1) E := by
  have hshift : ∀ k, p + (k + 1) = p + 1 + k := fun k => by omega
  constructor
  · rintro ⟨hterm, hlen⟩
    rw [List.length_cons] at hlen
    have hx : F[p]? = some F[p] := List.getElem?_eq_getElem (by omega)
    refine ⟨⟨_, hx, hterm 0 e _ rfl hx⟩, fun k e' x he' hx' => ?_, by omega⟩
    rw [← hshift] at hx'
    exact hterm (k + 1) e' x (by rwa [List.getElem?_cons_succ]) hx'
  · rintro ⟨⟨x, hx, ht⟩, hterm, hlen⟩
    refine ⟨fun k e' x' he' hx' => ?_, by rw [List.length_cons]; omega⟩
    cases k with
    | zero =>
      cases he'
      cases hx.symm.trans hx'
      exact ht
    | succ k =>
      rw [hshift] at hx'
      exact hterm k e' x' (by rwa [List.getElem?_cons_succ] at he') hx'

/-- **What the log has stays.** -/
theorem foldlM_appendEntry_of_there (hE : Contiguous p E) (h : AllThere F p E) :
    E.foldlM appendEntry F = some F := by
  induction E generalizing p with
  | nil => rfl
  | cons e E ih =>
    obtain ⟨⟨x, hx, ht⟩, hrest⟩ := allThere_cons.mp h
    rw [List.foldlM_cons, appendEntry_of_there (hE 0 e rfl) hx ht, Option.bind_eq_bind,
      Option.bind_some]
    exact ih hE.tail hrest

/-- **What lies behind the end is appended.** -/
theorem foldlM_appendEntry_end (hE : Contiguous F.length E) :
    E.foldlM appendEntry F = some (F ++ E) := by
  induction E generalizing F with
  | nil => rw [List.append_nil]; rfl
  | cons e E ih =>
    have htail : Contiguous (F ++ [e]).length E := by
      rw [List.length_append, List.length_singleton]
      exact hE.tail
    rw [List.foldlM_cons, appendEntry_of_new (hE 0 e rfl) (.inl (le_refl _)),
      Option.bind_eq_bind, Option.bind_some, List.take_length, ih htail, List.append_assoc,
      List.singleton_append]

theorem newAt_succ {e : LogEntry} {j : ℕ} : NewAt F p (e :: E) (j + 1) ↔ NewAt F (p + 1) E j := by
  unfold NewAt
  rw [List.getElem?_cons_succ, show p + (j + 1) = p + 1 + j by omega]

/-- A log that has all entries has none that is new. -/
theorem AllThere.not_newAt (h : AllThere F p E) (j : ℕ) : ¬ NewAt F p E j := by
  rintro ⟨e, he, hend | ⟨x, hx, ht⟩⟩
  · obtain ⟨hj, _⟩ := List.getElem?_eq_some_iff.mp he
    have hlen := h.2
    omega
  · exact ht (h.1 j e x he hx)

/-- **What the loop leaves**: the log as it is if it has everything, and otherwise the log up to the
    first entry that is new, and the entries from that on. -/
theorem foldlM_appendEntry_eq (hE : Contiguous p E) (hp : p ≤ F.length) :
    (AllThere F p E ∧ E.foldlM appendEntry F = some F) ∨
    ∃ j, NewAt F p E j ∧ (∀ k < j, ¬ NewAt F p E k) ∧
      E.foldlM appendEntry F = some (F.take (p + j) ++ E.drop j) := by
  induction E generalizing p with
  | nil => exact .inl ⟨⟨fun k e x he => absurd he (by simp), by simpa using hp⟩, rfl⟩
  | cons e E ih =>
    by_cases hnew : NewAt F p (e :: E) 0
    · refine .inr ⟨0, hnew, fun k hk => absurd hk (Nat.not_lt_zero k), ?_⟩
      obtain ⟨e', he', hnew⟩ := hnew
      rw [List.getElem?_cons_zero, Option.some.injEq] at he'
      subst he'
      have hlen : (F.take p ++ [e]).length = p + 1 := by
        rw [List.length_append, List.length_singleton, List.length_take, min_eq_left hp]
      have htail : Contiguous (F.take p ++ [e]).length E := by
        rw [hlen]
        exact hE.tail
      rw [List.foldlM_cons, appendEntry_of_new (hE 0 e rfl) hnew, Option.bind_eq_bind,
        Option.bind_some, foldlM_appendEntry_end htail, List.append_assoc]
      rfl
    · -- the log has the first entry, and the loop goes on with the others
      have hlt : p < F.length := by
        by_contra hend
        exact hnew ⟨e, rfl, .inl (not_lt.mp hend)⟩
      have hx : F[p]? = some F[p] := List.getElem?_eq_getElem hlt
      have ht : F[p].term = e.term := by
        by_contra ht
        exact hnew ⟨e, rfl, .inr ⟨F[p], hx, ht⟩⟩
      rw [List.foldlM_cons, appendEntry_of_there (hE 0 e rfl) hx ht, Option.bind_eq_bind,
        Option.bind_some]
      rcases ih hE.tail hlt with ⟨hrest, hfold⟩ | ⟨j, hj, hfirst, hfold⟩
      · exact .inl ⟨allThere_cons.mpr ⟨⟨_, hx, ht⟩, hrest⟩, hfold⟩
      · refine .inr ⟨j + 1, newAt_succ.mpr hj, fun k hk => ?_, ?_⟩
        · cases k with
          | zero => exact hnew
          | succ k => exact fun h => hfirst k (by omega) (newAt_succ.mp h)
        · rw [hfold, List.drop_succ_cons, show p + 1 + j = p + (j + 1) by omega]

/-- The first new entry is within the log or right behind it. -/
theorem first_new_le (hp : p ≤ F.length) {j : ℕ} (hj : NewAt F p E j)
    (hfirst : ∀ k < j, ¬ NewAt F p E k) : j < E.length ∧ p + j ≤ F.length := by
  obtain ⟨e, he, _⟩ := hj
  obtain ⟨hlt, _⟩ := List.getElem?_eq_some_iff.mp he
  refine ⟨hlt, ?_⟩
  cases j with
  | zero => exact hp
  | succ j =>
    by_contra hend
    have hprev : E[j]? = some E[j] := List.getElem?_eq_getElem (by omega)
    exact hfirst j (Nat.lt_succ_self j) ⟨E[j], hprev, .inl (by omega)⟩

/-- **What the loop leaves has all the entries.** -/
theorem allThere_of_append {log : List LogEntry} (hE : Contiguous p E) (hp : p ≤ F.length)
    (hlog : E.foldlM appendEntry F = some log) : AllThere log p E := by
  rcases foldlM_appendEntry_eq hE hp with ⟨hall, hfold⟩ | ⟨j, hj, hfirst, hfold⟩
  · rw [hfold, Option.some.injEq] at hlog
    rwa [← hlog]
  · rw [hfold, Option.some.injEq] at hlog
    subst hlog
    obtain ⟨hjE, hjF⟩ := first_new_le hp hj hfirst
    have hlen : (F.take (p + j)).length = p + j := by
      rw [List.length_take, min_eq_left hjF]
    refine ⟨fun k e x he hx => ?_, ?_⟩
    · rcases Nat.lt_or_ge k j with hk | hk
      · -- an old entry, whose term the log had
        rw [List.getElem?_append_left (by omega), List.getElem?_take_of_lt (by omega)] at hx
        by_contra ht
        exact hfirst k hk ⟨e, he, .inr ⟨x, hx, ht⟩⟩
      · rw [List.getElem?_append_right (by omega), hlen, List.getElem?_drop,
          show j + (p + k - (p + j)) = k by omega, he, Option.some.injEq] at hx
        rw [hx]
    · rw [List.length_append, hlen, List.length_drop]
      omega

theorem AllThere.take {log : List LogEntry} (h : AllThere log p E) (m : ℕ) :
    AllThere log p (E.take m) := by
  refine ⟨fun k e x he hx => h.1 k e x ?_ hx, ?_⟩
  · obtain ⟨u, hu⟩ := List.take_prefix m E
    obtain ⟨hk, _⟩ := List.getElem?_eq_some_iff.mp he
    rw [← hu, List.getElem?_append_left hk, he]
  · have hlen := h.2
    rw [List.length_take]
    omega

theorem Contiguous.take (hE : Contiguous p E) (m : ℕ) : Contiguous p (E.take m) := by
  intro k e he
  obtain ⟨u, hu⟩ := List.take_prefix m E
  obtain ⟨hk, _⟩ := List.getElem?_eq_some_iff.mp he
  exact hE k e (by rw [← hu, List.getElem?_append_left hk, he])

/-- **The loop that appends the entries of a message** leaves a log that has everything as it is;
    from another one it keeps what lies before the first entry that is new, and goes on with the
    entries from there.  The log stays indexed, and the loop changes nothing when it is run again
    with these entries or the first of them. -/
theorem append_loop (hF : Indexed F) (hp : p ≤ F.length) (hE : Contiguous p E) :
    ∃ log, E.foldlM appendEntry F = some log ∧
      (AllThere F p E ∧ log = F ∨
        ¬ AllThere F p E ∧ ∃ j, NewAt F p E j ∧ (∀ k < j, ¬ NewAt F p E k) ∧
          log = F.take (p + j) ++ E.drop j) ∧
      Indexed log ∧ ∀ m, (E.take m).foldlM appendEntry log = some log := by
  have hagain : ∀ log, E.foldlM appendEntry F = some log →
      ∀ m, (E.take m).foldlM appendEntry log = some log := fun log hlog m =>
    foldlM_appendEntry_of_there (hE.take m) ((allThere_of_append hE hp hlog).take m)
  rcases foldlM_appendEntry_eq hE hp with ⟨hall, hfold⟩ | ⟨j, hj, hfirst, hfold⟩
  · exact ⟨F, hfold, .inl ⟨hall, rfl⟩, hF, hagain F hfold⟩
  · refine ⟨_, hfold, .inr ⟨fun hall => hall.not_newAt j hj, j, hj, hfirst, rfl⟩,
      hF.append hE hp hfold, hagain _ hfold⟩

end Loop

/-- The second of two entries conflicts with the log, which loses what is behind it. -/
theorem append_loop_conflict :
    ∃ log, [⟨1, 2, ⟨[0x71]⟩⟩, ⟨2, 3, ⟨[0x72]⟩⟩].foldlM appendEntry
        [⟨1, 1, ⟨[0x70]⟩⟩, ⟨1, 2, ⟨[0x71]⟩⟩, ⟨1, 3, ⟨[0x70]⟩⟩, ⟨1, 4, ⟨[0x70]⟩⟩] = some log ∧
      log = [⟨1, 1, ⟨[0x70]⟩⟩, ⟨1, 2, ⟨[0x71]⟩⟩, ⟨2, 3, ⟨[0x72]⟩⟩] ∧ Indexed log := by
  have hmessage : Indexed [⟨1, 1, ⟨[0x70]⟩⟩, ⟨1, 2, ⟨[0x71]⟩⟩, ⟨2, 3, ⟨[0x72]⟩⟩] := by decide
  obtain ⟨log, hlog, _, hindexed, _⟩ := append_loop
    (F := [⟨1, 1, ⟨[0x70]⟩⟩, ⟨1, 2, ⟨[0x71]⟩⟩, ⟨1, 3, ⟨[0x70]⟩⟩, ⟨1, 4, ⟨[0x70]⟩⟩])
    (by decide) (by decide) (hmessage.contiguous 1)
  exact ⟨log, hlog, Option.some.inj (hlog.symm.trans (by decide)), hindexed⟩

end Raft

end ConsensusBench
