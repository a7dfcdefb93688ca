import Mathlib.Data.Finset.Card
import Mathlib.Data.List.AList
import Mathlib.Logic.Function.Basic

/-!
# Finite maps as association lists

`HashMap K V` is Mathlib's `AList` at a constant family: a list of key-value pairs with
distinct keys.  The order of the entries is the (unspecified) iteration order, so a
statement about every `HashMap` is a statement about every iteration order.  Only the
operations Mathlib lacks are defined here, each with its `lookup` lemma.
-/

/-- A finite map from `K` to `V`. -/
abbrev HashMap (K V : Type) := AList fun _ : K => V

/-- A finite set, as the keys of a map. -/
abbrev HashSet (K : Type) := HashMap K Unit

namespace HashMap

variable {K V : Type} [DecidableEq K]

/-- The value at a key after an insertion. -/
theorem lookup_insert_ite (m : HashMap K V) (k k' : K) (v : V) :
    (m.insert k v).lookup k' = if k' = k then some v else m.lookup k' := by
  by_cases h : k' = k
  · subst h; rw [AList.lookup_insert, if_pos rfl]
  · rw [AList.lookup_insert_ne h, if_neg h]

/-- A value behind an insertion is the new one, or it was there under another key. -/
theorem of_lookup_insert {m : HashMap K V} {k k' : K} {v v' : V}
    (h : (m.insert k' v').lookup k = some v) :
    (k = k' ∧ v = v') ∨ (k ≠ k' ∧ m.lookup k = some v) := by
  rw [lookup_insert_ite] at h
  split at h
  · rename_i hk
    exact .inl ⟨hk, (Option.some.inj h).symm⟩
  · rename_i hk
    exact .inr ⟨hk, h⟩

/-- The value at a key after a removal. -/
theorem lookup_erase_ite (m : HashMap K V) (k k' : K) :
    (m.erase k).lookup k' = if k' = k then none else m.lookup k' := by
  by_cases h : k' = k
  · subst h; rw [AList.lookup_erase, if_pos rfl]
  · rw [AList.lookup_erase_ne h, if_neg h]

/-- An insertion, on `lookup` as a function. -/
theorem lookup_insert_eq_update (m : HashMap K V) (k : K) (v : V) :
    (fun k' => (m.insert k v).lookup k') = Function.update (fun k' => m.lookup k') k (some v) := by
  funext k'
  rw [lookup_insert_ite, Function.update_apply]

/-- A removal, on `lookup` as a function. -/
theorem lookup_erase_eq_update (m : HashMap K V) (k : K) :
    (fun k' => (m.erase k).lookup k') = Function.update (fun k' => m.lookup k') k none := by
  funext k'
  rw [lookup_erase_ite, Function.update_apply]

/-- A member of a set of a table in which one set was replaced is one of the new set, or it was
    there. -/
theorem mem_lookup_insert {α : Type} {m : HashMap K (Finset α)} {k k' : K} {A S : Finset α}
    {a : α} (h : (m.insert k A).lookup k' = some S) (ha : a ∈ S) :
    (k' = k ∧ a ∈ A) ∨ ∃ S₀, m.lookup k' = some S₀ ∧ a ∈ S₀ := by
  rw [lookup_insert_ite] at h
  split at h
  · rename_i hk
    rw [Option.some.injEq] at h
    exact .inl ⟨hk, h ▸ ha⟩
  · exact .inr ⟨S, h, ha⟩

/-- A member of a set of a table stays, if every set that is put into the table has what it
    replaces. -/
theorem mem_lookup_insert_of_subset {α : Type} {m : HashMap K (Finset α)} {k k' : K}
    {A S : Finset α} {a : α} (hS : m.lookup k = some S) (ha : a ∈ S)
    (hA : (m.lookup k').getD ∅ ⊆ A) : ∃ S', (m.insert k' A).lookup k = some S' ∧ a ∈ S' := by
  rw [lookup_insert_ite]
  split
  · rename_i hk
    subst hk
    rw [hS] at hA
    exact ⟨A, rfl, hA ha⟩
  · exact ⟨S, hS, ha⟩

/-- The set at a key, empty where there is none. -/
theorem mem_lookup_getD {α : Type} {m : HashMap K (Finset α)} {k : K} {a : α}
    (h : a ∈ (m.lookup k).getD ∅) : ∃ S, m.lookup k = some S ∧ a ∈ S := by
  cases hS : m.lookup k with
  | none =>
    rw [hS] at h
    exact absurd h (by simp)
  | some S =>
    rw [hS] at h
    exact ⟨S, rfl, h⟩

omit [DecidableEq K] in
/-- Filtering entries keeps the keys distinct. -/
private theorem nodupKeys_filter (m : HashMap K V) (p : (_ : K) × V → Bool) :
    (m.entries.filter p).NodupKeys :=
  m.nodupKeys.sublist List.filter_sublist

/-- Keep the entries that satisfy `p`. -/
def retain (m : HashMap K V) (p : K → V → Bool) : HashMap K V :=
  ⟨m.entries.filter fun e => p e.1 e.2, nodupKeys_filter m _⟩

/-- The values in iteration order. -/
def values (m : HashMap K V) : List V := m.entries.map Sigma.snd

/-- An entry survives `retain` exactly if it satisfies the predicate. -/
theorem lookup_retain (m : HashMap K V) (p : K → V → Bool) (k : K) :
    (m.retain p).lookup k = (m.lookup k).filter (p k) := by
  ext v
  rw [← Option.mem_def, AList.mem_lookup_iff, ← Option.mem_def, Option.mem_filter_iff,
    AList.mem_lookup_iff, retain, List.mem_filter]

/-- The value at a key after the same value was inserted at all keys of a list. -/
theorem lookup_foldl_insert (ks : List K) (v : V) (m : HashMap K V) (k : K) :
    (ks.foldl (fun m k => m.insert k v) m).lookup k = if k ∈ ks then some v else m.lookup k := by
  induction ks generalizing m with
  | nil => simp
  | cons k₀ ks ih =>
    rw [List.foldl_cons, ih, lookup_insert_ite]
    by_cases hk : k ∈ ks
    · simp [hk]
    · by_cases hk₀ : k = k₀
      · simp [hk₀]
      · simp [hk, hk₀]

/-- The values that satisfy `p` are values of as many keys. -/
theorem exists_keys (m : HashMap K V) (p : V → Bool) :
    ∃ S : Finset K, S.card = (m.values.filter p).length ∧
      ∀ k ∈ S, ∃ v, m.lookup k = some v ∧ p v = true := by
  let es := m.entries.filter fun e => p e.2
  have hnodup : es.NodupKeys := nodupKeys_filter m fun e => p e.2
  refine ⟨es.keys.toFinset, ?_, fun k hk => ?_⟩
  · rw [List.toFinset_card_of_nodup hnodup, List.keys, List.length_map, values, List.filter_map,
      List.length_map]
    rfl
  · rw [List.mem_toFinset, List.keys, List.mem_map] at hk
    obtain ⟨⟨k', v⟩, he, rfl⟩ := hk
    obtain ⟨hmem, hp⟩ := List.mem_filter.mp he
    exact ⟨v, AList.mem_lookup_iff.mpr hmem, hp⟩

/-- Keys with values that satisfy `p` are no more than such values. -/
theorem card_le_values (m : HashMap K V) (p : V → Bool) (S : Finset K)
    (h : ∀ k ∈ S, ∃ v, m.lookup k = some v ∧ p v = true) :
    S.card ≤ (m.values.filter p).length := by
  let es := m.entries.filter fun e => p e.2
  have hnodup : es.NodupKeys := nodupKeys_filter m fun e => p e.2
  have hsub : S ⊆ es.keys.toFinset := by
    intro k hk
    obtain ⟨v, hv, hp⟩ := h k hk
    rw [List.mem_toFinset, List.keys, List.mem_map]
    exact ⟨⟨k, v⟩, List.mem_filter.mpr ⟨AList.mem_lookup_iff.mp hv, hp⟩, rfl⟩
  have hcard : es.keys.toFinset.card = (m.values.filter p).length := by
    rw [List.toFinset_card_of_nodup hnodup, List.keys, List.length_map, values, List.filter_map,
      List.length_map]
    rfl
  rw [← hcard]
  exact Finset.card_le_card hsub

/-! ### Lists at keys -/

/-- Append to the list at a key, which is empty where there is none. -/
def extendAt {A : Type} (m : HashMap K (List A)) (k : K) (as : List A) : HashMap K (List A) :=
  m.insert k ((m.lookup k).getD [] ++ as)

/-- The list at a key, empty where there is none. -/
def listAt {A : Type} (m : HashMap K (List A)) (k : K) : List A := (m.lookup k).getD []

theorem listAt_eq_of_lookup {A : Type} {m : HashMap K (List A)} {k : K} {as : List A}
    (h : m.lookup k = some as) : m.listAt k = as := by
  rw [listAt, h, Option.getD_some]

/-- What is in the list at a key is in a list that is there. -/
theorem lookup_of_mem_listAt {A : Type} {m : HashMap K (List A)} {k : K} {a : A}
    (h : a ∈ m.listAt k) : m.lookup k = some (m.listAt k) := by
  unfold listAt at h ⊢
  cases hk : m.lookup k with
  | none =>
    rw [hk] at h
    exact absurd h (by simp)
  | some as => rfl

theorem listAt_extendAt {A : Type} (m : HashMap K (List A)) (k k' : K) (as : List A) :
    (m.extendAt k as).listAt k' = m.listAt k' ++ if k = k' then as else [] := by
  rw [listAt, extendAt, lookup_insert_ite]
  by_cases h : k' = k
  · subst h
    simp [listAt]
  · rw [if_neg h, if_neg (Ne.symm h), List.append_nil, listAt]

/-- **Grouping**: the list at a key after the members of a list were appended one by one, each at
    its own key. -/
theorem listAt_foldl_extendAt {A B : Type} (key : B → K) (value : B → A) (l : List B)
    (m : HashMap K (List A)) (k : K) :
    (l.foldl (fun m b => m.extendAt (key b) [value b]) m).listAt k =
      m.listAt k ++ (l.filter fun b => key b = k).map value := by
  induction l generalizing m with
  | nil => simp
  | cons b l ih =>
    rw [List.foldl_cons, ih, listAt_extendAt, List.append_assoc]
    congr 1
    by_cases h : key b = k
    · simp [h]
    · simp [h]

end HashMap

/-! ### Iteration -/

/-- An order in which maps are iterated: for every map, some rearrangement of its entries. -/
structure IterationOrder (K V : Type) where
  iter : HashMap K V → List ((_ : K) × V)
  perm : ∀ m, (iter m).Perm m.entries

namespace IterationOrder

/-- The newest key first. -/
def newest (K V : Type) : IterationOrder K V := ⟨AList.entries, fun _ => .refl _⟩

/-- The oldest key first. -/
def oldest (K V : Type) : IterationOrder K V :=
  ⟨fun m => m.entries.reverse, fun _ => List.reverse_perm _⟩

variable {K V : Type} [DecidableEq K] (order : IterationOrder K V) (m : HashMap K V)

theorem mem_iter {k : K} {v : V} : ⟨k, v⟩ ∈ order.iter m ↔ m.lookup k = some v := by
  rw [(order.perm m).mem_iff, ← AList.mem_lookup_iff, Option.mem_def]

omit [DecidableEq K]

/-- The keys in the order of iteration. -/
def keys : List K := (order.iter m).map Sigma.fst

theorem mem_keys {k : K} : k ∈ order.keys m ↔ k ∈ m := by
  rw [keys, ((order.perm m).map Sigma.fst).mem_iff]
  exact AList.mem_keys

end IterationOrder
