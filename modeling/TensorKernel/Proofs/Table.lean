import TensorKernel.Scope

/-!
# Entries of tables and scopes

How looking up a key, listing the entries and inserting a pair are related, and which keys a scope
knows.
-/

namespace TensorKernel

namespace Table

variable {κ α : Type} [DecidableEq κ]

theorem mem_of_lookup {key : κ} {value : α} {pairs : List (κ × α)}
    (h : lookup key pairs = some value) : (key, value) ∈ pairs := by
  induction pairs with
  | nil => cases h
  | cons pair rest ih =>
    obtain ⟨other, previous⟩ := pair
    by_cases same : key = other
    · subst same
      simp only [lookup, if_true, Option.some.injEq] at h
      simp [h]
    · exact List.mem_cons_of_mem _ (ih (by simpa [lookup, same] using h))

theorem mem_of_get? {table : Table κ α} {key : κ} {value : α} (h : table.get? key = some value) :
    (key, value) ∈ table.entries :=
  mem_of_lookup h

theorem contains_of_mem {table : Table κ α} {key : κ} {value : α}
    (h : (key, value) ∈ table.entries) : table.contains key = true :=
  (contains_iff_mem_keys table key).mpr (List.mem_map_of_mem (f := Prod.fst) h)

theorem get?_eq_some_of_contains {table : Table κ α} {key : κ} (h : table.contains key = true) :
    ∃ value, table.get? key = some value :=
  Option.isSome_iff_exists.mp h

/-- A pair is found in a list in which no key stands twice. -/
theorem lookup_of_mem {key : κ} {value : α} {pairs : List (κ × α)} (hnodup : (pairs.map Prod.fst).Nodup)
    (h : (key, value) ∈ pairs) : lookup key pairs = some value := by
  induction pairs with
  | nil => cases h
  | cons pair rest ih =>
    rw [List.map_cons, List.nodup_cons] at hnodup
    rcases List.mem_cons.mp h with rfl | h
    · exact if_pos rfl
    · have hne : key ≠ pair.1 := fun heq =>
        hnodup.1 (heq ▸ List.mem_map_of_mem (f := Prod.fst) h)
      show (if key = pair.1 then some pair.2 else lookup key rest) = _
      rw [if_neg hne, ih hnodup.2 h]

/-- An entry is found if no key is listed twice. -/
theorem get?_of_mem {table : Table κ α} {key : κ} {value : α} (hnodup : table.keys.Nodup)
    (h : (key, value) ∈ table.entries) : table.get? key = some value :=
  lookup_of_mem hnodup h

variable [LT κ] [DecidableLT κ]

/-- Every value of a table has a property after a value with it was inserted. -/
theorem forall_get?_insert {P : α → Prop} {table : Table κ α}
    (h : ∀ key value, table.get? key = some value → P value) (key : κ) {value : α}
    (hvalue : P value) : ∀ key' value', (table.insert key value).get? key' = some value' → P value' := by
  intro key' value' hget
  rw [get?_insert] at hget
  split at hget
  · exact Option.some.inj hget ▸ hvalue
  · exact h key' value' hget

/-- Inserting a new key adds one entry and keeps the others. -/
theorem place_perm {key : κ} {value : α} {pairs : List (κ × α)}
    (h : lookup key pairs = none) : (place key value pairs).Perm ((key, value) :: pairs) := by
  induction pairs with
  | nil => exact List.Perm.refl _
  | cons pair rest ih =>
    obtain ⟨other, previous⟩ := pair
    by_cases same : key = other
    · simp [lookup, same] at h
    · by_cases less : key < other
      · simp only [place, same, less, if_false, if_true]
        exact List.Perm.refl _
      · simp only [place, same, less, if_false]
        have hrest := ih (by simpa [lookup, same] using h)
        exact (hrest.cons _).trans (List.Perm.swap _ _ _)

theorem insert_perm {table : Table κ α} {key : κ} (value : α) (h : table.contains key = false) :
    (table.insert key value).entries.Perm ((key, value) :: table.entries) :=
  place_perm (by simpa [contains, get?] using h)

/-- A new key adds one pair and keeps the others. -/
theorem mem_entries_insert {table : Table κ α} {key : κ} {value : α}
    (h : table.contains key = false) {pair : κ × α} :
    pair ∈ (table.insert key value).entries ↔ pair = (key, value) ∨ pair ∈ table.entries :=
  (insert_perm value h).mem_iff.trans List.mem_cons

theorem length_place_le (key : κ) (value : α) (pairs : List (κ × α)) :
    (place key value pairs).length ≤ pairs.length + 1 := by
  induction pairs with
  | nil => exact Nat.le_refl _
  | cons pair rest ih =>
    obtain ⟨other, previous⟩ := pair
    simp only [place]
    split
    · simp
    · split
      · simp
      · simpa using ih

/-- A table has no more keys than the list it was made of. -/
theorem length_keys_ofList_le (pairs : List (κ × α)) : (ofList pairs).keys.length ≤ pairs.length := by
  have hfold : ∀ (rest : List (κ × α)) (table : Table κ α),
      (rest.foldl (fun table pair => table.insert pair.1 pair.2) table).entries.length ≤
        table.entries.length + rest.length := by
    intro rest
    induction rest with
    | nil => exact fun table => Nat.le_refl _
    | cons pair rest ih =>
      intro table
      have hplace := length_place_le pair.1 pair.2 table.entries
      have hrest := ih (table.insert pair.1 pair.2)
      simp only [insert] at hrest
      simp only [List.foldl_cons, List.length_cons, insert]
      omega
  simpa [keys, ofList, empty] using hfold pairs empty

/-- A pair is found in the table of a list in which every key stands once. -/
theorem get?_ofList_of_mem {pairs : List (κ × α)} (hnodup : (pairs.map Prod.fst).Nodup) {key : κ}
    {value : α} (h : (key, value) ∈ pairs) : (ofList pairs).get? key = some value := by
  have hfold : ∀ (rest : List (κ × α)) (table : Table κ α), (rest.map Prod.fst).Nodup →
      ((key, value) ∈ rest ∨ key ∉ rest.map Prod.fst ∧ table.get? key = some value) →
      (rest.foldl (fun table pair => table.insert pair.1 pair.2) table).get? key = some value := by
    intro rest
    induction rest with
    | nil => exact fun table _ h => (h.resolve_left (List.not_mem_nil)).2
    | cons pair rest ih =>
      intro table hnodup h
      obtain ⟨hnew, hrest⟩ := List.nodup_cons.mp hnodup
      refine ih _ hrest ?_
      rcases h with h | ⟨hkey, htable⟩
      · rcases List.mem_cons.mp h with rfl | h
        · exact Or.inr ⟨hnew, by simp⟩
        · exact Or.inl h
      · have hne : key ≠ pair.1 := fun heq => hkey (heq ▸ List.mem_cons_self ..)
        exact Or.inr ⟨fun h => hkey (List.mem_cons_of_mem _ h), by rw [get?_insert, if_neg hne, htable]⟩
  exact hfold pairs empty hnodup (Or.inl h)

/-- What is looked up in the table of a list of pairs is in that list. -/
theorem mem_of_get?_ofList {pairs : List (κ × α)} {key : κ} {value : α}
    (h : (ofList pairs).get? key = some value) : (key, value) ∈ pairs := by
  have hfold : ∀ (rest : List (κ × α)) (table : Table κ α),
      (rest.foldl (fun table pair => table.insert pair.1 pair.2) table).get? key = some value →
      (key, value) ∈ rest ∨ table.get? key = some value := by
    intro rest
    induction rest with
    | nil => exact fun _ h => Or.inr h
    | cons pair rest ih =>
      intro table h
      rcases ih _ h with hmem | hget
      · exact Or.inl (List.mem_cons_of_mem _ hmem)
      · rw [get?_insert] at hget
        split at hget
        · next heq =>
          rw [heq, ← Option.some.inj hget]
          exact Or.inl (List.mem_cons_self ..)
        · exact Or.inr hget
  rcases hfold pairs empty h with hmem | hget
  · exact hmem
  · cases hget

end Table

/-- When keys are paired with as many values, exactly the keys have one. -/
theorem Scope.get?_ofList_zip {κ α : Type} [DecidableEq κ] {keys : List κ} {values : List α}
    (hlength : keys.length = values.length) (key : κ) :
    ((Scope.ofList (keys.zip values)).get? key).isSome = true ↔ key ∈ keys := by
  have hkeys : (keys.zip values).reverse.map Prod.fst = keys.reverse := by
    rw [List.map_reverse, List.map_fst_zip (Nat.le_of_eq hlength)]
  unfold Scope.get? Scope.ofList
  rw [Table.lookup_isSome_iff, hkeys, List.mem_reverse]

/-- A pair is found in the scope of a list in which no key stands twice. -/
theorem Scope.get?_ofList_of_mem {κ α : Type} [DecidableEq κ] {pairs : List (κ × α)}
    (hnodup : (pairs.map Prod.fst).Nodup) {key : κ} {value : α} (h : (key, value) ∈ pairs) :
    (Scope.ofList pairs).get? key = some value := by
  apply Table.lookup_of_mem
  · rw [Scope.ofList, List.map_reverse]
    exact (List.reverse_perm _).nodup_iff.mpr hnodup
  · exact List.mem_reverse.mpr h

end TensorKernel
