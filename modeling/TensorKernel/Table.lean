/-!
# Finite tables in key order

A table is a list of pairs of a key and a value.  `Table.insert` keeps the pairs in increasing order
of their keys and replaces the value of a key that is already there, so `entries` lists a table in
key order and every key once.

The laws of look-up do not need that order: `get?_insert` holds of every table.
-/

namespace TensorKernel

/-- A finite map, kept as the list of its pairs in increasing order of the keys. -/
structure Table (κ α : Type) where
  entries : List (κ × α)
deriving DecidableEq, Inhabited

namespace Table

variable {κ α : Type}

/-- The table without entries. -/
def empty : Table κ α := ⟨[]⟩

instance : EmptyCollection (Table κ α) := ⟨empty⟩

/-- The value of the first pair with the given key. -/
def lookup [DecidableEq κ] (key : κ) : List (κ × α) → Option α
  | [] => none
  | (other, value) :: rest => if key = other then some value else lookup key rest

/-- The value of a key, if it has one. -/
def get? [DecidableEq κ] (table : Table κ α) (key : κ) : Option α :=
  lookup key table.entries

/-- Whether a key has a value. -/
def contains [DecidableEq κ] (table : Table κ α) (key : κ) : Bool :=
  (table.get? key).isSome

/-- Puts a pair before the first greater key, in place of a pair with the same key. -/
def place [DecidableEq κ] [LT κ] [DecidableLT κ] (key : κ) (value : α) :
    List (κ × α) → List (κ × α)
  | [] => [(key, value)]
  | (other, previous) :: rest =>
    if key = other then (key, value) :: rest
    else if key < other then (key, value) :: (other, previous) :: rest
    else (other, previous) :: place key value rest

/-- Gives a key a value, replacing the value it had. -/
def insert [DecidableEq κ] [LT κ] [DecidableLT κ] (table : Table κ α) (key : κ) (value : α) :
    Table κ α :=
  ⟨place key value table.entries⟩

/-- The table of the given pairs, where the last pair of a key decides its value. -/
def ofList [DecidableEq κ] [LT κ] [DecidableLT κ] (pairs : List (κ × α)) : Table κ α :=
  pairs.foldl (fun table pair => table.insert pair.1 pair.2) empty

/-- The keys of a table, in increasing order. -/
def keys (table : Table κ α) : List κ :=
  table.entries.map Prod.fst

/-- Placing a pair changes the value of its key only. -/
theorem lookup_place [DecidableEq κ] [LT κ] [DecidableLT κ] (key other : κ) (value : α)
    (pairs : List (κ × α)) :
    lookup other (place key value pairs) =
      if other = key then some value else lookup other pairs := by
  induction pairs with
  | nil => simp [place, lookup]
  | cons pair rest ih =>
    obtain ⟨head, previous⟩ := pair
    by_cases same : key = head
    · subst same
      by_cases found : other = key <;> simp [place, lookup, found]
    · by_cases less : key < head
      · by_cases found : other = key <;> simp [place, lookup, same, less, found]
      · by_cases found : other = head
        · subst found
          simp [place, lookup, same, less, Ne.symm same]
        · simp [place, lookup, same, less, found, ih]

/-- An empty table has no values. -/
@[simp]
theorem get?_empty [DecidableEq κ] (key : κ) : (empty : Table κ α).get? key = none := rfl

/-- Insertion changes the value of one key only. -/
theorem get?_insert [DecidableEq κ] [LT κ] [DecidableLT κ] (table : Table κ α) (key other : κ)
    (value : α) :
    (table.insert key value).get? other = if other = key then some value else table.get? other :=
  lookup_place key other value table.entries

/-- An inserted value is found. -/
@[simp]
theorem get?_insert_self [DecidableEq κ] [LT κ] [DecidableLT κ] (table : Table κ α) (key : κ)
    (value : α) : (table.insert key value).get? key = some value := by
  simp [get?_insert]

/-- The keys after an insertion are the old ones and the new one. -/
theorem contains_insert [DecidableEq κ] [LT κ] [DecidableLT κ] (table : Table κ α) (key other : κ)
    (value : α) :
    (table.insert key value).contains other = (decide (other = key) || table.contains other) := by
  by_cases same : other = key <;> simp [contains, get?_insert, same]

/-- A key has a value if and only if it is the key of some pair. -/
theorem lookup_isSome_iff [DecidableEq κ] (key : κ) (pairs : List (κ × α)) :
    (lookup key pairs).isSome = true ↔ key ∈ pairs.map Prod.fst := by
  induction pairs with
  | nil => simp [lookup]
  | cons pair rest ih =>
    obtain ⟨other, value⟩ := pair
    by_cases same : key = other <;> simp [lookup, same, ih]

/-- A table contains exactly the keys it lists. -/
theorem contains_iff_mem_keys [DecidableEq κ] (table : Table κ α) (key : κ) :
    table.contains key = true ↔ key ∈ table.keys :=
  lookup_isSome_iff key table.entries

end Table

end TensorKernel
