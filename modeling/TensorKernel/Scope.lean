import TensorKernel.Table

/-!
# Scopes

A scope gives keys values while a program is walked.  A new binding of a key hides the older ones,
so that binding takes no time and nothing is ever removed.  `get?_bind` says what a binding changes:
the value of its own key and no other.
-/

namespace TensorKernel

/-- The bindings of keys to values, the newest first. -/
structure Scope (κ α : Type) where
  bindings : List (κ × α)
deriving DecidableEq, Inhabited

namespace Scope

variable {κ α : Type}

/-- The scope without bindings. -/
def empty : Scope κ α := ⟨[]⟩

/-- The bindings of a table. -/
def ofTable (table : Table κ α) : Scope κ α := ⟨table.entries⟩

/-- The scope of the given pairs, where the last pair of a key decides its value. -/
def ofList (pairs : List (κ × α)) : Scope κ α := ⟨pairs.reverse⟩

/-- The value of the newest binding of a key. -/
def get? [DecidableEq κ] (scope : Scope κ α) (key : κ) : Option α :=
  Table.lookup key scope.bindings

/-- Gives a key a value, whatever value it had. -/
def bind (scope : Scope κ α) (key : κ) (value : α) : Scope κ α :=
  ⟨(key, value) :: scope.bindings⟩

/-- An empty scope has no values. -/
@[simp]
theorem get?_of_empty [DecidableEq κ] (key : κ) : (empty : Scope κ α).get? key = none := rfl

/-- A table and the scope of its bindings have the same values. -/
@[simp]
theorem get?_ofTable [DecidableEq κ] (table : Table κ α) (key : κ) :
    (ofTable table).get? key = table.get? key := rfl

/-- Binding changes the value of one key only. -/
theorem get?_bind [DecidableEq κ] (scope : Scope κ α) (key other : κ) (value : α) :
    (scope.bind key value).get? other = if other = key then some value else scope.get? other := rfl

/-- A pair at the end of a list is the newest binding. -/
theorem ofList_append_singleton (pairs : List (κ × α)) (key : κ) (value : α) :
    ofList (pairs ++ [(key, value)]) = (ofList pairs).bind key value := by
  simp [ofList, bind]

end Scope

end TensorKernel
