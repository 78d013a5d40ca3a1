import TensorKernel.Table

/-!
# Names

A name is an identifier, or an identifier with a number that tells it from other names.  Numbered
names are the same if their numbers are, whatever their identifiers.
-/

namespace TensorKernel

/-- A name of a value in an emitted program. -/
structure Name where
  text : String
  number : Option Int
deriving DecidableEq, Inhabited

/-- What decides whether two names are the same. -/
inductive NameKey where
  | plain (text : String)
  | numbered (number : Int)
deriving DecidableEq, Inhabited

namespace NameKey

/-- Plain names come before numbered ones. -/
def compare : NameKey → NameKey → Ordering
  | plain l, plain r => compareOfLessAndEq l r
  | plain _, numbered _ => .lt
  | numbered _, plain _ => .gt
  | numbered l, numbered r => compareOfLessAndEq l r

instance : LT NameKey := ⟨fun l r => l.compare r = .lt⟩

instance : DecidableLT NameKey := fun l r => inferInstanceAs (Decidable (l.compare r = .lt))

end NameKey

namespace Name

/-- A name that is only its identifier. -/
def plain (text : String) : Name := ⟨text, none⟩

/-- A name with a number. -/
def numbered (text : String) (number : Int) : Name := ⟨text, some number⟩

/-- What decides whether the name is the same as another one. -/
def key (name : Name) : NameKey :=
  match name.number with
  | some number => .numbered number
  | none => .plain name.text

/-- Whether two names are the same. -/
def same (l r : Name) : Bool :=
  l.key == r.key

/-- The order of names is that of their keys. -/
def compare (l r : Name) : Ordering :=
  l.key.compare r.key

/-- The identifier with the number, if there is one. -/
def longText (name : Name) : String :=
  match name.number with
  | some number => s!"{name.text}_{number}"
  | none => name.text

end Name

end TensorKernel
