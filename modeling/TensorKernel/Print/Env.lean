import TensorKernel.Print.Name
import TensorKernel.Scope

/-!
# Printing environments

An environment gives every name one text.  A name takes its identifier if that is free, then its
identifier with its number, and then its identifier with a suffix that makes it free.
-/

namespace TensorKernel

/-- A choice of suffixes: one that makes a text different from all the texts that are taken. -/
structure FreshSuffix where
  choose : String → List String → String
  fresh : ∀ base taken, base ++ "_" ++ choose base taken ∉ taken

namespace FreshSuffix

/-- The length of the longest of some texts. -/
def maxLength (texts : List String) : Nat :=
  texts.foldr (fun text longest => max text.length longest) 0

/-- No text is longer than the longest one. -/
theorem length_le_maxLength {text : String} {texts : List String} (h : text ∈ texts) :
    text.length ≤ maxLength texts := by
  induction texts with
  | nil => cases h
  | cons head rest ih =>
    simp only [maxLength, List.foldr_cons]
    rcases List.mem_cons.mp h with rfl | h
    · exact Nat.le_max_left _ _
    · exact Nat.le_trans (ih h) (Nat.le_max_right _ _)

/-- Suffixes that make a text longer than every text that is taken. -/
def longer : FreshSuffix where
  choose := fun _ taken => String.ofList (List.replicate (maxLength taken) 'x')
  fresh := by
    intro base taken h
    have hle := length_le_maxLength h
    simp only [String.length_append, String.length_ofList, List.length_replicate] at hle
    have : "_".length = 1 := by decide
    omega

instance : Inhabited FreshSuffix := ⟨longer⟩

end FreshSuffix

/-- The texts that are taken, the text of each name, and the indentation. -/
structure PrintEnv where
  taken : List String
  names : Scope NameKey String
  indent : Nat
  suffixes : FreshSuffix
deriving Inhabited

namespace PrintEnv

/-- How far a nested line stands to the right. -/
def indentStep : Nat := 2

/-- An environment without names. -/
def empty (suffixes : FreshSuffix) : PrintEnv := ⟨[], .empty, 0, suffixes⟩

/-- The environment that printing starts from. -/
def start : PrintEnv := empty .longer

/-- The environment of nested lines. -/
def indented (env : PrintEnv) : PrintEnv :=
  { env with indent := env.indent + indentStep }

/-- The environment of the enclosing lines; the outermost lines stay where they are. -/
def outdented (env : PrintEnv) : PrintEnv :=
  { env with indent := env.indent - indentStep }

/-- The blanks in front of a line. -/
def indentText (env : PrintEnv) : String :=
  "".pushn ' ' env.indent

/-- A text for a name that is not taken. -/
def freeText (env : PrintEnv) (name : Name) : String :=
  if !env.taken.contains name.text then name.text
  else if !env.taken.contains name.longText then name.longText
  else name.text ++ "_" ++ env.suffixes.choose name.text env.taken

/-- The text of a name, which is chosen the first time the name is printed. -/
def nameText (env : PrintEnv) (name : Name) : String × PrintEnv :=
  match env.names.get? name.key with
  | some text => (text, env)
  | none =>
    let text := env.freeText name
    (text, { env with taken := text :: env.taken, names := env.names.bind name.key text })

/-- A text that is chosen for a name was free. -/
theorem freeText_not_mem_taken (env : PrintEnv) (name : Name) : env.freeText name ∉ env.taken := by
  unfold freeText
  split
  · simp_all
  · split
    · simp_all
    · exact env.suffixes.fresh _ _

end PrintEnv

/-- Printing, which extends an environment. -/
abbrev PrintM := StateM PrintEnv

namespace PrintM

/-- The text of a name. -/
def name (name : Name) : PrintM String :=
  modifyGet fun env => env.nameText name

/-- The texts of a list of names. -/
def names : List Name → PrintM (List String)
  | [] => pure []
  | n :: ns => do
    let text ← name n
    let texts ← names ns
    pure (text :: texts)

/-- Prints nested lines. -/
def nested {α : Type} (lines : PrintM α) : PrintM α := do
  modify PrintEnv.indented
  let a ← lines
  modify PrintEnv.outdented
  pure a

/-- The text that is printed from an environment without names. -/
def run (print : PrintM String) : String :=
  (StateT.run print .start).1

end PrintM

end TensorKernel
