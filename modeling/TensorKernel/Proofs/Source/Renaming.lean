import Mathlib.Logic.Equiv.Basic
import TensorKernel.Kernel.Tree

/-!
# Renaming variables

The identifiers of an expression stand for different things: variables, kernel functions that are
called, packages and their members, named arguments, and element types and shape symbols in
annotations.  `Expr.rename` renames the variables.  The name of a function or a package in front of the
brackets of a call is none, and annotations have none.  `identifiers` lists all identifiers, whatever
they stand for.
-/

namespace TensorKernel

namespace Expr

/-- Whether an expression in front of the brackets of a call names a function or a package member. -/
def isReference : Expr → Bool
  | name _ _ => true
  | member (name _ _) _ _ => true
  | _ => false

mutual

/-- Renames the variables of an expression. -/
def rename (ρ : String → String) : Expr → Expr
  | name id span => name (ρ id) span
  | int v span => int v span
  | float v span => float v span
  | bool v span => bool v span
  | string v span => string v span
  | nothing span => nothing span
  | unary op arg span => unary op (rename ρ arg) span
  | binary lhs op rhs span => binary (rename ρ lhs) op (rename ρ rhs) span
  | boolean op operands span => boolean op (renames ρ operands) span
  | compare lhs ops comparators span => compare (rename ρ lhs) ops (renames ρ comparators) span
  | subscript target index span => subscript (rename ρ target) (rename ρ index) span
  | slice lower upper step span =>
    slice (renameOption ρ lower) (renameOption ρ upper) (renameOption ρ step) span
  | tuple elems span => tuple (renames ρ elems) span
  | member value attr span => member (rename ρ value) attr span
  | call func args keywords span =>
    call (if func.isReference then func else rename ρ func) (renames ρ args)
      (renameKeywords ρ keywords) span
  | unsupported kind span => unsupported kind span
termination_by structural e => e

/-- Renames the variables of a list of expressions. -/
def renames (ρ : String → String) : List Expr → List Expr
  | [] => []
  | e :: es => rename ρ e :: renames ρ es
termination_by structural es => es

/-- Renames the variables of an expression that may be missing. -/
def renameOption (ρ : String → String) : Option Expr → Option Expr
  | none => none
  | some e => some (rename ρ e)
termination_by structural e => e

/-- Renames the variables of named arguments. -/
def renameKeywords (ρ : String → String) : List Keyword → List Keyword
  | [] => []
  | .mk id value span :: rest => .mk id (rename ρ value) span :: renameKeywords ρ rest
termination_by structural keywords => keywords

end

mutual

/-- All identifiers in an expression. -/
def identifiers : Expr → List String
  | name id _ => [id]
  | int _ _ | float _ _ | bool _ _ | string _ _ | nothing _ | unsupported _ _ => []
  | unary _ arg _ => identifiers arg
  | binary lhs _ rhs _ => identifiers lhs ++ identifiers rhs
  | boolean _ operands _ => identifiersOfList operands
  | compare lhs _ comparators _ => identifiers lhs ++ identifiersOfList comparators
  | subscript target index _ => identifiers target ++ identifiers index
  | slice lower upper step _ =>
    identifiersOfOption lower ++ identifiersOfOption upper ++ identifiersOfOption step
  | tuple elems _ => identifiersOfList elems
  | member value attr _ => attr :: identifiers value
  | call func args keywords _ =>
    identifiers func ++ identifiersOfList args ++ identifiersOfKeywords keywords
termination_by structural e => e

/-- All identifiers in a list of expressions. -/
def identifiersOfList : List Expr → List String
  | [] => []
  | e :: es => identifiers e ++ identifiersOfList es
termination_by structural es => es

/-- All identifiers in an expression that may be missing. -/
def identifiersOfOption : Option Expr → List String
  | none => []
  | some e => identifiers e
termination_by structural e => e

/-- All identifiers in named arguments. -/
def identifiersOfKeywords : List Keyword → List String
  | [] => []
  | .mk id value _ :: rest => id :: (identifiers value ++ identifiersOfKeywords rest)
termination_by structural keywords => keywords

end

/-! ## What a renaming changes -/

section

variable {ρ ρ' : String → String}

theorem renames_eq_map (es : List Expr) : renames ρ es = es.map (rename ρ) := by
  induction es with
  | nil => rfl
  | cons e es ih => rw [renames, ih, List.map_cons]

theorem renameOption_eq_map (e : Option Expr) : renameOption ρ e = e.map (rename ρ) := by
  cases e <;> rfl

theorem integerLiteral?_rename (ρ : String → String) (e : Expr) :
    (e.rename ρ).integerLiteral? = e.integerLiteral? := by
  cases e with
  | unary op arg span => cases op <;> cases arg <;> rfl
  | _ => rfl

theorem isReference_rename (ρ : String → String) (e : Expr) :
    (e.rename ρ).isReference = e.isReference := by
  cases e with
  | member value attr span => cases value <;> rfl
  | _ => rfl

mutual

/-- Only the variables that occur matter. -/
theorem rename_congr : ∀ e : Expr, (∀ id ∈ e.identifiers, ρ id = ρ' id) → e.rename ρ = e.rename ρ'
  | name id span, h => by rw [rename, rename, h id List.mem_cons_self]
  | int _ _, _ | float _ _, _ | bool _ _, _ | string _ _, _ | nothing _, _ | unsupported _ _, _ => rfl
  | unary op arg span, h => by rw [rename, rename, rename_congr arg h]
  | binary lhs op rhs span, h => by
    obtain ⟨hlhs, hrhs⟩ := List.forall_mem_append.mp h
    rw [rename, rename, rename_congr lhs hlhs, rename_congr rhs hrhs]
  | boolean op operands span, h => by rw [rename, rename, renames_congr operands h]
  | compare lhs ops comparators span, h => by
    obtain ⟨hlhs, hcomparators⟩ := List.forall_mem_append.mp h
    rw [rename, rename, rename_congr lhs hlhs, renames_congr comparators hcomparators]
  | subscript target index span, h => by
    obtain ⟨htarget, hindex⟩ := List.forall_mem_append.mp h
    rw [rename, rename, rename_congr target htarget, rename_congr index hindex]
  | slice lower upper step span, h => by
    obtain ⟨h, hstep⟩ := List.forall_mem_append.mp h
    obtain ⟨hlower, hupper⟩ := List.forall_mem_append.mp h
    rw [rename, rename, renameOption_congr lower hlower, renameOption_congr upper hupper,
      renameOption_congr step hstep]
  | tuple elems span, h => by rw [rename, rename, renames_congr elems h]
  | member value attr span, h => by
    rw [rename, rename, rename_congr value fun id hid => h id (List.mem_cons_of_mem _ hid)]
  | call func args keywords span, h => by
    obtain ⟨h, hkeywords⟩ := List.forall_mem_append.mp h
    obtain ⟨hfunc, hargs⟩ := List.forall_mem_append.mp h
    rw [rename, rename, rename_congr func hfunc, renames_congr args hargs,
      renameKeywords_congr keywords hkeywords]
termination_by structural e => e

theorem renames_congr : ∀ es : List Expr, (∀ id ∈ identifiersOfList es, ρ id = ρ' id) →
    renames ρ es = renames ρ' es
  | [], _ => rfl
  | e :: es, h => by
    obtain ⟨he, hes⟩ := List.forall_mem_append.mp h
    rw [renames, renames, rename_congr e he, renames_congr es hes]
termination_by structural es => es

theorem renameOption_congr : ∀ e : Option Expr, (∀ id ∈ identifiersOfOption e, ρ id = ρ' id) →
    renameOption ρ e = renameOption ρ' e
  | none, _ => rfl
  | some e, h => by rw [renameOption, renameOption, rename_congr e h]
termination_by structural e => e

theorem renameKeywords_congr : ∀ keywords : List Keyword,
    (∀ id ∈ identifiersOfKeywords keywords, ρ id = ρ' id) →
      renameKeywords ρ keywords = renameKeywords ρ' keywords
  | [], _ => rfl
  | .mk _ value span :: rest, h => by
    obtain ⟨hvalue, hrest⟩ := List.forall_mem_append.mp fun id hid => h id (List.mem_cons_of_mem _ hid)
    rw [renameKeywords, renameKeywords, rename_congr value hvalue, renameKeywords_congr rest hrest]
termination_by structural keywords => keywords

end

mutual

/-- Where every variable keeps its name, nothing changes. -/
theorem rename_id : ∀ e : Expr, e.rename id = e
  | name _ _ | int _ _ | float _ _ | bool _ _ | string _ _ | nothing _ | unsupported _ _ => rfl
  | unary op arg span => by rw [rename, rename_id arg]
  | binary lhs op rhs span => by rw [rename, rename_id lhs, rename_id rhs]
  | boolean op operands span => by rw [rename, renames_id operands]
  | compare lhs ops comparators span => by rw [rename, rename_id lhs, renames_id comparators]
  | subscript target index span => by rw [rename, rename_id target, rename_id index]
  | slice lower upper step span => by
    rw [rename, renameOption_id lower, renameOption_id upper, renameOption_id step]
  | tuple elems span => by rw [rename, renames_id elems]
  | member value attr span => by rw [rename, rename_id value]
  | call func args keywords span => by
    rw [rename, rename_id func, renames_id args, renameKeywords_id keywords, ite_self]
termination_by structural e => e

theorem renames_id : ∀ es : List Expr, renames id es = es
  | [] => rfl
  | e :: es => by rw [renames, rename_id e, renames_id es]
termination_by structural es => es

theorem renameOption_id : ∀ e : Option Expr, renameOption id e = e
  | none => rfl
  | some e => by rw [renameOption, rename_id e]
termination_by structural e => e

theorem renameKeywords_id : ∀ keywords : List Keyword, renameKeywords id keywords = keywords
  | [] => rfl
  | .mk _ value _ :: rest => by rw [renameKeywords, rename_id value, renameKeywords_id rest]
termination_by structural keywords => keywords

end

end

end Expr

/-! ## Statements and functions -/

namespace Stmt

/-- Renames the variables of a statement. -/
def rename (ρ : String → String) : Stmt → Stmt
  | assign target value span => assign (target.rename ρ) (value.rename ρ) span
  | annotated target hint value span =>
    annotated (target.rename ρ) hint (value.map (Expr.rename ρ)) span
  | augmented target op value span => augmented (target.rename ρ) op (value.rename ρ) span
  | returns value span => returns (value.map (Expr.rename ρ)) span
  | expr value span => expr (value.rename ρ) span
  | pass span => pass span
  | delete span => delete span
  | conditional span => conditional span
  | loop span => loop span
  | unsupported kind span => unsupported kind span

/-- All identifiers in a statement. -/
def identifiers : Stmt → List String
  | assign target value _ => target.identifiers ++ value.identifiers
  | annotated target hint value _ =>
    target.identifiers ++ hint.identifiers ++ Expr.identifiersOfOption value
  | augmented target _ value _ => target.identifiers ++ value.identifiers
  | returns value _ => Expr.identifiersOfOption value
  | expr value _ => value.identifiers
  | pass _ | delete _ | conditional _ | loop _ | unsupported _ _ => []

variable {ρ ρ' : String → String}

theorem rename_congr {s : Stmt} (h : ∀ id ∈ s.identifiers, ρ id = ρ' id) :
    s.rename ρ = s.rename ρ' := by
  cases s with
  | assign target value | augmented target op value =>
    obtain ⟨htarget, hvalue⟩ := List.forall_mem_append.mp h
    rw [rename, rename, Expr.rename_congr target htarget, Expr.rename_congr value hvalue]
  | annotated target hint value =>
    obtain ⟨h, hvalue⟩ := List.forall_mem_append.mp h
    obtain ⟨htarget, -⟩ := List.forall_mem_append.mp h
    rw [rename, rename, Expr.rename_congr target htarget, ← Expr.renameOption_eq_map,
      Expr.renameOption_congr value hvalue, Expr.renameOption_eq_map]
  | returns value =>
    rw [rename, rename, ← Expr.renameOption_eq_map, Expr.renameOption_congr value h,
      Expr.renameOption_eq_map]
  | expr value => rw [rename, rename, Expr.rename_congr value h]
  | _ => rfl

theorem rename_id (s : Stmt) : s.rename id = s := by
  cases s with
  | annotated _ _ value | returns value =>
    cases value <;> simp [rename, Expr.rename_id]
  | _ => simp [rename, Expr.rename_id]

@[simp]
theorem span_rename (ρ : String → String) (s : Stmt) : (s.rename ρ).span = s.span := by
  cases s <;> rfl

end Stmt

namespace FunctionDef

/-- Renames the variables of the body; the parameters and the result stay as they are declared. -/
def rename (ρ : String → String) (f : FunctionDef) : FunctionDef :=
  { f with body := f.body.map (Stmt.rename ρ) }

/-- Gives one variable of the body another name. -/
def renameVariable (f : FunctionDef) (x y : String) : FunctionDef :=
  f.rename fun id => if id = x then y else id

/-- The identifiers in what is declared about the parameters: their names, and types and symbols. -/
def paramIdentifiers (f : FunctionDef) : List String :=
  f.params.flatMap fun p => p.id :: Expr.identifiersOfOption p.hint

/-- The identifiers in what is declared about the result. -/
def resultIdentifiers (f : FunctionDef) : List String :=
  match f.result with
  | .type hint => hint.identifiers
  | .missing | .void => []

/-- All identifiers in a definition. -/
def identifiers (f : FunctionDef) : List String :=
  f.id :: (f.paramIdentifiers ++ f.resultIdentifiers ++ f.body.flatMap Stmt.identifiers)

theorem rename_self (f : FunctionDef) : f.rename (fun name => name) = f := by
  have hbody : f.body.map (Stmt.rename fun name => name) = f.body := by
    conv_rhs => rw [← List.map_id f.body]
    exact List.map_congr_left fun s _ => s.rename_id
  rw [rename, hbody]

/-- Renaming to an identifier that occurs nowhere is the same as exchanging both names. -/
theorem renameVariable_eq {f : FunctionDef} {x y : String} (hy : y ∉ f.identifiers) :
    f.renameVariable x y = f.rename (Equiv.swap x y) := by
  have hbody : f.body.map (Stmt.rename fun id => if id = x then y else id) =
      f.body.map (Stmt.rename (Equiv.swap x y)) := by
    refine List.map_congr_left fun s hs => Stmt.rename_congr fun id hid => ?_
    have hne : id ≠ y := fun heq => hy <| heq ▸ by
      simp only [identifiers, List.mem_cons, List.mem_append]
      exact Or.inr (Or.inr (List.mem_flatMap.mpr ⟨s, hs, hid⟩))
    rw [Equiv.swap_apply_def, if_neg hne]
  rw [renameVariable, rename, rename, hbody]

end FunctionDef

end TensorKernel
