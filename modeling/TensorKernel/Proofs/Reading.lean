import Mathlib.Algebra.Group.Int.Defs
import Mathlib.Logic.Relation
import TensorKernel.Proofs.Except
import TensorKernel.Surface.Kernels

/-!
# What is read of a module, and what is refused

Reading visits the expressions of a function from the outside in, but for those inside of forms that
kernels do not use.  `Surface.Expr.Offends` says what it refuses to see of a single expression, and
likewise for statements and parameters.  Reading a module fails exactly if a function has something
of the kind at a place that is visited, and says what it was.

`Surface.Refuses` is carried through the recursion.  It pairs the two directions, as a step that comes
after another one need not be reached.
-/

namespace TensorKernel

namespace Surface

open Relation (ReflTransGen)

/-! ## Operators -/

/-- The unary operators of the host language. -/
def unaryOps : List String := ["UAdd", "USub", "Not", "Invert"]

/-- The boolean operators of the host language. -/
def booleanOps : List String := ["And", "Or"]

/-- The arithmetic operators that kernels use. -/
def arithmeticOps : List String :=
  ["Add", "Sub", "Mult", "Div", "FloorDiv", "Mod", "Pow", "BitAnd", "BitOr", "BitXor"]

/-- The comparisons that kernels use. -/
def comparisonOps : List String := ["Eq", "NotEq", "Lt", "LtE", "Gt", "GtE"]

/-- The arithmetic operators of the host language. -/
def hostArithmeticOps : List String := arithmeticOps ++ ["MatMult", "LShift", "RShift"]

/-- The comparisons of the host language. -/
def hostComparisonOps : List String := comparisonOps ++ ["Is", "IsNot", "In", "NotIn"]

/-! ## Expressions -/

/-- The expression of a named argument. -/
def Keyword.value : Keyword → Expr
  | .mk _ value => value

namespace Expr

/-- The expressions inside of an expression; there are none in a form that kernels do not use. -/
def children : Expr → List Expr
  | .name _ _ => []
  | .constant _ _ => []
  | .unary _ operand _ => [operand]
  | .binary left _ right _ => [left, right]
  | .boolean _ operands _ => operands
  | .compare left _ comparators _ => left :: comparators
  | .subscript value index _ => [value, index]
  | .slice lower upper step _ => lower.toList ++ upper.toList ++ step.toList
  | .tuple elems _ => elems
  | .member value _ _ => [value]
  | .call func args keywords _ => func :: (args ++ keywords.map Keyword.value)
  | .other _ _ => []

/-- An expression at whatever depth, outside of forms that kernels do not use. -/
def Contains : Expr → Expr → Prop :=
  ReflTransGen fun e e' => e' ∈ e.children

/-- What is refused about an expression itself. -/
def Offends : Expr → Fault → Prop
  | .binary _ op _ _, fault => op ∉ arithmeticOps ∧ fault = .binaryOperator op
  | .compare _ ops _ _, fault => ∃ op ∈ ops, op ∉ comparisonOps ∧ fault = .binaryOperator op
  | .call _ _ keywords _, fault => (∃ value, .mk none value ∈ keywords) ∧ fault = .keywordUnpacking
  | .constant (.int v) _, fault => ¬ (-2 ^ 127 ≤ v ∧ v < 2 ^ 127) ∧ fault = .integerTooLarge v
  | _, _ => False

/-- What is refused about some expression that is visited. -/
def Faulty (e : Expr) (fault : Fault) : Prop :=
  ∃ e', e.Contains e' ∧ e'.Offends fault

/-- The operators of an expression are those of the host language. -/
def Proper : Expr → Prop
  | .unary op _ _ => op ∈ unaryOps
  | .boolean op _ _ => op ∈ booleanOps
  | .binary _ op _ _ => op ∈ hostArithmeticOps
  | .compare _ ops _ _ => ∀ op ∈ ops, op ∈ hostComparisonOps
  | _ => True

/-- All expressions that are visited are proper. -/
def WellFormed (e : Expr) : Prop :=
  ∀ e', e.Contains e' → e'.Proper

theorem faulty_iff {e : Expr} {fault : Fault} :
    e.Faulty fault ↔ e.Offends fault ∨ ∃ child ∈ e.children, child.Faulty fault := by
  constructor
  · rintro ⟨e', hcontains, hoffends⟩
    rcases ReflTransGen.cases_head hcontains with rfl | ⟨child, hchild, hrest⟩
    · exact Or.inl hoffends
    · exact Or.inr ⟨child, hchild, e', hrest, hoffends⟩
  · rintro (hoffends | ⟨child, hchild, e', hrest, hoffends⟩)
    · exact ⟨e, .refl, hoffends⟩
    · exact ⟨e', .head hchild hrest, hoffends⟩

theorem wellFormed_iff {e : Expr} :
    e.WellFormed ↔ e.Proper ∧ ∀ child ∈ e.children, child.WellFormed := by
  constructor
  · exact fun h => ⟨h e .refl, fun child hchild e' hrest => h e' (.head hchild hrest)⟩
  · rintro ⟨hproper, hchildren⟩ e' hcontains
    rcases ReflTransGen.cases_head hcontains with rfl | ⟨child, hchild, hrest⟩
    · exact hproper
    · exact hchildren child hchild e' hrest

end Expr

/-! ## Statements and functions -/

namespace Stmt

/-- The expressions of a statement; there are none in a form that kernels do not use. -/
def exprs : Stmt → List Expr
  | .assign target more value _ => target :: (more ++ [value])
  | .annotated target hint value _ => target :: hint :: value.toList
  | .augmented target _ value _ => [target, value]
  | .returns value _ => value.toList
  | .expr value _ => [value]
  | .other _ _ => []

/-- What is refused about a statement itself. -/
def Offends : Stmt → Fault → Prop
  | .assign _ more _ _, fault => more ≠ [] ∧ fault = .multipleTargets
  | .augmented _ op _ _, fault => op ∉ arithmeticOps ∧ fault = .binaryOperator op
  | _, _ => False

/-- The operator of an assignment is one of the host language. -/
def Proper : Stmt → Prop
  | .augmented _ op _ _ => op ∈ hostArithmeticOps
  | _ => True

end Stmt

namespace FunctionDef

/-- The annotations of a function. -/
def annotations (f : FunctionDef) : List Expr :=
  f.params.plain.filterMap Param.hint ++ f.result.toList

/-- The expressions of a function: its annotations, and those of the statements in its body. -/
def exprs (f : FunctionDef) : List Expr :=
  f.annotations ++ f.body.flatMap Stmt.exprs

/-- An expression of a function is in a parameter, in the result or in a statement. -/
theorem exists_mem_exprs_iff {f : FunctionDef} {P : Expr → Prop} :
    (∃ e ∈ f.exprs, P e) ↔ (∃ p ∈ f.params.plain, ∃ e ∈ p.hint.toList, P e) ∨
      (∃ e ∈ f.result.toList, P e) ∨ ∃ s ∈ f.body, ∃ e ∈ s.exprs, P e := by
  simp only [exprs, annotations, List.mem_append, List.mem_filterMap, List.mem_flatMap, or_and_right,
    exists_or, or_assoc, Option.mem_toList, ← exists_and_right, ← exists_and_left, and_assoc]
  rw [exists_comm, exists_comm (p := fun e s => s ∈ f.body ∧ e ∈ s.exprs ∧ P e)]

/-- What is refused about the parameters of a function. -/
def Offends (f : FunctionDef) (fault : Fault) : Prop :=
  (f.params.positionalOnly ≠ [] ∨ f.params.keywordOnly ≠ []) ∧ fault = .nonPositionalParams f.id ∨
    (f.params.variadic.isSome ∨ f.params.keywordVariadic.isSome) ∧ fault = .variadicParams f.id ∨
    f.params.defaults ≠ [] ∧ fault = .defaultValues f.id

/-- What is refused about a function, one of its statements, or an expression in it. -/
def Faulty (f : FunctionDef) (fault : Fault) : Prop :=
  f.Offends fault ∨ (∃ s ∈ f.body, s.Offends fault) ∨ ∃ e ∈ f.exprs, e.Faulty fault

/-- The operators in a function are those of the host language. -/
def WellFormed (f : FunctionDef) : Prop :=
  (∀ s ∈ f.body, s.Proper) ∧ ∀ e ∈ f.exprs, e.WellFormed

end FunctionDef

/-! ## Refusing -/

/-- Reading fails exactly if there is something to refuse, and it says what it was. -/
structure Refuses {α : Type} (r : Except ReadError α) (P : Fault → Prop) : Prop where
  sound : ∀ err, r = .error err → P err.fault
  complete : ∀ fault, P fault → ∃ err, r = .error err

section Rules

variable {α β : Type} {r : Except ReadError α} {P Q : Fault → Prop}

theorem Refuses.congr (h : Refuses r P) (hPQ : ∀ fault, P fault ↔ Q fault) : Refuses r Q where
  sound err herr := (hPQ _).mp (h.sound err herr)
  complete fault hfault := h.complete fault ((hPQ fault).mpr hfault)

theorem refuses_ok {a : α} (h : ∀ fault, ¬ P fault) : Refuses (.ok a) P :=
  ⟨nofun, fun fault hfault => absurd hfault (h fault)⟩

theorem refuses_error {fault : Fault} {span : Span} (h : P fault) :
    Refuses (.error ⟨fault, span⟩ : Except ReadError α) P :=
  ⟨fun _ herr => Except.error.inj herr ▸ h, fun _ _ => ⟨_, rfl⟩⟩

/-- Of two steps, what the second one refuses counts also if it is not reached. -/
theorem Refuses.bind {f : α → Except ReadError β} (h : Refuses r P)
    (hf : ∀ a, Refuses (f a) Q) : Refuses (r >>= f) fun fault => P fault ∨ Q fault := by
  cases r with
  | error err =>
    refine ⟨fun err' herr => Or.inl (h.sound err' ?_), fun _ _ => ⟨err, rfl⟩⟩
    rw [← Except.error.inj herr]
  | ok a =>
    refine ⟨fun err herr => Or.inr ((hf a).sound err herr), fun fault hfault => ?_⟩
    rcases hfault with hfirst | hsecond
    · obtain ⟨_, herr⟩ := h.complete fault hfirst
      cases herr
    · exact (hf a).complete fault hsecond

/-- What is made of a result afterwards refuses nothing. -/
theorem Refuses.map (h : Refuses r P) (f : α → β) : Refuses (r >>= fun a => .ok (f a)) P :=
  (h.bind fun _ => refuses_ok (P := fun _ => False) fun _ => id).congr fun _ =>
    or_iff_left id

theorem refuses_mapM {γ : Type} {f : γ → Except ReadError β} {P : γ → Fault → Prop} {xs : List γ}
    (h : ∀ x ∈ xs, Refuses (f x) (P x)) :
    Refuses (xs.mapM f) fun fault => ∃ x ∈ xs, P x fault where
  sound err herr := by
    obtain ⟨x, hx, hfails⟩ := exists_of_mapM_error herr
    exact ⟨x, hx, (h x hx).sound err hfails⟩
  complete fault hfault := by
    obtain ⟨x, hx, hP⟩ := hfault
    obtain ⟨err, herr⟩ := (h x hx).complete fault hP
    cases hmap : xs.mapM f with
    | error err' => exact ⟨err', rfl⟩
    | ok ys =>
      obtain ⟨y, -, hy⟩ := exists_ok_of_mem hmap x hx
      rw [herr] at hy
      cases hy

end Rules

/-! ## Reading operators and constants -/

theorem refuses_readUnary {op : String} (hop : op ∈ unaryOps) (span : Span)
    (operand : TensorKernel.Expr) : Refuses (readUnary span op operand) fun _ => False := by
  have hsome : ∀ op ∈ unaryOps, (unaryOp? op).isSome = true := by decide
  obtain ⟨found, hfound⟩ := Option.isSome_iff_exists.mp (hsome op hop)
  rw [readUnary, hfound]
  cases found <;> exact refuses_ok fun _ => id

theorem refuses_readBooleanOp {op : String} (hop : op ∈ booleanOps) (span : Span) :
    Refuses (readBooleanOp span op) fun _ => False := by
  have hsome : ∀ op ∈ booleanOps, (booleanOp? op).isSome = true := by decide
  obtain ⟨found, hfound⟩ := Option.isSome_iff_exists.mp (hsome op hop)
  rw [readBooleanOp, hfound]
  exact refuses_ok fun _ => id

/-- Of the operators that may stand somewhere, the ones that kernels use are read. -/
theorem refuses_readBinaryOp {host supported : List String}
    (hhost : ∀ op ∈ host, (binaryOp? op).isSome = decide (op ∈ supported)) {op : String}
    (hop : op ∈ host) (span : Span) :
    Refuses (readBinaryOp span op) fun fault => op ∉ supported ∧ fault = .binaryOperator op := by
  have hsupported := hhost op hop
  unfold readBinaryOp
  cases hfound : binaryOp? op with
  | some found =>
    rw [hfound, Option.isSome_some, eq_comm, decide_eq_true_eq] at hsupported
    exact refuses_ok fun _ h => h.1 hsupported
  | none =>
    rw [hfound, Option.isSome_none, eq_comm, decide_eq_false_iff_not] at hsupported
    exact refuses_error ⟨hsupported, rfl⟩

theorem refuses_readArithmetic {op : String} (hop : op ∈ hostArithmeticOps) (span : Span) :
    Refuses (readBinaryOp span op) fun fault => op ∉ arithmeticOps ∧ fault = .binaryOperator op :=
  refuses_readBinaryOp (by decide) hop span

theorem refuses_readComparison {op : String} (hop : op ∈ hostComparisonOps) (span : Span) :
    Refuses (readBinaryOp span op) fun fault => op ∉ comparisonOps ∧ fault = .binaryOperator op :=
  refuses_readBinaryOp (by decide) hop span

/-- An integer fits into 128 bits if and only if it is congruent to nothing but itself there. -/
theorem wrapInt_eq_self_iff (v : Int) :
    TensorKernel.Expr.wrapInt v = v ↔ -2 ^ 127 ≤ v ∧ v < 2 ^ 127 := by
  have hwidth : ((Nat.pow 2 128 : Nat) : Int) = 2 ^ 128 := by decide
  unfold TensorKernel.Expr.wrapInt
  constructor
  · intro h
    have hlow := Int.le_bmod (x := v) (m := Nat.pow 2 128) (by decide)
    have hhigh := Int.bmod_lt (x := v) (m := Nat.pow 2 128) (by decide)
    rw [h, hwidth] at hlow hhigh
    omega
  · rintro ⟨hlow, hhigh⟩
    exact Int.bmod_eq_of_le (by rw [hwidth]; omega) (by rw [hwidth]; omega)

theorem refuses_readConstant (span : Span) (location : Location) (value : Constant) :
    Refuses (readConstant span value) (Expr.constant value location).Offends := by
  cases value with
  | int v =>
    by_cases hfits : -2 ^ 127 ≤ v ∧ v < 2 ^ 127
    · rw [readConstant, if_pos ((wrapInt_eq_self_iff v).mpr hfits)]
      exact refuses_ok fun _ h => h.1 hfits
    · rw [readConstant, if_neg (mt (wrapInt_eq_self_iff v).mp hfits)]
      exact refuses_error ⟨hfits, rfl⟩
  | nothing | bool | float | string | other => exact refuses_ok fun _ => id

/-! ## Reading expressions -/

section Expressions

variable (source : Source)

mutual

/-- An expression is refused for itself or for one of its children, in the order of the text. -/
theorem refuses_readExpr : ∀ e : Expr, e.WellFormed → Refuses (readExpr source e) e.Faulty
  | .name _ _, _ => refuses_ok fun fault => by
    rw [Expr.faulty_iff]
    simp [Expr.Offends, Expr.children]
  | .constant value location, _ => (refuses_readConstant _ location value).congr fun fault => by
    rw [Expr.faulty_iff]
    simp [Expr.children]
  | .unary op operand location, h => by
    obtain ⟨hop, hchildren⟩ := Expr.wellFormed_iff.mp h
    have hoperand := refuses_readExpr operand (hchildren _ (List.mem_singleton_self _))
    refine (hoperand.bind fun operand => refuses_readUnary hop _ operand).congr fun fault => ?_
    rw [Expr.faulty_iff (e := .unary ..)]
    simp [Expr.Offends, Expr.children]
  | .binary left op right location, h => by
    obtain ⟨hop, hchildren⟩ := Expr.wellFormed_iff.mp h
    have hleft := refuses_readExpr left (hchildren _ (by simp [Expr.children]))
    have hright := refuses_readExpr right (hchildren _ (by simp [Expr.children]))
    refine Refuses.congr (hleft.bind fun _ => (refuses_readArithmetic hop _).bind fun _ =>
      hright.map _) fun fault => ?_
    rw [Expr.faulty_iff (e := .binary ..)]
    simp [Expr.Offends, Expr.children, or_left_comm]
  | .boolean op operands location, h => by
    obtain ⟨hop, hchildren⟩ := Expr.wellFormed_iff.mp h
    have hoperands := refuses_readExprs operands hchildren
    exact Refuses.congr ((refuses_readBooleanOp hop _).bind fun _ => hoperands.map _) fun fault =>
      (Expr.faulty_iff (e := .boolean ..)).symm
  -- All operators are read before the comparators, so they are refused first.
  | .compare left ops comparators location, h => by
    obtain ⟨hops, hchildren⟩ := Expr.wellFormed_iff.mp h
    obtain ⟨hleft, hcomparators⟩ := List.forall_mem_cons.mp hchildren
    have hreads := refuses_mapM fun op hop =>
      refuses_readComparison (hops op hop) (source.span location)
    refine Refuses.congr ((refuses_readExpr left hleft).bind fun _ => hreads.bind fun _ =>
      (refuses_readExprs comparators hcomparators).map _) fun fault => ?_
    rw [Expr.faulty_iff (e := .compare ..)]
    simp [Expr.Offends, Expr.children, or_left_comm]
  | .subscript value index location, h => by
    obtain ⟨-, hchildren⟩ := Expr.wellFormed_iff.mp h
    have hvalue := refuses_readExpr value (hchildren _ (by simp [Expr.children]))
    have hindex := refuses_readExpr index (hchildren _ (by simp [Expr.children]))
    refine Refuses.congr (hvalue.bind fun _ => hindex.map _) fun fault => ?_
    rw [Expr.faulty_iff (e := .subscript ..)]
    simp [Expr.Offends, Expr.children]
  | .slice lower upper step location, h => by
    obtain ⟨-, hchildren⟩ := Expr.wellFormed_iff.mp h
    simp only [Expr.children, List.forall_mem_append] at hchildren
    obtain ⟨⟨hlower, hupper⟩, hstep⟩ := hchildren
    refine Refuses.congr ((refuses_readOption lower hlower).bind fun _ =>
      (refuses_readOption upper hupper).bind fun _ => (refuses_readOption step hstep).map _)
        fun fault => ?_
    rw [Expr.faulty_iff (e := .slice ..)]
    simp only [Expr.Offends, Expr.children, List.mem_append, or_and_right, exists_or, false_or,
      or_assoc]
  | .tuple elems location, h => by
    obtain ⟨-, hchildren⟩ := Expr.wellFormed_iff.mp h
    refine Refuses.congr ((refuses_readExprs elems hchildren).map _) fun fault => ?_
    rw [Expr.faulty_iff (e := .tuple ..)]
    simp [Expr.Offends, Expr.children]
  | .member value attr location, h => by
    obtain ⟨-, hchildren⟩ := Expr.wellFormed_iff.mp h
    have hvalue := refuses_readExpr value (hchildren _ (List.mem_singleton_self _))
    refine Refuses.congr (hvalue.map _) fun fault => ?_
    rw [Expr.faulty_iff (e := .member ..)]
    simp [Expr.Offends, Expr.children]
  | .call func args keywords location, h => by
    obtain ⟨-, hchildren⟩ := Expr.wellFormed_iff.mp h
    obtain ⟨hfunc, hrest⟩ := List.forall_mem_cons.mp hchildren
    obtain ⟨hargs, hkeywords⟩ := List.forall_mem_append.mp hrest
    refine Refuses.congr ((refuses_readExpr func hfunc).bind fun _ =>
      (refuses_readExprs args hargs).bind fun _ =>
        (refuses_readKeywords (source.span location) keywords hkeywords).map _) fun fault => ?_
    rw [Expr.faulty_iff (e := .call ..)]
    simp only [Expr.Offends, Expr.children, List.mem_append, List.exists_mem_cons_iff, or_and_right,
      exists_or, or_left_comm]
  | .other _ _, _ => refuses_ok fun fault => by
    rw [Expr.faulty_iff]
    simp [Expr.Offends, Expr.children]
termination_by structural e => e

theorem refuses_readExprs : ∀ es : List Expr, (∀ e ∈ es, e.WellFormed) →
    Refuses (readExprs source es) fun fault => ∃ e ∈ es, e.Faulty fault
  | [], _ => refuses_ok fun fault h => by simp at h
  | e :: es, h => by
    obtain ⟨he, hes⟩ := List.forall_mem_cons.mp h
    refine Refuses.congr ((refuses_readExpr e he).bind fun _ => (refuses_readExprs es hes).map _)
      fun fault => ?_
    rw [List.exists_mem_cons_iff]
termination_by structural es => es

theorem refuses_readOption : ∀ e : Option Expr, (∀ e' ∈ e.toList, e'.WellFormed) →
    Refuses (readOption source e) fun fault => ∃ e' ∈ e.toList, e'.Faulty fault
  | none, _ => refuses_ok fun fault h => by simp at h
  | some e, h => by
    refine Refuses.congr ((refuses_readExpr e (h e (List.mem_singleton_self _))).map _) fun fault => ?_
    simp
termination_by structural e => e

theorem refuses_readKeywords (span : Span) : ∀ keywords : List Keyword,
    (∀ e ∈ keywords.map Keyword.value, e.WellFormed) →
      Refuses (readKeywords source span keywords) fun fault =>
        (∃ value, .mk none value ∈ keywords) ∧ fault = .keywordUnpacking ∨
          ∃ e ∈ keywords.map Keyword.value, e.Faulty fault
  | [], _ => refuses_ok fun fault h => by simp at h
  | .mk none value :: _, _ => refuses_error (Or.inl ⟨⟨value, List.mem_cons_self⟩, rfl⟩)
  | .mk (some id) value :: rest, h => by
    obtain ⟨hvalue, hrest⟩ := List.forall_mem_cons.mp h
    refine Refuses.congr ((refuses_readExpr value hvalue).bind fun _ =>
      (refuses_readKeywords span rest hrest).map _) fun fault => ?_
    simp [Keyword.value, or_left_comm]
termination_by structural keywords => keywords

end

end Expressions

/-! ## Reading functions -/

section Functions

variable {source : Source}

theorem refuses_readStmt {s : Stmt} (hproper : s.Proper) (hexprs : ∀ e ∈ s.exprs, e.WellFormed) :
    Refuses (readStmt source s) fun fault => s.Offends fault ∨ ∃ e ∈ s.exprs, e.Faulty fault := by
  cases s with
  | assign target more value location =>
    cases more with
    | nil =>
      obtain ⟨htarget, hvalue⟩ := List.forall_mem_cons.mp hexprs
      refine Refuses.congr ((refuses_readExpr source target htarget).bind fun _ =>
        (refuses_readExpr source value (hvalue _ (List.mem_singleton_self _))).map _) fun fault => ?_
      simp [Stmt.Offends, Stmt.exprs]
    | cons next more => exact refuses_error (Or.inl ⟨nofun, rfl⟩)
  | annotated target hint value location =>
    obtain ⟨htarget, hrest⟩ := List.forall_mem_cons.mp hexprs
    obtain ⟨hhint, hvalue⟩ := List.forall_mem_cons.mp hrest
    refine Refuses.congr ((refuses_readExpr source target htarget).bind fun _ =>
      (refuses_readExpr source hint hhint).bind fun _ =>
        (refuses_readOption source value hvalue).map _) fun fault => ?_
    simp [Stmt.Offends, Stmt.exprs]
  | augmented target op value location =>
    obtain ⟨htarget, hvalue⟩ := List.forall_mem_cons.mp hexprs
    refine Refuses.congr ((refuses_readExpr source target htarget).bind fun _ =>
      (refuses_readArithmetic hproper _).bind fun _ =>
        (refuses_readExpr source value (hvalue _ (List.mem_singleton_self _))).map _) fun fault => ?_
    simp [Stmt.Offends, Stmt.exprs, or_left_comm]
  | returns value location =>
    refine Refuses.congr ((refuses_readOption source value hexprs).map _) fun fault => ?_
    simp [Stmt.Offends, Stmt.exprs]
  | expr value location =>
    have hvalue := hexprs value (List.mem_singleton_self _)
    refine Refuses.congr ((refuses_readExpr source value hvalue).map _) fun fault => ?_
    simp [Stmt.Offends, Stmt.exprs]
  | other kind location => exact refuses_ok fun fault h => by simp [Stmt.Offends, Stmt.exprs] at h

/-- Whatever the parameters are refused for, it is one of the things that are wrong with them. -/
theorem refuses_checkParams (f : FunctionDef) (span : Span) :
    Refuses (checkParams f.id f.params span) f.Offends := by
  unfold checkParams FunctionDef.Offends
  split
  · next h => exact refuses_error (Or.inl ⟨by simpa [-not_and] using h, rfl⟩)
  · split
    · next h => exact refuses_error (Or.inr (Or.inl ⟨by simpa using h, rfl⟩))
    · split
      · next h => exact refuses_error (Or.inr (Or.inr ⟨by simpa using h, rfl⟩))
      · next hpositional hvariadic hdefaults => exact refuses_ok fun fault h => by simp_all

theorem refuses_readParam {p : Param} (h : ∀ e ∈ p.hint.toList, e.WellFormed) :
    Refuses (readParam source p) fun fault => ∃ e ∈ p.hint.toList, e.Faulty fault :=
  (refuses_readOption source p.hint h).map _

theorem refuses_readResult {result : Option Expr} (h : ∀ e ∈ result.toList, e.WellFormed) :
    Refuses (readResult source result) fun fault => ∃ e ∈ result.toList, e.Faulty fault := by
  cases result with
  | none => exact refuses_ok fun fault h => by simp at h
  | some e =>
    have he := refuses_readExpr source e (h e (List.mem_singleton_self _))
    refine Refuses.congr (he.bind (Q := fun _ => False) fun e => ?_) fun fault => by simp
    -- Whether the result is declared as missing or as a type, nothing more is refused.
    split <;> exact refuses_ok fun _ => id

theorem refuses_readFunction {f : FunctionDef} (h : f.WellFormed) :
    Refuses (readFunction source f) f.Faulty := by
  obtain ⟨hproper, hexprs⟩ := h
  obtain ⟨hannotations, hbody⟩ := List.forall_mem_append.mp hexprs
  obtain ⟨hparams, hresult⟩ := List.forall_mem_append.mp hannotations
  have hreadParams : Refuses (f.params.plain.mapM (readParam source)) _ := refuses_mapM fun p hp =>
    refuses_readParam fun e he =>
      hparams e (List.mem_filterMap.mpr ⟨p, hp, Option.mem_toList.mp he⟩)
  have hreadBody : Refuses (f.body.mapM (readStmt source)) _ := refuses_mapM fun s hs =>
    refuses_readStmt (hproper s hs) fun e he => hbody e (List.mem_flatMap.mpr ⟨s, hs, he⟩)
  refine Refuses.congr ((refuses_checkParams f _).bind fun _ => hreadParams.bind fun _ =>
    (refuses_readResult hresult).bind fun _ => hreadBody.map _) fun fault => ?_
  rw [FunctionDef.Faulty, FunctionDef.exists_mem_exprs_iff]
  simp only [and_or_left, exists_or, or_left_comm]

/-- A function that is a statement of a module. -/
def TopLevel.function? : TopLevel → Option FunctionDef
  | .function f => some f
  | .other => none

theorem refuses_kernels {tree : List TopLevel} (h : ∀ f, .function f ∈ tree → f.WellFormed) :
    Refuses (kernels source tree) fun fault => ∃ f, .function f ∈ tree ∧ f.Faulty fault := by
  induction tree with
  | nil => exact refuses_ok fun fault hfault => by simp at hfault
  | cons top rest ih =>
    obtain ⟨htop, hrest⟩ : (∀ f, .function f = top → f.WellFormed) ∧ _ := by
      simpa only [List.mem_cons, or_imp, forall_and] using h
    cases top with
    | other => exact (ih hrest).congr fun fault => by simp
    | function f =>
      refine Refuses.congr ((refuses_readFunction (htop f rfl)).bind fun _ => (ih hrest).map _)
        fun fault => ?_
      simp [or_and_right, exists_or]

/-- What has been read of a function: its name, its parameters and its statements, in their order. -/
structure Reads (source : Source) (f : FunctionDef) (g : TensorKernel.FunctionDef) : Prop where
  id : g.id = f.id
  params : List.Forall₂ (fun p q => q.id = p.id ∧ readOption source p.hint = .ok q.hint)
    f.params.plain g.params
  result : readResult source f.result = .ok g.result
  body : List.Forall₂ (fun s t => readStmt source s = .ok t) f.body g.body

theorem reads_of_readFunction {f : FunctionDef} {g : TensorKernel.FunctionDef}
    (h : readFunction source f = .ok g) : Reads source f g := by
  obtain ⟨_, -, h⟩ := exists_of_bind_ok h
  obtain ⟨params, hparams, h⟩ := exists_of_bind_ok h
  obtain ⟨result, hresult, h⟩ := exists_of_bind_ok h
  obtain ⟨body, hbody, h⟩ := exists_of_bind_ok h
  obtain rfl := Except.ok.inj h
  refine ⟨rfl, (forall₂_of_mapM hparams).imp fun p q hq => ?_, hresult, forall₂_of_mapM hbody⟩
  obtain ⟨hint, hhint, hq⟩ := exists_of_bind_ok hq
  obtain rfl := Except.ok.inj hq
  exact ⟨rfl, hhint⟩

theorem reads_of_kernels {tree : List TopLevel} : ∀ {fs : List TensorKernel.FunctionDef},
    kernels source tree = .ok fs →
      List.Forall₂ (Reads source) (tree.filterMap TopLevel.function?) fs := by
  induction tree with
  | nil =>
    intro fs h
    obtain rfl := Except.ok.inj h
    exact .nil
  | cons top rest ih =>
    intro fs h
    cases top with
    | other => exact ih h
    | function f =>
      obtain ⟨g, hg, h⟩ := exists_of_bind_ok h
      obtain ⟨gs, hgs, h⟩ := exists_of_bind_ok h
      obtain rfl := Except.ok.inj h
      exact .cons (reads_of_readFunction hg) (ih hgs)

end Functions

/-! ## Kinds of failures -/

/-- An integer is only refused where it stands. -/
theorem Expr.constant_of_offends {e : Expr} {v : Int} (h : e.Offends (.integerTooLarge v)) :
    ∃ location, e = .constant (.int v) location ∧ ¬ (-2 ^ 127 ≤ v ∧ v < 2 ^ 127) := by
  cases e with
  | constant value location =>
    cases value with
    | int w =>
      obtain ⟨hfits, hvalue⟩ := h
      obtain rfl := Fault.integerTooLarge.inj hvalue
      exact ⟨location, rfl, hfits⟩
    | nothing | bool | float | string | other => exact h.elim
  | binary left op right location => cases h.2
  | compare left ops comparators location =>
    obtain ⟨op, -, -, hfault⟩ := h
    cases hfault
  | call func args keywords location => cases h.2
  | name | unary | boolean | subscript | slice | tuple | member | other => exact h.elim

theorem FunctionDef.Faulty.exists_constant {f : FunctionDef} {v : Int}
    (h : f.Faulty (.integerTooLarge v)) : ∃ e ∈ f.exprs, ∃ location,
      e.Contains (.constant (.int v) location) ∧ ¬ (-2 ^ 127 ≤ v ∧ v < 2 ^ 127) := by
  rcases h with (⟨-, hfault⟩ | ⟨-, hfault⟩ | ⟨-, hfault⟩) | ⟨s, -, hs⟩ |
    ⟨e, he, e', hcontains, hoffends⟩
  · cases hfault
  · cases hfault
  · cases hfault
  · cases s with
    | assign | augmented => cases hs.2
    | annotated | returns | expr | other => exact hs.elim
  · obtain ⟨location, rfl, hfits⟩ := Expr.constant_of_offends hoffends
    exact ⟨e, he, location, hcontains, hfits⟩

/-! ## Modules -/

/-- A function that multiplies the negation of its parameter with a list, which kernels do not use. -/
def scaledByList : FunctionDef where
  id := "scaled"
  params := ⟨[], [⟨"x", some (.name "int64" default), default⟩], [], none, none, []⟩
  result := none
  body := [.returns (some (.binary (.unary "USub" (.name "x" default) default) "Mult"
    (.other "List" default) default)) default]
  location := default

/-- A function with an integer that is too large by one. -/
def oversized : FunctionDef where
  id := "oversized"
  params := ⟨[], [⟨"x", none, default⟩], [], none, none, []⟩
  result := none
  body := [.assign (.name "y" default) [] (.constant (.int (2 ^ 127)) default) default]
  location := default

end Surface

end TensorKernel
