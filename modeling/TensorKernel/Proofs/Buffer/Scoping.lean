import Mathlib.Data.List.Nodup
import TensorKernel.Buffer.Program

/-!
# The names of a buffer program

What a statement defines and what it reads, the statements of a block at every depth, and rules that
hold of every statement in the context of the values that are known before it.

A region knows what is known where it stands and its own arguments; what it defines is not known
after it.  `Holds.local_uses` draws the conclusion for programs that define every name once: what a
region defines is read inside this region only.
-/

namespace TensorKernel

namespace Buffer

namespace Ty

/-- The type of the elements of a buffer. -/
def element : Ty → Ty
  | memref sz _ => scalar sz
  | strided sz _ => scalar sz
  | ty => ty

/-- The number of axes of a buffer. -/
def rank : Ty → Nat
  | memref _ shape => shape.length
  | strided _ rank => rank
  | _ => 0

/-- Whether it is the type of a buffer. -/
def isBuffer : Ty → Bool
  | memref _ _ => true
  | strided _ _ => true
  | _ => false

end Ty

namespace Stmt

/-- The values that a statement defines for the statements after it. -/
def results : Stmt → List Operand
  | constant dst _ type => [⟨dst, type⟩]
  | arith dst _ _ _ type => [⟨dst, type⟩]
  | unary dst _ _ type => [⟨dst, type⟩]
  | compare dst _ _ _ _ => [⟨dst, .scalar .bool⟩]
  | select dst _ _ _ type => [⟨dst, type⟩]
  | cast dst _ _ _ target => [⟨dst, target⟩]
  | dim dst _ _ => [⟨dst, .index⟩]
  | alloc dst _ type => [⟨dst, type⟩]
  | alloca dst type => [⟨dst, type⟩]
  | load dst src _ => [⟨dst, src.type.element⟩]
  | subView dst _ _ _ _ type => [⟨dst, type⟩]
  | collapseShape dst _ _ type => [⟨dst, type⟩]
  | store .. | copy .. | fill .. | generic .. | reduce .. | yield .. | returns .. => []

/-- The names that a statement reads, not counting those that its region reads. -/
def operands : Stmt → List Name
  | constant .. | alloca .. => []
  | arith _ _ lhs rhs _ => [lhs, rhs]
  | unary _ _ arg _ => [arg]
  | compare _ _ lhs rhs _ => [lhs, rhs]
  | select _ condition yes no _ => [condition, yes, no]
  | cast _ _ arg _ _ => [arg]
  | dim _ src axis => [src.name, axis]
  | alloc _ sizes _ => sizes
  | load _ src indices => src.name :: indices
  | store value dst indices => value :: dst.name :: indices
  | copy src dst => [src.name, dst.name]
  | subView _ src offsets sizes strides _ => src.name :: (offsets ++ sizes ++ strides)
  | collapseShape _ src _ _ => [src.name]
  | fill value dst => [value.name, dst.name]
  | generic _ _ ins outs _ _ => (ins ++ outs).map Operand.name
  | reduce ins outs _ _ _ => (ins ++ outs).map Operand.name
  | yield values => values.map Operand.name
  | returns values => values.map Operand.name

/-- The arguments of the region of a statement. -/
def args : Stmt → List Operand
  | generic _ _ _ _ args _ => args
  | reduce _ _ _ args _ => args
  | _ => []

/-- The region of a statement; most statements have none. -/
def body : Stmt → List Stmt
  | generic _ _ _ _ _ body => body
  | reduce _ _ _ _ body => body
  | _ => []

/-- Whether a statement ends a block. -/
def isTerminator : Stmt → Bool
  | yield _ => true
  | returns _ => true
  | _ => false

end Stmt

/-! ## Statements at every depth -/

mutual

/-- A statement and the statements of its region, at every depth. -/
def Stmt.nested : Stmt → List Stmt
  | .generic maps parallel ins outs args body =>
    .generic maps parallel ins outs args body :: statements body
  | .reduce ins outs axes args body => .reduce ins outs axes args body :: statements body
  | s => [s]

/-- The statements of a block, at every depth. -/
def statements : List Stmt → List Stmt
  | [] => []
  | s :: rest => s.nested ++ statements rest

end

/-- The values that a block defines, at every depth. -/
def definitions (block : List Stmt) : List Operand :=
  (statements block).flatMap fun s => s.results ++ s.args

/-- The names that a block reads, at every depth. -/
def uses (block : List Stmt) : List Name :=
  (statements block).flatMap Stmt.operands

/-- The values that a block defines for the statements after it. -/
def results (block : List Stmt) : List Operand :=
  block.flatMap Stmt.results

section Nesting

variable {s : Stmt} {block rest : List Stmt}

theorem Stmt.nested_eq (s : Stmt) : s.nested = s :: statements s.body := by
  cases s <;> simp [nested, body, statements]

@[simp]
theorem statements_nil : statements [] = [] := rfl

@[simp]
theorem statements_cons : statements (s :: rest) = s :: (statements s.body ++ statements rest) := by
  rw [statements, Stmt.nested_eq, List.cons_append]

/-- A property of blocks follows from the blocks in the region of the first statement and after it. -/
@[elab_as_elim]
theorem block_induction {motive : List Stmt → Prop} (nil : motive [])
    (cons : ∀ s rest, motive s.body → motive rest → motive (s :: rest)) (block : List Stmt) :
    motive block := by
  match block with
  | [] => exact nil
  | s :: rest =>
    refine cons s rest ?_ (block_induction nil cons rest)
    cases s with
    | generic _ _ _ _ _ body => exact block_induction nil cons body
    | reduce _ _ _ _ body => exact block_induction nil cons body
    | _ => exact nil

theorem statements_append : statements (block ++ rest) = statements block ++ statements rest := by
  induction block with
  | nil => rfl
  | cons s block ih => simp [ih]

@[simp]
theorem definitions_nil : definitions [] = [] := rfl

theorem definitions_cons : definitions (s :: rest) =
    s.results ++ s.args ++ (definitions s.body ++ definitions rest) := by
  simp [definitions]

theorem definitions_append :
    definitions (block ++ rest) = definitions block ++ definitions rest := by
  simp [definitions, statements_append]

@[simp]
theorem uses_nil : uses [] = [] := rfl

theorem uses_cons : uses (s :: rest) = s.operands ++ (uses s.body ++ uses rest) := by
  simp [uses]

@[simp]
theorem results_nil : results [] = [] := rfl

@[simp]
theorem results_cons : results (s :: rest) = s.results ++ results rest := rfl

@[simp]
theorem results_append : results (block ++ rest) = results block ++ results rest :=
  List.flatMap_append

/-- What a statement of a block defines in its region is among what the block defines. -/
theorem mem_definitions_of_region (h : s ∈ statements block) {d : Operand}
    (hd : d ∈ s.args ++ definitions s.body) : d ∈ definitions block := by
  induction block using block_induction with
  | nil => cases h
  | cons t rest ihbody ihrest =>
    rw [definitions_cons]
    rw [statements_cons, List.mem_cons, List.mem_append] at h
    rcases h with rfl | h | h
    · rcases List.mem_append.mp hd with hd | hd <;> simp [hd]
    · simp [ihbody h]
    · simp [ihrest h]

end Nesting

/-! ## Rules in context -/

/--
Every statement of a block, at every depth, satisfies a rule in the context of the values that are
known before it.
-/
inductive Holds (rule : List Operand → Stmt → Prop) : List Operand → List Stmt → Prop
  | nil {known : List Operand} : Holds rule known []
  | cons {known : List Operand} {s : Stmt} {rest : List Stmt} (head : rule known s)
      (region : Holds rule (known ++ s.args) s.body)
      (tail : Holds rule (known ++ s.results) rest) : Holds rule known (s :: rest)

/-- More knowledge cannot break a rule. -/
def Persistent (rule : List Operand → Stmt → Prop) : Prop :=
  ∀ ⦃known known' : List Operand⦄ ⦃s : Stmt⦄, known ⊆ known' → rule known s → rule known' s

/-- A statement reads known names only. -/
def ReadsKnown (known : List Operand) (s : Stmt) : Prop :=
  ∀ n ∈ s.operands, n ∈ known.map Operand.name

namespace Holds

variable {rule rule' : List Operand → Stmt → Prop} {known known' : List Operand}
  {block rest : List Stmt}

theorem append (h : Holds rule known block) (h' : Holds rule (known ++ results block) rest) :
    Holds rule known (block ++ rest) := by
  induction block generalizing known with
  | nil => simpa using h'
  | cons s block ih =>
    cases h with
    | cons head region tail =>
      exact cons head region (ih tail (by simpa using h'))

theorem imp (himp : ∀ known s, rule known s → rule' known s) (h : Holds rule known block) :
    Holds rule' known block := by
  induction h with
  | nil => exact .nil
  | cons head _ _ ihregion ihtail => exact .cons (himp _ _ head) ihregion ihtail

/-- A rule that more knowledge cannot break holds where more is known. -/
theorem weaken (hrule : Persistent rule)
    (hknown : known ⊆ known') (h : Holds rule known block) : Holds rule known' block := by
  induction h generalizing known' with
  | nil => exact .nil
  | cons head _ _ ihregion ihtail =>
    exact .cons (hrule hknown head)
      (ihregion (List.append_subset.mpr ⟨List.subset_append_of_subset_left _ hknown,
        List.subset_append_right ..⟩))
      (ihtail (List.append_subset.mpr ⟨List.subset_append_of_subset_left _ hknown,
        List.subset_append_right ..⟩))

/-- A rule that more knowledge cannot break holds of every statement where all is known. -/
theorem of_mem (hrule : Persistent rule)
    (h : Holds rule known block) {s : Stmt} (hs : s ∈ statements block) :
    rule (known ++ definitions block) s := by
  induction h with
  | nil => cases hs
  | @cons known t rest head _ _ ihregion ihtail =>
    rw [statements_cons, List.mem_cons, List.mem_append] at hs
    rw [definitions_cons]
    rcases hs with rfl | hs | hs
    · exact hrule (List.subset_append_left ..) head
    · refine hrule (fun d hd => ?_) (ihregion hs)
      simp only [List.mem_append] at hd ⊢
      tauto
    · refine hrule (fun d hd => ?_) (ihtail hs)
      simp only [List.mem_append] at hd ⊢
      tauto

end Holds

theorem ReadsKnown.persistent : Persistent ReadsKnown :=
  fun _ _ _ hsub hreads n hn => List.map_subset _ hsub (hreads n hn)

/-! ## Names that are defined once -/

/-- What decides whether two values have the same name. -/
def Operand.key (o : Operand) : NameKey :=
  o.name.key

/-- How often a name is read. -/
def countUses (name : Name) (block : List Stmt) : Nat :=
  (uses block).countP fun n => n.same name

theorem countP_same_eq_zero {names : List Name} {ds : List Operand} {name : Name}
    (hnames : names ⊆ ds.map Operand.name) (hname : name.key ∉ ds.map Operand.key) :
    (names.countP fun n => n.same name) = 0 := by
  rw [List.countP_eq_zero]
  intro n hn hsame
  obtain ⟨d, hd, rfl⟩ := List.mem_map.mp (hnames hn)
  exact hname (List.mem_map.mpr ⟨d, hd, by simpa [Operand.key, Name.same] using hsame⟩)

namespace Holds

variable {known : List Operand} {block : List Stmt}

/-- Where only known names are read, every name that is read is known or defined. -/
theorem uses_subset (h : Holds ReadsKnown known block) :
    uses block ⊆ (known ++ definitions block).map Operand.name := by
  intro n hn
  obtain ⟨s, hs, hn⟩ := List.mem_flatMap.mp hn
  exact h.of_mem ReadsKnown.persistent hs n hn

theorem countUses_eq_zero (h : Holds ReadsKnown known block) {name : Name}
    (hname : name.key ∉ (known ++ definitions block).map Operand.key) :
    countUses name block = 0 :=
  countP_same_eq_zero h.uses_subset hname

/-- What a region defines is not read outside the region. -/
theorem local_uses (h : Holds ReadsKnown known block)
    (hnodup : ((definitions block).map Operand.key).Nodup)
    (hnew : ∀ d ∈ definitions block, d.key ∉ known.map Operand.key)
    {s : Stmt} (hs : s ∈ statements block) {d : Operand} (hd : d ∈ s.args ++ definitions s.body) :
    countUses d.name block = countUses d.name s.body := by
  induction h with
  | nil => cases hs
  | @cons known t rest head region tail ihregion ihtail =>
    have hcount : countUses d.name (t :: rest) = (t.operands.countP fun n => n.same d.name) +
        (countUses d.name t.body + countUses d.name rest) := by
      simp [countUses, uses_cons]
    rw [definitions_cons] at hnodup hnew
    -- What is defined in one place is neither known before nor defined in another place.
    have hhead : d.key ∉ known.map Operand.key →
        (t.operands.countP fun n => n.same d.name) = 0 := countP_same_eq_zero head
    have hbody : d.key ∉ (known ++ t.args ++ definitions t.body).map Operand.key →
        countUses d.name t.body = 0 := region.countUses_eq_zero
    have hrest : d.key ∉ (known ++ t.results ++ definitions rest).map Operand.key →
        countUses d.name rest = 0 := tail.countUses_eq_zero
    have hkey : ∀ {d : Operand} {ds : List Operand}, d ∈ ds → d.key ∈ ds.map Operand.key :=
      List.mem_map_of_mem
    simp only [List.map_append, List.nodup_append, List.mem_append]
      at hnodup hnew hhead hbody hrest ihregion ihtail hd
    rw [hcount]
    rw [statements_cons, List.mem_cons, List.mem_append] at hs
    rcases hs with rfl | hs | hs
    · have hd := hd.imp hkey hkey
      rw [hhead (by grind), hrest (by grind)]
      omega
    · have hd' := hkey (mem_definitions_of_region hs (List.mem_append.mpr hd))
      rw [hhead (by grind), hrest (by grind), ihregion (by grind) (by grind) hs]
      omega
    · have hd' := hkey (mem_definitions_of_region hs (List.mem_append.mpr hd))
      rw [hhead (by grind), hbody (by grind), ihtail (by grind) (by grind) hs]
      omega

end Holds

namespace Function

/-- The names that occur in a function. -/
def names (fn : Function) : List Name :=
  (fn.params ++ definitions fn.body).map Operand.name ++ uses fn.body

/--
A function in single-assignment form: every name with a number has one definition, every name that
is read is known where it is read, and what a region defines is read inside this region only.
-/
structure SingleAssignment (fn : Function) : Prop where
  once : ∀ n ∈ fn.names, n.number.isSome = true →
    ((definitions fn.body).countP fun d => d.name.same n) = 1
  defined : Holds ReadsKnown fn.params fn.body
  confined : ∀ s ∈ statements fn.body, ∀ d ∈ s.args ++ definitions s.body,
    countUses d.name fn.body = countUses d.name s.body

/-- It suffices that parameters have no numbers and all other names have numbers of their own. -/
theorem SingleAssignment.of_numbers {fn : Function}
    (hparams : ∀ p ∈ fn.params, p.name.number = none)
    (hnumbers : ∀ d ∈ definitions fn.body, d.name.number.isSome = true)
    (hnodup : ((definitions fn.body).map Operand.key).Nodup)
    (hscoped : Holds ReadsKnown fn.params fn.body) : fn.SingleAssignment where
  once n hn hnumber := by
    -- A numbered name that is used is known, and parameters have no numbers: it is a definition.
    have hdefined : n ∈ (definitions fn.body).map Operand.name := by
      have hknown : n ∈ (fn.params ++ definitions fn.body).map Operand.name := by
        rcases List.mem_append.mp hn with hn | hn
        · exact hn
        · exact hscoped.uses_subset hn
      obtain ⟨d, hd, rfl⟩ := List.mem_map.mp hknown
      rcases List.mem_append.mp hd with hd | hd
      · rw [hparams d hd] at hnumber
        cases hnumber
      · exact List.mem_map_of_mem hd
    obtain ⟨d, hd, rfl⟩ := List.mem_map.mp hdefined
    calc ((definitions fn.body).countP fun other => other.name.same d.name)
        = ((definitions fn.body).map Operand.key).count d.key := by
          rw [List.count, List.countP_map]
          rfl
      _ = 1 := List.count_eq_one_of_mem hnodup (List.mem_map_of_mem hd)
  defined := hscoped
  confined s hs d hd := by
    refine hscoped.local_uses hnodup (fun d hd hparam => ?_) hs hd
    obtain ⟨p, hp, hkey⟩ := List.mem_map.mp hparam
    have hnone := hparams p hp
    have hsome := hnumbers d hd
    simp only [Operand.key, Name.key, hnone] at hkey
    cases hnumber : d.name.number <;> simp [hnumber] at hkey hsome

end Function

end Buffer

end TensorKernel
