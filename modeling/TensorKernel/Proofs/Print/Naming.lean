import TensorKernel.Buffer.Text
import TensorKernel.Proofs.Buffer.Scoping

/-!
# Printing gives every name one text

`PrintEnv.Sound` is what every environment has that names were printed in: the texts of different names
are different, since a text is taken once a name has it.  `PrintM.Prints` says of a way to print that it
keeps this, that it gives texts to some names and takes none away, and that its outcome only depends on
the texts of these names: printed again in any later environment it comes out the same.  There is one
rule for each way of combining prints, and from there it is shown of all parts of buffer programs.
-/

namespace TensorKernel

namespace PrintEnv

/-- The text of a name that was printed. -/
def textOf? (env : PrintEnv) (name : Name) : Option String :=
  env.names.get? name.key

/-- The texts of names are taken, and no two names have one text. -/
structure Sound (env : PrintEnv) : Prop where
  taken : ∀ {key text}, env.names.get? key = some text → text ∈ env.taken
  inj : ∀ {key key' text}, env.names.get? key = some text → env.names.get? key' = some text → key = key'

/-- A later environment, at the same indentation. -/
structure Precedes (env later : PrintEnv) : Prop where
  text : ∀ {key text}, env.names.get? key = some text → later.names.get? key = some text
  indent : later.indent = env.indent

variable {env later : PrintEnv}

theorem Precedes.refl (env : PrintEnv) : env.Precedes env := ⟨id, rfl⟩

theorem Precedes.trans {last : PrintEnv} (h : env.Precedes later) (h' : later.Precedes last) :
    env.Precedes last :=
  ⟨fun hkey => h'.text (h.text hkey), h'.indent.trans h.indent⟩

theorem Precedes.isSome {name : Name} (h : env.Precedes later) (hname : (env.textOf? name).isSome) :
    (later.textOf? name).isSome := by
  obtain ⟨text, htext⟩ := Option.isSome_iff_exists.mp hname
  exact Option.isSome_iff_exists.mpr ⟨text, h.text htext⟩

theorem sound_empty (suffixes : FreshSuffix) : (empty suffixes).Sound := ⟨nofun, nofun⟩

/-- Names that were printed have one text exactly if they are the same. -/
theorem Sound.textOf?_eq_iff (h : env.Sound) {name other : Name} (hname : (env.textOf? name).isSome) :
    env.textOf? name = env.textOf? other ↔ name.same other = true := by
  obtain ⟨text, htext⟩ := Option.isSome_iff_exists.mp hname
  constructor
  · intro heq
    exact beq_iff_eq.mpr (h.inj htext (heq.symm.trans htext))
  · intro hsame
    rw [textOf?, textOf?, beq_iff_eq.mp hsame]

/-! ## Printing a name -/

theorem nameText_of_some {name : Name} {text : String} (h : env.textOf? name = some text) :
    env.nameText name = (text, env) := by
  have h' : env.names.get? name.key = some text := h
  rw [nameText, h']

theorem nameText_of_none {name : Name} (h : env.textOf? name = none) :
    env.nameText name = (env.freeText name, { env with
      taken := env.freeText name :: env.taken
      names := env.names.bind name.key (env.freeText name) }) := by
  have h' : env.names.get? name.key = none := h
  rw [nameText, h']

theorem textOf?_nameText (env : PrintEnv) (name : Name) :
    (env.nameText name).2.textOf? name = some (env.nameText name).1 := by
  cases h : env.textOf? name with
  | some text => rw [nameText_of_some h, h]
  | none =>
    rw [nameText_of_none h]
    exact (Scope.get?_bind _ _ _ _).trans (if_pos rfl)

theorem Sound.nameText (h : env.Sound) (name : Name) : (env.nameText name).2.Sound := by
  cases hname : env.textOf? name with
  | some text => rwa [nameText_of_some hname]
  | none =>
    rw [nameText_of_none hname]
    -- The new text was free, so no earlier name has it.
    have hfree {key : NameKey} : env.names.get? key ≠ some (env.freeText name) := fun hkey =>
      env.freeText_not_mem_taken name (h.taken hkey)
    constructor
    · intro key text hkey
      rw [Scope.get?_bind] at hkey
      split at hkey
      · exact Option.some.inj hkey ▸ List.mem_cons_self
      · exact List.mem_cons_of_mem _ (h.taken hkey)
    · intro key key' text hkey hkey'
      rw [Scope.get?_bind] at hkey hkey'
      split at hkey <;> split at hkey'
      · next heq heq' => rw [heq, heq']
      · exact absurd (hkey'.trans hkey.symm) hfree
      · exact absurd (hkey.trans hkey'.symm) hfree
      · exact h.inj hkey hkey'

theorem precedes_nameText (env : PrintEnv) (name : Name) : env.Precedes (env.nameText name).2 := by
  cases hname : env.textOf? name with
  | some text =>
    rw [nameText_of_some hname]
    exact .refl env
  | none =>
    rw [nameText_of_none hname]
    refine ⟨fun {key text} hkey => ?_, rfl⟩
    have hne : key ≠ name.key := fun heq => by
      rw [heq] at hkey
      exact nomatch hname.symm.trans hkey
    rw [Scope.get?_bind, if_neg hne, hkey]

end PrintEnv

namespace PrintM

variable {α β : Type}

/-- What printing from an environment gives, and the environment afterwards. -/
def printFrom (p : PrintM α) (env : PrintEnv) : α × PrintEnv :=
  StateT.run p env

/--
Printing keeps an environment sound, gives texts to some names and takes none away, and would give the
same again in any later environment.
-/
structure Prints (names : List Name) (p : PrintM α) : Prop where
  sound : ∀ env : PrintEnv, env.Sound → (p.printFrom env).2.Sound
  precedes : ∀ env : PrintEnv, env.Precedes (p.printFrom env).2
  named : ∀ env : PrintEnv, ∀ n ∈ names, ((p.printFrom env).2.textOf? n).isSome
  again : ∀ env later : PrintEnv, (p.printFrom env).2.Precedes later →
    p.printFrom later = ((p.printFrom env).1, later)

section Rules

variable {ns ms : List Name} {p : PrintM α} {q : α → PrintM β}

theorem Prints.of_subset (h : Prints ns p) (hsub : ms ⊆ ns) : Prints ms p :=
  { h with named := fun env n hn => h.named env n (hsub hn) }

theorem prints_pure (a : α) : Prints [] (pure a : PrintM α) where
  sound _ h := h
  precedes env := .refl env
  named _ := nofun
  again _ _ _ := rfl

theorem Prints.bind (hp : Prints ns p) (hq : ∀ a, Prints ms (q a)) : Prints (ns ++ ms) (p >>= q) where
  sound env h := (hq _).sound _ (hp.sound env h)
  precedes env := (hp.precedes env).trans ((hq _).precedes _)
  named env n hn := by
    rcases List.mem_append.mp hn with hn | hn
    · exact ((hq _).precedes _).isSome (hp.named env n hn)
    · exact (hq _).named _ n hn
  again env later h := by
    have hfirst := hp.again env later (((hq _).precedes _).trans h)
    show (q (p.printFrom later).1).printFrom (p.printFrom later).2 = _
    rw [hfirst]
    exact (hq _).again _ later h

/-- What is done with the environment may depend on the indentation, the same in a later one. -/
theorem prints_get {q : PrintEnv → PrintM β} (h : ∀ env, Prints ns (q env))
    (hindent : ∀ env later : PrintEnv, later.indentText = env.indentText → q later = q env) :
    Prints ns (get >>= q) where
  sound env := (h env).sound env
  precedes env := (h env).precedes env
  named env := (h env).named env
  again env later hlater := by
    have hsame : later.indentText = env.indentText := by
      rw [PrintEnv.indentText, PrintEnv.indentText, (((h env).precedes env).trans hlater).indent]
    show (q later).printFrom later = _
    rw [hindent env later hsame]
    exact (h env).again env later hlater

theorem Prints.nested (hp : Prints ns p) : Prints ns (nested p) where
  sound env h := by
    have hafter := hp.sound env.indented ⟨h.taken, h.inj⟩
    exact ⟨hafter.taken, hafter.inj⟩
  precedes env := by
    have hafter := hp.precedes env.indented
    refine ⟨hafter.text, ?_⟩
    show (p.printFrom env.indented).2.indent - PrintEnv.indentStep = env.indent
    rw [hafter.indent]
    exact Nat.add_sub_cancel ..
  named env := hp.named env.indented
  again env later h := by
    have hindent : (p.printFrom env.indented).2.indent = env.indent + PrintEnv.indentStep :=
      (hp.precedes env.indented).indent
    have hlater : later.indent = env.indent + PrintEnv.indentStep - PrintEnv.indentStep :=
      hindent ▸ h.indent
    have hagain := hp.again env.indented later.indented ⟨h.text, by
      show later.indent + PrintEnv.indentStep = _
      rw [hindent, hlater, Nat.add_sub_cancel]⟩
    show ((p.printFrom later.indented).1, (p.printFrom later.indented).2.outdented) = _
    rw [hagain]
    refine Prod.ext rfl ?_
    show { later with indent := later.indent + PrintEnv.indentStep - PrintEnv.indentStep } = later
    rw [Nat.add_sub_cancel]

theorem prints_name (n : Name) : Prints [n] (name n) where
  sound _ h := h.nameText n
  precedes env := env.precedes_nameText n
  named env m hm := by
    rw [List.mem_singleton.mp hm]
    exact Option.isSome_iff_exists.mpr ⟨_, env.textOf?_nameText n⟩
  again env _ h := PrintEnv.nameText_of_some (h.text (env.textOf?_nameText n))

theorem prints_names (ns : List Name) : Prints ns (names ns) := by
  induction ns with
  | nil => exact prints_pure []
  | cons n ns ih =>
    exact ((prints_name n).bind fun _ => ih.bind fun _ => prints_pure _).of_subset (by simp)

end Rules

end PrintM

namespace Buffer

namespace Print

open PrintM (Prints prints_pure prints_name prints_names prints_get)

theorem prints_value (n : Name) : Prints [n] (value n) :=
  (prints_name n).bind fun _ => prints_pure _

theorem prints_values (ns : List Name) : Prints ns (values ns) :=
  ((prints_names ns).bind fun _ => prints_pure _).of_subset (by simp)

theorem prints_bracketed (ns : List Name) : Prints ns (bracketed ns) :=
  ((prints_values ns).bind fun _ => prints_pure _).of_subset (by simp)

theorem prints_clause (os : List Operand) : Prints (os.map Operand.name) (clause os) :=
  ((prints_values _).bind fun _ => prints_pure _).of_subset (by simp)

theorem prints_typed (os : List Operand) : Prints (os.map Operand.name) (typed os) := by
  induction os with
  | nil => exact prints_pure []
  | cons o os ih =>
    exact ((prints_value o.name).bind fun _ => ih.bind fun _ => prints_pure _).of_subset (by simp)

theorem prints_declared (os : List Operand) : Prints (os.map Operand.name) (declared os) :=
  ((prints_typed os).bind fun _ => prints_pure _).of_subset (by simp)

theorem prints_operandsText (ins outs : List Operand) :
    Prints ((ins ++ outs).map Operand.name) (operandsText ins outs) :=
  ((prints_clause ins).bind fun _ => (prints_clause outs).bind fun _ => prints_pure _).of_subset
    (by simp)

/-- The names in the line of a statement; a statement with a region has no line of its own. -/
def lineNames : Stmt → List Name
  | .generic .. | .reduce .. => []
  | s => s.operands ++ s.results.map Operand.name

theorem prints_line (s : Stmt) : Prints (lineNames s) (line s) := by
  cases s with
  | constant dst => exact (prints_value dst).bind fun _ => prints_pure _
  | arith dst _ lhs rhs =>
    exact ((prints_value lhs).bind fun _ => (prints_value rhs).bind fun _ =>
      (prints_value dst).bind fun _ => prints_pure _)
  | unary dst _ arg | cast dst _ arg =>
    exact ((prints_value arg).bind fun _ => (prints_value dst).bind fun _ => prints_pure _)
  | compare dst _ lhs rhs =>
    exact ((prints_value lhs).bind fun _ => (prints_value rhs).bind fun _ =>
      (prints_value dst).bind fun _ => prints_pure _)
  | select dst condition yes no =>
    exact ((prints_value condition).bind fun _ => (prints_value yes).bind fun _ =>
      (prints_value no).bind fun _ => (prints_value dst).bind fun _ => prints_pure _)
  | dim dst src axis =>
    exact ((prints_value src.name).bind fun _ => (prints_value axis).bind fun _ =>
      (prints_value dst).bind fun _ => prints_pure _)
  | alloc dst sizes =>
    exact ((prints_values sizes).bind fun _ => (prints_value dst).bind fun _ => prints_pure _).of_subset
      (by simp [lineNames, Stmt.operands, Stmt.results])
  | alloca dst => exact (prints_value dst).bind fun _ => prints_pure _
  | load dst src indices =>
    exact ((prints_value src.name).bind fun _ => (prints_bracketed indices).bind fun _ =>
      (prints_value dst).bind fun _ => prints_pure _).of_subset
      (by simp [lineNames, Stmt.operands, Stmt.results])
  | store v dst indices =>
    exact ((prints_value v).bind fun _ => (prints_value dst.name).bind fun _ =>
      (prints_bracketed indices).bind fun _ => prints_pure _).of_subset
      (by simp [lineNames, Stmt.operands, Stmt.results])
  | copy src dst =>
    exact ((prints_value src.name).bind fun _ => (prints_value dst.name).bind fun _ => prints_pure _)
  | subView dst src offsets sizes strides =>
    exact ((prints_value src.name).bind fun _ => (prints_bracketed offsets).bind fun _ =>
      (prints_bracketed sizes).bind fun _ => (prints_bracketed strides).bind fun _ =>
      (prints_value dst).bind fun _ => prints_pure _).of_subset
      (by simp [lineNames, Stmt.operands, Stmt.results])
  | collapseShape dst src =>
    exact ((prints_value src.name).bind fun _ => (prints_value dst).bind fun _ => prints_pure _)
  | fill v dst =>
    exact ((prints_operandsText [v] [dst]).bind fun _ => prints_pure _)
  | yield results =>
    exact ((prints_clause results).bind fun _ => prints_pure _)
  | returns results =>
    cases results with
    | nil => exact prints_pure _
    | cons result results => exact ((prints_clause (result :: results)).bind fun _ => prints_pure _)
  | generic | reduce => exact prints_pure _

theorem prints_genericHead (maps : List AffineMap) (parallel : Nat) (ins outs : List Operand) :
    Prints ((ins ++ outs).map Operand.name) (genericHead maps parallel ins outs) :=
  ((prints_operandsText ins outs).bind fun _ => prints_pure _).of_subset (by simp)

theorem prints_reduceHead (ins outs : List Operand) (axes : List Nat) :
    Prints ((ins ++ outs).map Operand.name) (reduceHead ins outs axes) :=
  ((prints_operandsText ins outs).bind fun _ => prints_pure _).of_subset (by simp)

/-- The names of a block. -/
def blockNames (block : List Stmt) : List Name :=
  uses block ++ (definitions block).map Operand.name

/-- The names of a statement and of its region. -/
def stmtNames (s : Stmt) : List Name :=
  s.operands ++ s.args.map Operand.name ++ blockNames s.body ++ s.results.map Operand.name

/-- A statement prints the names of its region if the region does. -/
theorem prints_stmt_of_body {s : Stmt} (hbody : Prints (blockNames s.body) (stmts s.body)) :
    Prints (stmtNames s) (stmt s) := by
  have hflat (hline : stmtNames s ⊆ lineNames s) :
      Prints (stmtNames s) (get >>= fun env => line s >>= fun text => pure (env.indentText ++ text)) :=
    prints_get (fun _ => ((prints_line s).bind fun _ => prints_pure _).of_subset
      (List.subset_append_of_subset_left _ hline)) fun _ _ heq => by rw [heq]
  cases s with
  | generic maps parallel ins outs args body =>
    refine prints_get (fun _ => ?_) fun _ _ heq => by rw [heq]
    exact ((prints_genericHead maps parallel ins outs).bind fun _ => (prints_declared args).bind fun _ =>
      hbody.nested.bind fun _ => prints_pure _).of_subset
        (by simp [stmtNames, Stmt.operands, Stmt.results, Stmt.args, Stmt.body])
  | reduce ins outs axes args body =>
    refine prints_get (fun _ => ?_) fun _ _ heq => by rw [heq]
    exact ((prints_reduceHead ins outs axes).bind fun _ => (prints_declared args).bind fun _ =>
      hbody.nested.bind fun _ => prints_pure _).of_subset
        (by simp [stmtNames, Stmt.operands, Stmt.results, Stmt.args, Stmt.body])
  | _ => exact hflat (by simp [stmtNames, lineNames, blockNames, Stmt.args, Stmt.body])

theorem prints_stmts (block : List Stmt) : Prints (blockNames block) (stmts block) := by
  induction block using block_induction with
  | nil => exact prints_pure []
  | cons s rest ihbody ihrest =>
    refine ((prints_stmt_of_body ihbody).bind fun _ => ihrest.bind fun _ => prints_pure _).of_subset ?_
    intro n hn
    simp only [blockNames, stmtNames, uses_cons, definitions_cons, List.map_append, List.mem_append,
      List.append_nil] at hn ⊢
    tauto

theorem prints_stmt (s : Stmt) : Prints (stmtNames s) (stmt s) :=
  prints_stmt_of_body (prints_stmts s.body)

theorem prints_function (f : Function) : Prints f.names (function f) :=
  ((prints_declared f.params).bind fun _ => (prints_stmts f.body).nested.bind fun _ =>
    prints_pure _).of_subset (by simp [Function.names, blockNames])

end Print

end Buffer

end TensorKernel
