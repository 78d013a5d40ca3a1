import TensorKernel.Proofs.Print.Naming

/-!
# Sessions of printing

A session prints names, operands, statements and functions one after another in one environment, and
changes the indentation and the source of suffixes in between.  What it printed can be read off its
last environment, `Printed.Stands`: the names have texts there, and everything that was printed is
what these texts give.  Hence `session_faithful`: two names have one text exactly if they are the same.
-/

namespace TensorKernel

/--
The suffixes of a generator that draws one after another until one makes the text free.  It stands for
the generator where one of the draws does.
-/
def FreshSuffix.ofDraws (draws : List String) : FreshSuffix where
  choose base taken :=
    (draws.find? fun suffix => base ++ "_" ++ suffix ∉ taken).getD (longer.choose base taken)
  fresh base taken := by
    cases h : draws.find? fun suffix => base ++ "_" ++ suffix ∉ taken with
    | some suffix => simpa using List.find?_some h
    | none => exact longer.fresh base taken

/-- What is printed in one piece. -/
inductive Printable where
  | name (n : Name)
  | clause (operands : List Buffer.Operand)
  | declaration (operands : List Buffer.Operand)
  | statement (s : Buffer.Stmt)
  | function (f : Buffer.Function)

namespace Printable

/-- The names that occur in the piece. -/
def names : Printable → List Name
  | name n => [n]
  | clause operands => operands.map Buffer.Operand.name
  | declaration operands => operands.map Buffer.Operand.name
  | statement s => Buffer.Print.stmtNames s
  | function f => f.names

/-- How the piece is printed. -/
def print : Printable → PrintM String
  | name n => PrintM.name n
  | clause operands => Buffer.Print.clause operands
  | declaration operands => Buffer.Print.declared operands
  | statement s => Buffer.Print.stmt s
  | function f => Buffer.Print.function f

theorem prints (what : Printable) : PrintM.Prints what.names what.print := by
  cases what with
  | name n => exact PrintM.prints_name n
  | clause operands => exact Buffer.Print.prints_clause operands
  | declaration operands => exact Buffer.Print.prints_declared operands
  | statement s => exact Buffer.Print.prints_stmt s
  | function f => exact Buffer.Print.prints_function f

end Printable

/-- A step of a session. -/
inductive PrintStep where
  | print (what : Printable)
  | indent
  | outdent
  | redraw (suffixes : FreshSuffix)

/-- What a step prints, if it prints. -/
def PrintStep.printed? : PrintStep → Option Printable
  | print what => some what
  | indent | outdent | redraw _ => none

/-- A piece that was printed, where it was printed and its text. -/
structure Printed where
  what : Printable
  indent : Nat
  text : String

namespace PrintEnv

variable {env later last : PrintEnv}

/-- The environment at another indentation. -/
def atIndent (env : PrintEnv) (indent : Nat) : PrintEnv :=
  { env with indent }

/-- All names keep their texts. -/
def Keeps (env later : PrintEnv) : Prop :=
  env.Precedes (later.atIndent env.indent)

theorem Keeps.trans (h : env.Keeps later) (h' : later.Keeps last) : env.Keeps last :=
  ⟨fun hkey => h'.text (h.text hkey), rfl⟩

theorem Precedes.keeps (h : env.Precedes later) : env.Keeps later :=
  ⟨h.text, rfl⟩

end PrintEnv

/-- The pieces that a session prints, and the environment afterwards. -/
def session : List PrintStep → PrintEnv → List Printed × PrintEnv
  | [], env => ([], env)
  | .print what :: steps, env =>
    let first := what.print.printFrom env
    let rest := session steps first.2
    (⟨what, env.indent, first.1⟩ :: rest.1, rest.2)
  | .indent :: steps, env => session steps env.indented
  | .outdent :: steps, env => session steps env.outdented
  | .redraw suffixes :: steps, env => session steps { env with suffixes }

/-- The names of a piece have texts, and where it was printed it would be printed again. -/
structure Printed.Stands (p : Printed) (env : PrintEnv) : Prop where
  named : ∀ n ∈ p.what.names, (env.textOf? n).isSome
  again : p.what.print.printFrom (env.atIndent p.indent) = (p.text, env.atIndent p.indent)

/-! ## One step and all steps -/

/-- A piece stands in every environment after it was printed. -/
theorem Printable.stands (what : Printable) {env later : PrintEnv}
    (h : (what.print.printFrom env).2.Keeps later) :
    Printed.Stands ⟨what, env.indent, (what.print.printFrom env).1⟩ later := by
  have hindent : (what.print.printFrom env).2.indent = env.indent := (what.prints.precedes env).indent
  have hlater : (what.print.printFrom env).2.Precedes (later.atIndent env.indent) := hindent ▸ h
  constructor
  · intro n hn
    exact hlater.isSome (what.prints.named env n hn)
  · exact what.prints.again env _ hlater

/-- A session prints what its steps print, and all of it stands when the session ends. -/
theorem session_spec (steps : List PrintStep) (env : PrintEnv) (hsound : env.Sound) :
    (session steps env).2.Sound ∧ env.Keeps (session steps env).2 ∧
      (session steps env).1.map Printed.what = steps.filterMap PrintStep.printed? ∧
      ∀ p ∈ (session steps env).1, p.Stands (session steps env).2 := by
  induction steps generalizing env with
  | nil => exact ⟨hsound, (PrintEnv.Precedes.refl env).keeps, rfl, nofun⟩
  | cons step steps ih =>
    cases step with
    | print what =>
      obtain ⟨hlast, hkeeps, hlog, hstands⟩ := ih _ (what.prints.sound env hsound)
      refine ⟨hlast, (what.prints.precedes env).keeps.trans hkeeps, congrArg (what :: ·) hlog, ?_⟩
      intro p hp
      rcases List.mem_cons.mp hp with rfl | hp
      · exact what.stands hkeeps
      · exact hstands p hp
    -- The other steps change no text.
    | indent =>
      obtain ⟨hlast, hkeeps, hlog, hstands⟩ := ih env.indented ⟨hsound.taken, hsound.inj⟩
      exact ⟨hlast, ⟨hkeeps.text, rfl⟩, hlog, hstands⟩
    | outdent =>
      obtain ⟨hlast, hkeeps, hlog, hstands⟩ := ih env.outdented ⟨hsound.taken, hsound.inj⟩
      exact ⟨hlast, ⟨hkeeps.text, rfl⟩, hlog, hstands⟩
    | redraw suffixes =>
      obtain ⟨hlast, hkeeps, hlog, hstands⟩ := ih { env with suffixes } ⟨hsound.taken, hsound.inj⟩
      exact ⟨hlast, ⟨hkeeps.text, rfl⟩, hlog, hstands⟩

/-- The text that a name was printed as is its text. -/
theorem Printed.Stands.textOf?_name {env : PrintEnv} {n : Name} {indent : Nat} {text : String}
    (h : Printed.Stands ⟨.name n, indent, text⟩ env) : env.textOf? n = some text := by
  obtain ⟨known, hknown⟩ := Option.isSome_iff_exists.mp (h.named n List.mem_cons_self)
  have hagain : (env.atIndent indent).nameText n = (text, env.atIndent indent) := h.again
  have hsame : (env.atIndent indent).textOf? n = some known := hknown
  rw [PrintEnv.nameText_of_some hsame] at hagain
  rw [hknown, (Prod.mk.inj hagain).1]

/--
In every session, from any source of suffixes, two names are printed as one text exactly if they are
the same.  This holds of the names that are printed by themselves and of those inside the operands,
statements and functions, whose printed texts are what the texts of their names give.  The sources of
suffixes include every generator whose loop ends.
-/
theorem session_faithful (suffixes : FreshSuffix) (steps : List PrintStep) :
    let log := (session steps (.empty suffixes)).1
    let env := (session steps (.empty suffixes)).2
    log.map Printed.what = steps.filterMap PrintStep.printed? ∧
      (∀ n m i j t u, ⟨.name n, i, t⟩ ∈ log → ⟨.name m, j, u⟩ ∈ log → (t = u ↔ n.same m = true)) ∧
      (∀ p ∈ log, ∀ q ∈ log, ∀ n ∈ p.what.names, ∀ m ∈ q.what.names,
        (env.textOf? n).isSome ∧ (env.textOf? n = env.textOf? m ↔ n.same m = true)) ∧
      (∀ p ∈ log, p.what.print.printFrom (env.atIndent p.indent) = (p.text, env.atIndent p.indent)) ∧
      ∀ base taken draws suffix, draws.find? (fun s => base ++ "_" ++ s ∉ taken) = some suffix →
        (FreshSuffix.ofDraws draws).choose base taken = suffix := by
  intro log env
  obtain ⟨hsound, -, hlog, hstands⟩ := session_spec steps (.empty suffixes) (PrintEnv.sound_empty suffixes)
  refine ⟨hlog, fun n m i j t u hn hm => ?_, fun p hp q hq n hn m hm => ?_,
    fun p hp => (hstands p hp).again, fun base taken draws suffix hdraw => ?_⟩
  · have hname := (hstands _ hn).textOf?_name
    have hother := (hstands _ hm).textOf?_name
    have hiff : env.textOf? n = env.textOf? m ↔ n.same m = true :=
      hsound.textOf?_eq_iff (Option.isSome_of_eq_some hname)
    rwa [hname, hother, Option.some.injEq] at hiff
  · have hname := (hstands p hp).named n hn
    exact ⟨hname, hsound.textOf?_eq_iff hname⟩
  · exact congrArg (Option.getD · _) hdraw

/--
A session whose last identifier looks like a numbered one, so that the generator has to draw, and draws
what is taken first.
-/
def suffixedSession : List PrintStep :=
  [.print (.name (.plain "x")), .print (.name (.numbered "x" 1)), .print (.name (.plain "x_1_1")),
    .indent, .print (.statement (.unary (.numbered "x" 2) .negF (.numbered "x" 1) (.scalar .f32))),
    .outdent, .redraw (.ofDraws ["1", "a"]), .print (.name (.plain "x_1")),
    .print (.name (.numbered "y" 1))]

theorem session_faithful_suffixed :
    (session suffixedSession (.empty .longer)).1.map Printed.text =
        ["x", "x_1", "x_1_1", "  %x_2 = arith.negf %x_1 : f32", "x_1_a", "x_1"] ∧
      ("x_1" = "x_1_a" ↔ (Name.numbered "x" 1).same (.plain "x_1") = true) ∧
      ("x_1" = "x_1" ↔ (Name.numbered "x" 1).same (.numbered "y" 1) = true) := by
  obtain ⟨-, hnames, -⟩ := session_faithful .longer suffixedSession
  have hnumbered : ⟨.name (.numbered "x" 1), 0, "x_1"⟩ ∈ (session suffixedSession (.empty .longer)).1 :=
    List.mem_of_getElem? (i := 1) rfl
  have hplain : ⟨.name (.plain "x_1"), 0, "x_1_a"⟩ ∈ (session suffixedSession (.empty .longer)).1 :=
    List.mem_of_getElem? (i := 4) rfl
  have hagain : ⟨.name (.numbered "y" 1), 0, "x_1"⟩ ∈ (session suffixedSession (.empty .longer)).1 :=
    List.mem_of_getElem? (i := 5) rfl
  exact ⟨by decide +kernel, hnames _ _ _ _ _ _ hnumbered hplain, hnames _ _ _ _ _ _ hnumbered hagain⟩

end TensorKernel
