import TensorKernel.Word

/-!
# Source spans

A span is the region of a source file that a piece of a kernel was read from.  Messages about a span
quote the lines of the file, if it can be read, and mark the columns below them.
-/

namespace TensorKernel

/-- A place in a file: a line, counted from one, and a column, counted from zero. -/
structure Position where
  line : Nat
  column : Nat
deriving DecidableEq, Inhabited

/-- The contents of the files that can be read. -/
abbrev Files := String → Option String

/-- A region of a file; without a file name it is no region at all. -/
structure Span where
  file : String
  start : Position
  stop : Position
deriving DecidableEq

namespace Span

/-- The span of what was not read from a file. -/
def nowhere : Span := ⟨"", ⟨0, 0⟩, ⟨0, 0⟩⟩

instance : Inhabited Span := ⟨nowhere⟩

/-- The same region of another file. -/
def withFile (span : Span) (file : String) : Span :=
  { span with file }

/-- The region that lies a number of lines further down. -/
def shiftLines (span : Span) (lines : Nat) : Span :=
  { span with
    start := { span.start with line := Word.wrap (span.start.line + lines) }
    stop := { span.stop with line := Word.wrap (span.stop.line + lines) } }

/-- The region that lies a number of columns further right. -/
def shiftColumns (span : Span) (columns : Nat) : Span :=
  { span with
    start := { span.start with column := Word.wrap (span.start.column + columns) }
    stop := { span.stop with column := Word.wrap (span.stop.column + columns) } }

/-- A line that was read backwards, without the carriage return before its end. -/
def finishLine : List Char → List Char
  | '\r' :: read => read.reverse
  | read => read.reverse

/--
The lines of a text after a part of a line that was already read, which is given backwards.  A line
ends at a line feed, which a carriage return may precede; what follows the last line feed is a line
if it is not empty.
-/
def linesAfter (read : List Char) : List Char → List (List Char)
  | [] => if read.isEmpty then [] else [read.reverse]
  | '\n' :: rest => finishLine read :: linesAfter [] rest
  | c :: rest => linesAfter (c :: read) rest

/-- The lines of a text. -/
def linesOf (text : String) : List String :=
  (linesAfter [] text.toList).map String.ofList

/-- A message with the lines of the span and the columns of its ends marked below them. -/
def quote (span : Span) (contents message : String) : String :=
  let first := span.start.line
  let last := max span.stop.line first
  let lines := "\n".intercalate (((linesOf contents).drop (first - 1)).take (last - first + 1))
  let l := span.start.column
  let r := span.stop.column
  let markers := "".pushn ' ' (min l r) ++ "".pushn '^' (max (max l r - min l r) 1)
  let place := if first = last then s!"line {first}" else s!"lines {first}-{last}"
  s!"{message}\n\nOn {place} of file {span.file}:\n{lines}\n{markers}\n"

/-- A message about a span.  It stays as it is if the span is no region of a file. -/
def annotate (span : Span) (files : Files) (message : String) : String :=
  if span.file = "" ∨ span.start.line = 0 then message
  else
    match files span.file with
    | some contents => span.quote contents message
    | none => s!"{message}\n\nOn line {span.start.line} of file {span.file}"

/-- A message about nothing in a file is not changed. -/
theorem annotate_nowhere (files : Files) (message : String) :
    nowhere.annotate files message = message := by
  simp [annotate, nowhere]

end Span

end TensorKernel
