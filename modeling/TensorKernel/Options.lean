import TensorKernel.ElemSize

/-!
# Compiler options

What a compilation can be told.  Only the element size of shape symbols is restricted, and only
where it is set: a size of an axis is a signed integer.
-/

namespace TensorKernel

/--
The options of a compilation: the element size of shape symbols where a kernel reads them, the name
of the emitted function if it is not that of the kernel, and what is shown along the way.
-/
structure Options where
  indexSize : ElemSize
  functionName : Option String
  debugPrint : Bool
  debugTimes : Bool
deriving DecidableEq

/-- Why an option cannot be set. -/
inductive OptionFault where
  | unknownTypeName (name : String)
  | indexSize (size : ElemSize)
deriving DecidableEq, Inhabited

/-- The message about a fault. -/
def OptionFault.message : OptionFault → String
  | unknownTypeName name => s!"Unknown kernel type name {name}"
  | indexSize size => s!"Shape symbols cannot have element type {size.typeName}"

/-- The element size with the given name. -/
def ElemSize.ofTypeName (name : String) : Except OptionFault ElemSize :=
  match ofTypeName? name with
  | some sz => .ok sz
  | none => .error (.unknownTypeName name)

namespace Options

/-- Shape symbols are integers of 64 bits, and nothing is shown. -/
def default : Options := ⟨.i64, none, false, false⟩

instance : Inhabited Options := ⟨default⟩

/-- The default options, with the stages shown. -/
def debug : Options :=
  { default with debugPrint := true }

/-- Whether anything is shown along the way. -/
def isDebugEnabled (options : Options) : Bool :=
  options.debugPrint || options.debugTimes

/-- Sets the element size of shape symbols.  Sizes of axes need a signed integer type. -/
def setIndexSize (options : Options) (sz : ElemSize) : Except OptionFault Options :=
  if sz.isSignedInteger then .ok { options with indexSize := sz } else .error (.indexSize sz)

end Options

end TensorKernel
