/-
What the user chooses about the generated header.

`Options` holds the choices, with the defaults of a run without any.
-/
import Asdl.SortedMap

namespace Asdl

/-- The choices about a generated header. -/
structure Options where
  /-- Enumerations have a suffix. -/
  enumSuffix : Bool := true
  /-- Classes have methods that build trees of their values. -/
  treeMethods : Bool := true
  /-- The simple sums that are written as integer constants. -/
  flatSums : NameSet := .empty
  /-- The tables of tags are collected for other tools. -/
  sidecar : Bool := false
  /-- The classes whose short tree may come from a hand-written function. -/
  hooks : NameSet := .empty
  deriving DecidableEq, Repr

namespace Options

/-- Whether a sum is to be written as integer constants. -/
def isFlat (o : Options) (sum : String) : Bool := o.flatSums.contains sum

/-- Whether a class has a hand-written function. -/
def hasHook (o : Options) (cls : String) : Bool := o.hooks.contains cls

end Options

end Asdl
