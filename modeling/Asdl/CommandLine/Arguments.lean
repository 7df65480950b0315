/-
The arguments of the command line.

* `Arguments` — what the arguments ask for;
* `Arguments.parse?` — their meaning, unless they are used wrongly;
* `Arguments.options` — the options of a run: those of a file, changed by the
  arguments.

Arguments are read from the left.  Each argument is an option, the value of the
option before it, or the path of the schema; after `--` it is no option.  An
option that takes a path is given at most once, and its path is not empty.
-/
import Asdl.Options

namespace Asdl

namespace CommandLine

/-- What the arguments ask for. -/
structure Arguments where
  /-- The file of the schema. -/
  schema : String
  /-- The file for the code; otherwise it is printed. -/
  output : Option String
  /-- The file with the options. -/
  config : Option String
  /-- The file for the tables of tags. -/
  tagTables : Option String
  /-- The file for the macros of the simple sums. -/
  macros : Option String
  /-- The sums to be written as integer constants. -/
  flatSums : List String
  noEnumSuffix : Bool
  noTreeMethods : Bool
  deriving DecidableEq, Repr

namespace Arguments

/-- The options of a run, given those of the options file. -/
def options (a : Arguments) (o : Options) : Options where
  enumSuffix := o.enumSuffix && !a.noEnumSuffix
  treeMethods := o.treeMethods && !a.noTreeMethods
  flatSums := o.flatSums.addAll a.flatSums
  sidecar := o.sidecar || a.tagTables.isSome
  hooks := o.hooks

/-! ### Kinds of arguments -/

/-- The options that take a value. -/
inductive Valued where
  | output
  | config
  | tagTables
  | macros
  | flatSum
  deriving DecidableEq, Repr

/-- The options that take none. -/
inductive Flag where
  | noEnumSuffix
  | noTreeMethods
  deriving DecidableEq, Repr

/-- What an argument is. -/
inductive Kind where
  /-- The mark behind which no options come. -/
  | endOfOptions
  | flag (f : Flag)
  /-- An option whose value is the next argument. -/
  | valued (v : Valued)
  /-- An option together with its value. -/
  | withValue (v : Valued) (value : String)
  /-- No option. -/
  | plain
  /-- An option that there is not. -/
  | unknown
  deriving DecidableEq, Repr

/-- The option of a long name that takes a value. -/
def valued? (name : List Char) : Option Valued :=
  if name = "output".toList then some .output
  else if name = "config".toList then some .config
  else if name = "debug-info".toList then some .tagTables
  else if name = "enum-table".toList then some .macros
  else if name = "flat-int".toList then some .flatSum
  else none

/-- The option of a long name that takes no value. -/
def flag? (name : List Char) : Option Flag :=
  if name = "no-enum-suffix".toList then some .noEnumSuffix
  else if name = "no-debug-methods".toList then some .noTreeMethods
  else none

/-- An option with a long name, which may hold its value behind an equals sign. -/
def longKind (text : List Char) : Kind :=
  let name := text.takeWhile (· != '=')
  match text.dropWhile (· != '='), valued? name, flag? name with
  | _ :: value, some v, _ => .withValue v (.ofList value)
  | _ :: _, none, _ => .unknown
  | [], some v, _ => .valued v
  | [], none, some f => .flag f
  | [], none, none => .unknown

/-- An option with a short name, which may hold its value, also behind an equals
sign. -/
def shortKind : List Char → Kind
  | ['o'] => .valued .output
  | 'o' :: '=' :: value => .withValue .output (.ofList value)
  | 'o' :: value => .withValue .output (.ofList value)
  | _ => .unknown

/-- What an argument is; a single dash is no option. -/
def kindOf (argument : String) : Kind :=
  match argument.toList with
  | ['-'] => .plain
  | ['-', '-'] => .endOfOptions
  | '-' :: '-' :: text => longKind text
  | '-' :: text => shortKind text
  | _ => .plain

/-! ### Reading -/

/-- What is read so far. -/
structure Draft where
  schema : Option String := none
  output : Option String := none
  config : Option String := none
  tagTables : Option String := none
  macros : Option String := none
  flatSums : List String := []
  noEnumSuffix : Bool := false
  noTreeMethods : Bool := false
  /-- An option whose value has to come. -/
  pending : Option Valued := none
  /-- No options come any more. -/
  ended : Bool := false
  deriving DecidableEq, Repr

namespace Draft

/-- A path for something that has none yet. -/
def path? (present : Option String) (path : String) : Option (Option String) :=
  if present.isNone && path != "" then some (some path) else none

/-- The value of an option. -/
def setValue (d : Draft) (value : String) : Valued → Option Draft
  | .output => (path? d.output value).map fun p => { d with output := p }
  | .config => (path? d.config value).map fun p => { d with config := p }
  | .tagTables => (path? d.tagTables value).map fun p => { d with tagTables := p }
  | .macros => (path? d.macros value).map fun p => { d with macros := p }
  | .flatSum => some { d with flatSums := d.flatSums ++ [value] }

/-- An option without a value, which is given at most once. -/
def setFlag (d : Draft) : Flag → Option Draft
  | .noEnumSuffix => if d.noEnumSuffix then none else some { d with noEnumSuffix := true }
  | .noTreeMethods => if d.noTreeMethods then none else some { d with noTreeMethods := true }

/-- The path of the schema. -/
def setSchema (d : Draft) (path : String) : Option Draft :=
  (path? d.schema path).map fun p => { d with schema := p }

/-- One argument more. -/
def step (d : Draft) (argument : String) : Option Draft :=
  match d.pending with
  | some v =>
    match kindOf argument with
    | .plain => { d with pending := none }.setValue argument v
    | _ => none
  | none =>
    if d.ended then d.setSchema argument
    else match kindOf argument with
      | .endOfOptions => some { d with ended := true }
      | .flag f => d.setFlag f
      | .valued v => some { d with pending := some v }
      | .withValue v value => d.setValue value v
      | .plain => d.setSchema argument
      | .unknown => none

/-- The arguments, if nothing is missing. -/
def finish (d : Draft) : Option Arguments :=
  match d.pending, d.schema with
  | none, some schema =>
    some ⟨schema, d.output, d.config, d.tagTables, d.macros, d.flatSums, d.noEnumSuffix,
      d.noTreeMethods⟩
  | _, _ => none

end Draft

/-- The meaning of arguments, unless they are used wrongly. -/
def parse? (arguments : List String) : Option Arguments :=
  (arguments.foldlM Draft.step {}).bind Draft.finish

end Arguments

end CommandLine

end Asdl
