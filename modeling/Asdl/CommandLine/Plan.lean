/-
What a run of the command line does.

A run reads its files first and decides everything; then it prints and writes.

* `Failure` — why a run fails, and what is said about it;
* `Plan` — what is printed and which files are written, in order;
* `Plan.of` — the plan for arguments and the contents of the files they name;
* `writeFiles` — the files of a plan, written into a tree of files;
* `perform` — a whole run in a tree of files.
-/
import Asdl.CommandLine.Arguments
import Asdl.CommandLine.FileTree
import Asdl.Generate
import Asdl.Header.Guard
import Asdl.Log.Filter
import Asdl.Options.Json

namespace Asdl

namespace CommandLine

/-! ### Failures -/

/-- Why a run fails. -/
inductive Failure where
  | readingConfig (path : String) (fault : FileFault)
  | parsingConfig (path : String) (fault : JsonFault)
  | readingSchema (path : String) (fault : FileFault)
  | parsing (path : String) (error : ParseError)
  | resolving (path : String) (error : SchemaError)
  | generating (violation : Violation)
  | writing (path : String) (fault : FileFault)
  deriving DecidableEq, Repr

namespace Failure

/-- What was going on. -/
def headline : Failure → String
  | readingConfig path _ => "reading config " ++ path
  | parsingConfig path _ => "parsing config " ++ path
  | readingSchema path _ => "reading schema " ++ path
  | parsing path _ => "parsing " ++ path
  | resolving path _ => "resolving " ++ path
  | generating violation => (Error.violation violation).message
  | writing path _ => "writing " ++ path

/-- What went wrong. -/
def cause? : Failure → Option String
  | readingConfig _ fault => some fault.message
  | parsingConfig _ fault => some ("0: " ++ (Error.json fault).message)
  | readingSchema _ fault => some fault.message
  | parsing _ error => some error.message
  | resolving _ error => some error.message
  | generating _ => none
  | writing _ fault => some fault.message

/-- What is said about the failure. -/
def lines (f : Failure) : List String :=
  ("Error: " ++ f.headline) ::
    match f.cause? with
    | some cause => ["", "Caused by:", "    " ++ cause]
    | none => []

end Failure

/-! ### Plans -/

/-- What the files that a run reads hold. -/
structure Inputs where
  config : Except FileFault ByteArray
  schema : Except FileFault ByteArray

/-- What a run prints, and which files it writes, in order. -/
structure Plan where
  printed : String
  files : List (String × String)
  deriving DecidableEq, Repr

/-- The options of the options file, if the arguments name one. -/
def readOptions (a : Arguments) (contents : Except FileFault ByteArray) :
    Except Failure Options :=
  match a.config with
  | none => .ok {}
  | some path => do
    let text ← (decodeFile contents).mapError (.readingConfig path)
    (Options.ofJson text).mapError (.parsingConfig path)

/-- The model of the schema file. -/
def readModel (a : Arguments) (contents : Except FileFault ByteArray) : Run Failure Model := do
  let source ← Run.ofExcept ((decodeFile contents).mapError (.readingSchema a.schema))
  let schema ← (parseText source).mapError (.parsing a.schema)
  (resolveSchema schema).mapError (.resolving a.schema)

namespace Plan

/-- The files that the arguments name, with their texts. -/
def filesOf (a : Arguments) (code : String) (tags : Option TagTables) (macros : String) :
    List (String × String) :=
  (a.output.map fun path => (path, code)).toList
    ++ (a.tagTables.bind fun path => tags.map fun t => (path, TagTables.json t)).toList
    ++ (a.macros.map fun path => (path, macros)).toList

/-- The plan for arguments, given the contents of the files that they name. -/
def of (a : Arguments) (inputs : Inputs) : Run Failure Plan := do
  let o ← Run.ofExcept (readOptions a inputs.config)
  let m ← readModel a inputs.schema
  let output ← (Header.generate m (a.options o)).mapError .generating
  let code := Header.withGuard m.name output.code
  let macros ← (Header.macros m).mapError .generating
  return ⟨if a.output.isSome then "" else code, filesOf a code output.tags macros⟩

end Plan

/-! ### Runs in a tree of files -/

/-- What a run leaves behind. -/
structure Outcome where
  events : List Event
  printed : String
  tree : FileTree
  failure : Option Failure

/-- Writes files in order, up to the first one that cannot be written. -/
def writeFiles (t : FileTree) : List (String × String) → List Event × FileTree × Option Failure
  | [] => ([], t, none)
  | (path, text) :: rest =>
    match t.write path text.toUTF8 with
    | .error fault => ([], t, some (.writing path fault))
    | .ok t =>
      let (events, t, failure) := writeFiles t rest
      (.wrote path :: events, t, failure)

/-- What the files hold that the arguments name. -/
def inputsOf (a : Arguments) (t : FileTree) : Inputs where
  config := match a.config with
    | some path => t.read path
    | none => .error .missing
  schema := t.read a.schema

/-- A run in a tree of files. -/
def perform (a : Arguments) (t : FileTree) : Outcome :=
  let planned := Plan.of a (inputsOf a t)
  match planned.result with
  | .error f => ⟨planned.events, "", t, some f⟩
  | .ok plan =>
    let (events, tree, failure) := writeFiles t plan.files
    ⟨planned.events ++ events, plan.printed, tree, failure⟩

/-! ### Words -/

namespace Outcome

/-- What is said about the run: the log, then the failure. -/
def said (o : Outcome) (f : Filter) : List String :=
  (o.events.filter f.shows).map Event.line
    ++ match o.failure with
      | some failure => failure.lines
      | none => []

/-- The exit code of the run. -/
def exitCode (o : Outcome) : Nat := if o.failure.isSome then 1 else 0

end Outcome

/-- The exit code for arguments that are used wrongly. -/
def usageCode : Nat := 2

end CommandLine

end Asdl
