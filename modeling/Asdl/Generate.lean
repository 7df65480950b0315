/-
From a schema text to a header.

* `Header.generate` — the code of a model, and its tables of tags if asked for;
* `Header.macros` — the macros for the tags of the simple sums;
* `generateText`, `generateFile` — the same from a text and from a file.

The first failure ends everything.
-/
import Asdl.Header.Bodies
import Asdl.Model.Resolution
import Asdl.Run
import Asdl.Schema.Reader

namespace Asdl

/-! ### Headers -/

namespace Header

/-- The code of a header, and the tables of tags if they are asked for. -/
structure Output where
  code : String
  tags : Option TagTables

/-- Names among the flat sums that have no effect on a model, in order. -/
def flatWarnings (m : Model) (o : Options) : List Event :=
  o.flatSums.keys.filterMap fun name =>
    match m.find? name with
    | some (.simpleSum _) => none
    | some _ => some (.flatIgnored name .notSimple)
    | none => some (.flatIgnored name .unknown)

/-- A section for all definitions of a model: its last state and its text. -/
def Section.run {σ : Type} (s : Section σ) (state : σ) (m : Model) :
    Run Violation (σ × String) :=
  let step := s.walk state m
  ⟨step.emission.events, step.emission.outcome.map fun _ => (step.state, step.emission.text)⟩

/-- The header of a model. -/
def generate (m : Model) (o : Options) : Run Violation Output := do
  let c : Context := ⟨m, o⟩
  Run.report (flatWarnings m o)
  let (_, forward) ← forwardSection.run () m
  Run.report [.forwardDone m.name]
  let (state, declarations) ← c.declarations.run {} m
  Run.report [.declarationsDone m.name]
  let (_, bodies) ← c.bodies.run () m
  Run.report [.bodiesDone m.name]
  return ⟨forward ++ declarations ++ bodies, if o.sidecar then some state.tags else none⟩

/-- The macros for the tags of the simple sums of a model. -/
def macros (m : Model) : Run Violation String := do
  let (_, text) ← macroTable.run () m
  return text

end Header

/-! ### Texts and files -/

/-- Reads a schema text. -/
def parseText (source : String) : Run ParseError Schema :=
  match Schema.parse source with
  | .ok s => ⟨[.parsed s.name s.definitions.length], .ok s⟩
  | .error e => ⟨[], .error e⟩

/-- Resolves a schema. -/
def resolveSchema (s : Schema) : Run SchemaError Model :=
  ⟨s.resolvedNames.map .resolved, Model.ofSchema s⟩

/-- The header of a schema text. -/
def generateText (source : String) (o : Options) : Run Error Header.Output := do
  let s ← (parseText source).mapError .parse
  let m ← (resolveSchema s).mapError .schema
  (Header.generate m o).mapError .violation

/-- The text of a file, given its bytes. -/
def decodeFile (contents : Except FileFault ByteArray) : Except FileFault String := do
  match String.fromUTF8? (← contents) with
  | some text => return text
  | none => throw .notText

/-- The header of a schema file, given its contents. -/
def generateFile (contents : Except FileFault ByteArray) (o : Options) :
    Run Error Header.Output := do
  let source ← (Run.ofExcept (decodeFile contents)).mapError .file
  generateText source o

end Asdl
