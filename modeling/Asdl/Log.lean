/-
What a run reports on its way.

* `Event` — something that happened;
* `Event.level` — how much it matters;
* `Event.message`, `Event.details` — how it is said;
* `Event.line` — the line of the log.

Characters that a terminal would obey are spelled out in the message of a line.
-/

namespace Asdl

/-- How much an event matters. -/
inductive Level where
  | error
  | warn
  | info
  | debug
  | trace
  deriving DecidableEq, Repr

namespace Level

/-- The place of a level, from the gravest on. -/
def rank : Level → Nat
  | error => 1
  | warn => 2
  | info => 3
  | debug => 4
  | trace => 5

def name : Level → String
  | error => "ERROR"
  | warn => "WARN"
  | info => "INFO"
  | debug => "DEBUG"
  | trace => "TRACE"

end Level

/-- Why a name among the flat sums has no effect. -/
inductive FlatFault where
  | notSimple
  | unknown
  deriving DecidableEq, Repr

/-! ### Details -/

/-- A named part of what an event is about. -/
structure Detail where
  key : String
  value : String
  /-- Whether the value stands in quotes in the log. -/
  quoted : Bool
  deriving DecidableEq, Repr

/-- A part whose value stands as it is. -/
def Detail.plain (key value : String) : Detail := ⟨key, value, false⟩

/-- How the part is written in the log. -/
def Detail.text (d : Detail) : String :=
  d.key ++ "=" ++ if d.quoted then "\"" ++ d.value ++ "\"" else d.value

/-! ### Characters -/

/-- The characters of seven bits that a terminal obeys besides moving on: bell,
backspace, form feed, escape and delete. -/
def isTerminalControl (c : Char) : Bool :=
  c == '\x07' || c == '\x08' || c == '\x0c' || c == '\x1b' || c == '\x7f'

/-- The control characters of eight bits. -/
def isHighControl (c : Char) : Bool := 0x80 ≤ c.toNat && c.toNat ≤ 0x9f

/-- A character in a message: one that a terminal obeys is spelled out. -/
def spellChar (c : Char) : List Char :=
  let digits := [Nat.digitChar (c.toNat / 16), Nat.digitChar (c.toNat % 16)]
  if isTerminalControl c then ['\\', 'x'] ++ digits
  else if isHighControl c then ['\\', 'u', '{'] ++ digits ++ ['}']
  else [c]

/-- A message with the characters that a terminal obeys spelled out. -/
def spellOut (message : String) : String := String.ofList (message.toList.flatMap spellChar)

/-! ### Events -/

/-- Something that happened during a run. -/
inductive Event where
  /-- A schema was read. -/
  | parsed (module : String) (definitions : Nat)
  /-- A definition was resolved. -/
  | resolved (name : String)
  /-- A name among the flat sums has no effect. -/
  | flatIgnored (name : String) (fault : FlatFault)
  /-- The classes of a compound sum are written. -/
  | declaringSum (sum : String)
  /-- The class of a product is written. -/
  | declaringProduct (product : String)
  /-- All forward declarations are written. -/
  | forwardDone (module : String)
  /-- All declarations are written. -/
  | declarationsDone (module : String)
  /-- All bodies are written. -/
  | bodiesDone (module : String)
  /-- A file was written. -/
  | wrote (path : String)
  deriving DecidableEq, Repr

namespace Event

def level : Event → Level
  | parsed _ _ => .trace
  | resolved _ => .trace
  | flatIgnored _ _ => .warn
  | declaringSum _ => .trace
  | declaringProduct _ => .trace
  | forwardDone _ => .debug
  | declarationsDone _ => .debug
  | bodiesDone _ => .debug
  | wrote _ => .info

/-- The part of the program that reports the event. -/
def target : Event → String
  | parsed _ _ => "asdlgen_schema::parser"
  | resolved _ => "asdlgen_schema::ir"
  | flatIgnored _ _ => "asdlgen_codegen::generator"
  | declaringSum _ => "asdlgen_codegen::cpp::decls"
  | declaringProduct _ => "asdlgen_codegen::cpp::decls"
  | forwardDone _ => "asdlgen_codegen::generator"
  | declarationsDone _ => "asdlgen_codegen::generator"
  | bodiesDone _ => "asdlgen_codegen::generator"
  | wrote _ => "asdlgen"

def message : Event → String
  | parsed _ _ => "parsed schema"
  | resolved _ => "resolved definition"
  | flatIgnored _ .notSimple => "flat-integer option ignored: not a simple sum"
  | flatIgnored _ .unknown => "flat-integer option ignored: no such type"
  | declaringSum _ => "declaring compound sum classes"
  | declaringProduct _ => "declaring product"
  | forwardDone _ => "forward declaration pass done"
  | declarationsDone _ => "declaration pass done"
  | bodiesDone _ => "method pass done"
  | wrote path => "Wrote " ++ path

/-- What the event is about. -/
def details : Event → List Detail
  | parsed module definitions => [.plain "module" module, .plain "definitions" definitions.repr]
  | resolved name => [⟨"name", name, true⟩]
  | flatIgnored name _ => [.plain "name" name]
  | declaringSum sum => [.plain "sum" sum]
  | declaringProduct product => [.plain "product" product]
  | forwardDone module => [.plain "module" module]
  | declarationsDone module => [.plain "module" module]
  | bodiesDone module => [.plain "module" module]
  | wrote _ => []

/-- The line of the log. -/
def line (e : Event) : String :=
  e.level.name ++ " " ++ e.target ++ ": " ++ spellOut e.message
    ++ String.join (e.details.map fun d => " " ++ d.text)

end Event

end Asdl
