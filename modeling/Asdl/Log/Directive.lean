/-
Directives of a filter.

A directive gives the level up to which some events are shown.  It may be about
the events of a part of the program, about those with a certain detail, or about
those inside a span of work.

* `Directive.ofText?` — a directive as users write it:
  `target[span{field=value}]=level`, where most parts may be left out;
* `Directive.covers` — whether it is about an event;
* `Directive.givesWay` — which of two directives counts.

Design notes: a text is read one character at a time, without the blanks around
it.  `Spot` says which part the reader stands in and where that part starts, in
bytes from the first character that is no blank.  The parts are then cut from the
text with its blanks, at the places found.  So a blank behind a directive belongs
to its last part, and blanks before one move all parts to the left.
-/
import Asdl.Log
import Asdl.Log.Value
import Asdl.Text.Alphanumeric
import Asdl.Text.Blank

namespace Asdl

/-! ### Levels -/

namespace Level

/-- The level with a number: 0 shows nothing and 5 all. -/
def ofNumber? : Nat → Option (Option Level)
  | 0 => some none
  | 1 => some (some error)
  | 2 => some (some warn)
  | 3 => some (some info)
  | 4 => some (some debug)
  | 5 => some (some trace)
  | _ => none

/-- The level with a name, in lower case. -/
def ofName? (name : String) : Option (Option Level) :=
  if name = "off" then some none
  else if name = "error" then some (some error)
  else if name = "warn" then some (some warn)
  else if name = "info" then some (some info)
  else if name = "debug" then some (some debug)
  else if name = "trace" then some (some trace)
  else none

/-- How users write that events up to a level are shown, or none at all: a number,
which may have a plus sign, or a name in any case. -/
def ofWord? (word : String) : Option (Option Level) :=
  let digits := match word.toList with
    | '+' :: s => s
    | s => s
  if !digits.isEmpty && digits.all Char.isDigit then
    ofNumber? (digits.foldl (fun n c => n * 10 + (c.toNat - '0'.toNat)) 0)
  else
    ofName? word.toLower

end Level

/-! ### Directives -/

/-- What a directive asks of the details of an event. -/
structure FieldTest where
  name : String
  /-- The value that is asked for, if any. -/
  value : Option String
  deriving DecidableEq, Repr

/-- Some events are shown up to a level, if any. -/
structure Directive where
  /-- How the targets of the events start. -/
  target : String
  /-- The span of work that the events stand in. -/
  span : Option String
  /-- The detail that the events have. -/
  field : Option FieldTest
  /-- The level up to which they are shown. -/
  level : Option Level
  deriving DecidableEq, Repr

/-- The names that a directive can ask for: the message has one as well. -/
def Event.fieldNames (e : Event) : List String := "message" :: e.details.map (·.key)

/-- Whether the event meets a test.  Only spans are looked at for their values, so
none does if a value is asked for. -/
def FieldTest.holds (t : FieldTest) (e : Event) : Bool :=
  t.value.isNone && e.fieldNames.contains t.name

namespace Directive

/-- All events up to a level. -/
def upTo (level : Level) : Directive := ⟨"", none, none, some level⟩

/-- Whether the directive is about an event.  No event of this program stands in a
span. -/
def covers (d : Directive) (e : Event) : Bool :=
  d.target.toList.isPrefixOf e.target.toList && d.span.isNone && d.field.all (·.holds e)

/-- Whether an event is grave enough. -/
def admits (d : Directive) (e : Event) : Bool :=
  match d.level with
  | some level => e.level.rank ≤ level.rank
  | none => false

/-- Whether another directive about the same event counts instead, if it comes
later: one with a longer target, or else with a test, or else with a later name in
its test. -/
def givesWay (d later : Directive) : Bool :=
  if d.target.length = later.target.length then
    match d.field, later.field with
    | none, _ => true
    | some _, none => false
    | some t, some u => t.name ≤ u.name
  else
    d.target.length < later.target.length

/-! ### Cutting -/

/-- What follows the first `n` bytes, unless they end inside a character. -/
def dropBytes : Nat → List Char → Option (List Char)
  | 0, s => some s
  | _ + 1, [] => none
  | n + 1, c :: s => if c.utf8Size ≤ n + 1 then dropBytes (n + 1 - c.utf8Size) s else none

/-- The first `n` bytes, unless they end inside a character. -/
def takeBytes : Nat → List Char → Option (List Char)
  | 0, _ => some []
  | _ + 1, [] => none
  | n + 1, c :: s =>
    if c.utf8Size ≤ n + 1 then (takeBytes (n + 1 - c.utf8Size) s).map (c :: ·) else none

/-- The text between two places. -/
def between (text : List Char) (first last : Nat) : Option String := do
  let s ← dropBytes first text
  String.ofList <$> takeBytes (last - first) s

/-- The text from a place on. -/
def behind (text : List Char) (first : Nat) : Option String :=
  String.ofList <$> dropBytes first text

/-! ### Reading -/

/-- The part of a directive that the reader stands in, with the place where the
part starts. -/
inductive Spot where
  | start
  /-- In a level without a target or in a target. -/
  | word (first : Nat)
  /-- In a span, behind its bracket. -/
  | span (first : Nat)
  /-- In a test, behind its brace. -/
  | field (first : Nat)
  /-- Behind a test. -/
  | tested
  /-- Behind the closing bracket of a span. -/
  | closed
  /-- In a level, behind the equals sign. -/
  | level (first : Nat)
  deriving DecidableEq, Repr

/-- Whether a level or a target may start with the character. -/
def startsWord (c : Char) : Bool := c == '-' || c == ':' || c == '_' || Text.isAlphanumeric c

/-- A test as users write it: a name, which may have a value. -/
def fieldTest? (text : String) : Option FieldTest :=
  if text = "" then none
  else
    match text.splitOn "=" with
    | name :: value :: _ => if Value.isValue value then some ⟨name, some value⟩ else none
    | _ => some ⟨text, none⟩

/-- Reads a character that stands at a place of the text. -/
def read (text : List Char) (d : Directive) (i : Nat) (c : Char) :
    Spot → Option (Directive × Spot)
  | .start =>
    if c = '[' then some (d, .span (i + 1))
    else if startsWord c then some (d, .word i)
    else none
  | .word first =>
    if c = '=' then do
      let target ← between text first i
      some (⟨target, d.span, d.field, d.level⟩, .level (i + 1))
    else if c = '[' then do
      let target ← between text first i
      some (⟨target, d.span, d.field, d.level⟩, .span (i + 1))
    else
      some (d, .word first)
  | .span first =>
    if c = ']' then do
      let span ← between text first i
      some (⟨d.target, some span, d.field, d.level⟩, .closed)
    else if c = '{' then do
      let span ← between text first i
      let span? := if span = "" then none else some span
      some (⟨d.target, span?, d.field, d.level⟩, .field (i + 1))
    else
      some (d, .span first)
  | .field first =>
    if c = '}' then do
      let test ← fieldTest? (← between text first i)
      some (⟨d.target, d.span, some test, d.level⟩, .tested)
    else
      some (d, .field first)
  | .tested => if c = ']' then some (d, .closed) else none
  | .closed => if c = '=' then some (d, .level (i + 1)) else none
  | .level first => some (d, .level first)

/-- The directive at the end of its text.  A word that is no level is a target, and
a target alone stands for all its events. -/
def finish (text : List Char) (d : Directive) : Spot → Option Directive
  | .word first => do
    let word ← behind text first
    match Level.ofWord? word with
    | some level => some ⟨"", d.span, d.field, level⟩
    | none => some ⟨word, d.span, d.field, some .trace⟩
  | .level first => do
    let word ← behind text first
    if word = "" then some d
    else (Level.ofWord? word).map (⟨d.target, d.span, d.field, ·⟩)
  | .closed => some d
  | _ => none

/-- Reads the characters from a place on. -/
def readFrom (text : List Char) (d : Directive) (i : Nat) (spot : Spot) :
    List Char → Option Directive
  | [] => finish text d spot
  | c :: s =>
    match read text d i c spot with
    | some (d, spot) => readFrom text d (i + c.utf8Size) spot s
    | none => none

/-- A directive as users write it. -/
def ofText? (text : String) : Option Directive :=
  readFrom text.toList (upTo .trace) 0 .start (Text.trim text.toList)

end Directive

end Asdl
