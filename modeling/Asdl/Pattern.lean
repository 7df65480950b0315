/-
Patterns for texts.

A pattern is a sequence of characters, classes, places and groups, which may be
repeated, or a choice between such sequences.

* `Pattern.isPattern` — whether a text is a pattern.

Design notes: nothing is ever matched against a pattern here, so the reader keeps
only what decides whether the rest is allowed: the flags, the names of groups, the
open groups and the heights.  A repetition with a count in braces is not known.
-/
import Asdl.Pattern.Class
import Asdl.Text.Alphanumeric

namespace Asdl

namespace Pattern

/-! ### Sequences -/

/-- A part of a sequence. -/
structure Part where
  height : Nat
  /-- Flags alone cannot be repeated. -/
  repeatable : Bool
  deriving DecidableEq, Repr

/-- A sequence of parts, the last one apart. -/
structure Sequence where
  before : Pile := {}
  last : Option Part := none
  deriving DecidableEq, Repr

namespace Sequence

/-- All parts. -/
def parts (q : Sequence) : Pile :=
  match q.last with
  | some p => q.before.push p.height
  | none => q.before

/-- One more part. -/
def push (q : Sequence) (p : Part) : Sequence := ⟨q.parts, some p⟩

/-- The sequence with its last part repeated. -/
def repeated? (q : Sequence) : Option Sequence :=
  match q.last with
  | some p => if p.repeatable then some { q with last := some ⟨p.height + 1, true⟩ } else none
  | none => none

end Sequence

/-! ### Choices and groups -/

/-- A choice of which the last sequence is being read. -/
structure Choice where
  /-- The greatest height of the sequences before, if any. -/
  others : Option Nat := none
  current : Sequence := {}
  deriving DecidableEq, Repr

namespace Choice

/-- The height of the choice.  A sequence without others is not made higher. -/
def height (c : Choice) : Nat :=
  match c.others with
  | none => c.current.parts.height
  | some others => max others c.current.parts.height + 1

/-- Behind a bar. -/
def next (c : Choice) : Choice := ⟨some (max (c.others.getD 0) c.current.parts.height), {}⟩

/-- One more part of the current sequence. -/
def push (c : Choice) (p : Part) : Choice := { c with current := c.current.push p }

end Choice

/-- What stands before an open group, with the flags that hold again behind it. -/
structure Outer where
  flags : Flags
  choice : Choice
  deriving DecidableEq, Repr

/-- How far a pattern has been read. -/
structure State where
  flags : Flags := {}
  choice : Choice := {}
  /-- What stands around the open groups, the innermost first. -/
  around : List Outer := []
  /-- The names of groups. -/
  names : List String := []
  deriving DecidableEq, Repr

namespace State

/-- Behind a part that holds nothing. -/
def leaf (st : State) : State := { st with choice := st.choice.push ⟨0, true⟩ }

/-- Behind the start of a group with flags. -/
def enter (st : State) (flags : Flags) : State :=
  { st with flags, choice := {}, around := ⟨st.flags, st.choice⟩ :: st.around }

/-- Behind the end of a group. -/
def leave? (st : State) : Option State :=
  match st.around with
  | [] => none
  | o :: around =>
    some ⟨o.flags, o.choice.push ⟨st.choice.height + 1, true⟩, around, st.names⟩

/-- Behind flags that stand alone. -/
def setFlags (st : State) (flags : Flags) : State :=
  { st with flags, choice := st.choice.push ⟨0, false⟩ }

/-- Behind a mark of repetition. -/
def repeated? (st : State) : Option State :=
  st.choice.current.repeated?.map fun q => { st with choice := { st.choice with current := q } }

/-- Whether a pattern may end here. -/
def isComplete (st : State) : Bool := st.around.isEmpty && st.choice.height ≤ heightLimit

end State

/-! ### Reading -/

/-- Whether the name of a group is allowed. -/
def isName : List Char → Bool
  | [] => false
  | c :: s =>
    (c == '_' || Text.isAlphabetic c) &&
      s.all fun d => d == '_' || d == '.' || d == '[' || d == ']' || Text.isAlphanumeric d

/-- Reads the name of a group.  No two groups share one. -/
def readName (st : State) (s : List Char) : Option (State × List Char) :=
  let name := s.takeWhile (· ≠ '>')
  match s.dropWhile (· ≠ '>') with
  | [] => none
  | _ :: rest =>
    if isName name ∧ String.ofList name ∉ st.names then
      some ({ st.enter st.flags with names := String.ofList name :: st.names }, rest)
    else none

/-- Reads the start of a group from behind its parenthesis, or flags that stand
alone. -/
def readGroup (st : State) (s : List Char) : Option (State × List Char) :=
  match st.flags.skip s with
  | '?' :: 'P' :: '<' :: s => readName st s
  | '?' :: '<' :: s => readName st s
  | '?' :: s => do
    let (list, ending, s) ← Flags.read [] s
    let flags := st.flags.apply list
    if ending = ':' then some (st.enter flags, s)
    else if list.isEmpty then none
    else some (st.setFlags flags, s)
  | s => some (st.enter st.flags, s)

/-- Reads a part of a pattern that starts with a character. -/
def readPart (st : State) (c : Char) (s : List Char) : Option (State × List Char) :=
  if c = '(' then readGroup st s
  else if c = ')' then st.leave?.map (·, s)
  else if c = '|' then some ({ st with choice := st.choice.next }, s)
  else if c = '[' then do
    let (height, s) ← Class.read st.flags s
    some ({ st with choice := st.choice.push ⟨height, true⟩ }, s)
  else if c = '*' ∨ c = '+' ∨ c = '?' then
    -- a question mark behind the mark belongs to it
    st.repeated?.map (·, if s.head? = some '?' then s.tail else s)
  else if c = '{' then none
  else if c = '\\' then do
    let (escape, s) ← Escape.read st.flags s
    if escape.isAllowed st.flags then some (st.leaf, s) else none
  else if c = '.' then if st.flags.unicode then some (st.leaf, s) else none
  else if c = '^' ∨ c = '$' then some (st.leaf, s)
  else if st.flags.allowsLiteral c false then some (st.leaf, s)
  else none

/-- Reads the rest of a pattern.  Each step reads a character at least. -/
def readFrom : Nat → State → List Char → Option State
  | steps, st, s =>
    match steps, st.flags.skip s with
    | _, [] => some st
    | 0, _ => none
    | steps + 1, c :: s => do
      let (st, s) ← readPart st c s
      readFrom steps st s

/-- Whether the text is a pattern. -/
def isPattern (text : String) : Bool :=
  let s := text.toList
  (readFrom s.length {} s).any (·.isComplete)

end Pattern

end Asdl
