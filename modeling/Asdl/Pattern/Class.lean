/-
Classes of characters in a pattern.

A class stands in brackets, as in `[a-z_]`.  Classes may stand in one another, and
`&&`, `--` and `~~` combine what stands on their sides.

* `Class.read` — a class as it is written, from behind its bracket.

Design notes: which characters a class holds does not matter here; only its height
is kept.  A class of bytes must not hold a part of a character.  Its members are all
of ASCII, so this fails exactly if something is negated.
-/
import Asdl.Pattern.Escape
import Asdl.Pattern.Height

namespace Asdl

namespace Pattern

namespace Class

/-! ### Members -/

/-- The names of the classes of ASCII. -/
def asciiNames : List String :=
  ["alnum", "alpha", "ascii", "blank", "cntrl", "digit", "graph", "lower", "print", "punct",
   "space", "upper", "word", "xdigit"]

/-- Reads the name of a class of ASCII, as in `[:alpha:]`, from behind its bracket,
and says whether the class is negated. -/
def readAscii : List Char → Option (Bool × List Char)
  | ':' :: s =>
    let negated := s.head? = some '^'
    let s := if negated then s.tail else s
    match s.dropWhile (· ≠ ':') with
    | ':' :: ']' :: rest =>
      if asciiNames.contains (String.ofList (s.takeWhile (· ≠ ':'))) then some (negated, rest)
      else none
    | _ => none
  | _ => none

/-- Whether a class of ASCII may stand in a class. -/
def allowsAscii (f : Flags) (negated : Bool) : Bool :=
  if f.unicode then !f.ignoreCase else !negated

/-- Reads a character of a class, which may be escaped. -/
def readItem (f : Flags) (c : Char) (s : List Char) : Option (Escape × List Char) :=
  if c = '\\' then Escape.read f s else some (.literal c false, s)

/-- Whether two items are the ends of a range. -/
def isRange (f : Flags) : Escape → Escape → Bool
  | .literal low _, .literal high _ => low ≤ high && f.allowsMember low && f.allowsMember high
  | _, _ => false

/-- Reads a member or a range, and gives what follows.  A dash makes a range unless
the class ends or another dash stands behind it. -/
def readMember (f : Flags) (c : Char) (s : List Char) : Option (List Char) := do
  let (low, s) ← readItem f c s
  match f.skip s with
  | '-' :: rest =>
    if f.peek rest = some ']' ∨ f.peek rest = some '-' then
      if low.isMember f then some ('-' :: rest) else none
    else
      match f.skip rest with
      | [] => none
      | d :: rest => do
        let (high, rest) ← readItem f d rest
        if isRange f low high then some rest else none
  | rest => if low.isMember f then some rest else none

/-! ### Levels -/

/-- A class that is open. -/
structure Level where
  /-- Nothing but dashes has been read. -/
  fresh : Bool := true
  /-- The height of what stands on the left of the last operator. -/
  left : Option Nat := none
  /-- The members behind the last operator. -/
  members : Pile := {}
  deriving DecidableEq, Repr

namespace Level

/-- One more member, of some height. -/
def push (l : Level) (height : Nat) : Level :=
  { l with fresh := false, members := l.members.push height }

/-- The height of what has been read. -/
def height (l : Level) : Nat :=
  match l.left with
  | none => l.members.height
  | some left => max left l.members.height + 1

/-- Behind an operator. -/
def operate (l : Level) : Level := ⟨false, some l.height, {}⟩

end Level

/-- Starts to read a class from behind its bracket: it may be negated. -/
def enter (f : Flags) (s : List Char) : Option (List Char) :=
  match f.skip s with
  | '^' :: rest => if f.unicode then some rest else none
  | rest => some rest

/-! ### Reading -/

/-- Reads the rest of the innermost open class and of those around it, and gives the
height of the outermost one.  Each step reads a character at least. -/
def readFrom (f : Flags) : Nat → List Level → Level → List Char → Option (Nat × List Char)
  | 0, _, _, _ => none
  | steps + 1, outer, l, s =>
    match f.skip s with
    | [] => none
    | c :: s =>
      if l.fresh ∧ c = '-' then
        if f.allowsMember c then readFrom f steps outer { l.push 0 with fresh := true } s else none
      else if l.fresh ∧ l.members.count = 0 ∧ c = ']' then
        if f.allowsMember c then readFrom f steps outer (l.push 0) s else none
      else if c = '[' then
        match readAscii s with
        | some (negated, s) =>
          if allowsAscii f negated then readFrom f steps outer (l.push 0) s else none
        | none => do readFrom f steps ({ l with fresh := false } :: outer) {} (← enter f s)
      else if c = ']' then
        match outer with
        | [] => some (l.height + 1, s)
        | around :: outer => readFrom f steps outer (around.push (l.height + 1)) s
      else if (c = '&' ∨ c = '-' ∨ c = '~') ∧ s.head? = some c then
        readFrom f steps outer l.operate s.tail
      else do
        readFrom f steps outer (l.push 0) (← readMember f c s)

/-- Reads a class from behind its bracket, and gives its height. -/
def read (f : Flags) (s : List Char) : Option (Nat × List Char) := do
  readFrom f (s.length + 1) [] {} (← enter f s)

end Class

end Pattern

end Asdl
