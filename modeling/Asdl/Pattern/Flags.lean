/-
The flags of a pattern.

Flags stand at the start of a group, as in `(?i:a)`, or alone, as in `(?i)`, and then
hold to the end of the group around them.

* `Flags` — those that decide which patterns are allowed;
* `Flags.apply` — the flags behind a list of them;
* `Flags.read` — such a list as it is written;
* `Flags.skip` — what stands behind blanks and comments, where these may stand.
-/
import Asdl.Text.Blank

namespace Asdl

namespace Pattern

/-- The flags that decide which patterns are allowed. -/
structure Flags where
  /-- Letters stand for both cases. -/
  ignoreCase : Bool := false
  /-- Characters are compared, and not bytes. -/
  unicode : Bool := true
  /-- Blanks and comments may stand between the parts of a pattern. -/
  spaced : Bool := false
  deriving DecidableEq, Repr

namespace Flags

/-! ### Flags -/

/-- The letters of flags. -/
def letters : List Char := ['i', 'm', 's', 'U', 'u', 'R', 'x']

/-- Sets or clears the flag of a letter. -/
def set (f : Flags) (on : Bool) (c : Char) : Flags :=
  if c = 'i' then { f with ignoreCase := on }
  else if c = 'u' then { f with unicode := on }
  else if c = 'x' then { f with spaced := on }
  else f

/-- The flags behind a list.  Those before a dash are set and the others are
cleared. -/
def apply (f : Flags) (list : List Char) : Flags :=
  let on := list.takeWhile (· ≠ '-')
  let off := list.dropWhile (· ≠ '-')
  off.foldl (·.set false) (on.foldl (·.set true) f)

/-- Reads a list of flags up to a colon or a closing parenthesis, with those already
read in reverse.  None may stand twice, nor the dash, and the dash does not stand
last. -/
def read (seen : List Char) : List Char → Option (List Char × Char × List Char)
  | [] => none
  | c :: s =>
    if c = ':' ∨ c = ')' then
      if seen.head? = some '-' then none else some (seen.reverse, c, s)
    else if (c = '-' ∨ c ∈ letters) ∧ c ∉ seen then read (c :: seen) s
    else none

/-! ### Blanks and comments -/

/-- What stands behind blanks and comments.  A comment ends with its line. -/
def skipFrom (comment : Bool) : List Char → List Char
  | [] => []
  | c :: s =>
    if comment then skipFrom (c ≠ '\n') s
    else if Text.isBlank c then skipFrom false s
    else if c = '#' then skipFrom true s
    else c :: s

/-- What stands behind blanks and comments, if they are allowed. -/
def skip (f : Flags) (s : List Char) : List Char := if f.spaced then skipFrom false s else s

/-- The first character behind blanks and the mark of a comment. -/
def peekFrom (comment : Bool) : List Char → Option Char
  | [] => none
  | c :: s =>
    if Text.isBlank c then peekFrom comment s
    else if !comment && c == '#' then peekFrom true s
    else some c

/-- The character that says whether a dash in a class makes a range.  A comment is
looked into. -/
def peek (f : Flags) (s : List Char) : Option Char :=
  if f.spaced then peekFrom false s else s.head?

end Flags

end Pattern

end Asdl
