/-
What a backslash in a pattern stands for.

* `Escape` — a character, a class of characters or a place;
* `Escape.read` — an escape as it is written, from behind its backslash;
* `Flags.allowsLiteral`, `Flags.allowsMember`, `Escape.isAllowed` — what the flags
  allow.

Design notes: there are no tables of case or of classes for characters beyond ASCII.
So letters stand for both cases, and classes and word boundaries are known, only
where bytes are compared.  There in turn nothing may match a part of a character.
-/
import Asdl.Pattern.Flags

namespace Asdl

namespace Pattern

/-- What a backslash stands for. -/
inductive Escape where
  /-- A character, and whether it is written as a byte. -/
  | literal (c : Char) (byte : Bool)
  /-- Digits, blanks or the characters of words, or all others. -/
  | shorthand (negated : Bool)
  /-- The start or the end of the text. -/
  | textEnd
  /-- A place between words. -/
  | wordEnd
  deriving DecidableEq, Repr

/-! ### What flags allow -/

/-- Whether a character may stand in a sequence. -/
def Flags.allowsLiteral (f : Flags) (c : Char) (byte : Bool) : Bool :=
  if f.unicode then !f.ignoreCase else !byte || c.toNat < 0x80

/-- Whether a character may stand in a class. -/
def Flags.allowsMember (f : Flags) (c : Char) : Bool :=
  if f.unicode then !f.ignoreCase else c.toNat < 0x80

/-- Whether a shorthand may stand anywhere. -/
def Flags.allowsShorthand (f : Flags) (negated : Bool) : Bool := !f.unicode && !negated

namespace Escape

/-- Whether an escape may stand in a sequence. -/
def isAllowed (f : Flags) : Escape → Bool
  | literal c byte => f.allowsLiteral c byte
  | shorthand negated => f.allowsShorthand negated
  | textEnd => true
  | wordEnd => !f.unicode

/-- Whether an escape may stand in a class. -/
def isMember (f : Flags) : Escape → Bool
  | literal c _ => f.allowsMember c
  | shorthand negated => f.allowsShorthand negated
  | textEnd => false
  | wordEnd => false

/-! ### Reading -/

/-- The value of a hexadecimal digit. -/
def hexValue? (c : Char) : Option Nat :=
  if '0' ≤ c ∧ c ≤ '9' then some (c.toNat - '0'.toNat)
  else if 'a' ≤ c ∧ c ≤ 'f' then some (c.toNat - 'a'.toNat + 10)
  else if 'A' ≤ c ∧ c ≤ 'F' then some (c.toNat - 'A'.toNat + 10)
  else none

/-- Reads a number of hexadecimal digits. -/
def readDigits (f : Flags) : Nat → Nat → List Char → Option (Nat × List Char)
  | 0, value, s => some (value, s)
  | n + 1, value, s =>
    match f.skip s with
    | [] => none
    | c :: s => do readDigits f n (value * 16 + (← hexValue? c)) s

/-- Reads a character that is written by its code point. -/
def readCode (f : Flags) (digits : Nat) (s : List Char) : Option (Char × List Char) := do
  let (value, s) ← readDigits f digits 0 s
  if value.isValidChar then some (Char.ofNat value, s) else none

/-- The characters that have a letter of their own. -/
def control? (c : Char) : Option Char :=
  if c = 'a' then some '\x07'
  else if c = 'f' then some '\x0c'
  else if c = 'n' then some '\n'
  else if c = 'r' then some '\r'
  else if c = 't' then some '\t'
  else if c = 'v' then some '\x0b'
  else none

/-- An escape of one character.  A letter or a digit without a meaning is not
allowed, and any other character of ASCII stands for itself. -/
def ofChar? (c : Char) : Option Escape :=
  if c ∈ ['d', 's', 'w'] then some (shorthand false)
  else if c ∈ ['D', 'S', 'W'] then some (shorthand true)
  else if c ∈ ['A', 'z'] then some textEnd
  else if c ∈ ['b', 'B', '<', '>'] then some wordEnd
  else if c.isAlphanum then (control? c).map (literal · false)
  else if c.toNat < 0x80 then some (literal c false)
  else none

/-- Reads an escape from behind its backslash. -/
def read (f : Flags) : List Char → Option (Escape × List Char)
  | [] => none
  | c :: s =>
    if c = 'x' then (readCode f 2 s).map fun (d, s) => (literal d true, s)
    else if c = 'u' then (readCode f 4 s).map fun (d, s) => (literal d false, s)
    else if c = 'U' then (readCode f 8 s).map fun (d, s) => (literal d false, s)
    else (ofChar? c).map (·, s)

end Escape

end Pattern

end Asdl
