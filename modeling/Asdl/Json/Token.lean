/-
The tokens of a JSON text.

A text is cut into tokens from the left, blanks apart.  A token with a fault is
the last one: what follows it is not looked at.  Whether its fault counts is for
the reader of the tokens to say, because a token may be wrong already where it
stands.

* `Token` — a mark, a word, a number or a quoted text;
* `tokens` — the tokens of a text;
* `Token.refusal` — what is wrong with a value that is not wanted.
-/
import Asdl.Json.Number
import Asdl.Json.Quoted

namespace Asdl

namespace Json

/-- The marks that hold values together. -/
inductive Mark where
  | openBrace
  | closeBrace
  | openBracket
  | closeBracket
  | comma
  | colon
  deriving DecidableEq, Repr

def Mark.ofChar? (c : Char) : Option Mark :=
  if c = '{' then some .openBrace
  else if c = '}' then some .closeBrace
  else if c = '[' then some .openBracket
  else if c = ']' then some .closeBracket
  else if c = ',' then some .comma
  else if c = ':' then some .colon
  else none

/-- A token of a JSON text. -/
inductive Token where
  | mark (m : Mark)
  | null
  | flag (value : Bool)
  | number (n : Except JsonFault Numeral)
  /-- A quoted text: its value, and whether it is closed. -/
  | text (value : Except JsonFault String) (ending : Except JsonFault Unit)
  /-- The start of a word that does not go on as it should. -/
  | brokenWord (fault : JsonFault)
  /-- A character that starts nothing. -/
  | stray
  deriving Repr

/-- Whether the character stands between tokens. -/
def isBlank (c : Char) : Bool := c == ' ' || c == '\n' || c == '\r' || c == '\t'

namespace Token

/-! ### Cutting -/

/-- The text goes on with `word`. -/
def goesOn : List Char → List Char → Except JsonFault (List Char)
  | [], s => .ok s
  | _ :: _, [] => .error .ended
  | w :: word, c :: s => if c = w then goesOn word s else .error .malformed

/-- A word, from behind its first letter. -/
def ofWord (t : Token) (word s : List Char) : Token × List Char :=
  match goesOn word s with
  | .ok rest => (t, rest)
  | .error f => (brokenWord f, [])

/-- A quoted text, from behind its opening quote. -/
def ofQuoted (q : Quoted) : Token × List Char :=
  (text q.value (q.ending.map fun _ => ()), q.rest)

/-- A number, from behind its sign. -/
def ofNumber (s : List Char) : Token × List Char :=
  match Numeral.scan s with
  | .ok (n, rest) => (number (.ok n), rest)
  | .error f => (number (.error f), [])

/-- The first token of the text `c :: rest`, where `c` is no blank, and what
follows it. -/
def first (c : Char) (rest : List Char) : Token × List Char :=
  match Mark.ofChar? c with
  | some m => (mark m, rest)
  | none =>
    if c = '"' then ofQuoted (.scan rest)
    else if c = 'n' then ofWord null ['u', 'l', 'l'] rest
    else if c = 't' then ofWord (flag true) ['r', 'u', 'e'] rest
    else if c = 'f' then ofWord (flag false) ['a', 'l', 's', 'e'] rest
    else if c = '-' then ofNumber rest
    else if c.isDigit then ofNumber (c :: rest)
    else (stray, rest)

theorem length_goesOn_le {word s rest : List Char} (h : goesOn word s = .ok rest) :
    rest.length ≤ s.length := by
  fun_induction goesOn word s with
  | case1 s =>
    cases h
    exact Nat.le_refl _
  | case2 => cases h
  | case3 word c s ih => exact Nat.le_succ_of_le (ih h)
  | case4 => cases h

theorem length_ofWord_le (t : Token) (word s : List Char) :
    (ofWord t word s).2.length ≤ s.length := by
  unfold ofWord
  split
  · next h => exact length_goesOn_le h
  · exact Nat.zero_le _

theorem length_ofNumber_cons_le (c : Char) (s : List Char) :
    (ofNumber (c :: s)).2.length ≤ s.length := by
  unfold ofNumber
  split
  · next h => exact Nat.le_of_lt_succ (Numeral.length_scan_lt h)
  · exact Nat.zero_le _

theorem length_ofNumber_le (s : List Char) : (ofNumber s).2.length ≤ s.length := by
  unfold ofNumber
  split
  · next h => exact Nat.le_of_lt (Numeral.length_scan_lt h)
  · exact Nat.zero_le _

theorem length_first_le (c : Char) (rest : List Char) :
    (first c rest).2.length ≤ rest.length := by
  unfold first
  split
  · exact Nat.le_refl _
  · split
    · exact Quoted.length_rest_scan_le rest
    · split
      · exact length_ofWord_le _ _ _
      · split
        · exact length_ofWord_le _ _ _
        · split
          · exact length_ofWord_le _ _ _
          · split
            · exact length_ofNumber_le rest
            · split
              · exact length_ofNumber_cons_le c rest
              · exact Nat.le_refl _

/-! ### Refusal -/

/-- What is wrong with a numeral where no number is wanted: it is too large, or
it is a number. -/
def refusedNumber (n : Numeral) : JsonFault := if n.isTooLarge then .malformed else .mistyped

/-- What is wrong with a token where a value of another type is wanted.  A value
is read before it is refused, but objects and arrays are refused at once. -/
def refusal : Token → JsonFault
  | mark .openBrace => .mistyped
  | mark .openBracket => .mistyped
  | mark _ => .malformed
  | null => .mistyped
  | flag _ => .mistyped
  | number (.ok n) => refusedNumber n
  | number (.error f) => f
  | text (.ok _) _ => .mistyped
  | text (.error f) _ => f
  | brokenWord f => f
  | stray => .malformed

end Token

/-- The tokens of a text, in order. -/
def tokens : List Char → List Token
  | [] => []
  | c :: rest =>
    if isBlank c then tokens rest
    else (Token.first c rest).1 :: tokens (Token.first c rest).2
termination_by s => s.length
decreasing_by
  · exact Nat.lt_succ_self _
  · exact Nat.lt_succ_of_le (Token.length_first_le c rest)

end Json

end Asdl
