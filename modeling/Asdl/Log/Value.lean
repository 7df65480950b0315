/-
Values that a directive asks for.

A directive of a filter may ask for the value of a detail by a number or by a
pattern.  No value of this program is ever compared with one; but a text that is
none makes the whole filter wrong.

* `Value.isValue` — whether a text is a number or a pattern.
-/
import Asdl.Pattern

namespace Asdl

namespace Value

/-- Nothing, or an exponent. -/
def isExponent : List Char → Bool
  | [] => true
  | e :: s =>
    let digits := match s with
      | '+' :: r => r
      | '-' :: r => r
      | r => r
    (e = 'e' || e = 'E') && !digits.isEmpty && digits.all Char.isDigit

/-- Whether the text is a decimal number without a sign. -/
def isDecimal (s : List Char) : Bool :=
  let whole := s.takeWhile Char.isDigit
  match s.dropWhile Char.isDigit with
  | '.' :: r =>
    let places := r.takeWhile Char.isDigit
    !(whole ++ places).isEmpty && isExponent (r.dropWhile Char.isDigit)
  | r => !whole.isEmpty && isExponent r

/-- Whether the text is a number with a plus sign.  All other numbers are patterns
as well. -/
def isPlusNumber (text : String) : Bool :=
  match text.toList with
  | '+' :: s => isDecimal s || ["inf", "infinity", "nan"].contains (String.ofList s).toLower
  | _ => false

/-- Whether the text is a number or a pattern. -/
def isValue (text : String) : Bool := isPlusNumber text || Pattern.isPattern text

end Value

end Asdl
