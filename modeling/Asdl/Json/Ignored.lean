/-
Values that nobody looks at.

Such a value only has to be JSON.  It is read token by token with the objects
and arrays that are open, so it may be nested as deep as one likes.

* `Ignored` — what is open and what has to come next;
* `Ignored.step` — one token more: the value goes on, ends, or is no JSON.
-/
import Asdl.Json.Token

namespace Asdl

namespace Json

/-- What holds values. -/
inductive Container where
  | object
  | array
  deriving DecidableEq, Repr

/-- The mark that closes a container. -/
def Container.closer : Container → Mark
  | object => .closeBrace
  | array => .closeBracket

/-- What has to come next in a value. -/
inductive Want where
  /-- A value. -/
  | value
  /-- A value or the end of the array that was just opened. -/
  | firstItem
  /-- A key or the end of the object that was just opened. -/
  | firstKey
  | key
  | colon
  /-- A comma or the end of the container. -/
  | more
  deriving DecidableEq, Repr

/-- A value that is being read: the open containers, innermost first, and what
has to come next. -/
structure Ignored where
  opened : List Container
  want : Want
  deriving DecidableEq, Repr

namespace Ignored

/-- A value of which nothing is read yet. -/
def start : Ignored := ⟨[], .value⟩

/-- A value is complete inside the open containers; without any, that was all. -/
def complete : List Container → Option Ignored
  | [] => none
  | opened => some ⟨opened, .more⟩

/-- A token where a value is wanted. -/
def readValue (opened : List Container) : Token → Except JsonFault (Option Ignored)
  | .mark .openBrace => .ok (some ⟨.object :: opened, .firstKey⟩)
  | .mark .openBracket => .ok (some ⟨.array :: opened, .firstItem⟩)
  | .mark _ => .error .malformed
  | .null => .ok (complete opened)
  | .flag _ => .ok (complete opened)
  | .number (.ok _) => .ok (complete opened)
  | .number (.error _) => .error .malformed
  | .text _ (.ok ()) => .ok (complete opened)
  | .text _ (.error f) => .error f
  | .brokenWord f => .error f
  | .stray => .error .malformed

/-- A token where a key is wanted. -/
def readKey (opened : List Container) : Token → Except JsonFault (Option Ignored)
  | .text _ (.ok ()) => .ok (some ⟨opened, .colon⟩)
  | .text _ (.error f) => .error f
  | _ => .error .malformed

/-- A mark behind a complete value in a container. -/
def readMore (m : Mark) : List Container → Except JsonFault (Option Ignored)
  | [] => .error .malformed
  | c :: opened =>
    if m = c.closer then .ok (complete opened)
    else if m = .comma then
      match c with
      | .object => .ok (some ⟨c :: opened, .key⟩)
      | .array => .ok (some ⟨c :: opened, .value⟩)
    else .error .malformed

/-- One token more; nothing is left to read when the value ends. -/
def step (v : Ignored) (t : Token) : Except JsonFault (Option Ignored) :=
  match v.want, t with
  | .value, t => readValue v.opened t
  | .firstItem, .mark .closeBracket => .ok (complete v.opened.tail)
  | .firstItem, t => readValue v.opened t
  | .firstKey, .mark .closeBrace => .ok (complete v.opened.tail)
  | .firstKey, t => readKey v.opened t
  | .key, t => readKey v.opened t
  | .colon, .mark .colon => .ok (some ⟨v.opened, .value⟩)
  | .colon, _ => .error .malformed
  | .more, .mark m => readMore m v.opened
  | .more, _ => .error .malformed

end Ignored

end Json

end Asdl
