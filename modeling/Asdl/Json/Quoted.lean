/-
Reading quoted texts.

What stands between two quotes is a sequence of codes.  A code is a character, or
a number given by four hexadecimal digits, which may be half of a character
outside the basic plane.

* `Quoted.scan` — the codes up to the closing quote, and how they end;
* `Quoted.decode` — the characters that codes stand for: halves have to come in
  pairs;
* `Quoted.value` — the text, or what is wrong with it first.

Design notes: the scan keeps the codes before a fault, because a half without
its partner is a fault of its own that comes before.  A text that nobody looks
at may hold such halves, and only its ending counts.
-/
import Asdl.Error

namespace Asdl

namespace Json

/-- A quoted text, from behind its opening quote. -/
structure Quoted where
  codes : List Nat
  /-- What follows the closing quote, unless a fault comes first. -/
  ending : Except JsonFault (List Char)

/-! ### Codes -/

/-- The value of a hexadecimal digit. -/
def hexValue? (c : Char) : Option Nat :=
  if '0' ≤ c ∧ c ≤ '9' then some (c.toNat - 48)
  else if 'a' ≤ c ∧ c ≤ 'f' then some (c.toNat - 87)
  else if 'A' ≤ c ∧ c ≤ 'F' then some (c.toNat - 55)
  else none

/-- The value of four hexadecimal digits. -/
def hexCode? (a b c d : Char) : Option Nat := do
  let a ← hexValue? a
  let b ← hexValue? b
  let c ← hexValue? c
  let d ← hexValue? d
  return a * 4096 + b * 256 + c * 16 + d

/-- The character that a letter behind a backslash stands for. -/
def escaped? (c : Char) : Option Char :=
  if c = '"' then some '"'
  else if c = '\\' then some '\\'
  else if c = '/' then some '/'
  else if c = 'b' then some '\x08'
  else if c = 'f' then some '\x0c'
  else if c = 'n' then some '\n'
  else if c = 'r' then some '\r'
  else if c = 't' then some '\t'
  else none

namespace Quoted

/-- A fault at the start. -/
def fault (f : JsonFault) : Quoted := ⟨[], .error f⟩

/-- One more code in front. -/
def push (code : Nat) (q : Quoted) : Quoted := ⟨code :: q.codes, q.ending⟩

/-- The fault of a code that is cut short: four bytes have to be there. -/
def shortFault (rest : List Char) : JsonFault :=
  if rest.foldr (fun c n => c.utf8Size + n) 0 < 4 then .ended else .malformed

/-- The codes up to the closing quote. -/
def scan : List Char → Quoted
  | [] => fault .ended
  | '"' :: rest => ⟨[], .ok rest⟩
  | ['\\'] => fault .ended
  | '\\' :: 'u' :: a :: b :: c :: d :: rest =>
    match hexCode? a b c d with
    | some code => push code (scan rest)
    | none => fault .malformed
  | '\\' :: 'u' :: rest => fault (shortFault rest)
  | '\\' :: c :: rest =>
    match escaped? c with
    | some e => push e.toNat (scan rest)
    | none => fault .malformed
  | c :: rest => if c.toNat < 0x20 then fault .malformed else push c.toNat (scan rest)

/-! ### Characters -/

/-- The first half of a character. -/
def isLead (code : Nat) : Bool := 0xd800 ≤ code && code < 0xdc00

/-- The second half of a character. -/
def isTrail (code : Nat) : Bool := 0xdc00 ≤ code && code < 0xe000

/-- The character of two halves. -/
def joined (lead trail : Nat) : Char :=
  Char.ofNat (0x10000 + (lead - 0xd800) * 0x400 + (trail - 0xdc00))

/-- The characters of codes that end with `ending`; a half without its partner is
a fault, and after a last first half the fault of the ending comes first. -/
def decode {α : Type} (ending : Except JsonFault α) : List Nat → Except JsonFault (List Char)
  | [] =>
    match ending with
    | .ok _ => .ok []
    | .error f => .error f
  | [code] =>
    match ending with
    | .ok _ => if isLead code || isTrail code then .error .malformed else .ok [Char.ofNat code]
    | .error f => if isTrail code then .error .malformed else .error f
  | code :: next :: rest =>
    if isLead code then
      if isTrail next then (joined code next :: ·) <$> decode ending rest
      else .error .malformed
    else if isTrail code then .error .malformed
    else (Char.ofNat code :: ·) <$> decode ending (next :: rest)

/-- The text, or what is wrong with it first. -/
def value (q : Quoted) : Except JsonFault String := String.ofList <$> decode q.ending q.codes

/-! ### What is left -/

/-- What follows the text; nothing, after a fault. -/
def rest (q : Quoted) : List Char :=
  match q.ending with
  | .ok rest => rest
  | .error _ => []

@[simp] theorem rest_push (code : Nat) (q : Quoted) : (push code q).rest = q.rest := rfl

@[simp] theorem rest_fault (f : JsonFault) : (fault f).rest = [] := rfl

theorem length_rest_scan_le (s : List Char) : (scan s).rest.length ≤ s.length := by
  fun_induction scan s <;> simp_all [rest, push, fault] <;> omega

end Quoted

end Json

end Asdl
