/-
Reading numbers.

* `Numeral` — a number as it is written: digits before the point, digits behind
  it, and an exponent;
* `Numeral.scan` — the numeral at the start of a text, or what is wrong with it;
* `Numeral.isTooLarge` — whether no double is near it.

Design notes: the size of a numeral is found from its first digits, as many as
fit sixty-four bits, and a power of ten, both rounded to a double.
-/
import Asdl.Error

namespace Asdl

namespace Json

/-- A number as it is written, without its sign. -/
structure Numeral where
  whole : List Char
  fraction : List Char
  /-- Whether the exponent is negative, and its digits. -/
  exponent : Bool × List Char
  deriving DecidableEq, Repr

namespace Numeral

/-! ### Digits -/

/-- The digits at the start of a text; there is at least one. -/
def digits (s : List Char) : Except JsonFault (List Char × List Char) :=
  match s with
  | [] => .error .ended
  | c :: rest =>
    if c.isDigit then .ok (c :: rest.takeWhile Char.isDigit, rest.dropWhile Char.isDigit)
    else .error .malformed

/-- The digits before the point; a zero in front stands alone. -/
def scanWhole (s : List Char) : Except JsonFault (List Char × List Char) :=
  match s with
  | '0' :: rest =>
    if rest.head?.any Char.isDigit then .error .malformed else .ok (['0'], rest)
  | _ => digits s

/-- The digits behind the point, if there is one. -/
def scanFraction (s : List Char) : Except JsonFault (List Char × List Char) :=
  match s with
  | '.' :: rest => digits rest
  | _ => .ok ([], s)

/-- The sign of an exponent, and whether it is a minus sign. -/
def scanSign : List Char → Bool × List Char
  | '-' :: rest => (true, rest)
  | '+' :: rest => (false, rest)
  | s => (false, s)

/-- The exponent, if there is one. -/
def scanExponent (s : List Char) : Except JsonFault ((Bool × List Char) × List Char) :=
  match s with
  | c :: rest =>
    if c = 'e' ∨ c = 'E' then do
      let (ds, left) ← digits (scanSign rest).2
      return (((scanSign rest).1, ds), left)
    else .ok ((false, []), s)
  | [] => .ok ((false, []), [])

/-- The numeral at the start of a text, behind the sign, and what follows it. -/
def scan (s : List Char) : Except JsonFault (Numeral × List Char) := do
  let (whole, s) ← scanWhole s
  let (fraction, s) ← scanFraction s
  let (exponent, s) ← scanExponent s
  return (⟨whole, fraction, exponent⟩, s)

/-! ### Size -/

/-- The number that digits stand for. -/
def valueOf (ds : List Char) : Nat := ds.foldl (fun n c => n * 10 + (c.toNat - 48)) 0

/-- Appends digits to a number while it fits sixty-four bits; also the digits
that are left. -/
def absorb (n : Nat) : List Char → Nat × List Char
  | [] => (n, [])
  | c :: rest =>
    let next := n * 10 + (c.toNat - 48)
    if next < 2 ^ 64 then absorb next rest else (n, c :: rest)

/-- A number rounded to fifty-three bits, a half to the even neighbour. -/
def round53 (n : Nat) : Nat :=
  let unit := Nat.pow 2 (n.log2 + 1 - 53)
  let q := n / unit
  let r := n % unit
  if unit < 2 * r ∨ (unit = 2 * r ∧ q % 2 = 1) then (q + 1) * unit else q * unit

/-- What rounds to no double, and all that is larger. -/
def tooLarge : Nat := Nat.pow 2 1024 - Nat.pow 2 970

/-- Whether no double is near the number. -/
def isTooLarge (n : Numeral) : Bool :=
  let (head, left) := absorb 0 n.whole
  let (head, dropped) := absorb head n.fraction
  let shift : Int := left.length - (n.fraction.length - dropped.length : Nat)
  let written : Int := valueOf n.exponent.2
  let power := if n.exponent.1 then shift - written else shift + written
  head != 0 && (308 < power ||
    (0 ≤ power && tooLarge ≤ round53 head * round53 (Nat.pow 10 power.toNat)))

/-! ### What is left -/

theorem length_digits_lt {s ds rest : List Char} (h : digits s = .ok (ds, rest)) :
    rest.length < s.length := by
  unfold digits at h
  split at h
  · cases h
  · split at h
    · cases h
      exact Nat.lt_succ_of_le (List.dropWhile_suffix _).length_le
    · cases h

theorem length_scanWhole_lt {s ds rest : List Char} (h : scanWhole s = .ok (ds, rest)) :
    rest.length < s.length := by
  unfold scanWhole at h
  split at h
  · split at h
    · cases h
    · cases h
      exact Nat.lt_succ_self _
  · exact length_digits_lt h

theorem length_scanFraction_le {s ds rest : List Char} (h : scanFraction s = .ok (ds, rest)) :
    rest.length ≤ s.length := by
  unfold scanFraction at h
  split at h
  · exact Nat.le_succ_of_le (Nat.le_of_lt (length_digits_lt h))
  · cases h
    exact Nat.le_refl _

theorem length_scanSign_le (s : List Char) : (scanSign s).2.length ≤ s.length := by
  unfold scanSign
  split <;> simp

theorem length_scanExponent_le {s rest : List Char} {e : Bool × List Char}
    (h : scanExponent s = .ok (e, rest)) : rest.length ≤ s.length := by
  unfold scanExponent at h
  split at h
  · next c left =>
    split at h
    · cases hd : digits (scanSign left).2 with
      | error f => simp [hd, bind, Except.bind] at h
      | ok r =>
        simp only [hd, bind, Except.bind, pure, Except.pure] at h
        cases h
        have h1 := length_digits_lt hd
        have h2 := length_scanSign_le left
        simp only [List.length_cons]
        omega
    · cases h
      exact Nat.le_refl _
  · cases h
    exact Nat.le_refl _

theorem length_scan_lt {s rest : List Char} {n : Numeral} (h : scan s = .ok (n, rest)) :
    rest.length < s.length := by
  unfold scan at h
  cases hw : scanWhole s with
  | error f => simp [hw, bind, Except.bind] at h
  | ok w =>
    cases hf : scanFraction w.2 with
    | error f => simp [hw, hf, bind, Except.bind] at h
    | ok f =>
      cases he : scanExponent f.2 with
      | error f => simp [hw, hf, he, bind, Except.bind] at h
      | ok e =>
        simp only [hw, hf, he, bind, Except.bind, pure, Except.pure] at h
        cases h
        -- the whole part takes at least a digit, the other two may be empty
        have h1 := length_scanWhole_lt hw
        have h2 := length_scanFraction_le hf
        have h3 := length_scanExponent_le he
        omega

end Numeral

end Json

end Asdl
