/-
The texts that JSON allows, and their tokens.

The grammar is given text first: which characters may stand between two quotes and what
they spell, how numbers are written, and how values are put together with blanks around
every mark.

* `Spells` — the characters between two quotes, and the text that they stand for;
* `Written` — values, the items of an array, the members of an object;
* `IsString`, `IsArray`, `IsObject` — such values with what they hold;
* `Written.cuts` — where a value ends, the tokens behind it are those of what follows;
* `Written.tokens_items`, `Written.tokens_members` — the tokens of a container are those of
  its parts with commas between them.

Design notes: a text that nobody looks at may hold half a character, so `Between` allows
more than `Spells` does.  Only a number has to look at what follows, to see that no digit
does; every other value ends by itself.
-/
import Asdl.Json.Token
import Asdl.Proofs.Checks
import Asdl.Proofs.Lexing

namespace Asdl

namespace Json

/-! ### Grammar -/

/-- Nothing but blanks. -/
def Blanks (s : List Char) : Prop := ∀ c ∈ s, c ∈ [' ', '\t', '\n', '\r']

theorem blanks_nil : Blanks [] := fun _ hc => absurd hc List.not_mem_nil

theorem blanks_cons {c : Char} {s : List Char} (hc : c ∈ [' ', '\t', '\n', '\r'])
    (hs : Blanks s) : Blanks (c :: s) :=
  List.forall_mem_cons.mpr ⟨hc, hs⟩

/-- The hexadecimal digits and their values. -/
def hexDigits : List (Char × Nat) :=
  [('0', 0), ('1', 1), ('2', 2), ('3', 3), ('4', 4), ('5', 5), ('6', 6), ('7', 7), ('8', 8),
    ('9', 9), ('a', 10), ('b', 11), ('c', 12), ('d', 13), ('e', 14), ('f', 15), ('A', 10),
    ('B', 11), ('C', 12), ('D', 13), ('E', 14), ('F', 15)]

/-- The letters behind a backslash, and what they stand for. -/
def shortEscapes : List (Char × Char) :=
  [('"', '"'), ('\\', '\\'), ('/', '/'), ('b', '\x08'), ('f', '\x0c'), ('n', '\n'), ('r', '\r'),
    ('t', '\t')]

/-- A code of four hexadecimal digits. -/
inductive Code : List Char → Nat → Prop where
  | mk {a b c d : Char} {x y z w : Nat} (ha : (a, x) ∈ hexDigits) (hb : (b, y) ∈ hexDigits)
      (hc : (c, z) ∈ hexDigits) (hd : (d, w) ∈ hexDigits) :
      Code ['\\', 'u', a, b, c, d] (((x * 16 + y) * 16 + z) * 16 + w)

/-- The character stands for itself between quotes. -/
def IsPlain (c : Char) : Prop := 0x20 ≤ c.toNat ∧ c ≠ '"' ∧ c ≠ '\\'

/-- The characters between two quotes, and the characters that they stand for. -/
inductive Spells : List Char → List Char → Prop where
  | nil : Spells [] []
  | plain {c : Char} {s v : List Char} (hc : IsPlain c) (h : Spells s v) : Spells (c :: s) (c :: v)
  | short {e c : Char} {s v : List Char} (he : (e, c) ∈ shortEscapes) (h : Spells s v) :
      Spells ('\\' :: e :: s) (c :: v)
  | code {t s v : List Char} {c : Char} (ht : Code t c.toNat) (h : Spells s v) :
      Spells (t ++ s) (c :: v)
  /-- A character outside the basic plane, given by two halves. -/
  | pair {t u s v : List Char} {c : Char} {lead trail : Nat} (ht : Code t (0xd800 + lead))
      (hu : Code u (0xdc00 + trail)) (hlead : lead < 0x400) (htrail : trail < 0x400)
      (hc : c.toNat = 0x10000 + lead * 0x400 + trail) (h : Spells s v) :
      Spells (t ++ (u ++ s)) (c :: v)

/-- Characters that may stand between two quotes, halves of characters among them. -/
inductive Between : List Char → Prop where
  | nil : Between []
  | plain {c : Char} {s : List Char} (hc : IsPlain c) (h : Between s) : Between (c :: s)
  | short {e c : Char} {s : List Char} (he : (e, c) ∈ shortEscapes) (h : Between s) :
      Between ('\\' :: e :: s)
  | code {t s : List Char} {n : Nat} (ht : Code t n) (h : Between s) : Between (t ++ s)

theorem Spells.between {s v : List Char} (h : Spells s v) : Between s := by
  induction h with
  | nil => exact .nil
  | plain hc _ ih => exact .plain hc ih
  | short he _ ih => exact .short he ih
  | code ht _ ih => exact .code ht ih
  | pair ht hu _ _ _ _ ih => exact .code ht (.code hu ih)

/-- A text without anything special spells itself. -/
theorem spells_plain (s : String)
    (h : s.toList.all (fun c => 0x20 ≤ c.toNat && c != '"' && c != '\\') = true) :
    Spells s.toList s.toList := by
  have hall := List.all_eq_true.mp h
  generalize s.toList = cs at hall
  induction cs with
  | nil => exact .nil
  | cons c cs ih =>
    have hc := hall c List.mem_cons_self
    simp only [Bool.and_eq_true, decide_eq_true_eq, bne_iff_ne] at hc
    exact .plain ⟨hc.1.1, hc.1.2, hc.2⟩ (ih fun d hd => hall d (List.mem_cons_of_mem _ hd))

/-- Digits, and at least one. -/
def IsDigits (s : List Char) : Prop := s ≠ [] ∧ ∀ c ∈ s, c.isDigit = true

/-- A number: digits that start with a zero only if that is all, then perhaps a fraction
and perhaps an exponent. -/
inductive IsNumber : List Char → Prop where
  | mk {sign whole fraction exponent : List Char} (hsign : sign ∈ [[], ['-']])
      (hwhole : whole = ['0'] ∨ IsDigits whole ∧ whole.head? ≠ some '0')
      (hfraction : fraction = [] ∨ ∃ ds, IsDigits ds ∧ fraction = '.' :: ds)
      (hexponent : exponent = [] ∨ ∃ e ∈ ['e', 'E'], ∃ sign ∈ [[], ['+'], ['-']], ∃ ds,
        IsDigits ds ∧ exponent = e :: (sign ++ ds)) :
      IsNumber (sign ++ (whole ++ (fraction ++ exponent)))

/-- A truth value, as it is written. -/
def flagText : Bool → List Char
  | true => ['t', 'r', 'u', 'e']
  | false => ['f', 'a', 'l', 's', 'e']

/-- What a text may be: a value, the items of an array or the members of an object.  The
parts of the last two are given as they are written, keys without their quotes. -/
inductive Part where
  | value
  | items (ts : List (List Char))
  | members (ms : List (List Char × List Char))

/-- A text as it may be written. -/
inductive Written : Part → List Char → Prop where
  | null : Written .value ['n', 'u', 'l', 'l']
  | flag (b : Bool) : Written .value (flagText b)
  | number {t : List Char} (h : IsNumber t) : Written .value t
  | text {s : List Char} (h : Between s) : Written .value ('"' :: (s ++ ['"']))
  | array {ts : List (List Char)} {t : List Char} (h : Written (.items ts) t) :
      Written .value ('[' :: (t ++ [']']))
  | object {ms : List (List Char × List Char)} {t : List Char} (h : Written (.members ms) t) :
      Written .value ('{' :: (t ++ ['}']))
  | noItems {a : List Char} (ha : Blanks a) : Written (.items []) a
  | item {a t b : List Char} (ha : Blanks a) (h : Written .value t) (hb : Blanks b) :
      Written (.items [t]) (a ++ (t ++ b))
  | items {a t b u r : List Char} {ts : List (List Char)} (ha : Blanks a) (h : Written .value t)
      (hb : Blanks b) (hr : Written (.items (u :: ts)) r) :
      Written (.items (t :: u :: ts)) (a ++ (t ++ (b ++ ',' :: r)))
  | noMembers {a : List Char} (ha : Blanks a) : Written (.members []) a
  | member {a k b c t d : List Char} (ha : Blanks a) (hk : Between k) (hb : Blanks b)
      (hc : Blanks c) (h : Written .value t) (hd : Blanks d) :
      Written (.members [(k, t)]) (a ++ '"' :: (k ++ '"' :: (b ++ ':' :: (c ++ (t ++ d)))))
  | members {a k b c t d r : List Char} {m : List Char × List Char}
      {ms : List (List Char × List Char)} (ha : Blanks a) (hk : Between k) (hb : Blanks b)
      (hc : Blanks c) (h : Written .value t) (hd : Blanks d)
      (hr : Written (.members (m :: ms)) r) :
      Written (.members ((k, t) :: m :: ms))
        (a ++ '"' :: (k ++ '"' :: (b ++ ':' :: (c ++ (t ++ (d ++ ',' :: r))))))

/-- A quoted text, and what it stands for. -/
def IsString (v : String) (t : List Char) : Prop :=
  ∃ s, Spells s v.toList ∧ t = '"' :: (s ++ ['"'])

/-- An array and its items, as they are written. -/
def IsArray (ts : List (List Char)) (t : List Char) : Prop :=
  ∃ s, Written (.items ts) s ∧ t = '[' :: (s ++ [']'])

/-- An object with its keys and their values, the values as they are written. -/
def IsObject (ms : List (String × List Char)) (t : List Char) : Prop :=
  ∃ s raw, Written (.members raw) s ∧
    List.Forall₂ (fun m r => Spells r.1 m.1.toList ∧ r.2 = m.2) ms raw ∧ t = '{' :: (s ++ ['}'])

/-- A whole text that holds `t`, with blanks before and behind. -/
def Holds (text t : List Char) : Prop := ∃ a b, Blanks a ∧ Blanks b ∧ text = a ++ (t ++ b)

theorem holds_self (t : List Char) : Holds t t :=
  ⟨[], [], blanks_nil, blanks_nil, by rw [List.nil_append, List.append_nil]⟩

/-! ### Blanks and marks -/

@[simp] theorem tokens_nil : tokens [] = [] := by rw [tokens]

theorem tokens_blanks {a : List Char} (ha : Blanks a) (s : List Char) :
    tokens (a ++ s) = tokens s := by
  induction a with
  | nil => rfl
  | cons c a ih =>
    have hblank : isBlank c = true := by
      have hall : ∀ d ∈ [' ', '\t', '\n', '\r'], isBlank d = true := List.all_eq_true.mp rfl
      exact hall c (ha c List.mem_cons_self)
    rw [List.cons_append, tokens, if_pos hblank]
    exact ih fun d hd => ha d (List.mem_cons_of_mem _ hd)

theorem tokens_of_blanks {a : List Char} (ha : Blanks a) : tokens a = [] := by
  rw [← List.append_nil a, tokens_blanks ha, tokens_nil]

theorem tokens_cons {c : Char} (hc : isBlank c = false) (s : List Char) :
    tokens (c :: s) = (Token.first c s).1 :: tokens (Token.first c s).2 := by
  rw [tokens, if_neg (by simp [hc])]

def Mark.char : Mark → Char
  | openBrace => '{'
  | closeBrace => '}'
  | openBracket => '['
  | closeBracket => ']'
  | comma => ','
  | colon => ':'

theorem tokens_mark (m : Mark) (s : List Char) :
    tokens (m.char :: s) = .mark m :: tokens s := by
  cases m <;> exact tokens_cons rfl s

/-! ### Quoted texts -/

namespace Quoted

theorem hexCode?_eq {a b c d : Char} {x y z w : Nat} (ha : (a, x) ∈ hexDigits)
    (hb : (b, y) ∈ hexDigits) (hc : (c, z) ∈ hexDigits) (hd : (d, w) ∈ hexDigits) :
    hexCode? a b c d = some (((x * 16 + y) * 16 + z) * 16 + w) := by
  have hall : ∀ p ∈ hexDigits, hexValue? p.1 = some p.2 := by decide
  have hsum : x * 4096 + y * 256 + z * 16 + w = ((x * 16 + y) * 16 + z) * 16 + w := by omega
  rw [hexCode?, hall _ ha, hall _ hb, hall _ hc, hall _ hd]
  exact congrArg some hsum

theorem scan_code {t : List Char} {n : Nat} (ht : Code t n) (s : List Char) :
    scan (t ++ s) = push n (scan s) := by
  cases ht with
  | mk ha hb hc hd =>
    simp only [List.cons_append, List.nil_append]
    rw [scan, hexCode?_eq ha hb hc hd]

theorem scan_short {e c : Char} (he : (e, c) ∈ shortEscapes) (s : List Char) :
    scan ('\\' :: e :: s) = push c.toNat (scan s) := by
  have hall : ∀ p ∈ shortEscapes, escaped? p.1 = some p.2 ∧ p.1 ≠ 'u' := by decide
  obtain ⟨hescaped, hne⟩ := hall _ he
  rw [scan, hescaped]
  · intro a b c d s heq
    exact absurd heq hne
  · intro heq
    exact absurd heq hne

theorem scan_plain {c : Char} (hc : IsPlain c) (s : List Char) :
    scan (c :: s) = push c.toNat (scan s) := by
  obtain ⟨hlow, hquote, hslash⟩ := hc
  rw [scan, if_neg (by omega)]
  · exact hquote
  · intro heq
    exact absurd heq hslash
  · intro a b c d s heq
    exact absurd heq hslash
  · intro s heq
    exact absurd heq hslash
  · intro e s heq
    exact absurd heq hslash

/-- The codes of what stands between two quotes. -/
def codesOf (s : List Char) : List Nat := (scan (s ++ ['"'])).codes

theorem codesOf_plain {c : Char} (hc : IsPlain c) (s : List Char) :
    codesOf (c :: s) = c.toNat :: codesOf s := by
  rw [codesOf, List.cons_append, scan_plain hc]
  rfl

theorem codesOf_short {e c : Char} (he : (e, c) ∈ shortEscapes) (s : List Char) :
    codesOf ('\\' :: e :: s) = c.toNat :: codesOf s := by
  rw [codesOf, List.cons_append, List.cons_append, scan_short he]
  rfl

theorem codesOf_code {t : List Char} {n : Nat} (ht : Code t n) (s : List Char) :
    codesOf (t ++ s) = n :: codesOf s := by
  rw [codesOf, List.append_assoc, scan_code ht]
  rfl

/-- Whatever follows the second quote, the codes are the same. -/
theorem scan_closed {s : List Char} (h : Between s) (rest : List Char) :
    scan (s ++ '"' :: rest) = ⟨codesOf s, .ok rest⟩ := by
  induction h with
  | nil => rfl
  | plain hc _ ih => rw [List.cons_append, scan_plain hc, ih, codesOf_plain hc, push]
  | short he _ ih =>
    rw [List.cons_append, List.cons_append, scan_short he, ih, codesOf_short he, push]
  | code ht _ ih => rw [List.append_assoc, scan_code ht, ih, codesOf_code ht, push]

section

variable {α : Type} {ns : List Nat}

/-- What follows a closed text has no say in its characters. -/
theorem decode_ok {β : Type} (a : α) (b : β) :
    decode (.ok a : Except JsonFault α) ns = decode (.ok b : Except JsonFault β) ns := by
  fun_induction decode (.ok b : Except JsonFault β) ns with
  | case1 => rfl
  | _ => simp_all [decode]

/-- A character is no half of one. -/
theorem not_isHalf_toNat (c : Char) : isLead c.toNat = false ∧ isTrail c.toNat = false := by
  have hvalid : c.toNat < 0xd800 ∨ 0xdfff < c.toNat ∧ c.toNat < 0x110000 := c.valid
  simp only [isLead, isTrail, Bool.and_eq_false_iff, decide_eq_false_iff_not]
  omega

theorem decode_toNat (e : Except JsonFault α) (c : Char) :
    decode e (c.toNat :: ns) = (c :: ·) <$> decode e ns := by
  obtain ⟨hlead, htrail⟩ := not_isHalf_toNat c
  cases ns with
  | nil =>
    cases e with
    | ok a => simp [decode, hlead, htrail]
    | error f => simp [decode, htrail]
  | cons m ns => simp [decode, hlead, htrail]

theorem decode_halves (e : Except JsonFault α) {c : Char} {lead trail : Nat}
    (hlead : lead < 0x400) (htrail : trail < 0x400)
    (hc : c.toNat = 0x10000 + lead * 0x400 + trail) :
    decode e ((0xd800 + lead) :: (0xdc00 + trail) :: ns) = (c :: ·) <$> decode e ns := by
  have hfirst : isLead (0xd800 + lead) = true := by simp [isLead]; omega
  have hsecond : isTrail (0xdc00 + trail) = true := by simp [isTrail]; omega
  have hjoined : joined (0xd800 + lead) (0xdc00 + trail) = c := by
    rw [joined, Nat.add_sub_cancel_left, Nat.add_sub_cancel_left, ← hc, Char.ofNat_toNat]
  rw [decode, if_pos hfirst, if_pos hsecond, hjoined]

/-- The codes of what is spelled stand for it. -/
theorem decode_codesOf {s v : List Char} (h : Spells s v) (a : α) :
    decode (.ok a) (codesOf s) = .ok v := by
  induction h with
  | nil => rfl
  | plain hc _ ih =>
    rw [codesOf_plain hc, decode_toNat, ih]
    rfl
  | short he _ ih =>
    rw [codesOf_short he, decode_toNat, ih]
    rfl
  | code ht _ ih =>
    rw [codesOf_code ht, decode_toNat, ih]
    rfl
  | pair ht hu hlead htrail hc _ ih =>
    rw [codesOf_code ht, codesOf_code hu, decode_halves _ hlead htrail hc, ih]
    rfl

end

end Quoted

/-- What a quoted text stands for, or why it stands for nothing. -/
def textOf (s : List Char) : Except JsonFault String := (Quoted.scan (s ++ ['"'])).value

theorem textOf_eq {s : List Char} {v : String} (h : Spells s v.toList) : textOf s = .ok v := by
  rw [textOf, Quoted.scan_closed h.between, Quoted.value, Quoted.decode_codesOf h]
  exact congrArg Except.ok v.ofList_toList

theorem tokens_text {s : List Char} (h : Between s) (rest : List Char) :
    tokens ('"' :: (s ++ '"' :: rest)) = .text (textOf s) (.ok ()) :: tokens rest := by
  rw [tokens_cons rfl]
  show (Token.ofQuoted _).1 :: tokens (Token.ofQuoted _).2 = _
  rw [Token.ofQuoted, textOf, Quoted.scan_closed h, Quoted.scan_closed h, Quoted.value,
    Quoted.value, Quoted.decode_ok rest []]
  rfl

/-! ### Numbers and words -/

/-- A value may end before what follows. -/
def Ends (rest : List Char) : Prop :=
  ∀ c, rest.head? = some c → c ∈ [' ', '\t', '\n', '\r', ',', ']', '}']

theorem ends_nil : Ends [] := fun _ hc => by cases hc

theorem ends_cons {c : Char} (hc : c ∈ [' ', '\t', '\n', '\r', ',', ']', '}']) (rest : List Char) :
    Ends (c :: rest) := by
  intro d hd
  cases hd
  exact hc

theorem Blanks.ends_append {a rest : List Char} (ha : Blanks a) (h : Ends rest) :
    Ends (a ++ rest) := by
  cases a with
  | nil => exact h
  | cons c a =>
    exact ends_cons (List.mem_append_left [',', ']', '}'] (ha c List.mem_cons_self)) _

namespace Numeral

/-- No digit comes next. -/
def NoDigit (rest : List Char) : Prop := ∀ c, rest.head? = some c → c.isDigit = false

theorem noDigit_cons {c : Char} (hc : c.isDigit = false) (rest : List Char) :
    NoDigit (c :: rest) := by
  intro d hd
  cases hd
  exact hc

theorem digits_append {ds rest : List Char} (hds : IsDigits ds) (hrest : NoDigit rest) :
    digits (ds ++ rest) = .ok (ds, rest) := by
  obtain ⟨hne, hall⟩ := hds
  cases ds with
  | nil => exact absurd rfl hne
  | cons c ds =>
    obtain ⟨htake, hdrop⟩ := span_append (fun d hd => hall d (List.mem_cons_of_mem _ hd)) hrest
    rw [List.cons_append, digits, if_pos (hall c List.mem_cons_self), htake, hdrop]

theorem scanWhole_append {whole rest : List Char}
    (h : whole = ['0'] ∨ IsDigits whole ∧ whole.head? ≠ some '0') (hrest : NoDigit rest) :
    scanWhole (whole ++ rest) = .ok (whole, rest) := by
  rcases h with rfl | ⟨hds, hzero⟩
  · have hnone : ¬ rest.head?.any Char.isDigit = true := by
      intro hany
      obtain ⟨c, hc, hdigit⟩ := (Option.any_eq_true _ _).mp hany
      rw [hrest c hc] at hdigit
      cases hdigit
    rw [List.singleton_append, scanWhole, if_neg hnone]
  · rw [scanWhole, digits_append hds hrest]
    -- the zero of the first case would be the first digit here
    intro s hs
    cases whole with
    | nil => exact hds.1 rfl
    | cons c cs =>
      rw [List.cons_append, List.cons.injEq] at hs
      exact hzero (congrArg some hs.1)

theorem scanFraction_append {fraction rest : List Char}
    (h : fraction = [] ∨ ∃ ds, IsDigits ds ∧ fraction = '.' :: ds) (hrest : NoDigit rest)
    (hpoint : rest.head? ≠ some '.') :
    scanFraction (fraction ++ rest) = .ok (fraction.tail, rest) := by
  rcases h with rfl | ⟨ds, hds, rfl⟩
  · rw [List.nil_append, scanFraction]
    · rfl
    · rintro s rfl
      exact hpoint rfl
  · rw [List.cons_append, scanFraction, digits_append hds hrest]
    rfl

theorem scanSign_append {sign ds rest : List Char} (hsign : sign ∈ [[], ['+'], ['-']])
    (hds : IsDigits ds) : scanSign (sign ++ (ds ++ rest)) = (sign == ['-'], ds ++ rest) := by
  simp only [List.mem_cons, List.not_mem_nil, or_false] at hsign
  rcases hsign with rfl | rfl | rfl
  · -- without a sign the first character is a digit, so it is taken for no sign
    obtain ⟨hne, hall⟩ := hds
    cases ds with
    | nil => exact absurd rfl hne
    | cons c ds =>
      have hdigit := hall c List.mem_cons_self
      rw [List.nil_append, List.cons_append, scanSign]
      · rfl
      · intro s hs
        cases hs
        cases hdigit
      · intro s hs
        cases hs
        cases hdigit
  · rfl
  · rfl

/-- What ends a value does not go on a number. -/
theorem ends_stops {rest : List Char} (h : Ends rest) :
    NoDigit rest ∧ rest.head? ≠ some '.' ∧ rest.head? ≠ some 'e' ∧ rest.head? ≠ some 'E' := by
  have hall : ∀ c ∈ [' ', '\t', '\n', '\r', ',', ']', '}'],
      c.isDigit = false ∧ c ≠ '.' ∧ c ≠ 'e' ∧ c ≠ 'E' := by simp
  refine ⟨fun c hc => (hall c (h c hc)).1, fun hc => ?_, fun hc => ?_, fun hc => ?_⟩
  · exact (hall _ (h _ hc)).2.1 rfl
  · exact (hall _ (h _ hc)).2.2.1 rfl
  · exact (hall _ (h _ hc)).2.2.2 rfl

theorem exists_scanExponent {exponent : List Char}
    (h : exponent = [] ∨ ∃ e ∈ ['e', 'E'], ∃ sign ∈ [[], ['+'], ['-']], ∃ ds,
      IsDigits ds ∧ exponent = e :: (sign ++ ds)) :
    ∃ x, ∀ rest, Ends rest → scanExponent (exponent ++ rest) = .ok (x, rest) := by
  rcases h with rfl | ⟨e, he, sign, hsign, ds, hds, rfl⟩
  · refine ⟨(false, []), fun rest hrest => ?_⟩
    -- what may follow a number does not start like an exponent
    obtain ⟨-, -, hlower, hupper⟩ := ends_stops hrest
    cases rest with
    | nil => rfl
    | cons c rest =>
      have hc : ¬ (c = 'e' ∨ c = 'E') := by
        rintro (rfl | rfl)
        · exact hlower rfl
        · exact hupper rfl
      rw [List.nil_append, scanExponent, if_neg hc]
  · refine ⟨(sign == ['-'], ds), fun rest hrest => ?_⟩
    have hletter : e = 'e' ∨ e = 'E' := by simpa using he
    rw [List.cons_append, List.append_assoc, scanExponent, if_pos hletter,
      scanSign_append hsign hds, digits_append hds (ends_stops hrest).1]
    rfl

/-- The parts of a number are read one after the other, whatever ends the last. -/
theorem exists_scan {whole fraction exponent : List Char}
    (hwhole : whole = ['0'] ∨ IsDigits whole ∧ whole.head? ≠ some '0')
    (hfraction : fraction = [] ∨ ∃ ds, IsDigits ds ∧ fraction = '.' :: ds)
    (hexponent : exponent = [] ∨ ∃ e ∈ ['e', 'E'], ∃ sign ∈ [[], ['+'], ['-']], ∃ ds,
      IsDigits ds ∧ exponent = e :: (sign ++ ds)) :
    ∃ n, ∀ rest, Ends rest → scan (whole ++ (fraction ++ (exponent ++ rest))) = .ok (n, rest) := by
  obtain ⟨x, hx⟩ := exists_scanExponent hexponent
  refine ⟨⟨whole, fraction.tail, x⟩, fun rest hrest => ?_⟩
  -- each part stops at the first character of the next one that is there
  have hletter : NoDigit (exponent ++ rest) ∧ (exponent ++ rest).head? ≠ some '.' := by
    rcases hexponent with rfl | ⟨e, he, sign, hsign, ds, hds, rfl⟩
    · exact ⟨(ends_stops hrest).1, (ends_stops hrest).2.1⟩
    · have hall : ∀ c ∈ ['e', 'E'], c.isDigit = false ∧ c ≠ '.' := by simp
      refine ⟨noDigit_cons (hall e he).1 _, fun hc => (hall e he).2 ?_⟩
      exact Option.some.inj hc
  have hpoint : NoDigit (fraction ++ (exponent ++ rest)) := by
    rcases hfraction with rfl | ⟨ds, hds, rfl⟩
    · exact hletter.1
    · exact noDigit_cons rfl _
  simp only [scan, scanWhole_append hwhole hpoint,
    scanFraction_append hfraction hletter.1 hletter.2, hx rest hrest, bind, Except.bind, pure,
    Except.pure]

end Numeral

theorem first_digit {c : Char} (hc : c.isDigit = true) (s : List Char) :
    isBlank c = false ∧ Token.first c s = Token.ofNumber (c :: s) := by
  have hne : ∀ d : Char, d.isDigit = false → c ≠ d := by
    rintro d hd rfl
    rw [hc] at hd
    cases hd
  constructor
  · simp [isBlank, hne ' ' rfl, hne '\n' rfl, hne '\r' rfl, hne '\t' rfl]
  · have hmark : Mark.ofChar? c = none := by
      simp [Mark.ofChar?, hne '{' rfl, hne '}' rfl, hne '[' rfl, hne ']' rfl, hne ',' rfl,
        hne ':' rfl]
    simp only [Token.first, hmark, hne '"' rfl, hne 'n' rfl, hne 't' rfl, hne 'f' rfl, hne '-' rfl,
      hc, if_false, if_true]

theorem exists_tokens_number {t : List Char} (h : IsNumber t) :
    ∃ n, ∀ rest, Ends rest → tokens (t ++ rest) = .number (.ok n) :: tokens rest := by
  cases h with
  | @mk sign whole fraction exponent hsign hwhole hfraction hexponent =>
    obtain ⟨n, hscan⟩ := Numeral.exists_scan hwhole hfraction hexponent
    refine ⟨n, fun rest hrest => ?_⟩
    have hnumber : Token.ofNumber (whole ++ (fraction ++ (exponent ++ rest))) =
        (.number (.ok n), rest) := by
      rw [Token.ofNumber, hscan rest hrest]
    simp only [List.append_assoc]
    -- a number is told by its first digit or by the minus in front of it
    rcases List.mem_pair.mp hsign with rfl | rfl
    · have hdigits : ∃ c cs, whole = c :: cs ∧ c.isDigit = true := by
        rcases hwhole with rfl | ⟨⟨hne, hall⟩, -⟩
        · exact ⟨'0', [], rfl, rfl⟩
        · obtain ⟨c, cs, rfl⟩ := List.exists_cons_of_ne_nil hne
          exact ⟨c, cs, rfl, hall c List.mem_cons_self⟩
      obtain ⟨c, cs, rfl, hc⟩ := hdigits
      obtain ⟨hblank, hfirst⟩ := first_digit hc (cs ++ (fraction ++ (exponent ++ rest)))
      rw [List.nil_append, List.cons_append, tokens_cons hblank, hfirst, ← List.cons_append,
        hnumber]
    · rw [List.singleton_append, tokens_cons rfl]
      show (Token.ofNumber _).1 :: tokens (Token.ofNumber _).2 = _
      rw [hnumber]

theorem tokens_null : tokens ['n', 'u', 'l', 'l'] = [.null] := by
  rw [tokens_cons rfl]
  exact congrArg _ tokens_nil

theorem tokens_flag (b : Bool) : tokens (flagText b) = [.flag b] := by
  cases b <;>
  · rw [flagText, tokens_cons rfl]
    exact congrArg _ tokens_nil

/-! ### Values and their parts -/

/-- Behind the text, the tokens are those of what follows. -/
def Cuts (t : List Char) : Prop :=
  ∀ rest, Ends rest → tokens (t ++ rest) = tokens t ++ tokens rest

/-- A text that gives the same tokens before every end is cut there. -/
theorem cuts_of_tokens {t : List Char} (ts : List Token)
    (h : ∀ rest, Ends rest → tokens (t ++ rest) = ts ++ tokens rest) : Cuts t := by
  intro rest hrest
  have hself := h [] ends_nil
  rw [List.append_nil, tokens_nil, List.append_nil] at hself
  rw [h rest hrest, hself]

section

variable {a b c d k t : List Char}

theorem tokens_enclosed (ht : Cuts t) (l r : Mark)
    (hr : r.char ∈ [' ', '\t', '\n', '\r', ',', ']', '}']) (rest : List Char) :
    tokens (l.char :: (t ++ r.char :: rest)) =
      .mark l :: (tokens t ++ .mark r :: tokens rest) := by
  rw [tokens_mark, ht _ (ends_cons hr rest), tokens_mark]

theorem tokens_padded (ha : Blanks a) (ht : Cuts t) (hb : Blanks b) {rest : List Char}
    (hrest : Ends rest) : tokens (a ++ (t ++ (b ++ rest))) = tokens t ++ tokens rest := by
  rw [tokens_blanks ha, ht _ (hb.ends_append hrest), tokens_blanks hb]

/-- A key with its colon, in front of the rest of a member. -/
theorem tokens_key (ha : Blanks a) (hk : Between k) (hb : Blanks b) (rest : List Char) :
    tokens (a ++ '"' :: (k ++ '"' :: (b ++ ':' :: rest))) =
      .text (textOf k) (.ok ()) :: .mark .colon :: tokens rest := by
  rw [tokens_blanks ha, tokens_text hk, tokens_blanks hb]
  exact congrArg _ (tokens_mark .colon rest)

end

/-- A comma ends a value. -/
theorem ends_comma (rest : List Char) : Ends (',' :: rest) := ends_cons (by decide) rest

theorem tokens_comma (rest : List Char) : tokens (',' :: rest) = .mark .comma :: tokens rest :=
  tokens_mark .comma rest

/-- **Values end where they end**: the tokens of a text are cut behind a value, and behind
the parts of a container. -/
theorem Written.cuts {p : Part} {t : List Char} (h : Written p t) : Cuts t := by
  induction h with
  | null => exact cuts_of_tokens [.null] fun rest _ => tokens_cons rfl _
  | flag b =>
    refine cuts_of_tokens [.flag b] fun rest _ => ?_
    cases b <;> exact tokens_cons rfl _
  | number h =>
    -- the only value that what follows could make longer
    obtain ⟨n, hn⟩ := exists_tokens_number h
    exact cuts_of_tokens [.number (.ok n)] hn
  | @text s h =>
    refine cuts_of_tokens [.text (textOf s) (.ok ())] fun rest _ => ?_
    rw [List.cons_append, List.append_assoc]
    exact tokens_text h rest
  | @array ts t _ ih =>
    refine cuts_of_tokens (.mark .openBracket :: (tokens t ++ [.mark .closeBracket]))
      fun rest _ => ?_
    simp only [List.append_assoc, List.cons_append, List.nil_append]
    exact tokens_enclosed ih .openBracket .closeBracket (by decide) rest
  | @object ms t _ ih =>
    refine cuts_of_tokens (.mark .openBrace :: (tokens t ++ [.mark .closeBrace])) fun rest _ => ?_
    simp only [List.append_assoc, List.cons_append, List.nil_append]
    exact tokens_enclosed ih .openBrace .closeBrace (by decide) rest
  | noItems ha => exact cuts_of_tokens [] fun rest _ => tokens_blanks ha rest
  | @item a t b ha _ hb ih =>
    refine cuts_of_tokens (tokens t) fun rest hrest => ?_
    rw [List.append_assoc, List.append_assoc, tokens_padded ha ih hb hrest]
  | @items a t b u r ts ha _ hb _ ih ihr =>
    refine cuts_of_tokens (tokens t ++ .mark .comma :: tokens r) fun rest hrest => ?_
    simp only [List.append_assoc, List.cons_append]
    rw [tokens_padded ha ih hb (ends_comma _), tokens_comma, ihr rest hrest]
  | noMembers ha => exact cuts_of_tokens [] fun rest _ => tokens_blanks ha rest
  | @member a k b c t d ha hk hb hc _ hd ih =>
    refine cuts_of_tokens (.text (textOf k) (.ok ()) :: .mark .colon :: tokens t)
      fun rest hrest => ?_
    simp only [List.append_assoc, List.cons_append]
    rw [tokens_key ha hk hb, tokens_padded hc ih hd hrest]
  | @members a k b c t d r m ms ha hk hb hc _ hd _ ih ihr =>
    refine cuts_of_tokens
      (.text (textOf k) (.ok ()) :: .mark .colon :: (tokens t ++ .mark .comma :: tokens r))
      fun rest hrest => ?_
    simp only [List.append_assoc, List.cons_append]
    rw [tokens_key ha hk hb, tokens_padded hc ih hd (ends_comma _), tokens_comma, ihr rest hrest]

/-! ### Tokens of containers -/

/-- Parts with something between them: the first part, and then each with it in front. -/
theorem intercalate_cons {α : Type} (sep x : List α) (xs : List (List α)) :
    sep.intercalate (x :: xs) = x ++ xs.flatMap (sep ++ ·) := by
  induction xs generalizing x with
  | nil => simp
  | cons y xs ih =>
    rw [List.intercalate_cons_cons, ih, List.flatMap_cons, List.append_assoc]
    simp

/-- The tokens of a member of an object. -/
def memberTokens (m : List Char × List Char) : List Token :=
  .text (textOf m.1) (.ok ()) :: .mark .colon :: tokens m.2

theorem Written.tokens_items {ts : List (List Char)} {t : List Char} (h : Written (.items ts) t) :
    tokens t = [.mark .comma].intercalate (ts.map tokens) := by
  induction ts generalizing t with
  | nil =>
    cases h with
    | noItems ha => exact tokens_of_blanks ha
  | cons u ts ih =>
    cases h with
    | item ha h hb =>
      have htokens := tokens_padded ha h.cuts hb ends_nil
      simpa using htokens
    | @items a _ b v r ts ha h hb hr =>
      rw [tokens_padded ha h.cuts hb (ends_comma r), tokens_comma, ih hr]
      simp

theorem Written.tokens_members {ms : List (List Char × List Char)} {t : List Char}
    (h : Written (.members ms) t) :
    tokens t = [.mark .comma].intercalate (ms.map memberTokens) := by
  induction ms generalizing t with
  | nil =>
    cases h with
    | noMembers ha => exact tokens_of_blanks ha
  | cons m ms ih =>
    cases h with
    | member ha hk hb hc h hd =>
      have htokens := tokens_padded hc h.cuts hd ends_nil
      rw [tokens_key ha hk hb]
      simpa [memberTokens] using htokens
    | @members a k b c v d r m ms ha hk hb hc h hd hr =>
      rw [tokens_key ha hk hb, tokens_padded hc h.cuts hd (ends_comma r), tokens_comma, ih hr]
      simp [memberTokens]

theorem Written.tokens_array {ts : List (List Char)} {t : List Char} (h : Written (.items ts) t) :
    tokens ('[' :: (t ++ [']'])) = .mark .openBracket :: (tokens t ++ [.mark .closeBracket]) := by
  have htokens := tokens_enclosed h.cuts .openBracket .closeBracket (by decide) []
  rwa [tokens_nil] at htokens

theorem Written.tokens_object {ms : List (List Char × List Char)} {t : List Char}
    (h : Written (.members ms) t) :
    tokens ('{' :: (t ++ ['}'])) = .mark .openBrace :: (tokens t ++ [.mark .closeBrace]) := by
  have htokens := tokens_enclosed h.cuts .openBrace .closeBrace (by decide) []
  rwa [tokens_nil] at htokens

theorem Written.value_of_mem_members {ms : List (List Char × List Char)} {t : List Char}
    (h : Written (.members ms) t) : ∀ m ∈ ms, Written .value m.2 := by
  induction ms generalizing t with
  | nil => exact fun m hm => by cases hm
  | cons m ms ih =>
    cases h with
    | member ha hk hb hc h hd => exact fun m hm => List.mem_singleton.mp hm ▸ h
    | members ha hk hb hc h hd hr => exact List.forall_mem_cons.mpr ⟨h, ih hr⟩

theorem IsString.written {v : String} {t : List Char} (h : IsString v t) : Written .value t := by
  obtain ⟨s, hs, rfl⟩ := h
  exact .text hs.between

theorem IsString.tokens_eq {v : String} {t : List Char} (h : IsString v t) :
    tokens t = [.text (.ok v) (.ok ())] := by
  obtain ⟨s, hs, rfl⟩ := h
  rw [tokens_text hs.between, textOf_eq hs, tokens_nil]

theorem IsArray.tokens_eq {ts : List (List Char)} {t : List Char} (h : IsArray ts t) :
    tokens t = .mark .openBracket ::
      ([.mark .comma].intercalate (ts.map tokens) ++ [.mark .closeBracket]) := by
  obtain ⟨s, hs, rfl⟩ := h
  rw [hs.tokens_array, hs.tokens_items]

theorem IsArray.written {ts : List (List Char)} {t : List Char} (h : IsArray ts t) :
    Written .value t := by
  obtain ⟨s, hs, rfl⟩ := h
  exact .array hs

/-- The tokens of a member whose key is known. -/
def entryTokens (m : String × List Char) : List Token :=
  .text (.ok m.1) (.ok ()) :: .mark .colon :: tokens m.2

theorem IsObject.tokens_eq {ms : List (String × List Char)} {t : List Char} (h : IsObject ms t) :
    tokens t = .mark .openBrace ::
      ([.mark .comma].intercalate (ms.map entryTokens) ++ [.mark .closeBrace]) := by
  obtain ⟨s, raw, hs, hraw, rfl⟩ := h
  have hmap : raw.map memberTokens = ms.map entryTokens := by
    refine map_eq_map (fun m r hmr => ?_) hraw
    rw [memberTokens, textOf_eq hmr.1, hmr.2, entryTokens]
  rw [hs.tokens_object, hs.tokens_members, hmap]

theorem IsObject.written {ms : List (String × List Char)} {t : List Char} (h : IsObject ms t) :
    Written .value t := by
  obtain ⟨s, raw, hs, -, rfl⟩ := h
  exact .object hs

theorem IsObject.value_of_mem {ms : List (String × List Char)} {t : List Char}
    (h : IsObject ms t) : ∀ m ∈ ms, Written .value m.2 := by
  obtain ⟨s, raw, hs, hraw, rfl⟩ := h
  intro m hm
  obtain ⟨r, hr, -, hvalue⟩ := exists_mem_right hraw hm
  exact hvalue ▸ hs.value_of_mem_members r hr

theorem Holds.tokens_eq {text t : List Char} (h : Holds text t) (ht : Written .value t) :
    tokens text = tokens t := by
  obtain ⟨a, b, ha, hb, rfl⟩ := h
  have htokens := tokens_padded ha ht.cuts hb ends_nil
  simpa using htokens

end Json

end Asdl
