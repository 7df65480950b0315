/-
Names in the order of their bytes.

Names are ordered by their characters, and a name is stored as the bytes of its characters.
A greater character has greater bytes, wherever the first difference is:

* `ByteLess` — the order of names by their bytes;
* `bytesLess_encoded` — a greater character has greater bytes;
* `byteLess_of_compare` — names that ascend by their characters ascend by their bytes.

Design notes: characters of one, two, three and four bytes start with bytes of four
different ranges, in this order.  Where two characters have as many bytes, these are the
digits of their codes with a fixed number added to each place.
-/
import Asdl.SortedMap
import Mathlib.Tactic.SplitIfs

namespace Asdl

/-- The first byte that differs is less. -/
abbrev BytesLess : List UInt8 → List UInt8 → Prop := List.Lex fun a b => a.toNat < b.toNat

/-- The name comes first if names are ordered by their bytes. -/
def ByteLess (s t : String) : Prop := BytesLess s.toUTF8.data.toList t.toUTF8.data.toList

theorem bytesLess_append {us vs : List UInt8} (bs : List UInt8) (h : BytesLess us vs) :
    BytesLess (bs ++ us) (bs ++ vs) := by
  induction bs with
  | nil => exact h
  | cons b bs ih => exact .cons ih

section

variable {us vs : List UInt8} {a b v w : Nat}

theorem bytesLess_ofNat (h : a < b) (hb : b < 256) :
    BytesLess (UInt8.ofNat a :: us) (UInt8.ofNat b :: vs) := by
  have ha : a < 256 := Nat.lt_trans h hb
  refine .rel ?_
  rw [UInt8.toNat_ofNat_of_lt' ha, UInt8.toNat_ofNat_of_lt' hb]
  exact h

/-- The last digits decide if all before them are the same. -/
theorem bytesLess_last (h : v < w) (hsame : v / 64 = w / 64) :
    BytesLess (UInt8.ofNat (v % 64 + 128) :: us) (UInt8.ofNat (w % 64 + 128) :: vs) :=
  bytesLess_ofNat (by omega) (by omega)

theorem bytesLess_lastTwo (h : v < w) (hsame : v / 4096 = w / 4096) :
    BytesLess (UInt8.ofNat (v / 64 % 64 + 128) :: UInt8.ofNat (v % 64 + 128) :: us)
      (UInt8.ofNat (w / 64 % 64 + 128) :: UInt8.ofNat (w % 64 + 128) :: vs) := by
  by_cases hdigit : v / 64 = w / 64
  · rw [hdigit]
    exact .cons (bytesLess_last h hdigit)
  · exact bytesLess_ofNat (by omega) (by omega)

theorem bytesLess_lastThree (h : v < w) (hsame : v / 262144 = w / 262144) :
    BytesLess
      (UInt8.ofNat (v / 4096 % 64 + 128) :: UInt8.ofNat (v / 64 % 64 + 128) ::
        UInt8.ofNat (v % 64 + 128) :: us)
      (UInt8.ofNat (w / 4096 % 64 + 128) :: UInt8.ofNat (w / 64 % 64 + 128) ::
        UInt8.ofNat (w % 64 + 128) :: vs) := by
  by_cases hdigit : v / 4096 = w / 4096
  · rw [hdigit]
    exact .cons (bytesLess_lastTwo h hdigit)
  · exact bytesLess_ofNat (by omega) (by omega)

end

/-- **A greater character has greater bytes**, whatever follows. -/
theorem bytesLess_encoded {c d : Char} (h : c.val.toNat < d.val.toNat) (us vs : List UInt8) :
    BytesLess (String.utf8EncodeChar c ++ us) (String.utf8EncodeChar d ++ vs) := by
  have hvalid : d.val.toNat < 0x110000 := by
    rcases d.valid with hlow | ⟨-, hhigh⟩
    · exact Nat.lt_trans hlow (by omega)
    · exact hhigh
  simp only [String.utf8EncodeChar]
  generalize c.val.toNat = v at h ⊢
  generalize d.val.toNat = w at h hvalid ⊢
  -- split by the number of bytes; a character with more bytes has a greater first byte
  by_cases hone : v ≤ 127
  · rw [if_pos hone]
    split_ifs <;> exact bytesLess_ofNat (by omega) (by omega)
  rw [if_neg hone, if_neg (show ¬ w ≤ 127 by omega)]
  by_cases htwo : v ≤ 2047
  · rw [if_pos htwo]
    by_cases hsame : w ≤ 2047
    · rw [if_pos hsame]
      by_cases hdigit : v / 64 = w / 64
      · rw [hdigit]
        exact .cons (bytesLess_last h hdigit)
      · exact bytesLess_ofNat (by omega) (by omega)
    · rw [if_neg hsame]
      split_ifs <;> exact bytesLess_ofNat (by omega) (by omega)
  rw [if_neg htwo, if_neg (show ¬ w ≤ 2047 by omega)]
  by_cases hthree : v ≤ 65535
  · rw [if_pos hthree]
    by_cases hsame : w ≤ 65535
    · rw [if_pos hsame]
      by_cases hdigit : v / 4096 = w / 4096
      · rw [hdigit]
        exact .cons (bytesLess_lastTwo h hdigit)
      · exact bytesLess_ofNat (by omega) (by omega)
    · rw [if_neg hsame]
      exact bytesLess_ofNat (by omega) (by omega)
  rw [if_neg hthree, if_neg (show ¬ w ≤ 65535 by omega)]
  by_cases hdigit : v / 262144 = w / 262144
  · rw [hdigit]
    exact .cons (bytesLess_lastThree h hdigit)
  · exact bytesLess_ofNat (by omega) (by omega)

theorem bytesLess_of_lex {cs ds : List Char}
    (h : List.Lex (fun c d => c.val.toNat < d.val.toNat) cs ds) :
    BytesLess (cs.flatMap String.utf8EncodeChar) (ds.flatMap String.utf8EncodeChar) := by
  induction h with
  | @nil d ds =>
    obtain ⟨b, bs, hbytes⟩ := List.exists_cons_of_ne_nil (String.utf8EncodeChar_ne_nil (c := d))
    rw [List.flatMap_cons, hbytes]
    exact .nil
  | @cons c cs ds _ ih =>
    rw [List.flatMap_cons, List.flatMap_cons]
    exact bytesLess_append _ ih
  | @rel c cs d ds hlt =>
    rw [List.flatMap_cons, List.flatMap_cons]
    exact bytesLess_encoded hlt _ _

theorem toList_toUTF8 (s : String) :
    s.toUTF8.data.toList = s.toList.flatMap String.utf8EncodeChar := by
  have hbytes : s.toByteArray = s.toList.utf8Encode := by
    rw [← String.toByteArray_ofList, String.ofList_toList]
  rw [String.toUTF8_eq_toByteArray, hbytes, List.utf8Encode, List.data_toByteArray]

/-- **Names in the order of their characters are in the order of their bytes.** -/
theorem byteLess_of_compare {s t : String} (h : compare s t = .lt) : ByteLess s t := by
  have hlt := compareOfLessAndEq_eq_lt.mp h
  rw [ByteLess, toList_toUTF8, toList_toUTF8]
  exact bytesLess_of_lex hlt

end Asdl
