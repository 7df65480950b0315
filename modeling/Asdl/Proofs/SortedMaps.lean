/-
What a sorted map holds.

* `SortedMap.find?_eq_some` — a key is bound to what stands in the entries;
* `SortedMap.entries_ofList_perm` — the map of a list with different keys holds
  exactly the bindings of the list, none of them overwritten;
* `SortedMap.find?_ofList` — the last binding of a key in the list counts;
* `SortedMap.ext_find?` — maps that bind every key alike are the same;
* `NameSet.contains_addAll` — a set holds the names that were added to it.
-/
import Asdl.SortedMap
import Mathlib.Data.List.Induction
import Mathlib.Data.List.Perm.Basic

namespace Asdl

namespace SortedMap

variable {κ α : Type} [Ord κ] [Std.LawfulEqOrd κ]

theorem insertEntry_perm {k : κ} {a : α} {xs : List (κ × α)} (h : k ∉ xs.map Prod.fst) :
    (insertEntry k a xs).Perm ((k, a) :: xs) := by
  induction xs with
  | nil => exact .refl _
  | cons x xs ih =>
    rw [List.map_cons, List.mem_cons, not_or] at h
    unfold insertEntry
    split
    · exact .refl _
    · next heq => exact absurd (Std.LawfulEqOrd.eq_of_compare heq) h.1
    · exact ((ih h.2).cons x).trans (.swap _ _ _)

theorem find?_eq_some {m : SortedMap κ α} {k : κ} {a : α} :
    m.find? k = some a ↔ (k, a) ∈ m.entries := by
  obtain ⟨xs, h⟩ := m
  simp only [find?]
  induction xs with
  | nil => simp
  | cons x xs ih =>
    obtain ⟨hx, hxs⟩ := List.pairwise_cons.mp h
    rw [List.find?_cons, List.mem_cons]
    by_cases hk : compare x.1 k = .eq
    · have hxk : x.1 = k := Std.LawfulEqOrd.eq_of_compare hk
      -- every later key is greater
      have hrest : (k, a) ∉ xs := by
        intro hmem
        have hlt := hx _ hmem
        rw [show compare x.1 k = .eq from hk] at hlt
        cases hlt
      obtain ⟨j, b⟩ := x
      cases hxk
      simp [hrest, eq_comm]
    · have hne : (k, a) ≠ x := by
        rintro rfl
        exact hk Std.ReflCmp.compare_self
      rw [beq_eq_false_iff_ne.mpr hk]
      simp only [ih hxs, hne, false_or]

omit [Std.LawfulEqOrd κ] in
theorem eq_of_entries {m m' : SortedMap κ α} (h : m.entries = m'.entries) : m = m' := by
  cases m
  cases m'
  cases h
  rfl

theorem nodup_entries (m : SortedMap κ α) : m.entries.Nodup := by
  refine m.ascending.imp fun {x y} hlt hxy => ?_
  have heq : compare x.1 y.1 = .eq := hxy ▸ Std.ReflCmp.compare_self
  rw [heq] at hlt
  cases hlt

section

variable [BEq κ] [LawfulBEq κ]

theorem compare_beq_eq (j k : κ) : (compare j k == .eq) = (k == j) := by
  rw [Bool.eq_iff_iff, beq_iff_eq, beq_iff_eq]
  constructor
  · intro h
    exact (Std.LawfulEqOrd.eq_of_compare h).symm
  · rintro rfl
    exact Std.ReflCmp.compare_self

theorem lookup_entries (m : SortedMap κ α) (k : κ) : m.entries.lookup k = m.find? k := by
  rw [find?]
  induction m.entries with
  | nil => rfl
  | cons x xs ih =>
    rw [List.lookup_cons, List.find?_cons, compare_beq_eq, ih]
    cases k == x.1 <;> rfl

end

variable [Std.TransOrd κ]

/-- **What the keys are bound to is all there is**: the order of the entries is fixed. -/
theorem ext_find? {m m' : SortedMap κ α} (h : ∀ k, m.find? k = m'.find? k) : m = m' := by
  have hmem : ∀ x, x ∈ m.entries ↔ x ∈ m'.entries := by
    rintro ⟨k, a⟩
    rw [← find?_eq_some, ← find?_eq_some, h k]
  have hperm := (List.perm_ext_iff_of_nodup m.nodup_entries m'.nodup_entries).mpr hmem
  refine eq_of_entries (hperm.eq_of_pairwise (fun x y _ _ hxy hyx => ?_) m.ascending m'.ascending)
  -- no two keys come before each other
  have hgt := Std.OrientedCmp.gt_iff_lt.mpr hxy
  rw [hyx] at hgt
  cases hgt

theorem entries_insertAll_perm (m : SortedMap κ α) {xs : List (κ × α)}
    (h : (m.keys ++ xs.map Prod.fst).Nodup) :
    (m.insertAll xs).entries.Perm (m.entries ++ xs) := by
  induction xs generalizing m with
  | nil => simp [insertAll]
  | cons x xs ih =>
    obtain ⟨k, a⟩ := x
    -- a new key replaces nothing, so every insertion adds one entry
    have hnew : k ∉ m.keys := fun hk =>
      (List.nodup_append.mp h).2.2 k hk k List.mem_cons_self rfl
    have hins : (m.insert k a).entries.Perm ((k, a) :: m.entries) := insertEntry_perm hnew
    have hkeys : (m.insert k a).keys.Perm (k :: m.keys) := hins.map Prod.fst
    have hnd : ((m.insert k a).keys ++ xs.map Prod.fst).Nodup := by
      refine ((hkeys.append_right _).trans ?_).nodup_iff.mpr h
      exact List.perm_middle.symm
    calc (m.insertAll ((k, a) :: xs)).entries
        |>.Perm ((m.insert k a).entries ++ xs) := ih (m.insert k a) hnd
      _ |>.Perm ((k, a) :: m.entries ++ xs) := hins.append_right xs
      _ |>.Perm (m.entries ++ (k, a) :: xs) := List.perm_middle.symm

/-- **Different keys are all kept**, each with its own binding. -/
theorem entries_ofList_perm {xs : List (κ × α)} (h : (xs.map Prod.fst).Nodup) :
    (ofList xs).entries.Perm xs :=
  entries_insertAll_perm empty h

/-- The last binding of a key counts. -/
theorem find?_ofList [BEq κ] [LawfulBEq κ] (xs : List (κ × α)) (k : κ) :
    (ofList xs).find? k = xs.reverse.lookup k := by
  induction xs using List.reverseRecOn with
  | nil => rfl
  | append_singleton xs x ih =>
    have hinsert : ofList (xs ++ [x]) = (ofList xs).insert x.1 x.2 := by
      rw [ofList, insertAll, List.foldl_append]
      rfl
    rw [hinsert, find?_insert, List.reverse_append, List.reverse_singleton, List.singleton_append,
      List.lookup_cons, ih, ← compare_beq_eq]
    by_cases hk : compare x.1 k = .eq
    · rw [if_pos hk, hk]
      rfl
    · rw [if_neg hk, beq_eq_false_iff_ne.mpr hk]

end SortedMap

namespace NameSet

theorem contains_addAll (s : NameSet) (names : List String) (n : String) :
    (s.addAll names).contains n = true ↔ s.contains n = true ∨ n ∈ names := by
  induction names generalizing s with
  | nil => simp [NameSet.addAll]
  | cons name names ih =>
    have hcons : s.addAll (name :: names) = (s.add name).addAll names := rfl
    have hadd : (s.add name).contains n = true ↔ s.contains n = true ∨ n = name := by
      rw [SortedMap.contains, SortedMap.contains, NameSet.add, SortedMap.find?_insert]
      by_cases hn : name = n
      · simp [hn]
      · simp [hn, Ne.symm hn]
    rw [hcons, ih, hadd, List.mem_cons, or_assoc]

/-- Sets of the same names are the same. -/
theorem ext_contains {s t : NameSet} (h : ∀ n, s.contains n = true ↔ t.contains n = true) :
    s = t := by
  refine SortedMap.ext_find? fun n => ?_
  have hn := h n
  rw [SortedMap.contains, SortedMap.contains] at hn
  -- a name is bound to the only value there is, or not at all
  cases hs : s.find? n with
  | none =>
    cases ht : t.find? n with
    | none => rfl
    | some a => simp [hs, ht] at hn
  | some a =>
    cases ht : t.find? n with
    | none => simp [hs, ht] at hn
    | some b => rfl

end NameSet

end Asdl
