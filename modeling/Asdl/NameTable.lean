/-
Tables indexed by names.

A table is built from a list of bindings and agrees with a search in that list,
so that a schema of many thousand definitions is checked in good time.

* `NameTable.ofList` — the first binding of a name counts
  (`find?_ofList : (ofList xs).find? n = xs.lookup n`);
* `NameTable.insertNew`, `NameTable.insertAllNew` — bindings that leave names alone
  which are bound already (`find?_insertAllNew`);
* `NameTable.collect` — the last binding of a name counts (`find?_collect`);
* `NameTable.groups` — all bindings of a name, in order (`getD_find?_groups`).
-/
import Std.Data.TreeMap

namespace Asdl

/-- A finite map from names. -/
structure NameTable (α : Type) where
  tree : Std.TreeMap String α compare

namespace NameTable

variable {α : Type}

/-- The table without names. -/
def empty : NameTable α := ⟨{}⟩

/-- What a name is bound to. -/
def find? (t : NameTable α) (n : String) : Option α := t.tree[n]?

/-- Whether a name is bound. -/
def contains (t : NameTable α) (n : String) : Bool := (t.find? n).isSome

/-- Binds a name, instead of what it was bound to. -/
def insert (t : NameTable α) (n : String) (a : α) : NameTable α := ⟨t.tree.insert n a⟩

@[simp] theorem find?_empty (n : String) : (empty : NameTable α).find? n = none :=
  Std.TreeMap.getElem?_emptyc

@[simp] theorem find?_insert (t : NameTable α) (n m : String) (a : α) :
    (t.insert n a).find? m = if n = m then some a else t.find? m := by
  simp only [find?, insert, Std.TreeMap.getElem?_insert, Std.compare_eq_iff_eq]

/-- The table of a list of bindings; the first binding of a name counts. -/
def ofList (xs : List (String × α)) : NameTable α :=
  xs.foldr (fun x t => t.insert x.1 x.2) empty

theorem find?_ofList (xs : List (String × α)) (n : String) :
    (ofList xs).find? n = xs.lookup n := by
  induction xs with
  | nil => simp [ofList]
  | cons x xs ih =>
    have hx : ofList (x :: xs) = (ofList xs).insert x.1 x.2 := rfl
    rw [hx, find?_insert, ih, List.lookup_cons]
    by_cases h : x.1 = n
    · simp [h]
    · have hne : (n == x.1) = false := beq_eq_false_iff_ne.mpr (Ne.symm h)
      simp [h, hne]

/-- Named things are found in the list of their bindings as they are in their own list. -/
theorem lookup_map_name (name : α → String) (xs : List α) (n : String) :
    (xs.map fun a => (name a, a)).lookup n = xs.find? (name · == n) := by
  induction xs with
  | nil => rfl
  | cons x xs ih =>
    rw [List.map_cons, List.lookup_cons, List.find?_cons, ih, BEq.comm]

/-- Binds a name unless it is bound. -/
def insertNew (t : NameTable α) (n : String) (a : α) : NameTable α :=
  if t.contains n then t else t.insert n a

@[simp] theorem find?_insertNew (t : NameTable α) (n m : String) (a : α) :
    (t.insertNew n a).find? m = (t.find? m).or (if n = m then some a else none) := by
  unfold insertNew contains
  by_cases hnm : n = m
  · subst hnm
    cases hn : t.find? n with
    | none => simp
    | some b => simp [hn]
  · split <;> simp [hnm]

/-- Binds the names of a list one after the other, except for those that are bound. -/
def insertAllNew (t : NameTable α) (xs : List (String × α)) : NameTable α :=
  xs.foldl (fun t x => t.insertNew x.1 x.2) t

theorem find?_insertAllNew (t : NameTable α) (xs : List (String × α)) (n : String) :
    (t.insertAllNew xs).find? n = (t.find? n).or (xs.lookup n) := by
  induction xs generalizing t with
  | nil => simp [insertAllNew]
  | cons x xs ih =>
    have hx : t.insertAllNew (x :: xs) = (t.insertNew x.1 x.2).insertAllNew xs := rfl
    rw [hx, ih, find?_insertNew, Option.or_assoc, List.lookup_cons]
    by_cases h : x.1 = n
    · simp [h]
    · have hne : (n == x.1) = false := beq_eq_false_iff_ne.mpr (Ne.symm h)
      simp [h, hne]

/-- The table of a list of bindings that are made in order; the last binding of a name
counts. -/
def collect (xs : List (String × α)) : NameTable α :=
  xs.foldl (fun t x => t.insert x.1 x.2) empty

/-- The last binding is the first one from the other end. -/
theorem collect_eq (xs : List (String × α)) : collect xs = ofList xs.reverse := by
  rw [collect, ofList, List.foldr_reverse]

theorem find?_collect (xs : List (String × α)) (n : String) :
    (collect xs).find? n = xs.reverse.lookup n := by
  rw [collect_eq, find?_ofList]

/-- The table of all bindings of each name, in order. -/
def groups (xs : List (String × α)) : NameTable (List α) :=
  xs.foldr (fun x t => t.insert x.1 (x.2 :: (t.find? x.1).getD [])) empty

theorem getD_find?_groups (xs : List (String × α)) (n : String) :
    ((groups xs).find? n).getD [] = (xs.filter (·.1 == n)).map Prod.snd := by
  induction xs with
  | nil => simp [groups]
  | cons x xs ih =>
    have hx : groups (x :: xs) =
        (groups xs).insert x.1 (x.2 :: ((groups xs).find? x.1).getD []) := rfl
    rw [hx, find?_insert]
    by_cases h : x.1 = n
    · subst h
      simp [ih]
    · simp [h, ih]

end NameTable

end Asdl
