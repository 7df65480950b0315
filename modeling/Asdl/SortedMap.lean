/-
Finite maps with ascending keys.

A map is the list of its entries in ascending order of their keys, so equal maps
are equal lists and a map is written in the order of its list.  Names are ordered
by their characters, one after the other.

* `SortedMap.insert` — binds a key, instead of what it was bound to;
* `SortedMap.find?` — what a key is bound to (`find?_insert`);
* `NameSet` — sets of names, as maps to nothing.
-/
import Std.Data.TreeMap

namespace Asdl

/-- A finite map: entries with ascending keys. -/
structure SortedMap (κ α : Type) [Ord κ] where
  entries : List (κ × α)
  ascending : entries.Pairwise fun x y => compare x.1 y.1 = .lt
  deriving DecidableEq, Repr

namespace SortedMap

variable {κ α : Type} [Ord κ]

/-- The map without keys. -/
def empty : SortedMap κ α := ⟨[], .nil⟩

def isEmpty (m : SortedMap κ α) : Bool := m.entries.isEmpty

/-- What a key is bound to. -/
def find? (m : SortedMap κ α) (k : κ) : Option α :=
  (m.entries.find? fun x => compare x.1 k == .eq).map Prod.snd

/-- Whether a key is bound. -/
def contains (m : SortedMap κ α) (k : κ) : Bool := (m.find? k).isSome

/-- The keys, ascending. -/
def keys (m : SortedMap κ α) : List κ := m.entries.map Prod.fst

/-- Puts an entry where its key belongs. -/
def insertEntry (k : κ) (a : α) : List (κ × α) → List (κ × α)
  | [] => [(k, a)]
  | x :: xs =>
    match compare k x.1 with
    | .lt => (k, a) :: x :: xs
    | .eq => (k, a) :: xs
    | .gt => x :: insertEntry k a xs

theorem mem_insertEntry {k : κ} {a : α} {xs : List (κ × α)} {y : κ × α}
    (h : y ∈ insertEntry k a xs) : y = (k, a) ∨ y ∈ xs := by
  induction xs with
  | nil => simpa [insertEntry] using h
  | cons x xs ih =>
    unfold insertEntry at h
    split at h
    · simpa using h
    · rcases List.mem_cons.mp h with rfl | hy
      · exact .inl rfl
      · exact .inr (List.mem_cons_of_mem _ hy)
    · rcases List.mem_cons.mp h with rfl | hy
      · exact .inr List.mem_cons_self
      · rcases ih hy with hk | hx
        · exact .inl hk
        · exact .inr (List.mem_cons_of_mem _ hx)

variable [Std.TransOrd κ]

theorem pairwise_insertEntry (k : κ) (a : α) {xs : List (κ × α)}
    (h : xs.Pairwise fun x y => compare x.1 y.1 = .lt) :
    (insertEntry k a xs).Pairwise fun x y => compare x.1 y.1 = .lt := by
  induction xs with
  | nil => exact List.pairwise_singleton _ _
  | cons x xs ih =>
    obtain ⟨hx, hxs⟩ := List.pairwise_cons.mp h
    unfold insertEntry
    -- in front of the first entry, in its place, or somewhere behind it
    split
    · next hlt =>
      refine List.pairwise_cons.mpr ⟨fun y hy => ?_, h⟩
      rcases List.mem_cons.mp hy with rfl | hy
      · exact hlt
      · exact Std.TransCmp.lt_trans hlt (hx y hy)
    · next heq =>
      refine List.pairwise_cons.mpr ⟨fun y hy => ?_, hxs⟩
      exact Std.TransCmp.lt_of_eq_of_lt heq (hx y hy)
    · next hgt =>
      refine List.pairwise_cons.mpr ⟨fun y hy => ?_, ih hxs⟩
      rcases mem_insertEntry hy with rfl | hy
      · exact Std.OrientedCmp.gt_iff_lt.mp hgt
      · exact hx y hy

/-- Binds a key, instead of what it was bound to. -/
def insert (m : SortedMap κ α) (k : κ) (a : α) : SortedMap κ α :=
  ⟨insertEntry k a m.entries, pairwise_insertEntry k a m.ascending⟩

/-- Binds keys one after the other; the last binding of a key counts. -/
def insertAll (m : SortedMap κ α) (xs : List (κ × α)) : SortedMap κ α :=
  xs.foldl (fun m x => m.insert x.1 x.2) m

/-- The map of a list of bindings; the last binding of a key counts. -/
def ofList (xs : List (κ × α)) : SortedMap κ α := empty.insertAll xs

theorem find?_insert (m : SortedMap κ α) (k j : κ) (a : α) :
    (m.insert k a).find? j = if compare k j = .eq then some a else m.find? j := by
  obtain ⟨xs, h⟩ := m
  simp only [find?, insert]
  induction xs with
  | nil => by_cases hk : compare k j = .eq <;> simp [insertEntry, hk]
  | cons x xs ih =>
    obtain ⟨hx, hxs⟩ := List.pairwise_cons.mp h
    unfold insertEntry
    -- the key goes in front, takes the place of the first entry, or goes further back
    split
    · by_cases hk : compare k j = .eq <;> simp [hk]
    · next heq =>
      have hkj : compare x.1 j = compare k j :=
        (Std.TransCmp.congr_left (Std.OrientedCmp.eq_comm.mp heq))
      by_cases hk : compare k j = .eq <;> simp [hk, hkj]
    · next hgt =>
      rw [List.find?_cons, List.find?_cons]
      by_cases hxj : compare x.1 j = .eq
      · -- the first entry is found, so the new key, which is greater, is not the one sought
        have hk : compare k j ≠ .eq := by
          intro hk
          have : compare k x.1 = .eq :=
            Std.TransCmp.eq_trans hk (Std.OrientedCmp.eq_comm.mp hxj)
          rw [this] at hgt
          cases hgt
        simp [hxj, hk]
      · have hb : (compare x.1 j == .eq) = false := beq_eq_false_iff_ne.mpr hxj
        simpa [hb] using ih hxs

end SortedMap

/-- A set of names. -/
abbrev NameSet := SortedMap String Unit

namespace NameSet

/-- The set with one more name. -/
def add (s : NameSet) (n : String) : NameSet := s.insert n ()

/-- The set with all names of a list. -/
def addAll (s : NameSet) (ns : List String) : NameSet := ns.foldl add s

end NameSet

end Asdl
