/-
Tables of tags, written and read back.

The tables are written as an object of objects.  Such a text can be read in one way only,
and that way gives the tables back:

* `Json.isString_quote`, `Json.isObject_object` — what the writer writes is a string and an
  object with the given members;
* `Json.Delimits` — tokens that tell where they end, so that they can be read one way only;
* `ReadsAs` — a text read as types with their tables;
* `tagTables_readBack` — the text of tables that were put together one after the other.

Design notes: two readings of a text have the same tokens, and the tokens of an object of
objects tell everything that it holds.  So no reader has to be written down.
-/
import Asdl.Proofs.ByteOrder
import Asdl.Proofs.JsonTexts
import Asdl.Proofs.SortedMaps
import Asdl.TagTables
import Std.Data.String.ToNat

namespace Asdl

namespace Json

/-! ### Writing -/

theorem hexDigit_mem {n : Nat} (h : n < 16) : (hexDigit n, n) ∈ hexDigits := by
  have hall : ∀ n < 16, (hexDigit n, n) ∈ hexDigits := by decide
  exact hall n h

theorem code_control {c : Char} (hc : c.toNat < 0x20) :
    Code ['\\', 'u', '0', '0', hexDigit (c.toNat / 16), hexDigit (c.toNat % 16)] c.toNat := by
  have hcode := Code.mk (hexDigit_mem (n := 0) (by omega)) (hexDigit_mem (n := 0) (by omega))
    (hexDigit_mem (n := c.toNat / 16) (by omega)) (hexDigit_mem (n := c.toNat % 16) (by omega))
  have hvalue : ((0 * 16 + 0) * 16 + c.toNat / 16) * 16 + c.toNat % 16 = c.toNat := by omega
  rw [hvalue] at hcode
  exact hcode

/-- A character is spelled by what is written for it. -/
theorem spells_escape (c : Char) {s v : List Char} (h : Spells s v) :
    Spells (escape c ++ s) (c :: v) := by
  unfold escape
  split_ifs with hquote hslash hline hreturn htab hback hform hlow
  · rw [hquote]
    exact .short (by decide) h
  · rw [hslash]
    exact .short (by decide) h
  · rw [hline]
    exact .short (by decide) h
  · rw [hreturn]
    exact .short (by decide) h
  · rw [htab]
    exact .short (by decide) h
  · rw [hback]
    exact .short (by decide) h
  · rw [hform]
    exact .short (by decide) h
  · exact .code (code_control hlow) h
  · exact .plain ⟨by omega, hquote, hslash⟩ h

theorem spells_flatMap_escape (cs : List Char) : Spells (cs.flatMap escape) cs := by
  induction cs with
  | nil => exact .nil
  | cons c cs ih => exact spells_escape c ih

theorem toList_quote (s : String) :
    (quote s).toList = '"' :: (s.toList.flatMap escape ++ ['"']) :=
  String.toList_ofList

theorem isString_quote (s : String) : IsString s (quote s).toList :=
  ⟨_, spells_flatMap_escape s.toList, toList_quote s⟩

/-- A line goes on with blanks. -/
theorem blanks_line (depth : Nat) : Blanks ('\n' :: (indentation depth).toList) := by
  refine blanks_cons (by decide) ?_
  induction depth with
  | zero => exact blanks_nil
  | succ depth ih =>
    have hcons : (indentation (depth + 1)).toList = ' ' :: ' ' :: (indentation depth).toList := by
      rw [indentation, String.toList_append]
      rfl
    rw [hcons]
    exact blanks_cons (by decide) (blanks_cons (by decide) ih)

/-- A member of an object, as it is written on a line. -/
def memberText (depth : Nat) (m : String × String) : String :=
  indentation (depth + 1) ++ quote m.1 ++ ": " ++ m.2

/-- The parts of a member between its quotes and behind its colon. -/
def rawMember (m : String × String) : List Char × List Char :=
  (m.1.toList.flatMap escape, m.2.toList)

theorem toList_memberText (depth : Nat) (m : String × String) (rest : List Char) :
    '\n' :: ((memberText depth m).toList ++ rest) =
      ('\n' :: (indentation (depth + 1)).toList) ++ '"' :: ((rawMember m).1 ++ '"' ::
        ([] ++ ':' :: ([' '] ++ ((rawMember m).2 ++ rest)))) := by
  simp only [memberText, rawMember, String.toList_append, toList_quote, List.append_assoc,
    List.cons_append, List.nil_append]
  rfl

/-- The members of an object as they are written, from behind the opening brace. -/
theorem written_members (depth : Nat) {m : String × String} {ms : List (String × String)}
    (h : ∀ x ∈ m :: ms, Written .value x.2.toList) {d : List Char} (hd : Blanks d) :
    Written (.members ((m :: ms).map rawMember))
      ('\n' :: ((",\n".intercalate ((m :: ms).map (memberText depth))).toList ++ d)) := by
  have hindent := blanks_line (depth + 1)
  have hspace : Blanks [' '] := blanks_cons (by decide) blanks_nil
  have hkey : ∀ x, Between (rawMember x).1 := fun x => (spells_flatMap_escape _).between
  -- member by member: line end, indentation, key, blank, value, and a comma between two
  induction ms generalizing m with
  | nil =>
    rw [List.map_singleton, List.map_singleton, String.intercalate_singleton, toList_memberText]
    exact .member hindent (hkey m) blanks_nil hspace (h m List.mem_cons_self) hd
  | cons m' ms ih =>
    have hcomma : (",\n".intercalate ((m :: m' :: ms).map (memberText depth))).toList ++ d =
        (memberText depth m).toList ++ ([] ++ ',' :: ('\n' ::
          ((",\n".intercalate ((m' :: ms).map (memberText depth))).toList ++ d))) := by
      rw [List.map_cons, List.map_cons, String.intercalate_cons_cons, String.toList_append,
        String.toList_append, List.append_assoc, List.append_assoc]
      rfl
    rw [hcomma, toList_memberText]
    exact .members hindent (hkey m) blanks_nil hspace (h m List.mem_cons_self) blanks_nil
      (ih fun x hx => h x (List.mem_cons_of_mem _ hx))

/-- **An object is written with its members**, in order. -/
theorem isObject_object (depth : Nat) {members : List (String × String)}
    (h : ∀ m ∈ members, Written .value m.2.toList) :
    IsObject (members.map fun m => (m.1, m.2.toList)) (object depth members).toList := by
  cases members with
  | nil =>
    refine ⟨[], [], .noMembers blanks_nil, .nil, ?_⟩
    rw [object, if_pos List.isEmpty_nil]
    rfl
  | cons m ms =>
    refine ⟨_, _, written_members depth h (blanks_line depth), ?_, ?_⟩
    · rw [List.forall₂_map_left_iff, List.forall₂_map_right_iff, List.forall₂_same]
      exact fun x _ => ⟨spells_flatMap_escape _, rfl⟩
    · rw [object, if_neg (by simp)]
      simp only [String.toList_append, List.append_assoc, List.cons_append]
      rfl

/-! ### One way of reading -/

/-- The tokens of a thing tell where they end, and the thing. -/
def Delimits {α : Type} (f : α → List Token) : Prop :=
  ∀ x y us vs, f x ++ us = f y ++ vs → x = y ∧ us = vs

/-- The tokens of a member, from those of its value. -/
def entry {β : Type} (g : β → List Token) (x : String × β) : List Token :=
  .text (.ok x.1) (.ok ()) :: .mark .colon :: g x.2

/-- The tokens of an object, from those of its values. -/
def braced {β : Type} (g : β → List Token) (xs : List (String × β)) : List Token :=
  .mark .openBrace :: ([.mark .comma].intercalate (xs.map (entry g)) ++ [.mark .closeBrace])

section

variable {β : Type} {g : β → List Token}

theorem delimits_text : Delimits fun v : String => [.text (.ok v) (.ok ())] := by
  intro v w us vs h
  simpa using h

theorem delimits_entry (hg : Delimits g) : Delimits (entry g) := by
  rintro ⟨k, x⟩ ⟨j, y⟩ us vs h
  simp only [entry, List.cons_append, List.cons.injEq, Token.text.injEq, Except.ok.injEq,
    and_true, true_and] at h
  obtain ⟨rfl, hvalue⟩ := h
  obtain ⟨rfl, hrest⟩ := hg x y us vs hvalue
  exact ⟨rfl, hrest⟩

/-- Behind the first member there are commas up to the end. -/
theorem delimits_tail (hg : Delimits g) :
    Delimits fun xs : List (String × β) =>
      xs.flatMap (fun x => .mark .comma :: entry g x) ++ [.mark .closeBrace] := by
  intro xs
  -- a comma or the brace tells whether there is one more entry
  induction xs with
  | nil =>
    intro ys us vs h
    cases ys with
    | nil => simpa using h
    | cons y ys => simp at h
  | cons x xs ih =>
    intro ys us vs h
    cases ys with
    | nil => simp at h
    | cons y ys =>
      simp only [List.flatMap_cons, List.cons_append, List.append_assoc, List.cons.injEq,
        true_and] at h
      obtain ⟨rfl, hrest⟩ := delimits_entry hg x y _ _ h
      obtain ⟨rfl, hus⟩ := ih ys us vs (by simpa using hrest)
      exact ⟨rfl, hus⟩

/-- **An object tells where it ends** if its values do. -/
theorem delimits_braced (hg : Delimits g) : Delimits (braced g) := by
  intro xs ys us vs h
  -- a comma in front of the first member makes no difference, and then all are alike
  have htail := delimits_tail hg xs ys us vs
  cases xs with
  | nil =>
    cases ys with
    | nil => exact htail (by simpa [braced] using h)
    | cons y ys => simp [braced, intercalate_cons, entry] at h
  | cons x xs =>
    cases ys with
    | nil => simp [braced, intercalate_cons, entry] at h
    | cons y ys =>
      refine htail ?_
      simp only [braced, List.map_cons, intercalate_cons, List.flatMap_map, List.cons_append,
        List.append_assoc, List.cons.injEq, true_and] at h
      simpa using h

/-- What is read member by member is told by the tokens of the object. -/
theorem exists_braced {α γ : Type} {K : α → String → Prop} {V : γ → List Char → Prop}
    {S : γ → β → Prop} (hV : ∀ x v, V x v → ∃ y, tokens v = g y ∧ S x y) {r : List (α × γ)}
    {ms : List (String × List Char)} {t : List Char} (ht : IsObject ms t)
    (h : List.Forall₂ (fun x m => K x.1 m.1 ∧ V x.2 m.2) r ms) :
    ∃ raw, tokens t = braced g raw ∧
      List.Forall₂ (fun x y => K x.1 y.1 ∧ S x.2 y.2) r raw := by
  have hraw : ∃ raw, ms.map entryTokens = raw.map (entry g) ∧
      List.Forall₂ (fun x y => K x.1 y.1 ∧ S x.2 y.2) r raw := by
    clear ht
    induction h with
    | nil => exact ⟨[], rfl, .nil⟩
    | @cons x m r ms hxm _ ih =>
      obtain ⟨raw, hmap, hall⟩ := ih
      obtain ⟨y, hy, hS⟩ := hV x.2 m.2 hxm.2
      refine ⟨(m.1, y) :: raw, ?_, .cons ⟨hxm.1, hS⟩ hall⟩
      rw [List.map_cons, List.map_cons, hmap, entryTokens, hy, entry]
  obtain ⟨raw, hmap, hall⟩ := hraw
  exact ⟨raw, by rw [ht.tokens_eq, hmap, braced], hall⟩

end

end Json

open Json

/-! ### Tables -/

/-- Decimal digits that stand for a number. -/
def IsDecimal (n : Nat) (s : String) : Prop :=
  (∀ c ∈ s.toList, c.isDigit = true) ∧ s.toNat? = some n

/-- An object read as a table: tags with their classes. -/
def ReadsTable (r : List (Nat × String)) (t : List Char) : Prop :=
  ∃ ms, IsObject ms t ∧ List.Forall₂ (fun x m => IsDecimal x.1 m.1 ∧ IsString x.2 m.2) r ms

/-- A text read as an object of objects: types with their tables. -/
def ReadsAs (text : String) (r : List (String × List (Nat × String))) : Prop :=
  ∃ t ms, Holds text.toList t ∧ IsObject ms t ∧
    List.Forall₂ (fun x m => x.1 = m.1 ∧ ReadsTable x.2 m.2) r ms

theorem isDecimal_repr (n : Nat) : IsDecimal n n.repr := by
  refine ⟨fun c hc => ?_, Nat.toNat?_repr n⟩
  rw [Nat.toList_repr] at hc
  exact Nat.isDigit_of_mem_toDigits (by omega) (by omega) hc

/-- What a table holds. -/
def TagTables.contents (t : TagTables) : List (String × List (Nat × String)) :=
  t.entries.map fun e => (e.1, e.2.entries)

theorem readsTable_json (t : TagTable) : ReadsTable t.entries t.json.toList := by
  refine ⟨_, isObject_object 1 fun m hm => ?_, ?_⟩
  · obtain ⟨e, -, rfl⟩ := List.mem_map.mp hm
    exact (isString_quote e.2).written
  · rw [List.map_map, List.forall₂_map_right_iff, List.forall₂_same]
    intro e _
    dsimp only [Function.comp]
    exact ⟨isDecimal_repr e.1, isString_quote e.2⟩

theorem ReadsTable.written {r : List (Nat × String)} {t : List Char} (h : ReadsTable r t) :
    Written .value t := by
  obtain ⟨ms, hms, -⟩ := h
  exact hms.written

theorem isObject_json (t : TagTables) :
    IsObject (t.entries.map fun e => (e.1, e.2.json.toList)) t.json.toList := by
  have hvalues : ∀ m ∈ t.entries.map fun e => (e.1, e.2.json), Written .value m.2.toList := by
    intro m hm
    obtain ⟨e, -, rfl⟩ := List.mem_map.mp hm
    exact (readsTable_json e.2).written
  have hobject := isObject_object 0 hvalues
  rwa [List.map_map] at hobject

/-- The text of tables is read as what they hold. -/
theorem readsAs_json (t : TagTables) : ReadsAs t.json t.contents := by
  refine ⟨_, _, holds_self _, isObject_json t, ?_⟩
  rw [TagTables.contents, List.forall₂_map_left_iff, List.forall₂_map_right_iff,
    List.forall₂_same]
  exact fun e _ => ⟨rfl, readsTable_json e.2⟩

/-- A row of a table, and how it is written. -/
def IsRow (x : Nat × String) (y : String × String) : Prop := IsDecimal x.1 y.1 ∧ x.2 = y.2

/-- A table, and how its rows are written. -/
def IsTable (x : String × List (Nat × String)) (y : String × List (String × String)) : Prop :=
  x.1 = y.1 ∧ List.Forall₂ IsRow x.2 y.2

/-- A table is told by the tokens of its text. -/
theorem ReadsTable.exists_tokens {r : List (Nat × String)} {t : List Char} (h : ReadsTable r t) :
    ∃ raw, tokens t = braced (fun v => [.text (.ok v) (.ok ())]) raw ∧
      List.Forall₂ IsRow r raw := by
  obtain ⟨ms, hms, hrows⟩ := h
  exact exists_braced (K := IsDecimal) (V := IsString) (S := Eq)
    (fun x v hv => ⟨x, hv.tokens_eq, rfl⟩) hms hrows

theorem ReadsAs.exists_tokens {text : String} {r : List (String × List (Nat × String))}
    (h : ReadsAs text r) :
    ∃ raw, tokens text.toList = braced (braced fun v => [.text (.ok v) (.ok ())]) raw ∧
      List.Forall₂ IsTable r raw := by
  obtain ⟨t, ms, ht, hms, hr⟩ := h
  rw [ht.tokens_eq hms.written]
  exact exists_braced (K := Eq) (V := ReadsTable) (S := List.Forall₂ IsRow)
    (fun _ _ hv => hv.exists_tokens) hms hr

theorem leftUnique_isRow : Relator.LeftUnique IsRow := by
  rintro ⟨n, v⟩ ⟨m, u⟩ ⟨s, w⟩ ⟨⟨-, hn⟩, hv⟩ ⟨⟨-, hm⟩, hu⟩
  have hnumber : n = m := Option.some.inj (hn.symm.trans hm)
  have hclass : v = u := hv.trans hu.symm
  rw [hnumber, hclass]

theorem leftUnique_isTable : Relator.LeftUnique IsTable := by
  rintro ⟨b, u⟩ ⟨d, v⟩ ⟨c, w⟩ ⟨hb, hu⟩ ⟨hd, hv⟩
  have hbase : b = d := hb.trans hd.symm
  have hrows : u = v := leftUnique_isRow.forall₂ hu hv
  rw [hbase, hrows]

/-- **A text is read in one way only.** -/
theorem readsAs_unique {text : String} {r r' : List (String × List (Nat × String))}
    (h : ReadsAs text r) (h' : ReadsAs text r') : r = r' := by
  obtain ⟨raw, htokens, hraw⟩ := h.exists_tokens
  obtain ⟨raw', htokens', hraw'⟩ := h'.exists_tokens
  have hsame : raw = raw' := by
    refine (delimits_braced (delimits_braced delimits_text) raw raw' [] [] ?_).1
    rw [← htokens, ← htokens']
  exact leftUnique_isTable.forall₂ (hsame ▸ hraw) hraw'

theorem lookup_map_snd {α β γ : Type} [BEq α] (f : β → γ) (xs : List (α × β)) (k : α) :
    (xs.map fun x => (x.1, f x.2)).lookup k = (xs.lookup k).map f := by
  induction xs with
  | nil => rfl
  | cons x xs ih =>
    rw [List.map_cons, List.lookup_cons, List.lookup_cons, ih]
    cases k == x.1 <;> rfl

/-- Tables are given by what they hold. -/
theorem contents_injective : Function.Injective TagTables.contents := by
  have hentry : Function.Injective fun e : String × TagTable => (e.1, e.2.entries) := by
    rintro ⟨b, u⟩ ⟨c, w⟩ h
    obtain ⟨hbase, hentries⟩ := Prod.mk.inj h
    exact Prod.ext hbase (SortedMap.eq_of_entries hentries)
  intro t t' h
  exact SortedMap.eq_of_entries (List.map_injective_iff.mpr hentry h)

/-- **The text of the tables loses nothing.**  After any tables were put in for any types,
the text is JSON and can be read as an object of objects with decimal keys in one way only.
That gives for each type the table that was put in last, types in the order of their bytes
and tags in numeric order; so tables with the same text are the same. -/
theorem tagTables_readBack (inserts : List (String × TagTable)) :
    Written .value (TagTables.json (.ofList inserts)).toList ∧
    ∃ r, (∀ r', ReadsAs (TagTables.json (.ofList inserts)) r' ↔ r' = r) ∧
      (∀ base, r.lookup base = (inserts.reverse.lookup base).map SortedMap.entries) ∧
      (r.map Prod.fst).Pairwise ByteLess ∧
      (∀ x ∈ r, (x.2.map Prod.fst).Pairwise fun m n => m < n) ∧
      ∀ others, TagTables.json (.ofList inserts) = TagTables.json (.ofList others) ↔
        (SortedMap.ofList inserts : TagTables) = .ofList others := by
  -- only the lookup depends on how the tables were put together
  generalize htables : (SortedMap.ofList inserts : TagTables) = t
  have hread := readsAs_json t
  refine ⟨(isObject_json t).written, TagTables.contents t, fun r' => ?_, ?_, ?_, ?_, ?_⟩
  · exact ⟨fun h => readsAs_unique h hread, fun h => h ▸ hread⟩
  · -- a table put in later stands in front in the reversed list
    intro base
    rw [TagTables.contents, lookup_map_snd, SortedMap.lookup_entries, ← htables,
      SortedMap.find?_ofList]
  · rw [TagTables.contents, List.map_map, List.pairwise_map]
    exact t.ascending.imp byteLess_of_compare
  · intro x hx
    obtain ⟨e, -, rfl⟩ := List.mem_map.mp hx
    rw [List.pairwise_map]
    exact e.2.ascending.imp fun h => Nat.compare_eq_lt.mp h
  · intro others
    refine ⟨fun h => contents_injective ?_, fun h => by rw [h]⟩
    exact readsAs_unique hread (h ▸ readsAs_json (.ofList others))

end Asdl
