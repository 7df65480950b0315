/-
When the macros of the simple sums do not get in each other's way.

A variant `V` of a simple sum `S` has the macro `S__V`, and a constructor `V` of a
compound sum `S` has the class `S__V`.  The checks on a schema compare the classes
with each other and with the definitions, but they leave the macros out:

* `memberName_eq_memberName` — when two such names coincide;
* `Header.macroNames_eq` — the macros that a model leads to, in order;
* `Header.MacrosApart`, `Header.MembersApart` — no macro rewrites anything, said of
  the generated names and of the names in the module;
* `Header.macros_apart_iff` — these are the same;
* `Header.overlappingModule_macros` — there is a module for which they fail.

Design notes: a name `S__V` can be cut in several places if `S` or `V` holds
underscores.  Two cuts of one name are either the same or lie one or more
characters apart, and `Overlaps` lists what stands between them.
-/
import Asdl.Proofs.Agreement
import Asdl.Proofs.TopLevel
import Mathlib.Data.List.Pairwise

namespace Asdl

/-! ### Cuts of a name -/

/-- `a__v` and `b__w` are one name, cut later in the second case: `b` is `a` with some
of what follows it. -/
inductive Overlaps : String → String → String → String → Prop where
  | underscore (a w : String) : Overlaps a ("_" ++ w) (a ++ "_") w
  | middle (a u w : String) : Overlaps a (u ++ "__" ++ w) (a ++ "__" ++ u) w

variable {a b v w : String}

theorem Overlaps.memberName_eq (h : Overlaps a v b w) : memberName a v = memberName b w := by
  cases h with
  | underscore => simp [memberName, ← String.toList_inj]
  | middle => simp [memberName, ← String.toList_inj]

theorem Overlaps.ne (h : Overlaps a v b w) : a ≠ b := by
  intro hab
  have hlength := congrArg (fun n : String => n.toList.length) hab
  cases h with
  | underscore => simp at hlength
  | middle => simp at hlength

/-- The second cut lies behind the first one by the characters `between`. -/
theorem overlaps_of_append {between : List Char} (hb : b.toList = a.toList ++ between)
    (hv : '_' :: '_' :: v.toList = between ++ '_' :: '_' :: w.toList) :
    (a = b ∧ v = w) ∨ Overlaps a v b w := by
  match between with
  | [] =>
    rw [List.append_nil, String.toList_inj] at hb
    simp only [List.nil_append, List.cons.injEq, true_and, String.toList_inj] at hv
    exact .inl ⟨hb.symm, hv⟩
  | [c] =>
    simp only [List.cons_append, List.nil_append, List.cons.injEq] at hv
    obtain ⟨rfl, -, hv⟩ := hv
    have hb : b = a ++ "_" := String.toList_inj.mp (by rw [hb, String.toList_append]; rfl)
    have hv : v = "_" ++ w := String.toList_inj.mp (by rw [hv, String.toList_append]; rfl)
    rw [hb, hv]
    exact .inr (.underscore a w)
  | c :: d :: rest =>
    simp only [List.cons_append, List.cons.injEq] at hv
    obtain ⟨rfl, rfl, hv⟩ := hv
    -- what lies between the separators is the end of `b` and the start of `v`
    have hb : b = a ++ "__" ++ String.ofList rest := by
      simp [← String.toList_inj, hb]
    have hv : v = String.ofList rest ++ "__" ++ w := by
      simp [← String.toList_inj, hv]
    rw [hb, hv]
    exact .inr (.middle a _ w)

/-- **Two joined names coincide** iff their parts do or one is cut later than the other. -/
theorem memberName_eq_memberName :
    memberName a v = memberName b w ↔ (a = b ∧ v = w) ∨ Overlaps a v b w ∨ Overlaps b w a v := by
  constructor
  · intro h
    have h : a.toList ++ '_' :: '_' :: v.toList = b.toList ++ '_' :: '_' :: w.toList := by
      have h := congrArg String.toList h
      simpa [memberName] using h
    -- one of the two names is the longer one; what it has more overlaps the underscores
    rcases List.append_eq_append_iff.mp h with ⟨between, hb, hv⟩ | ⟨between, ha, hw⟩
    · rcases overlaps_of_append hb hv with hsame | hover
      · exact .inl hsame
      · exact .inr (.inl hover)
    · rcases overlaps_of_append ha hw with ⟨hba, hwv⟩ | hover
      · exact .inl ⟨hba.symm, hwv.symm⟩
      · exact .inr (.inr hover)
  · rintro (⟨rfl, rfl⟩ | h | h)
    · rfl
    · exact h.memberName_eq
    · exact h.memberName_eq.symm

namespace Header

/-! ### Macros in the table -/

/-- The macro that an item defines. -/
def Item.macro? : Item → Option String
  | .define name _ => some name
  | _ => none

theorem Item.lines_of_macro? {i : Item} {n : String} (h : i.macro? = some n) :
    ∃ value : Nat, i.lines = [⟨0, "#define " ++ n ++ " " ++ value.repr⟩] := by
  cases i with
  | define name value => cases h; exact ⟨value, rfl⟩
  | _ => cases h

/-- The macros of a model, in the order of the table. -/
def macroNames (m : Model) : List String := (macroItemsOf m).filterMap Item.macro?

theorem macroNames_eq (m : Model) :
    macroNames m =
      m.simpleSums.flatMap fun t => t.variants.map fun v => memberName t.name v.1 := by
  have hitems : ∀ d : Model.Definition, (macroItems d).filterMap Item.macro? =
      d.simpleSum?.toList.flatMap fun t => t.variants.map fun v => memberName t.name v.1 := by
    intro d
    cases d with
    | simpleSum t =>
      simp [macroItems, Item.macro?, Model.Definition.simpleSum?, List.filterMap_map,
        Function.comp_def]
    | _ => rfl
  rw [macroNames, macroItemsOf, List.filterMap_flatMap, Model.simpleSums,
    List.filterMap_eq_flatMap_toList, List.flatMap_assoc]
  simp only [hitems]

theorem mem_macroNames {m : Model} {n : String} :
    n ∈ macroNames m ↔ ∃ t ∈ m.simpleSums, ∃ v ∈ t.variants, memberName t.name v.1 = n := by
  rw [macroNames_eq]
  simp only [List.mem_flatMap, List.mem_map]

/-! ### Nothing is rewritten -/

/-- No macro is defined twice, and none stands for a name that the code declares. -/
structure MacrosApart (m : Model) : Prop where
  distinct : (macroNames m).Nodup
  definitions : ∀ d ∈ m.definitions, d.name ∉ macroNames m
  classes : ∀ c ∈ m.compoundSums, ∀ n ∈ c.classNames, n ∉ macroNames m

instance (m : Model) : Decidable (MacrosApart m) :=
  decidable_of_iff ((macroNames m).Nodup ∧ (∀ d ∈ m.definitions, d.name ∉ macroNames m) ∧
      ∀ c ∈ m.compoundSums, ∀ n ∈ c.classNames, n ∉ macroNames m)
    ⟨fun ⟨hdistinct, hdefinitions, hclasses⟩ => ⟨hdistinct, hdefinitions, hclasses⟩,
      fun ⟨hdistinct, hdefinitions, hclasses⟩ => ⟨hdistinct, hdefinitions, hclasses⟩⟩

/-- The names in a module that keep its macros apart. -/
structure MembersApart (m : Model) : Prop where
  definitions : ∀ t ∈ m.simpleSums, ∀ v ∈ t.variants, ∀ d ∈ m.definitions,
    d.name ≠ t.name ++ "__" ++ v.1
  simple : ∀ t ∈ m.simpleSums, ∀ v ∈ t.variants, ∀ u ∈ m.simpleSums, ∀ w ∈ u.variants,
    ¬ Overlaps t.name v.1 u.name w.1
  compound : ∀ t ∈ m.simpleSums, ∀ v ∈ t.variants, ∀ c ∈ m.compoundSums, ∀ k ∈ c.constructors,
    ¬ Overlaps t.name v.1 c.name k.name ∧ ¬ Overlaps c.name k.name t.name v.1

variable {s : Schema} {m : Model}

theorem nodup_simpleSums (h : Model.Resolves s m) :
    (m.simpleSums.map Model.SimpleSum.name).Nodup := by
  refine h.nodup_select fun d a ha => ?_
  cases d with
  | simpleSum => cases ha; rfl
  | _ => cases ha

/-- A simple sum and a compound sum have different names. -/
theorem simpleSum_name_ne (h : Model.Resolves s m) {t : Model.SimpleSum} (ht : t ∈ m.simpleSums)
    {c : Model.CompoundSum} (hc : c ∈ m.compoundSums) : t.name ≠ c.name := by
  intro hname
  have ht : m.find? c.name = some (.simpleSum t) :=
    h.find?_eq_some.mpr ⟨Model.Resolves.mem_definitions_of_simpleSum ht, hname⟩
  have hc : m.find? c.name = some (.compoundSum c) :=
    h.find?_eq_some.mpr ⟨Model.Resolves.mem_definitions_of_compoundSum hc, rfl⟩
  rw [ht] at hc
  cases hc

theorem nodup_variants_of_simpleSum (h : Model.Resolves s m) {t : Model.SimpleSum}
    (ht : t ∈ m.simpleSums) : (t.variants.map Prod.fst).Nodup := by
  obtain ⟨u, -, rfl, hbody⟩ := h.exists_checked_simpleSum ht
  rw [Model.Scope.resolveSimple, List.zipIdx_map_fst]
  exact (Sum.checkBody_eq_ok.mp hbody).2.1

/-- The macros of one sum are different, whatever its name and its variants are. -/
theorem nodup_macros_of_simpleSum (h : Model.Resolves s m) {t : Model.SimpleSum}
    (ht : t ∈ m.simpleSums) : (t.variants.map fun v => memberName t.name v.1).Nodup := by
  have hnd := (nodup_variants_of_simpleSum h ht).map
    (f := memberName t.name) fun _ _ heq => (String.append_right_inj _).mp heq
  rwa [List.map_map] at hnd

/-- Macros are different iff no two of them are cuts of one name. -/
theorem nodup_macroNames_iff (h : Model.Resolves s m) :
    (macroNames m).Nodup ↔
      ∀ t ∈ m.simpleSums, ∀ v ∈ t.variants, ∀ u ∈ m.simpleSums, ∀ w ∈ u.variants,
        ¬ Overlaps t.name v.1 u.name w.1 := by
  have hnames := nodup_simpleSums h
  rw [List.Nodup, List.pairwise_map] at hnames
  rw [macroNames_eq, List.nodup_flatMap]
  constructor
  · rintro ⟨-, hpairs⟩ t ht v hv u hu w hw hover
    -- two cuts of one name belong to different sums, and those share no macro
    have hne : t ≠ u := by
      rintro rfl
      exact hover.ne rfl
    let macrosOf (t : Model.SimpleSum) := t.variants.map fun v => memberName t.name v.1
    have : Std.Symm (Function.onFun List.Disjoint macrosOf) :=
      ⟨fun _ _ hd _ hu ht => hd ht hu⟩
    have hdisjoint := hpairs.forall ht hu hne
    refine hdisjoint (List.mem_map.mpr ⟨v, hv, rfl⟩) (List.mem_map.mpr ⟨w, hw, ?_⟩)
    exact hover.memberName_eq.symm
  · intro hno
    refine ⟨fun t ht => nodup_macros_of_simpleSum h ht, hnames.imp_of_mem ?_⟩
    intro t u ht hu hne n hn hn'
    obtain ⟨v, hv, rfl⟩ := List.mem_map.mp hn
    obtain ⟨w, hw, heq⟩ := List.mem_map.mp hn'
    rcases memberName_eq_memberName.mp heq with ⟨hname, -⟩ | hover | hover
    · exact hne hname.symm
    · exact hno u hu w hw t ht v hv hover
    · exact hno t ht v hv u hu w hw hover

/-- Macros and classes are different iff none of them are cuts of one name. -/
theorem classes_not_mem_macroNames_iff (h : Model.Resolves s m) :
    (∀ c ∈ m.compoundSums, ∀ n ∈ c.classNames, n ∉ macroNames m) ↔
      ∀ t ∈ m.simpleSums, ∀ v ∈ t.variants, ∀ c ∈ m.compoundSums, ∀ k ∈ c.constructors,
        ¬ Overlaps t.name v.1 c.name k.name ∧ ¬ Overlaps c.name k.name t.name v.1 := by
  simp only [mem_macroNames]
  constructor
  · intro hno t ht v hv c hc k hk
    have hclass : memberName c.name k.name ∈ c.classNames := List.mem_map.mpr ⟨k, hk, rfl⟩
    constructor
    · intro hover
      exact hno c hc _ hclass ⟨t, ht, v, hv, hover.memberName_eq⟩
    · intro hover
      exact hno c hc _ hclass ⟨t, ht, v, hv, hover.memberName_eq.symm⟩
  · rintro hno c hc n hn ⟨t, ht, v, hv, heq⟩
    obtain ⟨k, hk, rfl⟩ := List.mem_map.mp hn
    obtain ⟨hnot, hnot'⟩ := hno t ht v hv c hc k hk
    -- a simple and a compound sum never share a name, so only an overlap is left
    rcases memberName_eq_memberName.mp heq with ⟨hname, -⟩ | hover | hover
    · exact simpleSum_name_ne h ht hc hname
    · exact hnot hover
    · exact hnot' hover

theorem macrosApart_iff_membersApart (h : Model.Resolves s m) : MacrosApart m ↔ MembersApart m := by
  constructor
  · rintro ⟨hdistinct, hdefinitions, hclasses⟩
    refine ⟨fun t ht v hv d hd hname => ?_, (nodup_macroNames_iff h).mp hdistinct,
      (classes_not_mem_macroNames_iff h).mp hclasses⟩
    exact hdefinitions d hd (mem_macroNames.mpr ⟨t, ht, v, hv, hname.symm⟩)
  · rintro ⟨hdefinitions, hsimple, hcompound⟩
    refine ⟨(nodup_macroNames_iff h).mpr hsimple, fun d hd hmacro => ?_,
      (classes_not_mem_macroNames_iff h).mpr hcompound⟩
    obtain ⟨t, ht, v, hv, hname⟩ := mem_macroNames.mp hmacro
    exact hdefinitions t ht v hv d hd hname.symm

/-! ### The table of a module -/

/-- **Macros rewrite nothing exactly if the names in the module allow it.**  The table
of a model is the text of its items, an item with a macro is one line that defines it,
and the macros are those of the variants of the simple sums; they are different from
each other, from the definitions and from the classes of constructors iff no two names
are cuts of one. -/
theorem macros_apart_iff (hm : Model.ofSchema s = .ok m) :
    (macros m).result = .ok (itemsText (macroItemsOf m)) ∧
    (∀ i ∈ macroItemsOf m, ∀ n, i.macro? = some n →
      ∃ value : Nat, i.lines = [⟨0, "#define " ++ n ++ " " ++ value.repr⟩]) ∧
    (macroItemsOf m).filterMap Item.macro? =
      (m.simpleSums.flatMap fun t => t.variants.map fun v => t.name ++ "__" ++ v.1) ∧
    (MacrosApart m ↔ MembersApart m) :=
  ⟨result_macros m, fun _ _ _ hn => Item.lines_of_macro? hn, macroNames_eq m,
    macrosApart_iff_membersApart (Model.ofSchema_eq_ok.mp hm)⟩

/-- A module with names that could be cut in several places, of which none are cuts of
one name. -/
def separableModule : Schema where
  name := "m"
  uses := []
  definitions := [
    .sum ⟨"A", [⟨"X", [], none⟩, ⟨"B__C", [], none⟩], []⟩,
    .sum ⟨"A__B", [⟨"D", [⟨"a", .named "A" .scalar⟩], none⟩], []⟩,
    .product ⟨"A__C", [⟨"b", .named "A__B" .scalar⟩], []⟩]

theorem separableModule_macros :
    ∃ m, Model.ofSchema separableModule = .ok m ∧ macroNames m = ["A__X", "A__B__C"] ∧
      m.compoundSums.flatMap Model.CompoundSum.classNames = ["A__B__D"] ∧ MembersApart m := by
  have hvalues : (fun m => (macroNames m, m.compoundSums.flatMap Model.CompoundSum.classNames,
      decide (MacrosApart m))) <$> Model.ofSchema separableModule =
        .ok (["A__X", "A__B__C"], ["A__B__D"], true) := by rfl
  obtain ⟨m, hm, hvalues⟩ := map_eq_ok.mp hvalues
  simp only [Prod.mk.injEq, decide_eq_true_eq] at hvalues
  obtain ⟨hmacros, hclasses, hapart⟩ := hvalues
  exact ⟨m, hm, hmacros, hclasses, (macros_apart_iff hm).2.2.2.mp hapart⟩

/-- A module in which the macros of `B__C` and of `C` are one name, and the macro of `X`
is the name of a product. -/
def overlappingModule : Schema where
  name := "m"
  uses := []
  definitions := [
    .sum ⟨"A", [⟨"X", [], none⟩, ⟨"B__C", [], none⟩], []⟩,
    .sum ⟨"A__B", [⟨"C", [], none⟩], []⟩,
    .product ⟨"A__X", [⟨"n", .named "int" .scalar⟩], []⟩]

theorem overlappingModule_macros :
    ∃ m, Model.ofSchema overlappingModule = .ok m ∧
      (macros m).result = .ok "#define A__X 1
#define A__B__C 2

#define A__B__C 1

" ∧
      macroNames m = ["A__X", "A__B__C", "A__B__C"] ∧ ¬ (macroNames m).Nodup ∧
      ∃ d ∈ m.definitions, d.name ∈ macroNames m := by
  have hm : (fun m => ((macros m).result, macroNames m,
      m.definitions.map Model.Definition.name)) <$> Model.ofSchema overlappingModule =
        .ok (.ok "#define A__X 1
#define A__B__C 2

#define A__B__C 1

",
          ["A__X", "A__B__C", "A__B__C"], ["A", "A__B", "A__X"]) := by rfl
  obtain ⟨m, hm, hvalues⟩ := map_eq_ok.mp hm
  simp only [Prod.mk.injEq] at hvalues
  obtain ⟨htext, hmacros, hnames⟩ := hvalues
  have hproduct : "A__X" ∈ m.definitions.map Model.Definition.name := by simp [hnames]
  obtain ⟨d, hd, hname⟩ := List.mem_map.mp hproduct
  refine ⟨m, hm, htext, hmacros, by simp [hmacros], d, hd, ?_⟩
  rw [hname, hmacros]
  exact List.mem_cons_self

end Header

end Asdl
