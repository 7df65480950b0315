/-
The names that a header introduces are different.

A header introduces namespaces and enumerations of constants, and classes with
data.  Reading them back from the items:

* `Header.Item.space?`, `Header.Item.dataClass?` — what an item introduces;
* `Context.filterMap_space?`, `Context.filterMap_dataClass?` — what all
  declarations introduce, in order;
* `Context.nodup_spaces`, `Context.nodup_dataClasses` — no name twice.

Design notes: the names come from the schema by endings, and the checks on the
schema refuse a name that two endings lead to.  Only the endings `_e` and `_i`,
which are never used for one sum together, are told apart by their letters.
-/
import Asdl.Proofs.Sections
import Mathlib.Data.List.Flatten

namespace Asdl

/-! ### Endings -/

theorem typeName_inj {a b : String} : typeName a = typeName b ↔ a = b := String.append_left_inj _

theorem enumName_inj {a b : String} : enumName a = enumName b ↔ a = b := String.append_left_inj _

theorem intsName_inj {a b : String} : intsName a = intsName b ↔ a = b := String.append_left_inj _

theorem enumName_ne_intsName (a b : String) : enumName a ≠ intsName b := by
  intro h
  have hlast := congrArg (fun n : String => n.toList.getLast?) h
  simp [enumName, intsName] at hlast

namespace Model

/-- The classes of the constructors of a compound sum. -/
def CompoundSum.classNames (t : CompoundSum) : List String :=
  t.constructors.map fun k => memberName t.name k.name

namespace Resolves

variable {s : Schema} {m : Model}

theorem classNames_eq {sc : Scope} {t : Sum} {c : CompoundSum}
    (h : sc.resolveCompound t = .ok c) :
    c.classNames = (t.variants.filter (·.shared.isNone)).map fun v => memberName t.name v.name := by
  obtain ⟨-, hvs, -, hname⟩ := Scope.resolveCompound_eq_ok.mp h
  -- the name of the class, for a variant that has one of its own
  have hvariant : ∀ (v : Asdl.Variant × Nat) (w : Variant), sc.resolveVariant v = .ok w →
      (w.constructor?.map fun k => memberName c.name k.name).toList =
        if v.1.shared.isNone then [memberName t.name v.1.name] else [] := by
    intro v w hw
    rcases Scope.resolveVariant_eq_ok.mp hw with ⟨p, hp, rfl⟩ | ⟨hp, fs, -, rfl⟩
    · simp [Variant.constructor?, hp]
    · simp [Variant.constructor?, hp, hname]
  have hmap := map_eq_map hvariant (mapM_eq_ok.mp hvs)
  calc c.classNames
      = (c.variants.map fun w =>
          (w.constructor?.map fun k => memberName c.name k.name).toList).flatten := by
        rw [CompoundSum.classNames, CompoundSum.constructors, List.map_filterMap,
          List.filterMap_eq_flatMap_toList, List.flatMap_def]
    _ = (((t.variants.zipIdx 1).map Prod.fst).map fun v =>
          if v.shared.isNone then [memberName t.name v.name] else []).flatten := by
        rw [hmap, List.map_map]
        rfl
    _ = (t.variants.filter (·.shared.isNone)).map fun v => memberName t.name v.name := by
        rw [List.zipIdx_map_fst]
        induction t.variants with
        | nil => rfl
        | cons v vs ih =>
          rw [List.map_cons, List.flatten_cons, ih, List.filter_cons]
          cases v.shared.isNone <;> rfl

/-- The classes of all constructors are among the generated names. -/
theorem classNames_sublist (h : Resolves s m) :
    (m.compoundSums.flatMap CompoundSum.classNames).Sublist s.generatedNames := by
  have hmap : m.compoundSums.map CompoundSum.classNames =
      (s.sums.filter (!·.isSimple)).map fun t =>
        (t.variants.filter (·.shared.isNone)).map fun v => memberName t.name v.name :=
    map_eq_map (fun _ _ hc => classNames_eq hc) h.compoundSums
  rw [List.flatMap_def, hmap, ← List.flatMap_def, Schema.generatedNames_eq]
  refine .trans (.flatMap_right _ fun t ht => ?_) (List.filter_sublist.flatMap _)
  have hsimple : t.isSimple = false := by simpa using (List.mem_filter.mp ht).2
  rw [Sum.generatedNames, hsimple]
  exact List.sublist_append_right _ _

theorem nodup_generatedNames (h : Resolves s m) : s.generatedNames.Nodup :=
  (Schema.checkGenerated_eq_ok.mp h.checkGenerated).2.1

/-- No definition of the model has a generated name. -/
theorem name_not_mem_generatedNames (h : Resolves s m) {d : Definition} (hd : d ∈ m.definitions) :
    d.name ∉ s.generatedNames := by
  obtain ⟨e, he, hres⟩ := exists_mem_left (mapM_eq_ok.mp h.definitions) hd
  rw [Scope.resolve_name hres]
  exact (Schema.checkGenerated_eq_ok.mp h.checkGenerated).2.2 e he

/-- The names of definitions of one kind are different. -/
theorem nodup_select (h : Resolves s m) {α : Type} {select : Definition → Option α}
    {nameOf : α → String} (hsel : ∀ d a, select d = some a → nameOf a = d.name) :
    ((m.definitions.filterMap select).map nameOf).Nodup := by
  have hnd := h.nodup_names
  rw [List.Nodup, List.pairwise_map] at hnd ⊢
  rw [List.pairwise_filterMap]
  refine hnd.imp fun {d e} hne a ha b hb => ?_
  rw [hsel d a ha, hsel e b hb]
  exact hne

theorem nodup_compoundSums (h : Resolves s m) : (m.compoundSums.map CompoundSum.name).Nodup := by
  refine h.nodup_select fun d a ha => ?_
  cases d with
  | compoundSum => cases ha; rfl
  | _ => cases ha

theorem nodup_typeNames (h : Resolves s m) :
    (m.compoundSums.map fun t => typeName t.name).Nodup := by
  have hnd := h.nodup_compoundSums.map fun _ _ heq => typeName_inj.mp heq
  rw [List.map_map] at hnd
  exact hnd

/-- **All classes with data have different names.** -/
theorem nodup_classNames (h : Resolves s m) :
    (m.compoundSums.flatMap CompoundSum.classNames ++ m.products.map Product.name).Nodup := by
  have hproducts : (m.products.map Product.name).Nodup := by
    refine h.nodup_select fun d a ha => ?_
    cases d with
    | product => cases ha; rfl
    | _ => cases ha
  refine List.nodup_append.mpr ⟨h.nodup_generatedNames.sublist h.classNames_sublist, hproducts, ?_⟩
  rintro n hn _ hname rfl
  obtain ⟨p, hp, rfl⟩ := List.mem_map.mp hname
  exact h.name_not_mem_generatedNames (mem_definitions_of_product hp)
    (h.classNames_sublist.subset hn)

end Resolves

end Model

namespace Header

/-! ### One thing under each name -/

/-- Among things with different names, one name picks one of them. -/
theorem filter_eq_singleton {α β : Type} [DecidableEq β] {f : α → β} {xs : List α}
    (h : (xs.map f).Nodup) {x : α} (hx : x ∈ xs) : (xs.filter fun y => f y = f x) = [x] := by
  induction xs with
  | nil => cases hx
  | cons z zs ih =>
    rw [List.map_cons, List.nodup_cons] at h
    rcases List.mem_cons.mp hx with rfl | hx
    · -- nothing after it has its name
      have hrest : (zs.filter fun y => f y = f x) = [] := by
        rw [List.filter_eq_nil_iff]
        intro y hy hyx
        exact h.1 (List.mem_map.mpr ⟨y, hy, of_decide_eq_true hyx⟩)
      rw [List.filter_cons_of_pos (by simp), hrest]
    · have hne : f z ≠ f x := fun hzx => h.1 (List.mem_map.mpr ⟨x, hx, hzx.symm⟩)
      rw [List.filter_cons_of_neg (by simpa using hne), ih h.2 hx]

/-- What is kept of lists that are kept or dropped as a whole. -/
theorem filter_flatMap_of_forall {α β : Type} {f : α → List β} {p : β → Bool} {q : α → Bool}
    (h : ∀ x, ∀ y ∈ f x, p y = q x) (xs : List α) :
    (xs.flatMap f).filter p = (xs.filter q).flatMap f := by
  induction xs with
  | nil => rfl
  | cons x xs ih =>
    rw [List.flatMap_cons, List.filter_append, ih, List.filter_cons]
    cases hq : q x with
    | true =>
      have hkept : (f x).filter p = f x := List.filter_eq_self.2 fun y hy => (h x y hy).trans hq
      rw [hkept, if_pos rfl, List.flatMap_cons]
    | false =>
      have hdropped : (f x).filter p = [] := by
        rw [List.filter_eq_nil_iff]
        intro y hy
        rw [h x y hy, hq]
        exact Bool.false_ne_true
      rw [hdropped, if_neg Bool.false_ne_true, List.nil_append]

/-! ### What items introduce -/

/-- The constants that an item introduces, and where they stand. -/
def Item.space? : Item → Option (String × List (String × Nat))
  | .constants name values => some (name, values)
  | .enumeration name values => some (name, values)
  | _ => none

/-- The class with data that an item introduces. -/
def Item.dataClass? : Item → Option DataClass
  | .dataClass k => some k
  | _ => none

namespace Context

/-- The constants of a definition. -/
def spaceOf (c : Context) : Model.Definition → Option (String × List (String × Nat))
  | .simpleSum t =>
    some (c.enumeration t.name,
      if c.options.isFlat t.name then t.variants ++ [(arraySizeName, t.variants.length + 1)]
      else t.variants)
  | .compoundSum t => some (enumName t.name, t.variants.map fun v => (v.name, v.tag))
  | .product _ => none

theorem filterMap_space?_immediateItems (c : Context) (d : Model.Definition) :
    (c.immediateItems d).filterMap Item.space? = (c.spaceOf d).toList := by
  cases d with
  | simpleSum t =>
    rw [immediateItems, simpleItems, spaceOf]
    cases c.options.isFlat t.name <;> rfl
  | compoundSum t => rfl
  | product p => rfl

theorem filterMap_space?_sumItems (c : Context) (t : Model.CompoundSum) :
    (c.sumItems t).filterMap Item.space? = [] := by
  simp [sumItems, List.filterMap_flatMap, List.filterMap_cons, Item.space?]

/-- The constants of all declarations are those of the definitions, in order. -/
theorem filterMap_space? (c : Context) :
    c.declarationItems.filterMap Item.space? = c.model.definitions.filterMap c.spaceOf := by
  have hsums : (c.model.compoundSums.flatMap c.sumItems).filterMap Item.space? = [] := by
    simp [List.filterMap_flatMap, filterMap_space?_sumItems]
  have hproducts : (c.model.products.flatMap c.productItems).filterMap Item.space? = [] := by
    simp [List.filterMap_flatMap, productItems, List.filterMap_cons, Item.space?]
  rw [declarationItems, List.filterMap_append, List.filterMap_append, hsums, hproducts,
    List.append_nil, List.append_nil, List.filterMap_flatMap, List.filterMap_eq_flatMap_toList]
  simp only [filterMap_space?_immediateItems]

theorem filterMap_dataClass?_sumItems (c : Context) (t : Model.CompoundSum) :
    (c.sumItems t).filterMap Item.dataClass? = t.constructors.map (c.constructorClass t) := by
  simp [sumItems, List.filterMap_flatMap, List.filterMap_cons, Item.dataClass?,
    List.map_eq_flatMap]

theorem filterMap_dataClass?_immediateItems (c : Context) (d : Model.Definition) :
    (c.immediateItems d).filterMap Item.dataClass? = [] := by
  cases d with
  | simpleSum t =>
    rw [immediateItems, simpleItems]
    cases c.options.isFlat t.name <;> rfl
  | compoundSum t => rfl
  | product p => rfl

/-- The classes with data are those of the constructors, then the products. -/
theorem filterMap_dataClass? (c : Context) :
    c.declarationItems.filterMap Item.dataClass? =
      (c.model.compoundSums.flatMap fun t => t.constructors.map (c.constructorClass t))
        ++ c.model.products.map c.productClass := by
  have himmediate :
      (c.model.definitions.flatMap c.immediateItems).filterMap Item.dataClass? = [] := by
    simp [List.filterMap_flatMap, filterMap_dataClass?_immediateItems]
  have hproducts : (c.model.products.flatMap c.productItems).filterMap Item.dataClass? =
      c.model.products.map c.productClass := by
    simp [List.filterMap_flatMap, productItems, List.filterMap_cons, Item.dataClass?,
      List.map_eq_flatMap]
  rw [declarationItems, List.filterMap_append, List.filterMap_append, himmediate, hproducts,
    List.nil_append, List.filterMap_flatMap]
  simp only [filterMap_dataClass?_sumItems]

/-! ### No name twice -/

variable {s : Schema} {c : Context}

theorem enumName_mem_generatedNames (h : Model.Resolves s c.model) {t : Model.CompoundSum}
    (ht : t ∈ c.model.compoundSums) : enumName t.name ∈ s.generatedNames := by
  obtain ⟨u, hu, hres⟩ := h.exists_sum ht
  rw [Schema.generatedNames_eq, (Model.Scope.resolveCompound_eq_ok.mp hres).2.2.2]
  exact List.mem_flatMap.mpr ⟨u, hu, by simp [Sum.generatedNames]⟩

/-- A simple sum and a compound sum never use one name for their constants. -/
theorem enumeration_ne_enumName (h : Model.Resolves s c.model) {t : Model.SimpleSum}
    (ht : .simpleSum t ∈ c.model.definitions) {u : Model.CompoundSum}
    (hu : .compoundSum u ∈ c.model.definitions) (hne : t.name ≠ u.name) :
    c.enumeration t.name ≠ enumName u.name := by
  have hu : u ∈ c.model.compoundSums := List.mem_filterMap.mpr ⟨_, hu, rfl⟩
  rw [enumeration]
  split
  · split
    · exact (enumName_ne_intsName _ _).symm
    · exact fun heq => hne (enumName_inj.mp heq)
  · -- without an ending the name is that of a definition
    intro heq
    have hmem : t.name ∈ s.generatedNames := by
      rw [heq]
      exact enumName_mem_generatedNames h hu
    exact h.name_not_mem_generatedNames ht hmem

/-- Two simple sums never use one name for their constants. -/
theorem enumeration_inj {a b : String} (h : c.enumeration a = c.enumeration b) : a = b := by
  rw [enumeration, enumeration] at h
  split at h
  · split at h <;> split at h
    · exact intsName_inj.mp h
    · exact absurd h.symm (enumName_ne_intsName _ _)
    · exact absurd h (enumName_ne_intsName _ _)
    · exact enumName_inj.mp h
  · exact h

/-- **The constants of different definitions stand under different names.** -/
theorem nodup_spaces (h : Model.Resolves s c.model) :
    ((c.declarationItems.filterMap Item.space?).map Prod.fst).Nodup := by
  have hnd := h.nodup_names
  rw [filterMap_space?]
  rw [List.Nodup, List.pairwise_map] at hnd ⊢
  rw [List.pairwise_filterMap]
  -- spaces of different definitions have different names, whatever their kinds
  refine hnd.imp_of_mem fun {d e} hd he hne x hx y hy => ?_
  cases d with
  | simpleSum t =>
    cases e with
    | simpleSum u => cases hx; cases hy; exact fun heq => hne (enumeration_inj heq)
    | compoundSum u => cases hx; cases hy; exact enumeration_ne_enumName h hd he hne
    | product p => cases hy
  | compoundSum t =>
    cases e with
    | simpleSum u => cases hx; cases hy; exact (enumeration_ne_enumName h he hd hne.symm).symm
    | compoundSum u => cases hx; cases hy; exact fun heq => hne (enumName_inj.mp heq)
    | product p => cases hy
  | product p => cases hx

/-- **No class is declared twice.** -/
theorem nodup_dataClasses (h : Model.Resolves s c.model) :
    ((c.declarationItems.filterMap Item.dataClass?).map DataClass.name).Nodup := by
  have hnd := h.nodup_classNames
  rw [filterMap_dataClass?, List.map_append, List.map_flatMap, List.map_map]
  simp only [List.map_map]
  exact hnd

end Context

end Header

end Asdl
