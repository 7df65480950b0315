/-
A header declares everything before it is used.

Definitions may refer to each other in any order and in circles.  A header can be
read from top to bottom all the same:

* `Header.FromHost`, `Header.Own` — what the host of a header has, and what a header
  must declare itself;
* `Header.Supplied` — items in an order in which every need is met;
* `Header.DeclaredBeforeUse`, `Header.generate_declaredBeforeUse` — every header is
  in such an order, given what its host has.

Design notes: `Supplied` walks through the items with what is known so far, and is
proved section by section.  Announcements need nothing; what is declared at once
needs only itself; after that all classes can be pointed to and all constants are
there, so classes need nothing but their bases, and bodies find everything.
-/
import Asdl.Proofs.Acceptance
import Asdl.Proofs.Needs
import Asdl.Proofs.References

namespace Asdl

namespace Header

open Model (TypeRef FieldType SimpleSum CompoundSum)

/-! ### Headers and their hosts -/

/-- What the host of a header has: the runtime and the imported types. -/
inductive FromHost (m : Model) : Need → Prop where
  | str : FromHost m (.announced "Str")
  | void : FromHost m (.announced "void")
  | int : FromHost m (.type "int")
  | double : FromHost m (.type "double")
  | bool : FromHost m (.type "bool")
  | external {n : String} (h : n ∈ m.externals) : FromHost m (.type (n ++ "_t"))
  | root : FromHost m (.complete "Obj")

/-- What a header must declare itself, whatever its host has under the same name. -/
inductive Own (m : Model) (o : Options) : Need → Prop where
  | sum {t : CompoundSum} (h : t ∈ m.compoundSums) : Own m o (.announced (t.name ++ "_t"))
  | base {t : CompoundSum} (h : t ∈ m.compoundSums) : Own m o (.complete (t.name ++ "_t"))
  | product {p : Model.Product} (h : p ∈ m.products) : Own m o (.announced p.name)
  | typedef {t : SimpleSum} (h : t ∈ m.simpleSums) : Own m o (.type (t.name ++ "_t"))
  | enumeration {t : SimpleSum} (h : t ∈ m.simpleSums) (hflat : o.isFlat t.name = false) :
      Own m o (.type (if o.enumSuffix then t.name ++ "_e" else t.name))

/-- The items of a header are in an order in which they can be read. -/
structure DeclaredBeforeUse (m : Model) (o : Options) (items : List Item) : Prop where
  /-- What an item uses stands in its lines.  The lines of an earlier item declare it, or
  the host has it and the header does not. -/
  earlier : ∀ before i after, items = before ++ i :: after → ∀ u ∈ i.needs,
    Mentions u i.spelling ∧
      ((∃ j ∈ before, Declares u j.spelling) ∨ (FromHost m u ∧ ¬ Own m o u))
  /-- After the lines of a body nothing is declared but hand-written functions. -/
  bodies_last : ∀ before i after, items = before ++ i :: after → IsBody i.spelling →
    ∀ j ∈ after, ∀ u, Declares u j.spelling → ∃ f, u = .hook f

/-! ### Items in order -/

/-- What is known after some items. -/
def After (known : Need → Prop) (items : List Item) (u : Need) : Prop :=
  known u ∨ ∃ i ∈ items, u ∈ i.provides

/-- Every need is met by what is known or was provided on the way. -/
def Supplied (known : Need → Prop) : List Item → Prop
  | [] => True
  | i :: rest => (∀ u ∈ i.needs, known u) ∧ Supplied (fun u => known u ∨ u ∈ i.provides) rest

variable {known known' : Need → Prop}

theorem After.append {xs ys : List Item} {u : Need} (h : After (After known xs) ys u) :
    After known (xs ++ ys) u := by
  rcases h with (h | ⟨i, hi, hu⟩) | ⟨i, hi, hu⟩
  · exact .inl h
  · exact .inr ⟨i, List.mem_append_left _ hi, hu⟩
  · exact .inr ⟨i, List.mem_append_right _ hi, hu⟩

theorem Supplied.mono {items : List Item} (h : Supplied known items)
    (hle : ∀ u, known u → known' u) : Supplied known' items := by
  induction items generalizing known known' with
  | nil => trivial
  | cons i rest ih =>
    refine ⟨fun u hu => hle u (h.1 u hu), ih h.2 fun u hu => ?_⟩
    exact hu.imp (hle u) id

theorem supplied_append {xs ys : List Item} :
    Supplied known (xs ++ ys) ↔ Supplied known xs ∧ Supplied (After known xs) ys := by
  induction xs generalizing known with
  | nil =>
    have hafter : After known [] = known := by
      funext u
      simp [After]
    rw [List.nil_append, Supplied, hafter, true_and]
  | cons i rest ih =>
    have hafter : After (fun u => known u ∨ u ∈ i.provides) rest = After known (i :: rest) := by
      funext u
      simp only [After, List.mem_cons, exists_eq_or_imp, or_assoc]
    rw [List.cons_append, Supplied, Supplied, ih, and_assoc, hafter]

/-- Items that only need what is known can stand anywhere. -/
theorem supplied_of_forall {items : List Item} (h : ∀ i ∈ items, ∀ u ∈ i.needs, known u) :
    Supplied known items := by
  induction items generalizing known with
  | nil => trivial
  | cons i rest ih =>
    refine ⟨h i List.mem_cons_self, ih fun j hj u hu => ?_⟩
    exact .inl (h j (List.mem_cons_of_mem _ hj) u hu)

theorem supplied_pair {i : Item} (h : ∀ u ∈ i.needs, known u) : Supplied known [i, .blank] := by
  refine supplied_of_forall fun j hj => ?_
  rcases List.mem_pair.mp hj with rfl | rfl
  · exact h
  · exact fun u hu => absurd hu List.not_mem_nil

/-- Groups of items that are in order by themselves can follow each other. -/
theorem supplied_flatMap {α : Type} {xs : List α} {f : α → List Item}
    (h : ∀ x ∈ xs, Supplied known (f x)) : Supplied known (xs.flatMap f) := by
  induction xs generalizing known with
  | nil => trivial
  | cons x rest ih =>
    rw [List.flatMap_cons, supplied_append]
    refine ⟨h x List.mem_cons_self, ih fun y hy => ?_⟩
    exact (h y (List.mem_cons_of_mem _ hy)).mono fun u hu => .inl hu

theorem Supplied.earlier {items before after : List Item} {i : Item} (h : Supplied known items)
    (heq : items = before ++ i :: after) {u : Need} (hu : u ∈ i.needs) :
    (∃ j ∈ before, u ∈ j.provides) ∨ known u := by
  rw [heq, supplied_append] at h
  exact (h.2.1 u hu).symm

/-! ### After the announcements and what is declared at once -/

/-- The last character but one of a name with an ending. -/
theorem underscore_of_ending {n w : String} {x : Char} (h : n ++ String.ofList ['_', x] = w) :
    w.toList.reverse[1]? = some '_' := by
  rw [← h]
  simp

namespace Context

variable {s : Schema} {c : Context}

/-- The host has it and the header does not declare it itself. -/
def Hosted (c : Context) (u : Need) : Prop := FromHost c.model u ∧ ¬ Own c.model c.options u

/-- What is there before the first class. -/
def Early (c : Context) : Need → Prop :=
  After c.Hosted (forwardItemsOf c.model ++ c.model.definitions.flatMap c.immediateItems)

theorem early_of_forward {d : Model.Definition} (hd : d ∈ c.model.definitions) {i : Item}
    (hi : i ∈ forwardItems d) {u : Need} (hu : u ∈ i.provides) : c.Early u := by
  have hmem : i ∈ forwardItemsOf c.model :=
    List.mem_append_left _ (List.mem_flatMap.mpr ⟨d, hd, hi⟩)
  exact .inr ⟨i, List.mem_append_left _ hmem, hu⟩

theorem early_of_immediate {d : Model.Definition} (hd : d ∈ c.model.definitions) {i : Item}
    (hi : i ∈ c.immediateItems d) {u : Need} (hu : u ∈ i.provides) : c.Early u :=
  .inr ⟨i, List.mem_append_right _ (List.mem_flatMap.mpr ⟨d, hd, hi⟩), hu⟩

theorem early_sum {t : CompoundSum} (ht : t ∈ c.model.compoundSums) :
    c.Early (.announced (typeName t.name)) :=
  early_of_forward (Model.Resolves.mem_definitions_of_compoundSum ht) List.mem_cons_self
    List.mem_cons_self

theorem early_product {p : Model.Product} (hp : p ∈ c.model.products) :
    c.Early (.announced p.name) :=
  early_of_forward (Model.Resolves.mem_definitions_of_product hp) List.mem_cons_self
    List.mem_cons_self

theorem early_typedef {t : SimpleSum} (ht : t ∈ c.model.simpleSums) :
    c.Early (.type (typeName t.name)) := by
  have hitem : .typedef (c.tagType t.name) (typeName t.name) ∈ c.immediateItems (.simpleSum t) :=
    List.mem_cons_of_mem _ List.mem_cons_self
  exact early_of_immediate (Model.Resolves.mem_definitions_of_simpleSum ht) hitem List.mem_cons_self

theorem enumeration_mem_immediateItems {t : SimpleSum} (hflat : c.options.isFlat t.name = false) :
    .enumeration (c.enumeration t.name) t.variants ∈ c.immediateItems (.simpleSum t) := by
  rw [immediateItems, simpleItems, if_neg (by simp [hflat])]
  exact List.mem_cons_self

theorem early_enumeration {t : SimpleSum} (ht : t ∈ c.model.simpleSums)
    (hflat : c.options.isFlat t.name = false) : c.Early (.type (c.enumeration t.name)) :=
  early_of_immediate (Model.Resolves.mem_definitions_of_simpleSum ht)
    (enumeration_mem_immediateItems hflat) List.mem_cons_self

theorem early_simple_constant {t : SimpleSum} (ht : t ∈ c.model.simpleSums) {v : String × Nat}
    (hv : v ∈ t.variants) : c.Early (.constant (c.enumeration t.name) v.1) := by
  have hdefinition := Model.Resolves.mem_definitions_of_simpleSum ht
  cases hflat : c.options.isFlat t.name with
  | true =>
    have hitem : .constants (c.enumeration t.name)
        (t.variants ++ [(arraySizeName, t.variants.length + 1)]) ∈
          c.immediateItems (.simpleSum t) := by
      rw [immediateItems, simpleItems, if_pos hflat]
      exact List.mem_cons_self
    exact early_of_immediate hdefinition hitem
      (List.mem_map.mpr ⟨v, List.mem_append_left _ hv, rfl⟩)
  | false =>
    exact early_of_immediate hdefinition (enumeration_mem_immediateItems hflat)
      (List.mem_cons_of_mem _ (List.mem_map.mpr ⟨v, hv, rfl⟩))

theorem early_compound_constant {t : CompoundSum} (ht : t ∈ c.model.compoundSums)
    {v : Model.Variant} (hv : v ∈ t.variants) :
    c.Early (.constant (enumName t.name) v.name) := by
  have hvalue : (v.name, v.tag) ∈ t.variants.map fun v => (v.name, v.tag) :=
    List.mem_map.mpr ⟨v, hv, rfl⟩
  exact early_of_immediate (Model.Resolves.mem_definitions_of_compoundSum ht) List.mem_cons_self
    (List.mem_map.mpr ⟨_, hvalue, rfl⟩)

theorem early_function {t : SimpleSum} (ht : t ∈ c.model.simpleSums) :
    c.Early (.function (strName t.name)) := by
  have hitem : .strDeclaration t.name (c.tagType t.name) ∈ c.immediateItems (.simpleSum t) :=
    List.mem_cons_of_mem _ (List.mem_cons_of_mem _ (List.mem_cons_of_mem _ List.mem_cons_self))
  exact early_of_immediate (Model.Resolves.mem_definitions_of_simpleSum ht) hitem List.mem_cons_self

/-- What the header declares itself is there before the first class, so the host is
not asked for it. -/
theorem early_of_fromHost {u : Need} (h : FromHost c.model u) : c.Early u := by
  by_cases hown : Own c.model c.options u
  · cases hown with
    | sum ht => exact early_sum ht
    | base ht =>
      -- the one class that the host has is not the base of a sum
      generalize hu : Need.complete _ = u at h
      cases h with
      | root => exact absurd (underscore_of_ending (Need.complete.inj hu)) (by decide)
      | _ => cases hu
    | product hp => exact early_product hp
    | typedef ht => exact early_typedef ht
    | @enumeration t ht hflat =>
      have hname : c.enumeration t.name =
          if c.options.enumSuffix then t.name ++ "_e" else t.name := by
        rw [enumeration, hflat]
        rfl
      rw [← hname]
      exact early_enumeration ht hflat
  · exact .inl ⟨h, hown⟩

/-! ### Types and members -/

theorem early_element {t : TypeRef} (ht : t.In c.model) :
    ∀ u ∈ (c.element t).needs, c.Early u := by
  intro u hu
  -- a type is written with one name, from the host or from an earlier declaration
  cases t with
  | primitive p =>
    cases p with
    | string => rw [List.mem_singleton.mp hu]; exact early_of_fromHost .str
    | int => rw [List.mem_singleton.mp hu]; exact early_of_fromHost .int
    | float => rw [List.mem_singleton.mp hu]; exact early_of_fromHost .double
    | bool => rw [List.mem_singleton.mp hu]; exact early_of_fromHost .bool
    | any => rw [List.mem_singleton.mp hu]; exact early_of_fromHost .void
  | external n => rw [List.mem_singleton.mp hu]; exact early_of_fromHost (.external ht)
  | simpleSum n =>
    obtain ⟨t, ht, rfl⟩ := ht
    rw [List.mem_singleton.mp hu]
    cases hflat : c.options.isFlat t.name with
    | true => exact early_typedef ht
    | false => exact early_enumeration ht hflat
  | compoundSum n =>
    obtain ⟨t, ht, rfl⟩ := ht
    rw [List.mem_singleton.mp hu]
    exact early_sum ht
  | product n =>
    obtain ⟨p, hp, rfl⟩ := ht
    rw [List.mem_singleton.mp hu]
    exact early_product hp

theorem early_member {t : FieldType} (ht : t.In c.model) :
    ∀ u ∈ (c.member t).needs, c.Early u := by
  intro u hu
  cases t with
  | scalar t => exact early_element ht u hu
  | optional t =>
    rw [member] at hu
    split at hu
    · exact early_element ht u hu
    · exact early_element ht u hu
  | repeated t => exact early_element ht u hu
  | map k v =>
    rcases List.mem_append.mp hu with hu | hu
    · exact early_element ht.1 u hu
    · exact early_element ht.2 u hu

theorem early_initial (h : Model.Resolves s c.model) {t : FieldType} (ht : t.In c.model) :
    ∀ u ∈ (c.initial t).needs, c.Early u := by
  intro u hu
  cases t with
  | scalar t =>
    cases t with
    | primitive p => cases p <;> cases hu
    | external n => cases hu
    | simpleSum n =>
      rw [initial, initialScalar] at hu
      split at hu
      · next variant hfirst =>
        -- the first variant of the simple sum that the name leads to
        obtain ⟨t, hsum, hhead⟩ := Option.bind_eq_some_iff.mp hfirst
        obtain ⟨hmem, rfl⟩ := h.simpleSum?_eq_some.mp hsum
        obtain ⟨v, hv, rfl⟩ := Option.map_eq_some_iff.mp hhead
        rw [List.mem_singleton.mp hu]
        exact early_simple_constant hmem (List.mem_of_mem_head? hv)
      · cases hu
    | compoundSum n => cases hu
    | product n => cases hu
  | optional t =>
    rw [initial] at hu
    split at hu
    · exact early_element ht u hu
    · cases hu
  | repeated t => exact early_element ht u hu
  | map k v => cases hu

theorem early_node {t : TypeRef} (ht : t.In c.model) :
    ∀ u ∈ (nodeOf t).needs, c.Early u := by
  intro u hu
  cases t with
  | primitive p => cases p <;> cases hu
  | simpleSum n =>
    obtain ⟨t, ht, rfl⟩ := ht
    rw [List.mem_singleton.mp hu]
    exact early_function ht
  | external n => cases hu
  | compoundSum n => cases hu
  | product n => cases hu

theorem early_shape {t : FieldType} (ht : t.In c.model) :
    ∀ u ∈ (c.shape t).needs, c.Early u := by
  intro u hu
  cases t with
  | scalar t =>
    rw [shape] at hu
    split at hu
    · exact early_node ht u hu
    · exact early_node ht u hu
  | optional t =>
    rw [shape] at hu
    split at hu
    · exact early_node ht u hu
    · exact early_node ht u hu
  | repeated t =>
    rcases List.mem_append.mp hu with hu | hu
    · exact early_element ht u hu
    · exact early_node ht u hu
  | map k v => cases hu

theorem early_tagType {t : SimpleSum} (ht : t ∈ c.model.simpleSums) :
    c.Early (.type (c.tagType t.name)) := by
  rw [tagType]
  cases hflat : c.options.isFlat t.name with
  | true => exact early_of_fromHost .int
  | false => exact early_enumeration ht hflat

end Context

/-! ### Classes -/

/-- What a builder sets a member to is the tag, the initial value of a member or a
parameter; its parameters are members too. -/
theorem DataClass.builder_cases {k : DataClass} {b : Builder} (hb : b ∈ k.builders) :
    (∀ x ∈ b.parameters, x ∈ k.members) ∧
      ∀ y ∈ b.sources, y.2 = .tag k.tag ∨ (∃ x ∈ k.members, y.2 = .initial x.initial) ∨
        ∃ n, y.2 = .parameter n := by
  rcases mem_builders hb with rfl | rfl
  · -- from nothing: the tag, then initial values only
    refine ⟨fun x hx => absurd hx List.not_mem_nil, fun y hy => ?_⟩
    rcases List.mem_cons.mp hy with rfl | hy
    · exact .inl rfl
    · obtain ⟨x, hx, rfl⟩ := List.mem_map.mp hy
      exact .inr (.inl ⟨x, hx, rfl⟩)
  · -- from the fields: the tag, a parameter for each field, initial values of the attributes
    refine ⟨fun x hx => List.mem_append_left _ hx, fun y hy => ?_⟩
    rcases List.mem_cons.mp hy with rfl | hy
    · exact .inl rfl
    · rcases List.mem_append.mp hy with hy | hy
      · obtain ⟨x, -, rfl⟩ := List.mem_map.mp hy
        exact .inr (.inr ⟨x.name, rfl⟩)
      · obtain ⟨x, hx, rfl⟩ := List.mem_map.mp hy
        exact .inr (.inl ⟨x, List.mem_append_right _ hx, rfl⟩)

theorem DataClass.forall_needs {k : DataClass} (hbases : ∀ b ∈ k.bases, known (.complete b))
    (htag : ∀ u ∈ (Source.tag k.tag).needs, known u)
    (hmembers : ∀ x ∈ k.members,
      (∀ u ∈ x.type.needs, known u) ∧ ∀ u ∈ x.initial.needs, known u) :
    ∀ u ∈ k.needs, known u := by
  intro u hu
  rcases List.mem_append.mp hu with hu | hu
  · rcases List.mem_append.mp hu with hu | hu
    · obtain ⟨b, hb, rfl⟩ := List.mem_map.mp hu
      exact hbases b hb
    · obtain ⟨b, hb, hu⟩ := List.mem_flatMap.mp hu
      obtain ⟨hparameters, hsources⟩ := builder_cases hb
      rcases List.mem_append.mp hu with hu | hu
      · obtain ⟨x, hx, hu⟩ := List.mem_flatMap.mp hu
        exact (hmembers x (hparameters x hx)).1 u hu
      · obtain ⟨y, hy, hu⟩ := List.mem_flatMap.mp hu
        -- a member is built from the tag, from its initial value or from a parameter
        rcases hsources y hy with heq | ⟨x, hx, heq⟩ | ⟨n, heq⟩
        · rw [heq] at hu
          exact htag u hu
        · rw [heq] at hu
          exact (hmembers x hx).2 u hu
        · rw [heq] at hu
          cases hu
  · obtain ⟨x, hx, hu⟩ := List.mem_flatMap.mp hu
    exact (hmembers x hx).1 u hu

namespace Context

variable {s : Schema} {c : Context}

/-- A class whose members come from fields needs its bases and its tag. -/
theorem forall_needs_class (h : Model.Resolves s c.model) {k : DataClass}
    {fs : List Model.Field} (hfs : ∀ f ∈ fs, f.type.In c.model)
    (hmembers : k.members = fs.map c.memberOf) (hearly : ∀ u, c.Early u → known u)
    (hbases : ∀ b ∈ k.bases, known (.complete b))
    (htag : ∀ u ∈ (Source.tag k.tag).needs, known u) : ∀ u ∈ k.needs, known u := by
  refine k.forall_needs hbases htag fun x hx => ?_
  rw [hmembers] at hx
  obtain ⟨f, hf, rfl⟩ := List.mem_map.mp hx
  exact ⟨fun u hu => hearly u (early_member (hfs f hf) u hu),
    fun u hu => hearly u (early_initial h (hfs f hf) u hu)⟩

/-- The classes of a compound sum only need what is there before the first class. -/
theorem supplied_sumItems (h : Model.Resolves s c.model) {t : CompoundSum}
    (ht : t ∈ c.model.compoundSums) : Supplied c.Early (c.sumItems t) := by
  rw [sumItems, supplied_append, supplied_append]
  refine ⟨⟨supplied_pair fun u hu => absurd hu List.not_mem_nil,
    supplied_flatMap fun k hk => supplied_pair ?_⟩, supplied_pair ?_⟩
  · refine forall_needs_class h (h.in_of_constructor ht hk) List.map_append.symm
      (fun u => .inl) ?_ ?_
    · -- the only base is the class that opens the group
      intro b hb
      rw [List.mem_singleton.mp hb]
      exact .inr ⟨_, List.mem_cons_self, List.mem_cons_self⟩
    · intro u hu
      rw [List.mem_singleton.mp hu]
      exact .inl (early_compound_constant ht (CompoundSum.mem_constructors.mp hk))
  · -- the short names stand for classes that were just written
    intro u hu
    obtain ⟨n, hn, rfl⟩ := List.mem_map.mp hu
    obtain ⟨k, hk, rfl⟩ := List.mem_map.mp hn
    refine .inr ⟨.dataClass (c.constructorClass t k), List.mem_append_right _ ?_,
      List.mem_singleton.mpr rfl⟩
    exact List.mem_flatMap.mpr ⟨k, hk, List.mem_cons_self⟩

/-- What is there before the first product. -/
def Based (c : Context) : Need → Prop :=
  After c.Early (c.model.compoundSums.flatMap c.sumItems)

theorem based_sum {t : CompoundSum} (ht : t ∈ c.model.compoundSums) :
    c.Based (.complete (typeName t.name)) := by
  refine .inr ⟨.sumClass (typeName t.name) c.options.treeMethods, ?_, List.mem_cons_self⟩
  exact List.mem_flatMap.mpr ⟨t, ht, List.mem_cons_self⟩

theorem based_constructor {t : CompoundSum} (ht : t ∈ c.model.compoundSums)
    {k : Model.Constructor} (hk : k ∈ t.constructors) :
    c.Based (.complete (memberName t.name k.name)) := by
  refine .inr ⟨.dataClass (c.constructorClass t k), List.mem_flatMap.mpr ⟨t, ht, ?_⟩,
    List.mem_singleton.mpr rfl⟩
  refine List.mem_append_left _ (List.mem_append_right _ ?_)
  exact List.mem_flatMap.mpr ⟨k, hk, List.mem_cons_self⟩

/-- The class of a product needs the classes of the sums too, for its bases. -/
theorem supplied_productItems (h : Model.Resolves s c.model) {p : Model.Product}
    (hp : p ∈ c.model.products) : Supplied c.Based (c.productItems p) := by
  refine supplied_pair (forall_needs_class h (h.in_of_product hp) List.map_append.symm
    (fun u => .inl) ?_ fun u hu => absurd hu List.not_mem_nil)
  intro b hb
  change b ∈ basesOf p at hb
  rw [basesOf] at hb
  split at hb
  · rw [List.mem_singleton.mp hb]
    exact .inl (early_of_fromHost .root)
  · obtain ⟨n, hn, rfl⟩ := List.mem_map.mp hb
    obtain ⟨t, ht, rfl⟩ := h.exists_base hp hn
    exact based_sum ht

/-! ### Bodies -/

/-- What is there before the first body. -/
def Late (c : Context) : Need → Prop := After c.Based (c.model.products.flatMap c.productItems)

theorem late_of_early {u : Need} (h : c.Early u) : c.Late u := .inl (.inl h)

theorem late_product {p : Model.Product} (hp : p ∈ c.model.products) :
    c.Late (.complete p.name) :=
  .inr ⟨.dataClass (c.productClass p), List.mem_flatMap.mpr ⟨p, hp, List.mem_cons_self⟩,
    List.mem_singleton.mpr rfl⟩

theorem late_classOf (h : Model.Resolves s c.model) {t : CompoundSum}
    (ht : t ∈ c.model.compoundSums) {v : Model.Variant} (hv : v ∈ t.variants) :
    c.Late (.complete (classOf t.name v)) := by
  cases v with
  | constructor k =>
    exact .inl (based_constructor ht (CompoundSum.mem_constructors.mpr hv))
  | shared v =>
    obtain ⟨p, hp, hname, -⟩ := h.exists_shared_product ht hv
    show c.Late (.complete v.product)
    rw [← hname]
    exact late_product hp

theorem late_recordMethod {cls : String} (hcls : c.Late (.complete cls)) {method : TreeMethod}
    {body : RecordBody} {fs : List Model.Field} (hfs : ∀ f ∈ fs, f.type.In c.model)
    (hentries : body.entries = fs.map c.entry) :
    ∀ u ∈ (Item.recordMethod cls method body).needs, c.Late u := by
  intro u hu
  rcases List.mem_cons.mp hu with rfl | hu
  · exact hcls
  · rw [hentries] at hu
    obtain ⟨e, he, hu⟩ := List.mem_flatMap.mp hu
    obtain ⟨f, hf, rfl⟩ := List.mem_map.mp he
    exact late_of_early (early_shape (hfs f hf) u hu)

/-- A hand-written function is announced right before the method that asks it. -/
theorem supplied_treeItems {cls : String} (hcls : c.Late (.complete cls))
    {fs as : List Model.Field} (hfs : ∀ f ∈ fs ++ as, f.type.In c.model) :
    Supplied c.Late (c.treeItems cls fs as) := by
  have hshort : ∀ f ∈ fs, f.type.In c.model := fun f hf => hfs f (List.mem_append_left _ hf)
  -- both record methods need the class and the types of its members, nothing of each other
  have hrecords : Supplied c.Late
      ([.recordMethod cls .full (c.fullBody cls fs as), .blank]
        ++ [.recordMethod cls .shortOwn (c.shortBody cls fs), .blank]) :=
    supplied_append.mpr ⟨supplied_pair (late_recordMethod hcls hfs rfl),
      (supplied_pair (late_recordMethod hcls hshort rfl)).mono fun u => .inl⟩
  rw [treeItems, supplied_append, supplied_append]
  refine ⟨⟨hrecords, ?_⟩, supplied_pair fun u hu => ?_⟩
  · split
    · refine supplied_pair fun u hu => ?_
      rw [List.mem_singleton.mp hu]
      exact .inl hcls
    · trivial
  · rcases List.mem_cons.mp hu with rfl | hu
    · exact .inl hcls
    · split at hu
      · -- the hook is declared right before the method that calls it
        next hhook =>
        rw [List.mem_singleton.mp hu, if_pos hhook]
        refine .inr ⟨.hookDeclaration cls, ?_, List.mem_cons_self⟩
        exact List.mem_append_right _ List.mem_cons_self
      · cases hu

theorem supplied_functionItems {d : Model.Definition} (hd : d ∈ c.model.definitions) :
    Supplied c.Late (c.functionItems d) := by
  cases d with
  | simpleSum t =>
    have ht : t ∈ c.model.simpleSums := List.mem_filterMap.mpr ⟨_, hd, rfl⟩
    refine supplied_pair fun u hu => late_of_early ?_
    rcases List.mem_cons.mp hu with rfl | hu
    · exact early_tagType ht
    · obtain ⟨n, hn, rfl⟩ := List.mem_map.mp hu
      obtain ⟨v, hv, rfl⟩ := List.mem_map.mp hn
      exact early_simple_constant ht hv
  | compoundSum t =>
    have ht : t ∈ c.model.compoundSums := List.mem_filterMap.mpr ⟨_, hd, rfl⟩
    refine supplied_pair fun u hu => late_of_early ?_
    rcases List.mem_cons.mp hu with rfl | hu
    · exact early_of_fromHost .int
    · obtain ⟨n, hn, rfl⟩ := List.mem_map.mp hu
      obtain ⟨v, hv, rfl⟩ := List.mem_map.mp hn
      exact early_compound_constant ht hv
  | product p => trivial

theorem supplied_dispatchItems (h : Model.Resolves s c.model) {t : CompoundSum}
    (ht : t ∈ c.model.compoundSums) : Supplied c.Late (dispatchItems t) := by
  refine supplied_flatMap fun m _ => supplied_pair fun u hu => ?_
  rcases List.mem_cons.mp hu with rfl | hu
  · exact .inl (based_sum ht)
  · obtain ⟨x, hx, hu⟩ := List.mem_flatMap.mp hu
    obtain ⟨v, hv, rfl⟩ := List.mem_map.mp hx
    rcases List.mem_pair.mp hu with rfl | rfl
    · exact late_of_early (early_compound_constant ht hv)
    · exact late_classOf h ht hv

theorem supplied_methodItems (h : Model.Resolves s c.model) {d : Model.Definition}
    (hd : d ∈ c.model.definitions) : Supplied c.Late (c.methodItems d) := by
  cases d with
  | simpleSum t => trivial
  | compoundSum t =>
    have ht : t ∈ c.model.compoundSums := List.mem_filterMap.mpr ⟨_, hd, rfl⟩
    rw [methodItems, supplied_append]
    refine ⟨supplied_flatMap fun k hk => ?_, (supplied_dispatchItems h ht).mono fun u => .inl⟩
    exact supplied_treeItems (.inl (based_constructor ht hk)) (h.in_of_constructor ht hk)
  | product p =>
    have hp : p ∈ c.model.products := List.mem_filterMap.mpr ⟨_, hd, rfl⟩
    exact supplied_treeItems (late_product hp) (h.in_of_product hp)

theorem supplied_bodyItems (h : Model.Resolves s c.model) : Supplied c.Late c.bodyItems := by
  refine supplied_flatMap fun d hd => supplied_append.mpr ⟨supplied_functionItems hd, ?_⟩
  split
  · exact (supplied_methodItems h hd).mono fun u => .inl
  · trivial

/-! ### Whole headers -/

/-- The host's integers are not hidden by a definition. -/
theorem hosted_int (h : Model.Resolves s c.model) : c.Hosted (.type "int") := by
  have hname : ∀ d ∈ c.model.definitions, d.name ≠ "int" := by
    intro d hd heq
    have hmem : d.name ∈ s.definitions.map Definition.name := by
      rw [← h.map_name]
      exact List.mem_map_of_mem hd
    obtain ⟨e, he, hed⟩ := List.mem_map.mp hmem
    have hfree := (Schema.checkNames_eq_ok.mp h.checkNames).2 e he
    exact (Schema.isReserved_eq_false.mp hfree).1 .int (hed.trans heq).symm
  -- the other names that a header declares end in an underscore and a letter
  have hending : ∀ (n : String) (x : Char), n ++ String.ofList ['_', x] ≠ "int" :=
    fun n x heq => absurd (underscore_of_ending heq) (by decide)
  refine ⟨.int, fun hown => ?_⟩
  generalize hu : Need.type "int" = u at hown
  cases hown with
  | sum ht => cases hu
  | base ht => cases hu
  | product hp => cases hu
  | typedef ht => exact hending _ 't' (Need.type.inj hu).symm
  | @enumeration t ht hflat =>
    have heq := Need.type.inj hu
    split at heq
    · exact hending _ 'e' heq.symm
    · exact hname _ (Model.Resolves.mem_definitions_of_simpleSum ht) heq.symm

/-- What is declared at once needs nothing but the enumeration that it starts with. -/
theorem supplied_immediateItems (h : Model.Resolves s c.model) (d : Model.Definition) :
    Supplied c.Hosted (c.immediateItems d) := by
  cases d with
  | simpleSum t =>
    refine ⟨?_, supplied_of_forall fun i hi u hu => ?_⟩
    · split <;> exact fun u hu => by cases hu
    · have htag : u = .type (c.tagType t.name) := by
        simp only [List.mem_cons, List.not_mem_nil, or_false] at hi
        rcases hi with rfl | rfl | rfl | rfl
        · exact List.mem_singleton.mp hu
        · cases hu
        · exact List.mem_singleton.mp hu
        · cases hu
      rw [htag, tagType]
      -- a flat sum has no type of its own; any other has just declared it
      cases c.options.isFlat t.name with
      | true => exact .inl (hosted_int h)
      | false => exact .inr List.mem_cons_self
  | compoundSum t =>
    refine supplied_of_forall fun i hi u hu => ?_
    simp only [immediateItems, tagItems, List.mem_cons, List.not_mem_nil, or_false] at hi
    rcases hi with rfl | rfl | rfl | rfl
    · cases hu
    · cases hu
    · rw [List.mem_singleton.mp hu]
      exact hosted_int h
    · cases hu
  | product p => trivial

theorem supplied_forwardItemsOf (m : Model) : Supplied known (forwardItemsOf m) := by
  refine supplied_of_forall fun i hi u hu => ?_
  rcases List.mem_append.mp hi with hi | hi
  · obtain ⟨d, -, hi⟩ := List.mem_flatMap.mp hi
    cases d with
    | simpleSum t => cases hi
    | compoundSum t => rw [List.mem_singleton.mp hi] at hu; cases hu
    | product p => rw [List.mem_singleton.mp hi] at hu; cases hu
  · rw [List.mem_singleton.mp hi] at hu
    cases hu

end Context

/-- **Every need of a header is met on the way.** -/
theorem supplied_headerItems {s : Schema} {m : Model} (h : Model.Resolves s m) (o : Options) :
    Supplied (Context.Hosted ⟨m, o⟩) (headerItems m o) := by
  have hc : Model.Resolves s (Context.mk m o).model := h
  rw [headerItems_eq h, Context.declarationItems, ← List.append_assoc, ← List.append_assoc]
  simp only [supplied_append]
  -- announcements, what is declared at once, sums, products, bodies
  refine ⟨⟨⟨⟨?_, ?_⟩, ?_⟩, ?_⟩, ?_⟩
  · exact Context.supplied_forwardItemsOf m
  · exact (supplied_flatMap fun d _ => Context.supplied_immediateItems hc d).mono fun u => .inl
  · exact supplied_flatMap fun t ht => Context.supplied_sumItems hc ht
  · refine (supplied_flatMap fun p hp => Context.supplied_productItems hc hp).mono ?_
    exact fun u => After.append
  · refine (Context.supplied_bodyItems hc).mono fun u hu => After.append ?_
    exact hu.imp_left After.append

/-- Where no item of the first list is a body, nothing of it comes after a body. -/
theorem mem_right_of_isBody {xs ys before after : List Item} {i : Item}
    (hxs : ∀ x ∈ xs, x.isBody = false) (heq : xs ++ ys = before ++ i :: after)
    (hi : i.isBody = true) : ∀ j ∈ after, j ∈ ys := by
  intro j hj
  -- the cut of `xs ++ ys` at `i` cannot fall inside of `xs`
  rcases List.append_eq_append_iff.mp heq with ⟨zs, -, hys⟩ | ⟨zs, hbefore, hzs⟩
  · rw [hys]
    exact List.mem_append_right _ (List.mem_cons_of_mem _ hj)
  · cases zs with
    | nil =>
      rw [List.nil_append] at hzs
      rw [← hzs]
      exact List.mem_cons_of_mem _ hj
    | cons z zs =>
      obtain ⟨rfl, -⟩ := List.cons.inj hzs
      have hmem : i ∈ xs := by
        rw [hbefore]
        exact List.mem_append_right _ List.mem_cons_self
      rw [hxs i hmem] at hi
      cases hi

theorem declaredBeforeUse {s : Schema} {m : Model} (h : Model.Resolves s m) (o : Options) :
    DeclaredBeforeUse m o (headerItems m o) where
  earlier := by
    intro before i after heq u hu
    refine ⟨Item.mentions_of_needs hu, ?_⟩
    refine ((supplied_headerItems h o).earlier heq hu).imp_left ?_
    rintro ⟨j, hj, hprovides⟩
    exact ⟨j, hj, Item.declares_of_provides hprovides⟩
  bodies_last := by
    intro before i after heq hi j hj u hu
    rw [headerItems_eq h] at heq
    -- what looks like a body is one, and after a body come only parts of bodies
    have hbody := Item.isBody_of_spelling hi
    refine Item.eq_hook_of_declares (Context.bodyPart_of_mem_bodyItems ⟨m, o⟩ j
      (mem_right_of_isBody (fun x hx => ?_) heq hbody j hj)) hu
    rcases List.mem_append.mp hx with hx | hx
    · exact (not_isDeclaration_of_mem_forward x hx).2
    · exact Context.not_isBody_of_mem_declarationItems _ x hx

/-- **A header declares everything before it is used.**  Bases are complete, classes
that are pointed to are announced, enumerations, types and constants are there, short
names follow their classes, and all classes and announcements of functions come
before the first body; only the runtime and imported types are left to the host. -/
theorem generate_declaredBeforeUse {s : Schema} {m : Model} (hm : Model.ofSchema s = .ok m)
    (o : Options) :
    (∃ out, (generate m o).result = .ok out ∧ out.code = spell (headerItems m o)) ∧
      DeclaredBeforeUse m o (headerItems m o) := by
  have h := Model.ofSchema_eq_ok.mp hm
  exact ⟨exists_code_spelled h o, declaredBeforeUse h o⟩

/-- A module in which everything is used before it is defined: the product is based
on the sum after it, which refers back to it, and both hold the enumeration at the
end. -/
def circularModule : Schema where
  name := "m"
  uses := []
  definitions := [
    .product ⟨"Pair", [⟨"left", .named "Tree" .scalar⟩, ⟨"color", .named "Color" .scalar⟩], []⟩,
    .sum ⟨"Tree", [⟨"Leaf", [⟨"up", .named "Pair" .repeated⟩, ⟨"color", .named "Color" .optional⟩],
      none⟩, ⟨"Node", [], some "Pair"⟩], []⟩,
    .sum ⟨"Color", [⟨"Red", [], none⟩, ⟨"Black", [], none⟩], []⟩]

theorem circularModule_declaredBeforeUse :
    ∃ m, Model.ofSchema circularModule = .ok m ∧
      ((headerItems m {}).filterMap Item.dataClass?).map (fun k => (k.name, k.needs.dedup)) =
        [("Tree__Leaf", [.complete "Tree_t", .constant "Tree_e" "Leaf", .announced "Pair",
            .type "Color_e"]),
          ("Pair", [.complete "Tree_t", .constant "Color_e" "Red", .announced "Tree_t",
            .type "Color_e"])] ∧
      DeclaredBeforeUse m {} (headerItems m {}) := by
  have hneeds : (fun m : Model => ((headerItems m {}).filterMap Item.dataClass?).map
        fun k => (k.name, k.needs.dedup)) <$> Model.ofSchema circularModule =
      .ok [("Tree__Leaf", [.complete "Tree_t", .constant "Tree_e" "Leaf", .announced "Pair",
            .type "Color_e"]),
          ("Pair", [.complete "Tree_t", .constant "Color_e" "Red", .announced "Tree_t",
            .type "Color_e"])] := by rfl
  obtain ⟨m, hm, hneeds⟩ := map_eq_ok.mp hneeds
  exact ⟨m, hm, hneeds, (generate_declaredBeforeUse hm {}).2⟩

end Header

end Asdl
