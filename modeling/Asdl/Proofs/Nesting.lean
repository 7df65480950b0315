/-
The code of a text is well nested.

The names in a header come from the text of a schema, where they are words, and words
have no delimiters.  So every item of the header closes what it opens, and so does
every section:

* `Model.Definition.names`, `Model.Worded` — the names of a definition, and models all
  of whose names are identifiers;
* `Model.Resolves.worded` — the model of a schema that was read from a text is one;
* `Header.delimiters_of_isIdentifier` — identifiers have no delimiters;
* `Header.Context.plain_declarationItems`, `Header.Context.plain_bodyItems` — hence the
  items of a header have plain names only, whatever the options;
* `Header.NestedSections`, `Header.generateText_nested` — the code of every text that
  has a header is well nested, section by section.

Design notes: options hold names as well, but these are only ever looked up, never
written.
-/
import Asdl.Proofs.Delimiters
import Asdl.Proofs.References
import Asdl.Proofs.Totality
import Asdl.Proofs.Writing

namespace Asdl

namespace Model

/-! ### Names of a model -/

/-- The name of a variant, and the product that it shares. -/
def Variant.names : Variant → List String
  | constructor k => [k.name]
  | shared x => [x.name, x.product]

/-- The name of a definition, and those of its variants or its bases. -/
def Definition.names : Definition → List String
  | simpleSum t => t.name :: t.variants.map Prod.fst
  | compoundSum t => t.name :: t.variants.flatMap Variant.names
  | product p => p.name :: p.bases

theorem mem_members_of_constructor {t : CompoundSum} {k : Constructor} (hk : k ∈ t.constructors) :
    ∀ f ∈ k.fields ++ t.attributes, f ∈ (Definition.compoundSum t).members := by
  intro f hf
  refine List.mem_append.mpr ((List.mem_append.mp hf).imp_left fun hf => ?_)
  exact List.mem_flatMap.mpr ⟨k, hk, hf⟩

/-- All names of a model are identifiers. -/
structure Worded (m : Model) : Prop where
  externals : ∀ n ∈ m.externals, isIdentifier n = true
  names : ∀ d ∈ m.definitions, ∀ n ∈ d.names, isIdentifier n = true
  members : ∀ d ∈ m.definitions, ∀ f ∈ d.members, isIdentifier f.name = true

namespace Scope

variable {sc : Scope}

theorem isIdentifier_of_resolveFields {owner : String} {fs : List Asdl.Field} {gs : List Field}
    (hgs : sc.resolveFields owner fs = .ok gs) (hfs : fs.all Asdl.Field.isWritable = true)
    {g : Field} (hg : g ∈ gs) : isIdentifier g.name = true := by
  obtain ⟨f, hf, hres⟩ := exists_mem_left (mapM_eq_ok.mp hgs) hg
  rw [resolveField_name hres]
  exact (Bool.and_eq_true_iff.mp (List.all_eq_true.mp hfs f hf)).2

theorem isIdentifier_of_resolveVariant {v : Asdl.Variant × Nat} {w : Variant}
    (hw : sc.resolveVariant v = .ok w) (hv : v.1.isWritable = true) {n : String}
    (hn : n ∈ w.names) : isIdentifier n = true := by
  obtain ⟨⟨hname, -⟩, hshared⟩ : (_ ∧ _) ∧ _ := by
    simpa only [Asdl.Variant.isWritable, Bool.and_eq_true] using hv
  rcases resolveVariant_eq_ok.mp hw with ⟨p, hp, rfl⟩ | ⟨-, fs, -, rfl⟩
  · rw [hp, Bool.and_eq_true] at hshared
    rcases List.mem_cons.mp hn with rfl | hn
    · exact hname
    · rw [List.mem_singleton.mp hn]
      exact hshared.1
  · rw [List.mem_singleton.mp hn]
    exact hname

end Scope

namespace Resolves

variable {s : Schema} {m : Model}

/-- The definitions of a model come from definitions that can be written. -/
theorem exists_isWritable (h : Resolves s m) (hs : s.isWritable = true) {d : Definition}
    (hd : d ∈ m.definitions) :
    ∃ e, (Scope.ofSchema s).resolve e = .ok d ∧ e.isWritable = true := by
  obtain ⟨e, he, hres⟩ := exists_mem_left (mapM_eq_ok.mp h.definitions) hd
  rw [Schema.isWritable, Bool.and_eq_true, List.all_eq_true] at hs
  exact ⟨e, hres, hs.2 e he⟩

theorem isIdentifier_name (h : Resolves s m) (hs : s.isWritable = true) {d : Definition}
    (hd : d ∈ m.definitions) : isIdentifier d.name = true := by
  obtain ⟨e, hres, he⟩ := h.exists_isWritable hs hd
  rw [Scope.resolve_name hres]
  cases e with
  | sum t =>
    simp only [Asdl.Definition.isWritable, Bool.and_eq_true] at he
    exact he.1.1
  | product p =>
    simp only [Asdl.Definition.isWritable, Bool.and_eq_true] at he
    exact he.1.1

theorem isIdentifier_of_mem_names (h : Resolves s m) (hs : s.isWritable = true) {d : Definition}
    (hd : d ∈ m.definitions) {n : String} (hn : n ∈ d.names) : isIdentifier n = true := by
  have hname := h.isIdentifier_name hs hd
  obtain ⟨e, hres, he⟩ := h.exists_isWritable hs hd
  rcases Scope.resolve_eq_ok.mp hres with
    ⟨t, rfl, -, rfl⟩ | ⟨t, c, rfl, -, hc, rfl⟩ | ⟨p, q, rfl, -, rfl⟩
  · -- the names of a simple sum are those of its variants
    simp only [Asdl.Definition.isWritable, Bool.and_eq_true, List.all_eq_true] at he
    rcases List.mem_cons.mp hn with rfl | hn
    · exact hname
    · rw [Scope.resolveSimple, List.zipIdx_map_fst] at hn
      obtain ⟨v, hv, rfl⟩ := List.mem_map.mp hn
      have hvariant := he.1.2.2 v hv
      simp only [Asdl.Variant.isWritable, Bool.and_eq_true] at hvariant
      exact hvariant.1.1
  · simp only [Asdl.Definition.isWritable, Bool.and_eq_true, List.all_eq_true] at he
    rcases List.mem_cons.mp hn with rfl | hn
    · exact hname
    · -- the names of a compound sum come from the variants that were resolved
      obtain ⟨w, hw, hn⟩ := List.mem_flatMap.mp hn
      obtain ⟨v, hv, hres⟩ :=
        exists_mem_left (mapM_eq_ok.mp (Scope.resolveCompound_eq_ok.mp hc).2.1) hw
      exact Scope.isIdentifier_of_resolveVariant hres
        (he.1.2.2 v.1 (List.fst_mem_of_mem_zipIdx hv)) hn
  · rcases List.mem_cons.mp hn with rfl | hn
    · exact hname
    · -- a base is the name of another definition
      obtain ⟨c, hc, rfl⟩ := h.exists_base (List.mem_filterMap.mpr ⟨_, hd, rfl⟩) hn
      exact h.isIdentifier_name hs (mem_definitions_of_compoundSum hc)

theorem isIdentifier_of_member (h : Resolves s m) (hs : s.isWritable = true) {d : Definition}
    (hd : d ∈ m.definitions) {f : Field} (hf : f ∈ d.members) : isIdentifier f.name = true := by
  obtain ⟨e, hres, he⟩ := h.exists_isWritable hs hd
  rcases Scope.resolve_eq_ok.mp hres with
    ⟨t, rfl, -, rfl⟩ | ⟨t, c, rfl, -, hc, rfl⟩ | ⟨p, q, rfl, hq, rfl⟩
  · cases hf
  · simp only [Asdl.Definition.isWritable, Bool.and_eq_true] at he
    obtain ⟨-, hvs, has, -⟩ := Scope.resolveCompound_eq_ok.mp hc
    rcases List.mem_append.mp hf with hf | hf
    · -- a field of a constructor comes from the variant that was resolved to it
      obtain ⟨k, hk, hf⟩ := List.mem_flatMap.mp hf
      obtain ⟨v, hv, hres⟩ :=
        exists_mem_left (mapM_eq_ok.mp hvs) (CompoundSum.mem_constructors.mp hk)
      rcases Scope.resolveVariant_eq_ok.mp hres with ⟨p, -, ⟨⟩⟩ | ⟨-, fs, hfs, ⟨⟩⟩
      have hvariant := List.all_eq_true.mp he.1.2.2 v.1 (List.fst_mem_of_mem_zipIdx hv)
      simp only [Asdl.Variant.isWritable, Bool.and_eq_true] at hvariant
      exact Scope.isIdentifier_of_resolveFields hfs hvariant.1.2 hf
    · exact Scope.isIdentifier_of_resolveFields has he.2 hf
  · simp only [Asdl.Definition.isWritable, Bool.and_eq_true] at he
    obtain ⟨hfs, has, -⟩ := Scope.resolveProduct_eq_ok.mp hq
    rcases List.mem_append.mp hf with hf | hf
    · exact Scope.isIdentifier_of_resolveFields hfs he.1.2 hf
    · exact Scope.isIdentifier_of_resolveFields has he.2 hf

/-- **All names of a model are identifiers** if its schema can be written. -/
theorem worded (h : Resolves s m) (hs : s.isWritable = true) : m.Worded where
  externals := by
    intro n hn
    rw [h.externals] at hn
    obtain ⟨u, hu, hn⟩ := List.mem_flatMap.mp hn
    simp only [Schema.isWritable, Bool.and_eq_true, List.all_eq_true] at hs
    have huse := hs.1.1 u hu
    simp only [Use.isWritable, Bool.and_eq_true, List.all_eq_true] at huse
    exact huse.2.2 n hn
  names := fun _ hd _ hn => h.isIdentifier_of_mem_names hs hd hn
  members := fun _ hd _ hf => h.isIdentifier_of_member hs hd hf

end Resolves

end Model

namespace Header

open Model (TypeRef FieldType SimpleSum CompoundSum)

/-! ### Names and delimiters -/

/-- Identifiers consist of letters, digits and underscores. -/
theorem delimiters_of_isIdentifier {n : String} (h : isIdentifier n = true) :
    delimiters n = [] := by
  obtain ⟨c, cs, hn, hc, hcs⟩ := isWholeWord_iff.mp (isIdentifier_iff.mp h).1
  rw [delimiters, hn, List.filterMap_eq_nil_iff]
  intro d hd
  rcases List.mem_cons.mp hd with rfl | hd
  · exact ofChar?_of_isWordChar (isWordChar_of_isWordStart hc)
  · exact ofChar?_of_isWordChar (hcs d hd)

namespace Context

variable {s : Schema} {c : Context}

theorem delimiters_enumeration {n : String} (hn : delimiters n = []) :
    delimiters (c.enumeration n) = [] := by
  unfold enumeration
  split
  · split
    · exact delimiters_intsName hn
    · exact delimiters_enumName hn
  · exact hn

theorem delimiters_tagType {n : String} (hn : delimiters n = []) :
    delimiters (c.tagType n) = [] := by
  unfold tagType
  split
  · exact delimiters_int
  · exact delimiters_enumeration hn

section Worded

variable (hm : c.model.Worded)
include hm

theorem delimiters_of_mem_names {d : Model.Definition} (hd : d ∈ c.model.definitions) {n : String}
    (hn : n ∈ d.names) : delimiters n = [] :=
  delimiters_of_isIdentifier (hm.names d hd n hn)

theorem delimiters_name {d : Model.Definition} (hd : d ∈ c.model.definitions) :
    delimiters d.name = [] := by
  refine delimiters_of_mem_names hm hd ?_
  cases d <;> exact List.mem_cons_self

section Sum

variable {t : CompoundSum} (hd : .compoundSum t ∈ c.model.definitions)
include hd

theorem delimiters_variant {v : Model.Variant} (hv : v ∈ t.variants) {n : String}
    (hn : n ∈ v.names) : delimiters n = [] :=
  delimiters_of_mem_names hm hd (List.mem_cons_of_mem _ (List.mem_flatMap.mpr ⟨v, hv, hn⟩))

theorem delimiters_variantName {v : Model.Variant} (hv : v ∈ t.variants) :
    delimiters v.name = [] := by
  refine delimiters_variant hm hd hv ?_
  cases v <;> exact List.mem_cons_self

theorem delimiters_constructor {k : Model.Constructor} (hk : k ∈ t.constructors) :
    delimiters k.name = [] :=
  delimiters_variantName hm hd (Model.CompoundSum.mem_constructors.mp hk)

theorem delimiters_classOf {v : Model.Variant} (hv : v ∈ t.variants) :
    delimiters (classOf t.name v) = [] := by
  cases v with
  | constructor k =>
    exact delimiters_memberName (delimiters_name hm hd) (delimiters_variantName hm hd hv)
  | shared x => exact delimiters_variant hm hd hv (.tail _ (.head _))

end Sum

theorem delimiters_member {d : Model.Definition} (hd : d ∈ c.model.definitions) {f : Model.Field}
    (hf : f ∈ d.members) : delimiters f.name = [] :=
  delimiters_of_isIdentifier (hm.members d hd f hf)

/-- A type that the model knows has a plain name. -/
theorem delimiters_of_in {t : TypeRef} (ht : t.In c.model) : delimiters t.name = [] := by
  cases t with
  | primitive p => exact delimiters_primitive p
  | external n => exact delimiters_of_isIdentifier (hm.externals n ht)
  | simpleSum n =>
    obtain ⟨t, ht, rfl⟩ := ht
    exact delimiters_name hm (Model.Resolves.mem_definitions_of_simpleSum ht)
  | compoundSum n =>
    obtain ⟨t, ht, rfl⟩ := ht
    exact delimiters_name hm (Model.Resolves.mem_definitions_of_compoundSum ht)
  | product n =>
    obtain ⟨p, hp, rfl⟩ := ht
    exact delimiters_name hm (Model.Resolves.mem_definitions_of_product hp)

theorem plain_element {t : TypeRef} (ht : t.In c.model) : (c.element t).Plain := by
  have hname := delimiters_of_in hm ht
  cases t with
  | primitive p => exact plain_ofPrimitive p
  | external n => exact delimiters_typeName hname
  | simpleSum n =>
    show delimiters (if c.options.isFlat n then typeName n else c.enumeration n) = []
    split
    · exact delimiters_typeName hname
    · exact delimiters_enumeration hname
  | compoundSum n => exact delimiters_typeName hname
  | product n => exact hname

theorem plain_memberType {t : FieldType} (ht : t.In c.model) : (c.member t).Plain := by
  cases t with
  | scalar t => exact plain_element hm ht
  | optional t =>
    show (if isValue t then CType.optional (c.element t) else c.element t).Plain
    split <;> exact plain_element hm ht
  | repeated t => exact plain_element hm ht
  | map k v => exact ⟨plain_element hm ht.1, plain_element hm ht.2⟩

theorem plain_node {t : TypeRef} (ht : t.In c.model) : (nodeOf t).Plain := by
  cases t with
  | primitive p => cases p <;> trivial
  | external n => trivial
  | simpleSum n => exact delimiters_of_in hm ht
  | compoundSum n => trivial
  | product n => trivial

theorem plain_shape {t : FieldType} (ht : t.In c.model) : (c.shape t).Plain := by
  cases t with
  | scalar t =>
    show (if isNested t then Shape.ifSet (nodeOf t) else .always (nodeOf t)).Plain
    split <;> exact plain_node hm ht
  | optional t =>
    show (if isValue t then Shape.ifValue (nodeOf t) else .ifSet (nodeOf t)).Plain
    split <;> exact plain_node hm ht
  | repeated t => exact ⟨plain_element hm ht, plain_node hm ht⟩
  | map k v => trivial

variable (h : Model.Resolves s c.model)
include h

theorem delimiters_firstVariant {n v : String} (hv : c.firstVariant? n = some v) :
    delimiters v = [] := by
  obtain ⟨t, ht, hv⟩ := Option.bind_eq_some_iff.mp hv
  obtain ⟨x, hx, rfl⟩ := Option.map_eq_some_iff.mp hv
  have hd := Model.Resolves.mem_definitions_of_simpleSum (h.simpleSum?_eq_some.mp ht).1
  exact delimiters_of_mem_names hm hd
    (List.mem_cons_of_mem _ (List.mem_map_of_mem (List.mem_of_mem_head? hx)))

theorem plain_initialScalar {t : TypeRef} (ht : t.In c.model) : (c.initialScalar t).Plain := by
  cases t with
  | primitive p => cases p <;> trivial
  | simpleSum n =>
    cases hv : c.firstVariant? n with
    | none =>
      have hzero : c.initialScalar (.simpleSum n) = .zero := by simp only [initialScalar, hv]
      rw [hzero]
      trivial
    | some v =>
      have hfirst : c.initialScalar (.simpleSum n) = .enumerator (c.enumeration n) v := by
        simp only [initialScalar, hv]
      rw [hfirst]
      exact ⟨delimiters_enumeration (delimiters_of_in hm ht), delimiters_firstVariant hm h hv⟩
  | _ => trivial

theorem plain_initial {t : FieldType} (ht : t.In c.model) : (c.initial t).Plain := by
  cases t with
  | scalar t => exact plain_initialScalar hm h ht
  | optional t =>
    show (if isValue t then Initial.absent (c.element t) else .null).Plain
    split
    · exact plain_element hm ht
    · trivial
  | repeated t => exact plain_element hm ht
  | map k v => trivial

/-! ### Items of a header -/

section Definition

variable {d : Model.Definition} (hd : d ∈ c.model.definitions)
include hd

theorem plain_memberOf {f : Model.Field} (hf : f ∈ d.members) : (c.memberOf f).Plain where
  name := delimiters_member hm hd hf
  type := plain_memberType hm (h.in_of_member hd hf)
  initial := plain_initial hm h (h.in_of_member hd hf)

theorem plain_members {fields attributes : List Model.Field}
    (hmembers : ∀ f ∈ fields ++ attributes, f ∈ d.members) :
    ∀ x ∈ fields.map c.memberOf ++ attributes.map c.memberOf, x.Plain := by
  rw [← List.map_append]
  intro x hx
  obtain ⟨f, hf, rfl⟩ := List.mem_map.mp hx
  exact plain_memberOf hm h hd (hmembers f hf)

theorem plain_entry {f : Model.Field} (hf : f ∈ d.members) : (c.entry f).Plain where
  name := delimiters_member hm hd hf
  shape := plain_shape hm (h.in_of_member hd hf)

theorem plain_treeItems {cls : String} (hcls : delimiters cls = [])
    {fields attributes : List Model.Field} (hmembers : ∀ f ∈ fields ++ attributes, f ∈ d.members) :
    ∀ i ∈ c.treeItems cls fields attributes, i.Plain := by
  have hrecord : delimiters (recordName cls) = [] := by rw [delimiters_recordName, hcls]
  have hfull : (c.fullBody cls fields attributes).Plain := by
    refine ⟨hrecord, fun e he => ?_⟩
    obtain ⟨f, hf, rfl⟩ := List.mem_map.mp he
    exact plain_entry hm h hd (hmembers f hf)
  have hshort : (c.shortBody cls fields).Plain := by
    refine ⟨hrecord, fun e he => ?_⟩
    obtain ⟨f, hf, rfl⟩ := List.mem_map.mp he
    exact plain_entry hm h hd (hmembers f (List.mem_append_left _ hf))
  have hmethods : ∀ i ∈ [Item.recordMethod cls .full (c.fullBody cls fields attributes), .blank,
      .recordMethod cls .shortOwn (c.shortBody cls fields), .blank], i.Plain := by
    simp [Item.Plain, hcls, hfull, hshort]
  have hhook : ∀ i ∈ if c.options.hasHook cls then [Item.hookDeclaration cls, .blank] else [],
      i.Plain := by
    split <;> simp [Item.Plain, hcls]
  have hlast : ∀ i ∈ [Item.shortMethod cls (c.options.hasHook cls), .blank], i.Plain := by
    simp [Item.Plain, hcls]
  exact List.forall_mem_append.mpr ⟨List.forall_mem_append.mpr ⟨hmethods, hhook⟩, hlast⟩

end Definition

theorem plain_constructorClass {t : CompoundSum} (hd : .compoundSum t ∈ c.model.definitions)
    {k : Model.Constructor} (hk : k ∈ t.constructors) : (c.constructorClass t k).Plain := by
  have hsum : delimiters t.name = [] := delimiters_name hm hd
  have hname := delimiters_constructor hm hd hk
  exact {
    name := delimiters_memberName hsum hname
    bases := List.forall_mem_singleton.mpr (delimiters_typeName hsum)
    tag := ⟨delimiters_enumName hsum, hname⟩
    members := plain_members hm h hd (Model.mem_members_of_constructor hk) }

theorem plain_productClass {p : Model.Product} (hd : .product p ∈ c.model.definitions) :
    (c.productClass p).Plain := by
  have hbases : ∀ b ∈ basesOf p, delimiters b = [] := by
    unfold basesOf
    split
    · exact List.forall_mem_singleton.mpr delimiters_rootClass
    · intro b hb
      obtain ⟨n, hn, rfl⟩ := List.mem_map.mp hb
      exact delimiters_typeName (delimiters_of_mem_names hm hd (List.mem_cons_of_mem _ hn))
  exact {
    name := delimiters_name hm hd
    bases := hbases
    tag := trivial
    members := plain_members hm h hd fun f hf => hf }

theorem plain_sumItems {t : CompoundSum} (hd : .compoundSum t ∈ c.model.definitions) :
    ∀ i ∈ c.sumItems t, i.Plain := by
  have hsum : delimiters t.name = [] := delimiters_name hm hd
  have hbase : ∀ i ∈ [Item.sumClass (typeName t.name) c.options.treeMethods, .blank], i.Plain := by
    simp [Item.Plain, delimiters_typeName hsum]
  have hclasses : ∀ i ∈ t.constructors.flatMap (fun k =>
      [Item.dataClass (c.constructorClass t k), .blank]), i.Plain := by
    intro i hi
    obtain ⟨k, hk, hi⟩ := List.mem_flatMap.mp hi
    rcases List.mem_cons.mp hi with rfl | hi
    · exact plain_constructorClass hm h hd hk
    · rw [List.mem_singleton.mp hi]
      trivial
  have haliases : ∀ i ∈ [Item.aliases t.name (t.constructors.map (·.name)), .blank], i.Plain := by
    refine List.forall_mem_cons.mpr ⟨⟨hsum, fun n hn => ?_⟩, List.forall_mem_singleton.mpr trivial⟩
    obtain ⟨k, hk, rfl⟩ := List.mem_map.mp hn
    exact delimiters_constructor hm hd hk
  exact List.forall_mem_append.mpr ⟨List.forall_mem_append.mpr ⟨hbase, hclasses⟩, haliases⟩

omit h

theorem plain_forwardItems {d : Model.Definition} (hd : d ∈ c.model.definitions) :
    ∀ i ∈ forwardItems d, i.Plain := by
  have hname := delimiters_name hm hd
  cases d with
  | simpleSum t => exact List.forall_mem_nil _
  | compoundSum t => exact List.forall_mem_singleton.mpr (delimiters_typeName hname)
  | product p => exact List.forall_mem_singleton.mpr hname

theorem plain_simpleItems {t : SimpleSum} (hd : .simpleSum t ∈ c.model.definitions) :
    ∀ i ∈ c.simpleItems t, i.Plain := by
  have hname : delimiters t.name = [] := delimiters_name hm hd
  have hscope : delimiters (c.enumeration t.name) = [] := delimiters_enumeration hname
  have htype : delimiters (c.tagType t.name) = [] := delimiters_tagType hname
  have hvariants : ∀ v ∈ t.variants, delimiters v.1 = [] := fun v hv =>
    delimiters_of_mem_names hm hd (List.mem_cons_of_mem _ (List.mem_map_of_mem hv))
  refine List.forall_mem_cons.mpr
    ⟨?_, by simp [Item.Plain, hname, htype, delimiters_typeName hname]⟩
  split
  · exact ⟨hscope, List.forall_mem_append.mpr
      ⟨hvariants, List.forall_mem_singleton.mpr delimiters_arraySizeName⟩⟩
  · exact ⟨hscope, hvariants⟩

theorem plain_tagItems {t : CompoundSum} (hd : .compoundSum t ∈ c.model.definitions) :
    ∀ i ∈ tagItems t, i.Plain := by
  have hname : delimiters t.name = [] := delimiters_name hm hd
  refine List.forall_mem_cons.mpr
    ⟨⟨delimiters_enumName hname, fun v hv => ?_⟩, by simp [Item.Plain, hname, delimiters_int]⟩
  obtain ⟨w, hw, rfl⟩ := List.mem_map.mp hv
  exact delimiters_variantName hm hd hw

theorem plain_functionItems {d : Model.Definition} (hd : d ∈ c.model.definitions) :
    ∀ i ∈ c.functionItems d, i.Plain := by
  have hname := delimiters_name hm hd
  have hblank : ∀ i ∈ [Item.blank], i.Plain := List.forall_mem_singleton.mpr trivial
  cases d with
  | simpleSum t =>
    refine List.forall_mem_cons.mpr ⟨⟨⟨hname, delimiters_tagType hname,
      delimiters_enumeration hname⟩, fun v hv => ?_⟩, hblank⟩
    exact delimiters_of_mem_names hm hd (List.mem_cons_of_mem _ hv)
  | compoundSum t =>
    refine List.forall_mem_cons.mpr ⟨⟨⟨hname, delimiters_int, delimiters_enumName hname⟩,
      fun v hv => ?_⟩, hblank⟩
    obtain ⟨w, hw, rfl⟩ := List.mem_map.mp hv
    exact delimiters_variantName hm hd hw
  | product p => exact List.forall_mem_nil _

theorem plain_dispatchItems {t : CompoundSum} (hd : .compoundSum t ∈ c.model.definitions) :
    ∀ i ∈ dispatchItems t, i.Plain := by
  intro i hi
  obtain ⟨method, -, hi⟩ := List.mem_flatMap.mp hi
  rcases List.mem_cons.mp hi with rfl | hi
  · refine ⟨delimiters_name hm hd, fun x hx => ?_⟩
    obtain ⟨v, hv, rfl⟩ := List.mem_map.mp hx
    exact ⟨delimiters_variantName hm hd hv, delimiters_classOf hm hd hv⟩
  · rw [List.mem_singleton.mp hi]
    trivial

include h

theorem plain_methodItems {d : Model.Definition} (hd : d ∈ c.model.definitions) :
    ∀ i ∈ c.methodItems d, i.Plain := by
  have hname := delimiters_name hm hd
  cases d with
  | simpleSum t => exact List.forall_mem_nil _
  | compoundSum t =>
    refine List.forall_mem_append.mpr ⟨fun i hi => ?_, plain_dispatchItems hm hd⟩
    obtain ⟨k, hk, hi⟩ := List.mem_flatMap.mp hi
    exact plain_treeItems hm h hd (delimiters_memberName hname (delimiters_constructor hm hd hk))
      (Model.mem_members_of_constructor hk) i hi
  | product p => exact plain_treeItems hm h hd hname fun f hf => hf

/-- The declarations have plain names only. -/
theorem plain_declarationItems : ∀ i ∈ c.declarationItems, i.Plain := by
  refine List.forall_mem_append.mpr ⟨List.forall_mem_append.mpr ⟨?_, ?_⟩, ?_⟩
  · intro i hi
    obtain ⟨d, hd, hi⟩ := List.mem_flatMap.mp hi
    cases d with
    | simpleSum t => exact plain_simpleItems hm hd i hi
    | compoundSum t => exact plain_tagItems hm hd i hi
    | product p => cases hi
  · intro i hi
    obtain ⟨t, ht, hi⟩ := List.mem_flatMap.mp hi
    exact plain_sumItems hm h (Model.Resolves.mem_definitions_of_compoundSum ht) i hi
  · intro i hi
    obtain ⟨p, hp, hi⟩ := List.mem_flatMap.mp hi
    rcases List.mem_cons.mp hi with rfl | hi
    · exact plain_productClass hm h (Model.Resolves.mem_definitions_of_product hp)
    · rw [List.mem_singleton.mp hi]
      trivial

/-- The bodies have plain names only. -/
theorem plain_bodyItems : ∀ i ∈ c.bodyItems, i.Plain := by
  intro i hi
  obtain ⟨d, hd, hi⟩ := List.mem_flatMap.mp hi
  rcases List.mem_append.mp hi with hi | hi
  · exact plain_functionItems hm hd i hi
  · split at hi
    · exact plain_methodItems hm h hd i hi
    · cases hi

end Worded

end Context

/-! ### Headers -/

theorem closes_itemsText {items : List Item} (h : ∀ i ∈ items, i.Plain) :
    Closes (delimiters (itemsText items)) := by
  rw [itemsText, delimiters_renderItems, List.flatMap_map]
  exact closes_flatMap fun i hi => Item.closes (h i hi)

/-- The three sections of a header, and how they nest. -/
structure NestedSections (m : Model) (o : Options) (code : String) : Prop where
  sections : code = (forwardSection.walk () m).emission.text ++
    ((Context.declarations ⟨m, o⟩).walk {} m).emission.text ++
    ((Context.bodies ⟨m, o⟩).walk () m).emission.text
  forward : WellNested (forwardSection.walk () m).emission.text
  declarations : WellNested ((Context.declarations ⟨m, o⟩).walk {} m).emission.text
  bodies : WellNested ((Context.bodies ⟨m, o⟩).walk () m).emission.text
  /-- Nothing is open after the first section, nor after the second. -/
  front : WellNested ((forwardSection.walk () m).emission.text ++
    ((Context.declarations ⟨m, o⟩).walk {} m).emission.text)
  whole : WellNested code

theorem wellNested_append {a b : String} (ha : WellNested a) (hb : WellNested b) :
    WellNested (a ++ b) := by
  rw [wellNested_iff, delimiters_append]
  exact (wellNested_iff.mp ha).append (wellNested_iff.mp hb)

/-- The header of a model whose names are identifiers is well nested. -/
theorem nestedSections {s : Schema} {m : Model} (h : Model.Resolves s m) (hm : m.Worded)
    (o : Options) {out : Output} (hout : (generate m o).result = .ok out) :
    NestedSections m o out.code := by
  -- what each section writes is the text of its items
  have htexts : (forwardSection.walk () m).emission.text = itemsText (forwardItemsOf m) ∧
      ((Context.declarations ⟨m, o⟩).walk {} m).emission.text =
        itemsText (Context.declarationItems ⟨m, o⟩) ∧
      ((Context.bodies ⟨m, o⟩).walk () m).emission.text =
        itemsText (Context.bodyItems ⟨m, o⟩) := by
    have hdeclarations := Context.walk_declarations (c := ⟨m, o⟩) h
    have hbodies := Context.walk_bodies ⟨m, o⟩
    rw [walk_forwardSection, hdeclarations, hbodies]
    exact ⟨rfl, rfl, rfl⟩
  obtain ⟨hforward, hdeclarations, hbodies⟩ := htexts
  have hcode : out.code = _ :=
    congrArg Output.code (Except.ok.inj (hout.symm.trans (result_generate h o)))
  have nestedForward : WellNested (itemsText (forwardItemsOf m)) := by
    refine wellNested_iff.mpr (closes_itemsText (List.forall_mem_append.mpr
      ⟨fun i hi => ?_, List.forall_mem_singleton.mpr trivial⟩))
    obtain ⟨d, hd, hi⟩ := List.mem_flatMap.mp hi
    exact Context.plain_forwardItems (c := ⟨m, o⟩) hm hd i hi
  have nestedDeclarations : WellNested (itemsText (Context.declarationItems ⟨m, o⟩)) :=
    wellNested_iff.mpr (closes_itemsText (Context.plain_declarationItems (c := ⟨m, o⟩) hm h))
  have nestedBodies : WellNested (itemsText (Context.bodyItems ⟨m, o⟩)) :=
    wellNested_iff.mpr (closes_itemsText (Context.plain_bodyItems (c := ⟨m, o⟩) hm h))
  -- texts that close may be put behind each other
  have nestedFront := wellNested_append nestedForward nestedDeclarations
  have nestedCode := wellNested_append nestedFront nestedBodies
  refine ⟨?_, hforward ▸ nestedForward, hdeclarations ▸ nestedDeclarations, hbodies ▸ nestedBodies,
    ?_, hcode ▸ nestedCode⟩
  · rw [hcode, hforward, hdeclarations, hbodies]
  · rw [hforward, hdeclarations]
    exact nestedFront

/-- A schema that was read from a text can be written. -/
theorem isWritable_of_parse {source : String} {s : Schema} (h : Schema.parse source = .ok s) :
    s.isWritable = true := by
  rw [← Grammar.all_isWritable_of_isSchema (Schema.parse_eq_ok.mp h).2, List.all_eq_true]
  exact fun t ht => isWritable_of_mem_tokensOf ht

theorem generateText_eq_ok {source : String} {o : Options} {out : Output} :
    (generateText source o).result = .ok out ↔
      ∃ s m, Schema.parse source = .ok s ∧ Model.ofSchema s = .ok m ∧
        (generate m o).result = .ok out := by
  simp only [generateText, result_bind, Run.mapError, result_parseText, bind_eq_ok,
    mapError_eq_ok, resolveSchema, exists_and_left]

/-- **The code of every text is well nested**, whatever the options, and so is each of
its sections. -/
theorem generateText_nested {source : String} {o : Options} {out : Output}
    (h : (generateText source o).result = .ok out) :
    ∃ s m, Schema.parse source = .ok s ∧ Model.ofSchema s = .ok m ∧
      NestedSections m o out.code := by
  obtain ⟨s, m, hs, hm, hout⟩ := generateText_eq_ok.mp h
  have hres := Model.ofSchema_eq_ok.mp hm
  exact ⟨s, m, hs, hm, nestedSections hres (hres.worded (isWritable_of_parse hs)) o hout⟩

/-- A text with delimiters in a comment. -/
def bracketedText : String :=
  "-- \x7d)\nmodule m\x7bE = A(B* xs)|C%P B = X P = (E? e)\x7d"

def bracketedModule : Schema where
  name := "m"
  uses := []
  definitions := [
    .sum ⟨"E", [⟨"A", [⟨"xs", .named "B" .repeated⟩], none⟩, ⟨"C", [], some "P"⟩], []⟩,
    .sum ⟨"B", [⟨"X", [], none⟩], []⟩,
    .product ⟨"P", [⟨"e", .named "E" .optional⟩], []⟩]

theorem parse_bracketedText : Schema.parse bracketedText = .ok bracketedModule := by
  have hpieces : pieces bracketedText.toList =
      [.comment "-- \x7d)".toList, .blank ['\n'], .token (.keyword .module), .blank [' '],
        .token (.ident "m"), .token (.punct .lbrace), .token (.ident "E"), .blank [' '],
        .token (.punct .equal), .blank [' '], .token (.ident "A"), .token (.punct .lparen),
        .token (.ident "B"), .token (.punct .star), .blank [' '], .token (.ident "xs"),
        .token (.punct .rparen), .token (.punct .pipe), .token (.ident "C"),
        .token (.punct .percent), .token (.ident "P"), .blank [' '], .token (.ident "B"),
        .blank [' '], .token (.punct .equal), .blank [' '], .token (.ident "X"), .blank [' '],
        .token (.ident "P"), .blank [' '], .token (.punct .equal), .blank [' '],
        .token (.punct .lparen), .token (.ident "E"), .token (.punct .question), .blank [' '],
        .token (.ident "e"), .token (.punct .rparen), .token (.punct .rbrace)] := by
    decide +kernel
  have hclean : Clean (pieces bracketedText.toList) := by
    rw [hpieces]
    decide
  rw [Schema.parse_of_clean hclean, hpieces]
  rfl

/-- Options that name a class, a sum, and something with delimiters. -/
def bracketedOptions : Options where
  flatSums := NameSet.add (NameSet.add .empty "B") "\x7d("
  hooks := NameSet.add .empty "P"

theorem bracketedText_nested :
    ∃ s m out, Schema.parse bracketedText = .ok s ∧ Model.ofSchema s = .ok m ∧
      (generateText bracketedText bracketedOptions).result = .ok out ∧
      NestedSections m bracketedOptions out.code := by
  have hresolves : (fun _ => ()) <$> Model.ofSchema bracketedModule = .ok () := by rfl
  obtain ⟨m, hm, -⟩ := map_eq_ok.mp hresolves
  have hgenerated := result_generate (Model.ofSchema_eq_ok.mp hm) bracketedOptions
  have hout := generateText_eq_ok.mpr ⟨bracketedModule, m, parse_bracketedText, hm, hgenerated⟩
  obtain ⟨s, m', hs, hm', hnested⟩ := generateText_nested hout
  exact ⟨s, m', _, hs, hm', hout, hnested⟩

end Header

end Asdl
