/-
All parts of a header agree on the classes of a compound sum.

A header says five times which tag and which class a variant has: in the
namespace of the tags, in the tables for tools, in the switch of each tree
method, in the builders of the class and in its bases.  `Header.SitesAgree` says
that these are one association, and `Header.generate_sitesAgree` that it holds
for every compound sum of every header.

Design notes: each site is read back from the items (`Item.space?`,
`Item.switch?`, `Item.written?`), and whatever is read back under the name at
hand is listed completely, so nothing else can stand there.  The tag of a class is
a text (`Denotes`): a number, or a constant as it is found in the namespaces of
the header.
-/
import Asdl.Proofs.Spelling
import Asdl.Proofs.SortedMaps

namespace Asdl

/-! ### Members of classes -/

namespace Model

namespace Resolves

variable {s : Schema} {m : Model}

theorem checkBody (h : Resolves s m) {d : Asdl.Definition} (hd : d ∈ s.definitions) :
    d.checkBody = .ok () :=
  (Schema.validate_eq_ok.mp h.validate).2.2 d hd

theorem resolveFields_map_name {sc : Scope} {owner : String} {fs : List Asdl.Field}
    {gs : List Field} (h : sc.resolveFields owner fs = .ok gs) :
    gs.map Field.name = fs.map Asdl.Field.name :=
  map_eq_map (fun _ _ hg => Scope.resolveField_name hg) (mapM_eq_ok.mp h)

/-- Members that passed the check keep their names, so these differ from each other and
from the tag's. -/
theorem nodup_members {sc : Scope} {owner o₁ o₂ : String} {fs as : List Asdl.Field}
    {gs bs : List Field} (hcheck : checkMembers owner (fs ++ as) = .ok ())
    (hfs : sc.resolveFields o₁ fs = .ok gs) (has : sc.resolveFields o₂ as = .ok bs) :
    (tagMember :: (gs ++ bs).map Field.name).Nodup := by
  obtain ⟨hdistinct, htag⟩ := checkMembers_eq_ok.mp hcheck
  rw [List.map_append, resolveFields_map_name hfs, resolveFields_map_name has, ← List.map_append,
    List.nodup_cons]
  refine ⟨fun hmem => ?_, hdistinct⟩
  obtain ⟨f, hf, hname⟩ := List.mem_map.mp hmem
  exact htag f hf hname

/-- Each compound sum comes from a sum with a checked body. -/
theorem exists_checked_sum (h : Resolves s m) {c : CompoundSum} (hc : c ∈ m.compoundSums) :
    ∃ t ∈ s.sums, (Scope.ofSchema s).resolveCompound t = .ok c ∧ t.checkBody = .ok () := by
  obtain ⟨t, ht, hres⟩ := h.exists_sum hc
  obtain ⟨d, hd, hdt⟩ := List.mem_filterMap.mp ht
  cases d with
  | sum u => cases hdt; exact ⟨_, ht, hres, h.checkBody hd⟩
  | product p => cases hdt

theorem exists_checked_simpleSum (h : Resolves s m) {c : SimpleSum} (hc : c ∈ m.simpleSums) :
    ∃ t ∈ s.sums, c = Scope.resolveSimple t ∧ t.checkBody = .ok () := by
  rw [h.simpleSums] at hc
  obtain ⟨t, ht, rfl⟩ := List.mem_map.mp hc
  have ht : t ∈ s.sums := (List.mem_filter.mp ht).1
  obtain ⟨d, hd, hdt⟩ := List.mem_filterMap.mp ht
  cases d with
  | sum u => cases hdt; exact ⟨_, ht, rfl, h.checkBody hd⟩
  | product p => cases hdt

theorem nodup_variants (h : Resolves s m) {c : CompoundSum} (hc : c ∈ m.compoundSums) :
    (c.variants.map Variant.name).Nodup := by
  obtain ⟨t, -, hres, hbody⟩ := h.exists_checked_sum hc
  rw [Scope.resolveCompound_map_name hres]
  exact (Sum.checkBody_eq_ok.mp hbody).2.1

theorem constructor_members (h : Resolves s m) {c : CompoundSum} (hc : c ∈ m.compoundSums)
    {k : Constructor} (hk : .constructor k ∈ c.variants) :
    (tagMember :: (k.fields ++ c.attributes).map Field.name).Nodup := by
  obtain ⟨t, -, hres, hbody⟩ := h.exists_checked_sum hc
  obtain ⟨-, hvs, has, -⟩ := Scope.resolveCompound_eq_ok.mp hres
  obtain ⟨⟨v, i⟩, hv, hvk⟩ := exists_mem_left (mapM_eq_ok.mp hvs) hk
  have hv : v ∈ t.variants := List.fst_mem_of_mem_zipIdx hv
  rcases Scope.resolveVariant_eq_ok.mp hvk with ⟨p, -, hkp⟩ | ⟨hnone, fs, hfs, hkfs⟩
  · cases hkp
  · cases hkfs
    exact nodup_members ((Sum.checkBody_eq_ok.mp hbody).2.2 v hv hnone) hfs has

theorem product_members (h : Resolves s m) {p : Product} (hp : p ∈ m.products) :
    (tagMember :: (p.fields ++ p.attributes).map Field.name).Nodup := by
  obtain ⟨q, hq, hres⟩ := exists_mem_left h.products hp
  obtain ⟨hfs, has, -⟩ := Scope.resolveProduct_eq_ok.mp hres
  obtain ⟨d, hd, hdq⟩ := List.mem_filterMap.mp hq
  cases d with
  | sum t => cases hdq
  | product r =>
    cases hdq
    exact nodup_members (h.checkBody hd) hfs has

end Resolves

end Model

namespace Header

open Model (CompoundSum)

/-! ### What the sites say -/

/-- The class of a variant of a compound sum. -/
def variantClass (sum : String) : Model.Variant → String
  | .constructor k => sum ++ "__" ++ k.name
  | .shared v => v.product

theorem classOf_eq (sum : String) (v : Model.Variant) : classOf sum v = variantClass sum v := by
  cases v <;> rfl

/-- A text for a tag of sixteen bits, given the constants of a header. -/
inductive Denotes (spaces : List (String × List (String × Nat))) : String → Nat → Prop where
  | number {n : Nat} (h : n < 65536) : Denotes spaces n.repr n
  | constant {space name : String} {n : Nat}
      (hn : (spaces.lookup space).bind (·.lookup name) = some n) (h : n < 65536) :
      Denotes spaces ("static_cast<uint16_t>(" ++ space ++ "::" ++ name ++ ")") n

/-- The switch of a tree method of a compound sum. -/
def switchOf (t : CompoundSum) (method : String) : Switch where
  cls := t.name ++ "_t"
  method := method
  cases := t.variants.map fun v => (t.name ++ "_e" ++ "::" ++ v.name, variantClass t.name v)

/-- The parts of a header agree on the tags and the classes of a compound sum.  `tables`
are the tables for tools. -/
structure SitesAgree (treeMethods : Bool) (items : List Item) (tables : TagTables)
    (t : CompoundSum) : Prop where
  /-- One namespace holds the tags, with one constant for each variant. -/
  constants : (t.variants.map Model.Variant.name).Nodup ∧
    (items.filterMap Item.space?).filter (·.1 = t.name ++ "_e") =
      [(t.name ++ "_e", t.variants.map fun v => (v.name, v.tag))]
  /-- It is written as a namespace with one line for each variant. -/
  constantLines : ∃ i ∈ items,
    i.space? = some (t.name ++ "_e", t.variants.map fun v => (v.name, v.tag)) ∧
    i.spelling = [⟨0, "namespace " ++ (t.name ++ "_e") ++ " \x7b"⟩]
      ++ t.variants.map (fun v => ⟨1, "const int " ++ v.name ++ " = " ++ v.tag.repr ++ ";"⟩)
      ++ [⟨0, "\x7d;"⟩]
  /-- The table of the sum holds each variant once. -/
  table : ∃ table, tables.find? (t.name ++ "_t") = some table ∧
    table.entries.Perm (t.variants.map fun v => (v.tag, variantClass t.name v))
  /-- Each tree method has one switch, with one case for each variant. -/
  switches : (items.filterMap Item.switch?).filter (·.cls = t.name ++ "_t") =
    if treeMethods then treeNames.map (switchOf t) else []
  /-- The class of a variant is declared once, has the sum among its bases, and every
  builder of it sets the tag once, to the tag of the variant. -/
  classes : ∀ v ∈ t.variants, ∃ (w : WrittenClass) (bases : List String),
    (items.filterMap Item.written?).filter (·.name = variantClass t.name v) = [w] ∧
      w.bases = ", ".intercalate (bases.map ("public " ++ ·)) ∧ t.name ++ "_t" ∈ bases ∧
      w.builders ≠ [] ∧
      ∀ b ∈ w.builders, ∃ text, b.initialisers.filter (·.1 = "tag") = [("tag", text)] ∧
        Denotes (items.filterMap Item.space?) text v.tag

/-! ### One entry under each name -/

theorem lookup_eq_some {α : Type} {xs : List (String × α)} (h : (xs.map Prod.fst).Nodup)
    {n : String} {a : α} (hx : (n, a) ∈ xs) : xs.lookup n = some a := by
  rw [← NameTable.find?_ofList]
  exact (NameTable.find?_ofList_eq_some h).mpr hx

/-! ### Builders -/

/-- Every builder sets the tag once if no member is called like it. -/
theorem DataClass.filter_sources {k : DataClass} (h : ∀ x ∈ k.members, x.name ≠ tagMember)
    {b : Builder} (hb : b ∈ k.builders) :
    b.sources.filter (·.1 = tagMember) = [(tagMember, .tag k.tag)] := by
  -- no member is called like the tag, so each builder sets it once, in front
  have hdefault : ∀ xs : List Member, (∀ x ∈ xs, x.name ≠ tagMember) →
      (xs.map byDefault).filter (·.1 = tagMember) = [] := by
    intro xs hxs
    rw [List.filter_map, List.map_eq_nil_iff, List.filter_eq_nil_iff]
    exact fun x hx htag => hxs x hx (of_decide_eq_true htag)
  have hparameter : (k.fields.map byParameter).filter (·.1 = tagMember) = [] := by
    rw [List.filter_map, List.map_eq_nil_iff, List.filter_eq_nil_iff]
    exact fun x hx htag => h x (List.mem_append_left _ hx) (of_decide_eq_true htag)
  have hattributes := hdefault k.attributes fun x hx => h x (List.mem_append_right _ hx)
  have hfields : k.fromFields.sources.filter (·.1 = tagMember) = [(tagMember, .tag k.tag)] := by
    rw [fromFields, List.filter_cons_of_pos (by simp), List.filter_append, hparameter, hattributes]
    rfl
  have hnothing : k.fromNothing.sources.filter (·.1 = tagMember) = [(tagMember, .tag k.tag)] := by
    rw [fromNothing, List.filter_cons_of_pos (by simp), hdefault _ h]
  rcases mem_builders hb with rfl | rfl
  · exact hnothing
  · exact hfields

/-- The same of the builders as they are written. -/
theorem DataClass.filter_initialisers {k : DataClass} (h : ∀ x ∈ k.members, x.name ≠ tagMember)
    {w : BuilderText} (hw : w ∈ k.written.builders) :
    w.initialisers.filter (·.1 = "tag") = [("tag", k.tag.spelling)] := by
  obtain ⟨b, hb, rfl⟩ := List.mem_map.mp hw
  have hsources := congrArg (List.map fun y => (y.1, y.2.spelling)) (filter_sources h hb)
  rw [Builder.written, List.filter_map]
  exact hsources

theorem DataClass.builders_ne_nil (k : DataClass) : k.written.builders ≠ [] := by
  rw [DataClass.written, builders]
  split <;> simp

/-! ### Switches -/

theorem filterMap_switch?_dispatchItems (t : CompoundSum) :
    (dispatchItems t).filterMap Item.switch? = treeNames.map (switchOf t) := by
  simp [dispatchItems, TreeMethod.all, treeNames, List.filterMap_cons, Item.switch?, switchOf,
    casesOf, classOf_eq, TreeMethod.spelling, Function.comp_def]

namespace Context

theorem filterMap_switch?_treeItems (c : Context) (cls : String) (fields attributes) :
    (c.treeItems cls fields attributes).filterMap Item.switch? = [] := by
  rw [treeItems]
  cases c.options.hasHook cls <;> rfl

theorem filterMap_switch?_bodyItemsOf (c : Context) (d : Model.Definition) :
    (c.bodyItemsOf d).filterMap Item.switch? =
      if c.options.treeMethods then
        d.compoundSum?.toList.flatMap fun t => treeNames.map (switchOf t)
      else [] := by
  have hfunctions : (c.functionItems d).filterMap Item.switch? = [] := by
    cases d <;> rfl
  rw [bodyItemsOf, List.filterMap_append, hfunctions, List.nil_append]
  split
  · cases d with
    | simpleSum t => rfl
    | compoundSum t =>
      rw [methodItems, List.filterMap_append, List.filterMap_flatMap,
        filterMap_switch?_dispatchItems]
      simp [filterMap_switch?_treeItems, Model.Definition.compoundSum?]
    | product p =>
      rw [methodItems, filterMap_switch?_treeItems]
      rfl
  · rfl

/-- The switches are those of the compound sums, in order. -/
theorem filterMap_switch? (c : Context) :
    c.bodyItems.filterMap Item.switch? =
      if c.options.treeMethods then
        c.model.compoundSums.flatMap fun t => treeNames.map (switchOf t)
      else [] := by
  rw [bodyItems, List.filterMap_flatMap]
  simp only [filterMap_switch?_bodyItemsOf]
  split
  · rw [Model.compoundSums, List.filterMap_eq_flatMap_toList, List.flatMap_assoc]
  · simp

variable {s : Schema} {c : Context} {t : CompoundSum}

/-! ### Each site -/

theorem filter_spaces (h : Model.Resolves s c.model) (ht : t ∈ c.model.compoundSums) :
    (c.declarationItems.filterMap Item.space?).filter (·.1 = t.name ++ "_e") =
      [(t.name ++ "_e", t.variants.map fun v => (v.name, v.tag))] := by
  have hmem : (enumName t.name, t.variants.map fun v => (v.name, v.tag)) ∈
      c.declarationItems.filterMap Item.space? := by
    rw [filterMap_space?]
    exact List.mem_filterMap.mpr ⟨_, Model.Resolves.mem_definitions_of_compoundSum ht, rfl⟩
  exact filter_eq_singleton (nodup_spaces h) hmem

/-- The namespace of the tags is among the first declarations. -/
theorem constants_mem_declarationItems (ht : t ∈ c.model.compoundSums) :
    .constants (t.name ++ "_e") (t.variants.map fun v => (v.name, v.tag)) ∈
      c.declarationItems := by
  refine List.mem_append_left _ (List.mem_append_left _ (List.mem_flatMap.mpr ?_))
  exact ⟨_, Model.Resolves.mem_definitions_of_compoundSum ht, List.mem_cons_self⟩

theorem entries_tagTablesOf_perm (h : Model.Resolves s c.model) :
    (tagTablesOf c.model).entries.Perm
      (c.model.compoundSums.map fun t => (typeName t.name, tagTableOf t)) := by
  refine SortedMap.entries_ofList_perm ?_
  rw [List.map_map]
  exact h.nodup_typeNames

theorem find?_tagTablesOf (h : Model.Resolves s c.model) (ht : t ∈ c.model.compoundSums) :
    (tagTablesOf c.model).find? (t.name ++ "_t") = some (tagTableOf t) := by
  rw [SortedMap.find?_eq_some, (entries_tagTablesOf_perm h).mem_iff]
  exact List.mem_map.mpr ⟨t, ht, rfl⟩

theorem entries_tagTableOf_perm (h : Model.Resolves s c.model) (ht : t ∈ c.model.compoundSums) :
    (tagTableOf t).entries.Perm (t.variants.map fun v => (v.tag, variantClass t.name v)) := by
  simp only [← classOf_eq]
  refine SortedMap.entries_ofList_perm ?_
  rw [List.map_map]
  exact h.nodup_tags ht

/-- Of all switches, those under the name of one sum are its own. -/
theorem filter_switches (h : Model.Resolves s c.model) (ht : t ∈ c.model.compoundSums) :
    (c.bodyItems.filterMap Item.switch?).filter (·.cls = t.name ++ "_t") =
      if c.options.treeMethods then treeNames.map (switchOf t) else [] := by
  rw [filterMap_switch?]
  split
  · have hcls : ∀ u : CompoundSum, ∀ w ∈ treeNames.map (switchOf u),
        decide (w.cls = t.name ++ "_t") = decide (u.name = t.name) := by
      intro u w hw
      obtain ⟨method, -, rfl⟩ := List.mem_map.mp hw
      exact decide_eq_decide.mpr typeName_inj
    rw [filter_flatMap_of_forall hcls, filter_eq_singleton h.nodup_compoundSums ht]
    exact List.flatMap_singleton _ _
  · rfl

/-- The constant of a variant stands for its tag. -/
theorem denotes_constant (h : Model.Resolves s c.model) (ht : t ∈ c.model.compoundSums)
    {v : Model.Variant} (hv : v ∈ t.variants) :
    Denotes (c.declarationItems.filterMap Item.space?)
      ("static_cast<uint16_t>(" ++ (t.name ++ "_e") ++ "::" ++ v.name ++ ")") v.tag := by
  have hspace : (t.name ++ "_e", t.variants.map fun v => (v.name, v.tag)) ∈
      c.declarationItems.filterMap Item.space? :=
    (List.mem_filter.mp (filter_spaces h ht ▸ List.mem_singleton_self _)).1
  have hnames : ((t.variants.map fun v => (v.name, v.tag)).map Prod.fst).Nodup := by
    rw [List.map_map]
    exact h.nodup_variants ht
  have hbounds := h.variant_tag_bounds ht hv
  refine .constant ?_ (by omega)
  rw [lookup_eq_some (nodup_spaces h) hspace, Option.bind_some]
  exact lookup_eq_some hnames (List.mem_map.mpr ⟨v, hv, rfl⟩)

theorem mem_constructorClass (ht : t ∈ c.model.compoundSums) {k : Model.Constructor}
    (hk : .constructor k ∈ t.variants) :
    c.constructorClass t k ∈ c.declarationItems.filterMap Item.dataClass? := by
  rw [filterMap_dataClass?]
  have hk : k ∈ t.constructors := CompoundSum.mem_constructors.mpr hk
  exact List.mem_append_left _ (List.mem_flatMap.mpr ⟨t, ht, List.mem_map.mpr ⟨k, hk, rfl⟩⟩)

theorem mem_productClass {p : Model.Product} (hp : p ∈ c.model.products) :
    c.productClass p ∈ c.declarationItems.filterMap Item.dataClass? := by
  rw [filterMap_dataClass?]
  exact List.mem_append_right _ (List.mem_map.mpr ⟨p, hp, rfl⟩)

/-- Fields keep their names as members. -/
theorem memberOf_ne_tagMember {fs as : List Model.Field}
    (h : (tagMember :: (fs ++ as).map Model.Field.name).Nodup) :
    ∀ x ∈ fs.map c.memberOf ++ as.map c.memberOf, x.name ≠ tagMember := by
  intro x hx htag
  rw [← List.map_append] at hx
  obtain ⟨f, hf, rfl⟩ := List.mem_map.mp hx
  exact (List.nodup_cons.mp h).1 (List.mem_map.mpr ⟨f, hf, htag⟩)

/-- The class of a variant: its bases and its tag. -/
theorem exists_class (h : Model.Resolves s c.model) (ht : t ∈ c.model.compoundSums)
    {v : Model.Variant} (hv : v ∈ t.variants) :
    ∃ k ∈ c.declarationItems.filterMap Item.dataClass?, k.name = variantClass t.name v ∧
      t.name ++ "_t" ∈ k.bases ∧ (∀ x ∈ k.members, x.name ≠ tagMember) ∧
      Denotes (c.declarationItems.filterMap Item.space?) k.tag.spelling v.tag := by
  cases v with
  | constructor k =>
    refine ⟨c.constructorClass t k, mem_constructorClass ht hv, rfl, List.mem_singleton_self _,
      memberOf_ne_tagMember (h.constructor_members ht hv), ?_⟩
    exact denotes_constant h ht hv
  -- the class is that of the product, which derives from the sum and carries the same tag
  | shared v =>
    obtain ⟨p, hp, hname, htag, hbase⟩ := h.exists_shared_product ht hv
    refine ⟨c.productClass p, mem_productClass hp, hname, ?_,
      memberOf_ne_tagMember (h.product_members hp), ?_⟩
    · show typeName t.name ∈ basesOf p
      rw [basesOf, if_neg (by simpa using List.ne_nil_of_mem hbase)]
      exact List.mem_map.mpr ⟨t.name, hbase, rfl⟩
    · show Denotes _ p.tag.repr v.tag
      have hle : v.tag ≤ 65535 := (h.variant_tag_bounds ht hv).2
      rw [htag]
      exact .number (by omega)

/-- No class is written twice. -/
theorem nodup_written (h : Model.Resolves s c.model) :
    ((c.declarationItems.filterMap Item.written?).map WrittenClass.name).Nodup := by
  rw [filterMap_written?_eq, List.map_map]
  exact nodup_dataClasses h

end Context

/-! ### Headers -/

/-- The classes with data of a header are those of its declarations. -/
theorem filterMap_written?_headerItems {s : Schema} {m : Model} (h : Model.Resolves s m)
    (o : Options) :
    (headerItems m o).filterMap Item.written? =
      (Context.declarationItems ⟨m, o⟩).filterMap Item.written? := by
  rw [← declaredItems_eq h]
  refine filterMap_of_isDeclaration m o fun i hi => ?_
  cases i with
  | dataClass k => cases hi
  | _ => rfl

theorem sitesAgree {s : Schema} {m : Model} (h : Model.Resolves s m) (o : Options)
    {t : CompoundSum} (ht : t ∈ m.compoundSums) :
    SitesAgree o.treeMethods (headerItems m o) (Context.tagTablesOf m) t := by
  let c : Context := ⟨m, o⟩
  -- each site is looked for in the whole header and found in its own section
  have hspaces : (headerItems m o).filterMap Item.space? =
      c.declarationItems.filterMap Item.space? := by
    rw [← declaredItems_eq h]
    refine filterMap_of_isDeclaration m o fun i hi => ?_
    cases i with
    | constants name values => cases hi
    | enumeration name values => cases hi
    | _ => rfl
  have hswitches : (headerItems m o).filterMap Item.switch? =
      c.bodyItems.filterMap Item.switch? := by
    rw [← definedItems_eq]
    refine filterMap_of_isBody h o fun i hi => ?_
    cases i with
    | dispatcher sum method cases => cases hi
    | _ => rfl
  exact {
    constants := ⟨h.nodup_variants ht, hspaces ▸ Context.filter_spaces (c := c) h ht⟩
    constantLines := by
      have hitem := Context.constants_mem_declarationItems (c := c) ht
      refine ⟨.constants _ _, ?_, rfl, ?_⟩
      · rw [headerItems_eq h]
        exact List.mem_append_left _ (List.mem_append_right _ hitem)
      · rw [Item.spelling, List.map_map]
        rfl
    table := ⟨_, Context.find?_tagTablesOf (c := c) h ht,
      Context.entries_tagTableOf_perm (c := c) h ht⟩
    switches := hswitches ▸ Context.filter_switches (c := c) h ht
    classes := by
      intro v hv
      obtain ⟨k, hk, hname, hbase, hmembers, hdenotes⟩ := Context.exists_class (c := c) h ht hv
      have hmem : k.written ∈ c.declarationItems.filterMap Item.written? := by
        rw [filterMap_written?_eq]
        exact List.mem_map_of_mem hk
      refine ⟨k.written, k.bases, ?_, rfl, hbase, k.builders_ne_nil, fun b hb => ?_⟩
      · rw [filterMap_written?_headerItems h, ← hname]
        exact filter_eq_singleton (Context.nodup_written h) hmem
      · exact ⟨_, DataClass.filter_initialisers hmembers hb, hspaces ▸ hdenotes⟩ }

/-- **All parts of a header agree on the classes of its compound sums.**  The header is
spelled from its items, switches and classes are spelled as they are read back, and there
are tables for the compound sums only. -/
theorem generate_sitesAgree {s : Schema} {m : Model} (hm : Model.ofSchema s = .ok m)
    (o : Options) :
    let tables := ((Context.declarations ⟨m, o⟩).walk {} m).state.tags
    (∃ out, (generate m o).result = .ok out ∧ out.code = spell (headerItems m o) ∧
      out.tags = if o.sidecar then some tables else none) ∧
    (∀ i ∈ headerItems m o, (∀ w, i.switch? = some w → i.spelling = w.lines) ∧
      ∀ w, i.written? = some w → i.spelling = w.lines) ∧
    tables.keys.Perm (m.compoundSums.map fun t => t.name ++ "_t") ∧
    ∀ t ∈ m.compoundSums, SitesAgree o.treeMethods (headerItems m o) tables t := by
  intro tables
  have h := Model.ofSchema_eq_ok.mp hm
  -- the tables that the walk leaves are those of the model, sum by sum
  have htables : tables = Context.tagTablesOf m := by
    have hwalk := Context.walk_declarations (c := ⟨m, o⟩) h
    exact congrArg (fun step => step.state.tags) hwalk
  refine ⟨?_, fun i _ => ⟨fun w hw => ?_, fun w hw => ?_⟩, ?_, fun t ht => ?_⟩
  · obtain ⟨out, hout, hcode⟩ := exists_code_spelled h o
    have hresult := (result_generate h o).symm.trans hout
    refine ⟨out, hout, hcode, ?_⟩
    rw [htables, ← Except.ok.inj hresult]
  · rw [← i.lines_eq_spelling, Item.lines_of_switch? hw]
  · rw [← i.lines_eq_spelling, Item.lines_of_written? hw]
  · rw [htables]
    have hkeys := (Context.entries_tagTablesOf_perm (c := ⟨m, o⟩) h).map Prod.fst
    rw [List.map_map] at hkeys
    exact hkeys
  · rw [htables]
    exact sitesAgree h o ht

/-- A constructor, a shared product that is defined later, and another constructor. -/
theorem sharingModule_sitesAgree :
    ∃ m t, Model.ofSchema Model.sharingModule = .ok m ∧ t ∈ m.compoundSums ∧
      (t.variants.map fun v => (v.name, v.tag, variantClass t.name v)) =
        [("Call", 1, "Expr__Call"), ("Lit", 1001, "Token"), ("Nil", 3, "Expr__Nil")] ∧
      SitesAgree true (headerItems m {})
        ((Context.declarations ⟨m, {}⟩).walk {} m).state.tags t := by
  have hclasses : (fun m : Model => m.compoundSums.map fun t =>
        t.variants.map fun v => (v.name, v.tag, variantClass t.name v)) <$>
      Model.ofSchema Model.sharingModule =
        .ok [[("Call", 1, "Expr__Call"), ("Lit", 1001, "Token"), ("Nil", 3, "Expr__Nil")]] := by
    rfl
  obtain ⟨m, hm, hclasses⟩ := map_eq_ok.mp hclasses
  obtain ⟨t, hsums, ht⟩ := List.map_eq_singleton_iff.mp hclasses
  have hmem : t ∈ m.compoundSums := by rw [hsums]; exact List.mem_singleton_self _
  exact ⟨m, t, hm, hmem, ht, (generate_sitesAgree hm {}).2.2.2 t hmem⟩

end Header

end Asdl
