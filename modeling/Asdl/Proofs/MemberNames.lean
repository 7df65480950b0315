/-
When the members of a generated class have different names.

A class with data declares its tag, its fields, the attributes of its sum and, unless the
options leave them out, three methods that build trees.  The checks on a schema keep the
fields and the attributes apart from each other and from the tag, but they do not know the
methods:

* `WrittenClass.memberNames` — what a class declares, as it is read back from an item;
* `exists_isClass`, `exists_data` — the classes of a header and the classes of
  the schema have the same members;
* `memberNames_differ_iff` — the declared names are different exactly if no field and no
  attribute is named like a method that is declared;
* `treeishModule_memberNames` — there is a module with such a field.

Design notes: a variant of a mere enumeration counts as a class of the schema, but one
without members, so nothing is asked of it.
-/
import Asdl.Proofs.DataClasses
import Asdl.Proofs.Defects

namespace Asdl

namespace Header

/-! ### Declared names -/

namespace WrittenClass

/-- The names that a class declares: its members and its methods. -/
def memberNames (w : WrittenClass) : List String :=
  w.members.map Prod.snd ++ if w.treeMethods then treeNames else []

/-- The lines that declare these names, in the same order. -/
def declarations (w : WrittenClass) : List Line :=
  w.members.map (fun m => ⟨1, m.1 ++ " " ++ m.2 ++ ";"⟩)
    ++ if w.treeMethods then treeNames.map fun n => ⟨1, "hnode_t* " ++ n ++ "();"⟩ else []

theorem lines_eq (w : WrittenClass) : w.lines = w.opening ++ w.declarations ++ w.closing := by
  rw [WrittenClass.lines, opening, declarations, ← List.append_assoc]
  rfl

end WrittenClass

/-- The names of the fields and the attributes of a class. -/
def ClassData.names (d : ClassData) : List String :=
  (d.fields ++ d.attributes).map Model.Field.name

/-- The names that a class declares, against the fields and the attributes it is made from. -/
structure NamesDeclared (o : Options) (d : ClassData) (w : WrittenClass) : Prop where
  names : w.memberNames = "tag" :: d.names ++ if o.treeMethods then treeNames else []
  /-- They are different iff no field or attribute has the name of a declared method. -/
  differ : w.memberNames.Nodup ↔ (o.treeMethods = true → ∀ n ∈ d.names, n ∉ treeNames)

theorem tag_not_mem_treeNames : "tag" ∉ treeNames := by decide

section

variable {c : Context} {d : ClassData} {k : DataClass}

/-- **Members and methods are apart** iff no member has the name of a method: the members
are apart from each other in any case. -/
theorem namesDeclared_written (hfields : k.fields = d.fields.map c.memberOf)
    (hattributes : k.attributes = d.attributes.map c.memberOf)
    (hmethods : k.treeMethods = c.options.treeMethods)
    (hdistinct : (tagMember :: d.names).Nodup) : NamesDeclared c.options d k.written := by
  have hnames : k.written.memberNames =
      "tag" :: d.names ++ if c.options.treeMethods then treeNames else [] := by
    have htree : k.written.treeMethods = c.options.treeMethods := hmethods
    rw [WrittenClass.memberNames, Context.written_members hfields hattributes, htree,
      List.map_cons, List.map_map]
    rfl
  refine ⟨hnames, ?_⟩
  rw [hnames]
  -- data members differ by assumption and methods by their names, so only a clash between
  -- the two can spoil the list
  by_cases htree : c.options.treeMethods = true
  · simp only [htree, if_true, forall_const]
    rw [List.nodup_append', List.disjoint_left]
    constructor
    · rintro ⟨-, -, hapart⟩ n hn
      exact hapart (List.mem_cons_of_mem _ hn)
    · intro hapart
      refine ⟨hdistinct, nodup_treeNames, fun n hn => ?_⟩
      rcases List.mem_cons.mp hn with rfl | hn
      · exact tag_not_mem_treeNames
      · exact hapart n hn
  · simp only [htree, Bool.false_eq_true, if_false, List.append_nil, false_implies, iff_true]
    exact hdistinct

end

/-! ### Classes of the schema -/

section

variable {s : Schema} {m : Model}

/-- Fields and attributes keep their names when they are resolved. -/
theorem ClassData.names_of_resolved {d : ClassData} {sc : Model.Scope} {owner owner' : String}
    {fields attributes : List Field} (hfields : sc.resolveFields owner fields = .ok d.fields)
    (hattributes : sc.resolveFields owner' attributes = .ok d.attributes) :
    d.names = (fields ++ attributes).map Field.name := by
  rw [ClassData.names, List.map_append, List.map_append,
    Model.Resolves.resolveFields_map_name hfields,
    Model.Resolves.resolveFields_map_name hattributes]

/-- A constructor has the members of the variant that it comes from. -/
theorem exists_variant (h : Model.Resolves s m) {t : Model.CompoundSum} (ht : t ∈ m.compoundSums)
    {k : Model.Constructor} (hk : k ∈ t.constructors) :
    ∃ u ∈ s.sums, ∃ v ∈ u.variants, v.shared = none ∧
      (constructorData t k).names = (v.fields ++ u.attributes).map Field.name := by
  obtain ⟨u, hu, hres, -⟩ := h.exists_checked_sum ht
  obtain ⟨-, hvs, has, -⟩ := Model.Scope.resolveCompound_eq_ok.mp hres
  obtain ⟨⟨v, i⟩, hv, hvk⟩ :=
    exists_mem_left (mapM_eq_ok.mp hvs) (Model.CompoundSum.mem_constructors.mp hk)
  rcases Model.Scope.resolveVariant_eq_ok.mp hvk with ⟨p, -, hkp⟩ | ⟨hshared, fs, hfs, hkfs⟩
  · cases hkp
  · cases hkfs
    exact ⟨u, hu, v, List.fst_mem_of_mem_zipIdx hv, hshared,
      ClassData.names_of_resolved hfs has⟩

/-- A variant that shares nothing becomes a constructor with the same members. -/
theorem exists_constructor (h : Model.Resolves s m) {u : Sum} (hu : u ∈ s.sums)
    (hcompound : u.isSimple = false) {v : Variant} (hv : v ∈ u.variants)
    (hshared : v.shared = none) :
    ∃ t ∈ m.compoundSums, ∃ k ∈ t.constructors,
      (constructorData t k).names = (v.fields ++ u.attributes).map Field.name := by
  have hfilter : u ∈ s.sums.filter (!·.isSimple) :=
    List.mem_filter.mpr ⟨hu, by rw [hcompound]; rfl⟩
  obtain ⟨t, ht, hres⟩ := exists_mem_right h.compoundSums hfilter
  obtain ⟨-, hvs, has, -⟩ := Model.Scope.resolveCompound_eq_ok.mp hres
  -- the variant is resolved together with its number
  have hmem : v ∈ (u.variants.zipIdx 1).map Prod.fst := by rwa [List.zipIdx_map_fst]
  obtain ⟨⟨v, i⟩, hvi, rfl⟩ := List.mem_map.mp hmem
  obtain ⟨w, hw, hvw⟩ := exists_mem_right (mapM_eq_ok.mp hvs) hvi
  rcases Model.Scope.resolveVariant_eq_ok.mp hvw with ⟨p, hp, -⟩ | ⟨-, fs, hfs, rfl⟩
  · rw [hshared] at hp
    cases hp
  · exact ⟨t, ht, _, Model.CompoundSum.mem_constructors.mpr hw,
      ClassData.names_of_resolved hfs has⟩

/-- A product keeps its members. -/
theorem names_productData {p : Product} {q : Model.Product}
    (hq : (Model.Scope.ofSchema s).resolveProduct p = .ok q) :
    (productData q).names = (p.fields ++ p.attributes).map Field.name := by
  obtain ⟨hfs, has, -⟩ := Model.Scope.resolveProduct_eq_ok.mp hq
  exact ClassData.names_of_resolved hfs has

theorem mem_declaredData {d : ClassData} :
    d ∈ declaredData m ↔
      (∃ t ∈ m.compoundSums, ∃ k ∈ t.constructors, d = constructorData t k) ∨
        ∃ p ∈ m.products, d = productData p := by
  simp only [declaredData, dataOf, List.mem_append, List.mem_flatMap, List.mem_map,
    List.mem_singleton, eq_comm]

/-- Every class of the header is one of the schema. -/
theorem exists_isClass (h : Model.Resolves s m) {d : ClassData} (hd : d ∈ declaredData m) :
    ∃ owner members, s.IsClass owner members ∧ d.names = members.map Field.name := by
  rcases mem_declaredData.mp hd with ⟨t, ht, k, hk, rfl⟩ | ⟨q, hq, rfl⟩
  · obtain ⟨u, hu, v, hv, hshared, hnames⟩ := exists_variant h ht hk
    exact ⟨v.name, _, .variant hu hv hshared, hnames⟩
  · obtain ⟨p, hp, hres⟩ := exists_mem_left h.products hq
    exact ⟨p.name, _, .product hp, names_productData hres⟩

/-- Every class of the schema that has members is one of the header. -/
theorem exists_data (h : Model.Resolves s m) {owner : String}
    {members : List Field} (hc : s.IsClass owner members) (hne : members ≠ []) :
    ∃ d ∈ declaredData m, d.names = members.map Field.name := by
  cases hc with
  | @product p hp =>
    obtain ⟨q, hq, hres⟩ := exists_mem_right h.products hp
    exact ⟨_, mem_declaredData.mpr (.inr ⟨q, hq, rfl⟩), names_productData hres⟩
  | @variant u v hu hv hshared =>
    by_cases hsimple : u.isSimple = true
    · obtain ⟨hfields, hattributes⟩ := Model.Scope.fields_of_isSimple hsimple
      rw [hfields v hv, hattributes] at hne
      exact absurd rfl hne
    · obtain ⟨t, ht, k, hk, hnames⟩ := exists_constructor h hu (by simpa using hsimple) hv hshared
      exact ⟨_, mem_declaredData.mpr (.inl ⟨t, ht, k, hk, rfl⟩), hnames⟩

/-! ### Classes of a header -/

theorem namesDeclared (h : Model.Resolves s m) (o : Options) :
    List.Forall₂ (NamesDeclared o) (declaredData m)
      ((headerItems m o).filterMap Item.written?) := by
  apply forall₂_declaredData h o
  · intro t ht k hk
    exact namesDeclared_written (c := ⟨m, o⟩) rfl rfl rfl
      (h.constructor_members ht (Model.CompoundSum.mem_constructors.mp hk))
  · intro p hp
    exact namesDeclared_written (c := ⟨m, o⟩) rfl rfl rfl (h.product_members hp)

/-- **Names of members clash with those of methods only.**  The classes with data are
written as they are read back, each declares its tag, its fields, its attributes and the
methods that the options ask for, and the names in each are different iff no field and no
attribute of the schema has the name of a method that is declared. -/
theorem memberNames_differ_iff {s : Schema} {m : Model} (hm : Model.ofSchema s = .ok m)
    (o : Options) :
    (∃ out, (generate m o).result = .ok out ∧ out.code = itemsText (headerItems m o)) ∧
    (∀ i ∈ headerItems m o, ∀ w, i.written? = some w →
      i.lines = w.opening ++ w.declarations ++ w.closing) ∧
    List.Forall₂ (NamesDeclared o) (declaredData m) ((headerItems m o).filterMap Item.written?) ∧
    ((∀ w ∈ (headerItems m o).filterMap Item.written?, w.memberNames.Nodup) ↔
      (o.treeMethods = true → ∀ owner members, s.IsClass owner members →
        ∀ f ∈ members, f.name ∉ treeNames)) := by
  have h := Model.ofSchema_eq_ok.mp hm
  have hnames := namesDeclared h o
  refine ⟨exists_code_eq h o, fun i _ w hw => ?_, hnames, ?_, ?_⟩
  · rw [Item.lines_of_written? hw, w.lines_eq]
  · intro hdiffer htree owner members hc f hf
    -- a variant of a simple sum is no class of the header, but then it has no members
    obtain ⟨d, hd, hmembers⟩ := exists_data h hc (List.ne_nil_of_mem hf)
    obtain ⟨w, hw, hdw⟩ := exists_mem_right hnames hd
    apply hdw.differ.mp (hdiffer w hw) htree
    rw [hmembers]
    exact List.mem_map_of_mem hf
  · intro hapart w hw
    obtain ⟨d, hd, hdw⟩ := exists_mem_left hnames hw
    obtain ⟨owner, members, hc, hmembers⟩ := exists_isClass h hd
    refine hdw.differ.mpr fun htree n hn => ?_
    rw [hmembers] at hn
    obtain ⟨f, hf, rfl⟩ := List.mem_map.mp hn
    exact hapart htree owner members hc f hf

/-- A product with a field that is named like a method, beside a sum without such a name. -/
def treeishModule : Schema where
  name := "m"
  uses := []
  definitions := [
    .product ⟨"P", [⟨"PrettyTree", .named "int" .scalar⟩], []⟩,
    .sum ⟨"E", [⟨"A", [⟨"x", .named "int" .scalar⟩], none⟩, ⟨"B", [], none⟩],
      [⟨"Tree", .named "P" .optional⟩]⟩]

/-- The module is accepted, and one of its classes declares a name twice. -/
theorem treeishModule_memberNames :
    ∃ m, Model.ofSchema treeishModule = .ok m ∧
      ((headerItems m {}).filterMap Item.written?).map (fun w => (w.name, w.memberNames)) =
        [("E__A", ["tag", "x", "Tree", "PrettyTree", "_AbbreviatedTree", "AbbreviatedTree"]),
          ("E__B", ["tag", "Tree", "PrettyTree", "_AbbreviatedTree", "AbbreviatedTree"]),
          ("P", ["tag", "PrettyTree", "PrettyTree", "_AbbreviatedTree", "AbbreviatedTree"])] :=
  map_eq_ok.mp rfl

theorem treeishModule_differ_iff :
    ∃ m, Model.ofSchema treeishModule = .ok m ∧
      (∃ w ∈ (headerItems m {}).filterMap Item.written?, ¬ w.memberNames.Nodup) ∧
      ∀ w ∈ (headerItems m { treeMethods := false }).filterMap Item.written?,
        w.memberNames.Nodup := by
  obtain ⟨m, hm, -⟩ : ∃ m, Model.ofSchema treeishModule = .ok m ∧ m.name = "m" := map_eq_ok.mp rfl
  refine ⟨m, hm, ?_, (memberNames_differ_iff hm _).2.2.2.mpr fun h => by cases h⟩
  have hp : treeishModule.IsClass "P" [⟨"PrettyTree", .named "int" .scalar⟩] :=
    .product (p := ⟨"P", [⟨"PrettyTree", .named "int" .scalar⟩], []⟩) List.mem_cons_self
  by_contra hnone
  push Not at hnone
  exact (memberNames_differ_iff hm {}).2.2.2.mp hnone rfl _ _ hp _ (List.mem_singleton_self _)
    (by decide)

end

end Header

end Asdl
