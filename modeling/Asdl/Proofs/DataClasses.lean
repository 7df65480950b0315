/-
How values of the generated classes are built.

A class with data is written with its members and with one or two builders.  The members,
the builder that takes the fields and the one that takes nothing are written by three
walks over fields and attributes, and the walks stay in step:

* `ClassData`, `dataOf` — the classes with data that a definition leads to;
* `Context.fieldBuilder`, `Context.emptyBuilder` — building from the fields, and from
  nothing at all, and `Context.classText` — the whole class;
* `WellBuilt` — what holds of the members and the builders of a class;
* `generate_buildersAligned` — it holds of every class of every header.

Design notes: a class without fields has one builder only, and that one takes nothing.
So a builder without parameters is always there, and two builders never take the same.
-/
import Asdl.Proofs.Agreement

namespace Asdl

namespace Header

open Model (CompoundSum)

/-! ### Classes of a model -/

/-- What a class with data is made from; the tag as it is written. -/
structure ClassData where
  name : String
  tag : String
  fields : List Model.Field
  attributes : List Model.Field

def constructorData (t : CompoundSum) (k : Model.Constructor) : ClassData where
  name := t.name ++ "__" ++ k.name
  tag := "static_cast<uint16_t>(" ++ (t.name ++ "_e") ++ "::" ++ k.name ++ ")"
  fields := k.fields
  attributes := t.attributes

def productData (p : Model.Product) : ClassData := ⟨p.name, p.tag.repr, p.fields, p.attributes⟩

/-- The classes with data of a definition. -/
def dataOf : Model.Definition → List ClassData
  | .simpleSum _ => []
  | .compoundSum t => t.constructors.map (constructorData t)
  | .product p => [productData p]

/-- The classes with data in the order of their declarations: products come last. -/
def declaredData (m : Model) : List ClassData :=
  (m.compoundSums.flatMap fun t => dataOf (.compoundSum t))
    ++ m.products.flatMap fun p => dataOf (.product p)

/-! ### What a class should look like -/

namespace Context

/-- Building from the fields: each field is a parameter and is set to it, each attribute
to its initial value. -/
def fieldBuilder (c : Context) (d : ClassData) : BuilderText where
  parameters := d.fields.map fun f => ((c.member f.type).spelling, f.name)
  initialisers := ("tag", d.tag) :: (d.fields.map (fun f => (f.name, f.name))
    ++ d.attributes.map fun f => (f.name, (c.initial f.type).spelling))

/-- Building from nothing: each member is set to its initial value. -/
def emptyBuilder (c : Context) (d : ClassData) : BuilderText where
  parameters := []
  initialisers := ("tag", d.tag) :: (d.fields ++ d.attributes).map
    fun f => (f.name, (c.initial f.type).spelling)

/-- The class that is made from its data, as it is written. -/
def classText (c : Context) (d : ClassData) (bases : List String) : WrittenClass where
  name := d.name
  bases := ", ".intercalate (bases.map ("public " ++ ·))
  builders := if d.fields = [] then [c.fieldBuilder d] else [c.emptyBuilder d, c.fieldBuilder d]
  members := ("uint16_t", "tag") :: (d.fields ++ d.attributes).map
    fun f => ((c.member f.type).spelling, f.name)
  treeMethods := c.options.treeMethods

end Context

/-- The members and the builders of a class are in step. -/
structure WellBuilt (c : Context) (d : ClassData) (w : WrittenClass) : Prop where
  name : w.name = d.name
  members : w.members = ("uint16_t", "tag") :: (d.fields ++ d.attributes).map
    fun f => ((c.member f.type).spelling, f.name)
  distinct : (w.members.map Prod.snd).Nodup
  builders : w.builders =
    if d.fields = [] then [c.fieldBuilder d] else [c.emptyBuilder d, c.fieldBuilder d]
  /-- Every builder sets each member once, in the order of the members. -/
  aligned : ∀ b ∈ w.builders, b.initialisers.map Prod.fst = w.members.map Prod.snd
  /-- No two builders take parameters of the same types. -/
  differ : (w.builders.map fun b => b.parameters.map Prod.fst).Nodup
  callable : ∃ b ∈ w.builders, b.parameters = []

namespace Context

variable {c : Context} {d : ClassData}

theorem aligned_fieldBuilder :
    (c.fieldBuilder d).initialisers.map Prod.fst =
      "tag" :: (d.fields ++ d.attributes).map Model.Field.name := by
  simp [fieldBuilder, Function.comp_def]

theorem aligned_emptyBuilder :
    (c.emptyBuilder d).initialisers.map Prod.fst =
      "tag" :: (d.fields ++ d.attributes).map Model.Field.name := by
  simp [emptyBuilder, Function.comp_def]

/-! ### Classes of a header -/

section

variable {k : DataClass} (hfields : k.fields = d.fields.map c.memberOf)
  (hattributes : k.attributes = d.attributes.map c.memberOf)

include hfields hattributes

theorem written_members :
    k.written.members = ("uint16_t", "tag") :: (d.fields ++ d.attributes).map
      fun f => ((c.member f.type).spelling, f.name) := by
  rw [DataClass.written, DataClass.members, hfields, hattributes, ← List.map_append, List.map_map]
  rfl

theorem written_builders (htag : k.tag.spelling = d.tag) :
    k.written.builders =
      if d.fields = [] then [c.fieldBuilder d] else [c.emptyBuilder d, c.fieldBuilder d] := by
  have hfrom : k.fromFields.written = c.fieldBuilder d := by
    simp [DataClass.fromFields, Builder.written, fieldBuilder, hfields, hattributes,
      DataClass.byParameter, DataClass.byDefault, Source.spelling, htag, tagMember, memberOf,
      Function.comp_def]
  have hnothing : k.fromNothing.written = c.emptyBuilder d := by
    simp [DataClass.fromNothing, Builder.written, emptyBuilder, DataClass.members, hfields,
      hattributes, DataClass.byDefault, Source.spelling, htag, tagMember, memberOf,
      Function.comp_def]
  -- without fields both ways to build a value have the same parameters, so one is left out
  have hempty : k.fields.isEmpty = decide (d.fields = []) := by
    rw [hfields, List.isEmpty_map, Bool.eq_iff_iff, List.isEmpty_iff, decide_eq_true_iff]
  rw [DataClass.written, DataClass.builders, hempty]
  by_cases hnone : d.fields = []
  · simp [hnone, hfrom]
  · simp [hnone, hfrom, hnothing]

theorem written_eq_classText (hname : k.name = d.name) (htag : k.tag.spelling = d.tag)
    (hmethods : k.treeMethods = c.options.treeMethods) :
    k.written = c.classText d k.bases := by
  have hparts : k.written = ⟨k.name, basesText k.bases, k.written.builders, k.written.members,
      k.treeMethods⟩ := rfl
  rw [hparts, written_members hfields hattributes, written_builders hfields hattributes htag, hname,
    hmethods]
  rfl

/-- **A class made from its data is well built** if the names of its members differ. -/
theorem wellBuilt_written (hname : k.name = d.name) (htag : k.tag.spelling = d.tag)
    (hdistinct : (tagMember :: (d.fields ++ d.attributes).map Model.Field.name).Nodup) :
    WellBuilt c d k.written := by
  have hmembers := written_members hfields hattributes
  have hbuilders := written_builders hfields hattributes htag
  have hnames : k.written.members.map Prod.snd =
      "tag" :: (d.fields ++ d.attributes).map Model.Field.name := by
    rw [hmembers, List.map_cons, List.map_map]
    rfl
  refine ⟨hname, hmembers, hnames ▸ hdistinct, hbuilders, ?_, ?_, ?_⟩
  · intro b hb
    rw [hnames]
    rw [hbuilders] at hb
    split at hb
    · rw [List.mem_singleton.mp hb]
      exact aligned_fieldBuilder
    · rcases List.mem_pair.mp hb with rfl | rfl
      · exact aligned_emptyBuilder
      · exact aligned_fieldBuilder
  · rw [hbuilders]
    split
    · exact List.nodup_singleton _
    · next hsome =>
      -- one of the two takes nothing and the other takes something
      simpa [emptyBuilder, fieldBuilder] using hsome
  · rw [hbuilders]
    split
    · next hnone => exact ⟨_, List.mem_singleton_self _, by rw [fieldBuilder, hnone]; rfl⟩
    · exact ⟨_, List.mem_cons_self, rfl⟩

end

variable {s : Schema}

theorem wellBuilt_constructorClass (h : Model.Resolves s c.model) {t : CompoundSum}
    (ht : t ∈ c.model.compoundSums) {k : Model.Constructor} (hk : k ∈ t.constructors) :
    WellBuilt c (constructorData t k) (c.constructorClass t k).written :=
  wellBuilt_written rfl rfl rfl rfl
    (h.constructor_members ht (CompoundSum.mem_constructors.mp hk))

theorem wellBuilt_productClass (h : Model.Resolves s c.model) {p : Model.Product}
    (hp : p ∈ c.model.products) : WellBuilt c (productData p) (c.productClass p).written :=
  wellBuilt_written rfl rfl rfl rfl (h.product_members hp)

theorem filterMap_written? (c : Context) :
    c.declarationItems.filterMap Item.written? =
      (c.model.compoundSums.flatMap fun t =>
          t.constructors.map fun k => (c.constructorClass t k).written)
        ++ c.model.products.map fun p => (c.productClass p).written := by
  rw [filterMap_written?_eq, filterMap_dataClass?, List.map_append, List.map_flatMap,
    List.map_map]
  simp only [List.map_map]
  rfl

end Context

/-- Lists that are made side by side from the same things correspond. -/
theorem forall₂_flatMap {α β γ : Type} {R : β → γ → Prop} {f : α → List β} {g : α → List γ}
    {xs : List α} (h : ∀ x ∈ xs, List.Forall₂ R (f x) (g x)) :
    List.Forall₂ R (xs.flatMap f) (xs.flatMap g) := by
  induction xs with
  | nil => exact .nil
  | cons x xs ih =>
    rw [List.flatMap_cons, List.flatMap_cons]
    exact List.rel_append (h x List.mem_cons_self) (ih fun y hy => h y (List.mem_cons_of_mem _ hy))

/-- What holds of each class made from its data holds along a whole header. -/
theorem forall₂_declaredData {s : Schema} {m : Model} (h : Model.Resolves s m) (o : Options)
    {R : ClassData → WrittenClass → Prop}
    (hconstructors : ∀ t ∈ m.compoundSums, ∀ k ∈ t.constructors,
      R (constructorData t k) ((⟨m, o⟩ : Context).constructorClass t k).written)
    (hproducts : ∀ p ∈ m.products, R (productData p) ((⟨m, o⟩ : Context).productClass p).written) :
    List.Forall₂ R (declaredData m) ((headerItems m o).filterMap Item.written?) := by
  rw [filterMap_written?_headerItems h, Context.filterMap_written?, declaredData,
    List.map_eq_flatMap (l := m.products)]
  refine List.rel_append (forall₂_flatMap fun t ht => ?_) (forall₂_flatMap fun p hp => ?_)
  · rw [dataOf, List.forall₂_map_left_iff, List.forall₂_map_right_iff, List.forall₂_same]
    exact hconstructors t ht
  · exact .cons (hproducts p hp) .nil

/-- **Members and builders are in step in every header.**  The classes with data are those
that the model leads to, in order; each is written as it is read back and well built. -/
theorem generate_buildersAligned {s : Schema} {m : Model} (hm : Model.ofSchema s = .ok m)
    (o : Options) :
    (∃ out, (generate m o).result = .ok out ∧ out.code = itemsText (headerItems m o)) ∧
    (∀ i ∈ headerItems m o, ∀ w, i.written? = some w → i.lines = w.lines) ∧
    List.Forall₂ (WellBuilt ⟨m, o⟩) (declaredData m)
      ((headerItems m o).filterMap Item.written?) := by
  have h := Model.ofSchema_eq_ok.mp hm
  refine ⟨exists_code_eq h o, fun i _ w hw => Item.lines_of_written? hw, ?_⟩
  apply forall₂_declaredData h o
  · exact fun t ht k hk => Context.wellBuilt_constructorClass (c := ⟨m, o⟩) h ht hk
  · exact fun p hp => Context.wellBuilt_productClass (c := ⟨m, o⟩) h hp

/-- Classes with attributes only, and one with fields besides. -/
def attributedModule : Schema where
  name := "m"
  uses := []
  definitions := [
    .product ⟨"Pos", [], [⟨"line", .named "int" .scalar⟩]⟩,
    .sum ⟨"Expr", [⟨"Nil", [], none⟩,
      ⟨"Num", [⟨"n", .named "int" .optional⟩, ⟨"rest", .named "Expr" .repeated⟩], none⟩],
      [⟨"pos", .named "Pos" .scalar⟩]⟩]

theorem attributedModule_buildersAligned :
    ∃ m, Model.ofSchema attributedModule = .ok m ∧
      ((headerItems m {}).filterMap Item.written?).map (fun w => (w.name, w.builders)) =
        [("Expr__Nil", [⟨[], [("tag", "static_cast<uint16_t>(Expr_e::Nil)"), ("pos", "nullptr")]⟩]),
          ("Expr__Num",
            [⟨[], [("tag", "static_cast<uint16_t>(Expr_e::Num)"), ("n", "Optional<int>()"),
                ("rest", "new List<Expr_t*>()"), ("pos", "nullptr")]⟩,
              ⟨[("Optional<int>", "n"), ("List<Expr_t*>*", "rest")],
                [("tag", "static_cast<uint16_t>(Expr_e::Num)"), ("n", "n"), ("rest", "rest"),
                  ("pos", "nullptr")]⟩]),
          ("Pos", [⟨[], [("tag", "1000"), ("line", "-1")]⟩])] ∧
      List.Forall₂ (WellBuilt ⟨m, {}⟩) (declaredData m)
        ((headerItems m {}).filterMap Item.written?) := by
  have hbuilders : (fun m : Model => ((headerItems m {}).filterMap Item.written?).map
        fun w => (w.name, w.builders)) <$> Model.ofSchema attributedModule =
      .ok [("Expr__Nil",
            [⟨[], [("tag", "static_cast<uint16_t>(Expr_e::Nil)"), ("pos", "nullptr")]⟩]),
          ("Expr__Num",
            [⟨[], [("tag", "static_cast<uint16_t>(Expr_e::Num)"), ("n", "Optional<int>()"),
                ("rest", "new List<Expr_t*>()"), ("pos", "nullptr")]⟩,
              ⟨[("Optional<int>", "n"), ("List<Expr_t*>*", "rest")],
                [("tag", "static_cast<uint16_t>(Expr_e::Num)"), ("n", "n"), ("rest", "rest"),
                  ("pos", "nullptr")]⟩]),
          ("Pos", [⟨[], [("tag", "1000"), ("line", "-1")]⟩])] := by rfl
  obtain ⟨m, hm, hbuilders⟩ := map_eq_ok.mp hbuilders
  exact ⟨m, hm, hbuilders, (generate_buildersAligned hm {}).2.2⟩

end Header

end Asdl
