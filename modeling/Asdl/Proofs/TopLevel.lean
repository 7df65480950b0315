/-
No name is defined twice at the top level of a header.

Products, the classes and the namespaces of compound sums, the enumerations and
the types of simple sums, and the functions from tags to names all stand side by
side.  Their names are put together from names of the schema and fixed endings,
and a name of the schema may hold such an ending itself:

* `Header.Item.defines?` — the name that an item defines at the top level;
* `Header.topLevelNames` — the names that a definition leads to under some options;
* `Context.filterMap_defines?_perm` — a header defines exactly these names;
* `Model.Resolves.nodup_topLevelNames` — and no two of them are equal.

Design notes: whatever the options are, the names of a definition are among its
own name and its generated names, in an order that does not depend on them
(`Header.candidates`).  So the names of a header are a part of one fixed list, and
the checks on the schema have seen that nothing is in it twice.
-/
import Asdl.Proofs.Spelling
import Mathlib.Data.List.Perm.Basic

namespace Asdl

/-- Parts that shrink side by side make lists that shrink. -/
theorem flatMap_sublist_flatMap {α β γ : Type} {f : α → List γ} {g : β → List γ} {xs : List α}
    {ys : List β} (h : List.Forall₂ (fun x y => (g y).Sublist (f x)) xs ys) :
    (ys.flatMap g).Sublist (xs.flatMap f) := by
  induction h with
  | nil => exact List.Sublist.refl _
  | cons hxy _ ih =>
    rw [List.flatMap_cons, List.flatMap_cons]
    exact hxy.append ih

/-- What is made of the compound sums is made definition by definition. -/
theorem Model.flatMap_compoundSums {α : Type} (m : Model) (f : CompoundSum → List α) :
    m.compoundSums.flatMap f = m.definitions.flatMap fun d => d.compoundSum?.toList.flatMap f := by
  rw [Model.compoundSums, List.filterMap_eq_flatMap_toList, List.flatMap_assoc]

theorem Model.flatMap_products {α : Type} (m : Model) (f : Product → List α) :
    m.products.flatMap f = m.definitions.flatMap fun d => d.product?.toList.flatMap f := by
  rw [Model.products, List.filterMap_eq_flatMap_toList, List.flatMap_assoc]

namespace Header

/-! ### Definitions in the text -/

/-- The name that an item defines at the top level.  Announcements define nothing,
and a method belongs to its class. -/
def Item.defines? : Item → Option String
  | .constants name _ => some name
  | .enumeration name _ => some name
  | .typedef _ name => some name
  | .sumClass name _ => some name
  | .dataClass k => some k.name
  | .aliases sum _ => some sum
  | .strFunction sum _ _ _ => some (strName sum)
  | _ => none

/-- The first line of what defines a name. -/
inductive Opens (n : String) : String → Prop where
  | sumClass : Opens n ("class " ++ n ++ " \x7b")
  | dataClass (bases : String) : Opens n ("class " ++ n ++ " : " ++ bases ++ " \x7b")
  | space : Opens n ("namespace " ++ n ++ " \x7b")
  | enumeration : Opens n ("enum class " ++ n ++ " \x7b")
  | typedef (type : String) : Opens n ("typedef " ++ type ++ " " ++ n ++ ";")
  | function (tagType : String) : Opens n ("const char* " ++ n ++ "(" ++ tagType ++ " tag) \x7b")

theorem Item.opens_of_defines? {i : Item} {n : String} (h : i.defines? = some n) :
    ∃ text rest, i.lines = ⟨0, text⟩ :: rest ∧ Opens n text := by
  cases i with
  | constants name values => cases h; exact ⟨_, _, rfl, .space⟩
  | enumeration name values => cases h; exact ⟨_, _, rfl, .enumeration⟩
  | typedef type name => cases h; exact ⟨_, _, rfl, .typedef type⟩
  | sumClass name treeMethods => cases h; exact ⟨_, _, rfl, .sumClass⟩
  | dataClass k => cases h; exact ⟨_, _, rfl, .dataClass _⟩
  | aliases sum constructors => cases h; exact ⟨_, _, rfl, .space⟩
  | strFunction sum tagType scope variants =>
    cases h
    refine ⟨_, _, rfl, ?_⟩
    rw [strSignature_append]
    exact .function tagType
  | _ => cases h

/-- The names that a definition leads to. -/
def topLevelNames (o : Options) : Model.Definition → List String
  | .product p => [p.name]
  | .compoundSum t =>
    [t.name ++ "_t", t.name, t.name ++ "_e", t.name ++ "_str"]
      ++ t.constructors.map fun k => t.name ++ "__" ++ k.name
  | .simpleSum t =>
    [t.name ++ "_t",
      if o.enumSuffix then
        if o.isFlat t.name then t.name ++ "_i" else t.name ++ "_e"
      else t.name,
      t.name ++ "_str"]

/-! ### What the sections define -/

namespace Context

variable (c : Context)

theorem filterMap_defines?_forward (m : Model) :
    (forwardItemsOf m).filterMap Item.defines? = [] := by
  have hitem : ∀ d, (forwardItems d).filterMap Item.defines? = [] := by
    intro d
    cases d <;> rfl
  rw [forwardItemsOf, List.filterMap_append, List.filterMap_flatMap]
  simp [hitem, Item.defines?]

theorem filterMap_defines?_simple (t : Model.SimpleSum) :
    (c.simpleItems t).filterMap Item.defines? = [c.enumeration t.name, typeName t.name] := by
  rw [simpleItems]
  cases c.options.isFlat t.name <;> rfl

theorem filterMap_defines?_sum (t : Model.CompoundSum) :
    (c.sumItems t).filterMap Item.defines? = typeName t.name :: t.classNames ++ [t.name] := by
  have hclasses :
      (t.constructors.flatMap fun k =>
        [Item.dataClass (c.constructorClass t k), .blank]).filterMap Item.defines? =
        t.classNames := by
    rw [List.filterMap_flatMap, Model.CompoundSum.classNames, List.map_eq_flatMap]
    rfl
  rw [sumItems, List.filterMap_append, List.filterMap_append, hclasses]
  rfl

theorem filterMap_defines?_body (d : Model.Definition) :
    (c.bodyItemsOf d).filterMap Item.defines? = (c.functionItems d).filterMap Item.defines? := by
  refine c.filterMap_bodyItemsOf (fun i hi => ?_) d
  cases i <;> first | rfl | cases hi

/-- The names that one definition leads to in the sections of a header. -/
def definedBy (d : Model.Definition) : List String :=
  (c.immediateItems d).filterMap Item.defines?
    ++ (d.compoundSum?.toList.flatMap c.sumItems).filterMap Item.defines?
    ++ (d.product?.toList.flatMap c.productItems).filterMap Item.defines?
    ++ (c.bodyItemsOf d).filterMap Item.defines?

theorem definedBy_perm (d : Model.Definition) :
    (c.definedBy d).Perm (topLevelNames c.options d) := by
  cases d with
  | simpleSum t =>
    have hnames : c.definedBy (.simpleSum t) =
        [c.enumeration t.name, typeName t.name, strName t.name] := by
      rw [definedBy, filterMap_defines?_body]
      show (c.simpleItems t).filterMap Item.defines? ++ [] ++ [] ++ [strName t.name] = _
      rw [filterMap_defines?_simple]
      rfl
    rw [hnames]
    exact List.Perm.swap _ _ _
  | compoundSum t =>
    have hnames : c.definedBy (.compoundSum t) =
        enumName t.name :: typeName t.name :: t.classNames ++ [t.name, strName t.name] := by
      rw [definedBy, filterMap_defines?_body]
      show [enumName t.name] ++ (c.sumItems t ++ []).filterMap Item.defines? ++ []
        ++ [strName t.name] = _
      rw [List.append_nil (c.sumItems t), filterMap_defines?_sum]
      simp
    have htarget : topLevelNames c.options (.compoundSum t) =
        typeName t.name :: t.name :: enumName t.name :: strName t.name :: t.classNames := rfl
    -- the classes stand in the middle of one list and at the end of the other
    rw [hnames, htarget, List.perm_iff_count]
    intro n
    simp only [List.count_cons, List.count_append, List.cons_append, List.count_nil]
    omega
  | product p =>
    have hnames : c.definedBy (.product p) = [p.name] := by
      rw [definedBy, filterMap_defines?_body]
      rfl
    rw [hnames]
    exact List.Perm.refl _

variable {c}

/-- **A header defines the names of its definitions**, each as often as they say. -/
theorem filterMap_defines?_perm {s : Schema} (h : Model.Resolves s c.model) :
    ((headerItems c.model c.options).filterMap Item.defines?).Perm
      (c.model.definitions.flatMap (topLevelNames c.options)) := by
  rw [headerItems_eq h c.options, List.filterMap_append, List.filterMap_append,
    filterMap_defines?_forward, List.nil_append, declarationItems, bodyItems,
    Model.flatMap_compoundSums, Model.flatMap_products, List.filterMap_append,
    List.filterMap_append, List.filterMap_flatMap, List.filterMap_flatMap, List.filterMap_flatMap,
    List.filterMap_flatMap]
  -- the sections take turns over the definitions; each definition gets its own share together
  refine List.Perm.trans ?_ (List.Perm.flatMap_left _ fun d _ => c.definedBy_perm d)
  refine (List.Perm.append_right _ ?_).trans (List.flatMap_append_perm _ _ _)
  refine (List.Perm.append_right _ ?_).trans (List.flatMap_append_perm _ _ _)
  exact List.flatMap_append_perm _ _ _

end Context

/-! ### No name twice -/

/-- All names that a definition of a schema can lead to, whatever the options. -/
def candidates : Definition → List String
  | .sum t =>
    [typeName t.name, t.name, enumName t.name, intsName t.name, strName t.name]
      ++ if t.isSimple then []
        else (t.variants.filter (·.shared.isNone)).map fun v => memberName t.name v.name
  | .product p => [p.name]

theorem candidates_perm (d : Definition) : (candidates d).Perm ([d.name] ++ d.generatedNames) := by
  cases d with
  | sum t => exact List.Perm.swap _ _ _
  | product p => exact List.Perm.refl _

theorem topLevelNames_sublist {sc : Model.Scope} {d : Definition} {r : Model.Definition}
    (h : sc.resolve d = .ok r) (o : Options) : (topLevelNames o r).Sublist (candidates d) := by
  rcases Model.Scope.resolve_eq_ok.mp h with
    ⟨t, rfl, ht, rfl⟩ | ⟨t, u, rfl, ht, hu, rfl⟩ | ⟨p, q, rfl, hq, rfl⟩
  · rw [candidates, if_pos ht, List.append_nil]
    show List.Sublist [typeName t.name,
      if o.enumSuffix then if o.isFlat t.name then intsName t.name else enumName t.name
      else t.name, strName t.name] _
    -- the options choose one of three names, and all three are candidates
    refine .cons_cons _ ?_
    split
    · split
      · exact .cons _ (.cons _ (.cons_cons _ (.refl _)))
      · exact .cons _ (.cons_cons _ (.cons _ (.refl _)))
    · exact .cons_cons _ (.cons _ (.cons _ (.refl _)))
  · have hname : u.name = t.name := (Model.Scope.resolveCompound_eq_ok.mp hu).2.2.2
    have hclasses : topLevelNames o (.compoundSum u) =
        [typeName t.name, t.name, enumName t.name, strName t.name]
          ++ (t.variants.filter (·.shared.isNone)).map fun v => memberName t.name v.name := by
      rw [← Model.Resolves.classNames_eq hu, ← hname]
      rfl
    rw [hclasses, candidates, if_neg (by simp [ht])]
    exact .append (.cons_cons _ (.cons_cons _ (.cons_cons _ (.cons _ (.refl _))))) (.refl _)
  · have hname : q.name = p.name := (Model.Scope.resolveProduct_eq_ok.mp hq).2.2.1
    rw [topLevelNames, candidates, hname]

end Header

namespace Model

namespace Resolves

variable {s : Schema} {m : Model}

theorem nodup_candidates (h : Resolves s m) :
    (s.definitions.flatMap Header.candidates).Nodup := by
  obtain ⟨hdistinct, -⟩ := Schema.checkNames_eq_ok.mp h.checkNames
  obtain ⟨-, hgenerated, hnew⟩ := Schema.checkGenerated_eq_ok.mp h.checkGenerated
  have hperm : (s.definitions.flatMap Header.candidates).Perm
      (s.definitions.map Asdl.Definition.name ++ s.generatedNames) := by
    rw [List.map_eq_flatMap, Schema.generatedNames]
    exact (List.Perm.flatMap_left _ fun d _ => Header.candidates_perm d).trans
      (List.flatMap_append_perm _ _ _).symm
  refine hperm.nodup_iff.mpr (List.nodup_append.mpr ⟨hdistinct, hgenerated, ?_⟩)
  rintro n hn _ hname rfl
  obtain ⟨d, hd, rfl⟩ := List.mem_map.mp hn
  exact hnew d hd hname

/-- **All names at the top level are different.** -/
theorem nodup_topLevelNames (h : Resolves s m) (o : Options) :
    (m.definitions.flatMap (Header.topLevelNames o)).Nodup := by
  refine h.nodup_candidates.sublist (flatMap_sublist_flatMap ?_)
  exact (mapM_eq_ok.mp h.definitions).imp fun d r hr => Header.topLevelNames_sublist hr o

end Resolves

end Model

namespace Header

/-- **No name is defined twice at the top level of a header.**  The header is the
text of its items, every item that defines a name starts as a definition of that
name, and the names are those that the definitions lead to, all of them
different. -/
theorem generate_topLevelNames {s : Schema} {m : Model} (hm : Model.ofSchema s = .ok m)
    (o : Options) :
    (∃ out, (generate m o).result = .ok out ∧ out.code = itemsText (headerItems m o)) ∧
    (∀ i ∈ headerItems m o, ∀ n, i.defines? = some n →
      ∃ text rest, i.lines = ⟨0, text⟩ :: rest ∧ Opens n text) ∧
    ((headerItems m o).filterMap Item.defines?).Perm
      (m.definitions.flatMap (topLevelNames o)) ∧
    ((headerItems m o).filterMap Item.defines?).Nodup := by
  have h := Model.ofSchema_eq_ok.mp hm
  have hperm := Context.filterMap_defines?_perm (c := ⟨m, o⟩) h
  exact ⟨exists_code_eq h o, fun i _ n hn => Item.opens_of_defines? hn, hperm,
    hperm.nodup_iff.mpr (h.nodup_topLevelNames o)⟩

/-- A module in which names are built that look alike: `A__B` is a product and the
start of the class of `B__C`, and the type of the sum `A_` is called as the class of
a constructor `t` of `A` would be. -/
def lookalikeModule : Schema where
  name := "m"
  uses := []
  definitions := [
    .sum ⟨"A", [⟨"B__C", [⟨"rest", .named "A" .optional⟩], none⟩, ⟨"D", [], some "A__B"⟩], []⟩,
    .product ⟨"A__B", [⟨"state", .named "A_" .scalar⟩], []⟩,
    .sum ⟨"A_", [⟨"t", [], none⟩, ⟨"e", [], none⟩], []⟩]

theorem lookalikeModule_topLevelNames :
    ∃ m o, Model.ofSchema lookalikeModule = .ok m ∧ o.isFlat "A_" = true ∧
      m.definitions.flatMap (topLevelNames o) =
        ["A_t", "A", "A_e", "A_str", "A__B__C", "A__B", "A__t", "A__i", "A__str"] ∧
      ((headerItems m o).filterMap Item.defines?).Nodup := by
  let o : Options := { flatSums := .addAll .empty ["A_"] }
  have hnames : (fun m : Model => m.definitions.flatMap (topLevelNames o)) <$>
      Model.ofSchema lookalikeModule =
        .ok ["A_t", "A", "A_e", "A_str", "A__B__C", "A__B", "A__t", "A__i", "A__str"] := by rfl
  obtain ⟨m, hm, hnames⟩ := map_eq_ok.mp hnames
  exact ⟨m, o, hm, rfl, hnames, (generate_topLevelNames hm o).2.2.2⟩

end Header

end Asdl
