/-
Only some options matter.

A header is written under options that hold names, and any names may stand there.
The code of a header asks about few of them, its tables of tags about none:

* `Options.AgreeOn` — options that agree on what is asked about a model;
* `Header.Context.element_agree`, `initial_agree`, `shape_agree` — types, initial
  values and entries ask about the simple sums of the model only;
* `Header.Context.declarationItems_agree`, `bodyItems_agree` — the sections of a
  header come out equal under options that agree;
* `Header.generate_relevantOptions` — the code, the tables of tags and the macros of
  the model of a schema.

Design notes: whether a sum is flat is asked for the types of members too, so these
have to be sums of the model.  That is `TypeRef.In`, which resolution guarantees.
-/
import Asdl.CommandLine.Plan
import Asdl.Proofs.References
import Asdl.Proofs.Sections

namespace Asdl

/-- Options that agree on what the code of a header depends on: the two choices, the
simple sums of the model and its classes with data. -/
structure Options.AgreeOn (m : Model) (o o' : Options) : Prop where
  enumSuffix : o.enumSuffix = o'.enumSuffix
  treeMethods : o.treeMethods = o'.treeMethods
  flat : ∀ t ∈ m.simpleSums, o.isFlat t.name = o'.isFlat t.name
  constructor_hooks : ∀ c ∈ m.compoundSums, ∀ k ∈ c.constructors,
    o.hasHook (memberName c.name k.name) = o'.hasHook (memberName c.name k.name)
  product_hooks : ∀ p ∈ m.products, o.hasHook p.name = o'.hasHook p.name

instance (m : Model) (o o' : Options) : Decidable (o.AgreeOn m o') :=
  decidable_of_iff
    (o.enumSuffix = o'.enumSuffix ∧ o.treeMethods = o'.treeMethods ∧
      (∀ t ∈ m.simpleSums, o.isFlat t.name = o'.isFlat t.name) ∧
      (∀ c ∈ m.compoundSums, ∀ k ∈ c.constructors,
        o.hasHook (memberName c.name k.name) = o'.hasHook (memberName c.name k.name)) ∧
      ∀ p ∈ m.products, o.hasHook p.name = o'.hasHook p.name)
    ⟨fun ⟨he, ht, hf, hc, hp⟩ => ⟨he, ht, hf, hc, hp⟩,
      fun ⟨he, ht, hf, hc, hp⟩ => ⟨he, ht, hf, hc, hp⟩⟩

namespace Header

open Model (TypeRef FieldType)

namespace Context

section Agreement

variable {m : Model} {o o' : Options} (h : o.AgreeOn m o')
include h

/-! ### Types and members -/

theorem enumeration_agree {n : String} (hn : (TypeRef.simpleSum n).In m) :
    enumeration ⟨m, o⟩ n = enumeration ⟨m, o'⟩ n := by
  obtain ⟨t, ht, rfl⟩ := hn
  simp only [enumeration, h.enumSuffix, h.flat t ht]

theorem element_agree {t : TypeRef} (ht : t.In m) : element ⟨m, o⟩ t = element ⟨m, o'⟩ t := by
  cases t with
  | simpleSum n =>
    have hflat : o.isFlat n = o'.isFlat n := by
      obtain ⟨t, ht, rfl⟩ := ht
      exact h.flat t ht
    simp only [element, hflat, enumeration_agree h ht]
  | _ => rfl

theorem member_agree {t : FieldType} (ht : t.In m) : member ⟨m, o⟩ t = member ⟨m, o'⟩ t := by
  cases t with
  | scalar t => exact element_agree h ht
  | optional t => simp only [member, element_agree h (t := t) ht]
  | repeated t => simp only [member, element_agree h (t := t) ht]
  | map k v => simp only [member, element_agree h ht.1, element_agree h ht.2]

theorem initialScalar_agree {t : TypeRef} (ht : t.In m) :
    initialScalar ⟨m, o⟩ t = initialScalar ⟨m, o'⟩ t := by
  cases t with
  | primitive p => cases p <;> rfl
  | simpleSum n =>
    -- the first variant is looked up in the model, the enumeration is not
    have hfirst : firstVariant? ⟨m, o⟩ n = firstVariant? ⟨m, o'⟩ n := rfl
    simp only [initialScalar, hfirst, enumeration_agree h ht]
  | _ => rfl

theorem initial_agree {t : FieldType} (ht : t.In m) : initial ⟨m, o⟩ t = initial ⟨m, o'⟩ t := by
  cases t with
  | scalar t => exact initialScalar_agree h ht
  | optional t => simp only [initial, element_agree h (t := t) ht]
  | repeated t => simp only [initial, element_agree h (t := t) ht]
  | map k v => rfl

theorem shape_agree {t : FieldType} (ht : t.In m) : shape ⟨m, o⟩ t = shape ⟨m, o'⟩ t := by
  cases t with
  | repeated t => simp only [shape, element_agree h (t := t) ht]
  | _ => rfl

/-- The members of a class, attributes included. -/
theorem members_agree {fields attributes : List Model.Field}
    (hfs : ∀ f ∈ fields ++ attributes, f.type.In m) :
    fields.map (memberOf ⟨m, o⟩) = fields.map (memberOf ⟨m, o'⟩) ∧
      attributes.map (memberOf ⟨m, o⟩) = attributes.map (memberOf ⟨m, o'⟩) := by
  have hmember : ∀ f ∈ fields ++ attributes, memberOf ⟨m, o⟩ f = memberOf ⟨m, o'⟩ f := by
    intro f hf
    simp only [memberOf, member_agree h (hfs f hf), initial_agree h (hfs f hf)]
  constructor
  · exact List.map_congr_left fun f hf => hmember f (List.mem_append_left _ hf)
  · exact List.map_congr_left fun f hf => hmember f (List.mem_append_right _ hf)

/-- The entries of a record. -/
theorem map_entry_agree {fs : List Model.Field} (hfs : ∀ f ∈ fs, f.type.In m) :
    fs.map (entry ⟨m, o⟩) = fs.map (entry ⟨m, o'⟩) := by
  refine List.map_congr_left fun f hf => ?_
  simp only [entry, shape_agree h (hfs f hf)]

/-! ### Simple sums -/

theorem tagType_agree {t : Model.SimpleSum} (ht : t ∈ m.simpleSums) :
    tagType ⟨m, o⟩ t.name = tagType ⟨m, o'⟩ t.name := by
  simp only [tagType, h.flat t ht, enumeration_agree h ⟨t, ht, rfl⟩]

theorem simpleItems_agree {t : Model.SimpleSum} (ht : t ∈ m.simpleSums) :
    simpleItems ⟨m, o⟩ t = simpleItems ⟨m, o'⟩ t := by
  simp only [simpleItems, h.flat t ht, enumeration_agree h ⟨t, ht, rfl⟩, tagType_agree h ht]

theorem simpleFunction_agree {t : Model.SimpleSum} (ht : t ∈ m.simpleSums) :
    simpleFunction ⟨m, o⟩ t = simpleFunction ⟨m, o'⟩ t := by
  simp only [simpleFunction, enumeration_agree h ⟨t, ht, rfl⟩, tagType_agree h ht]

/-! ### Classes -/

theorem treeItems_agree {cls : String} (hcls : o.hasHook cls = o'.hasHook cls)
    {fields attributes : List Model.Field} (hfs : ∀ f ∈ fields ++ attributes, f.type.In m) :
    treeItems ⟨m, o⟩ cls fields attributes = treeItems ⟨m, o'⟩ cls fields attributes := by
  have hfields : ∀ f ∈ fields, f.type.In m := fun f hf => hfs f (List.mem_append_left _ hf)
  simp only [treeItems, fullBody, shortBody, hcls, map_entry_agree h hfs,
    map_entry_agree h hfields]

end Agreement

section Sections

variable {s : Schema} {m : Model} {o o' : Options} (hm : Model.Resolves s m)
  (h : o.AgreeOn m o')
include hm h

theorem sumItems_agree {c : Model.CompoundSum} (hc : c ∈ m.compoundSums) :
    sumItems ⟨m, o⟩ c = sumItems ⟨m, o'⟩ c := by
  have hclass : ∀ k ∈ c.constructors,
      constructorClass ⟨m, o⟩ c k = constructorClass ⟨m, o'⟩ c k := by
    intro k hk
    obtain ⟨hfs, has⟩ := members_agree h (hm.in_of_constructor hc hk)
    simp only [constructorClass, hfs, has, h.treeMethods]
  have hclasses : (c.constructors.flatMap fun k =>
        [Item.dataClass (constructorClass ⟨m, o⟩ c k), .blank]) =
      c.constructors.flatMap fun k => [.dataClass (constructorClass ⟨m, o'⟩ c k), .blank] :=
    List.flatMap_congr fun k hk => by rw [hclass k hk]
  simp only [sumItems, hclasses, h.treeMethods]

theorem productItems_agree {p : Model.Product} (hp : p ∈ m.products) :
    productItems ⟨m, o⟩ p = productItems ⟨m, o'⟩ p := by
  obtain ⟨hfs, has⟩ := members_agree h (hm.in_of_product hp)
  simp only [productItems, productClass, hfs, has, h.treeMethods]

theorem methodItems_agree {d : Model.Definition} (hd : d ∈ m.definitions) :
    methodItems ⟨m, o⟩ d = methodItems ⟨m, o'⟩ d := by
  cases d with
  | simpleSum t => rfl
  | compoundSum c =>
    have hc : c ∈ m.compoundSums := List.mem_filterMap.mpr ⟨_, hd, rfl⟩
    rw [methodItems, methodItems]
    congr 1
    refine List.flatMap_congr fun k hk => ?_
    exact treeItems_agree h (h.constructor_hooks c hc k hk) (hm.in_of_constructor hc hk)
  | product p =>
    have hp : p ∈ m.products := List.mem_filterMap.mpr ⟨_, hd, rfl⟩
    exact treeItems_agree h (h.product_hooks p hp) (hm.in_of_product hp)

/-! ### Sections -/

theorem declarationItems_agree : declarationItems ⟨m, o⟩ = declarationItems ⟨m, o'⟩ := by
  have himmediate : m.definitions.flatMap (immediateItems ⟨m, o⟩) =
      m.definitions.flatMap (immediateItems ⟨m, o'⟩) := by
    refine List.flatMap_congr fun d hd => ?_
    cases d with
    | simpleSum t => exact simpleItems_agree h (List.mem_filterMap.mpr ⟨_, hd, rfl⟩)
    | compoundSum c => rfl
    | product p => rfl
  have hsums : m.compoundSums.flatMap (sumItems ⟨m, o⟩) =
      m.compoundSums.flatMap (sumItems ⟨m, o'⟩) :=
    List.flatMap_congr fun c hc => sumItems_agree hm h hc
  have hproducts : m.products.flatMap (productItems ⟨m, o⟩) =
      m.products.flatMap (productItems ⟨m, o'⟩) :=
    List.flatMap_congr fun p hp => productItems_agree hm h hp
  simp only [declarationItems, himmediate, hsums, hproducts]

theorem bodyItems_agree : bodyItems ⟨m, o⟩ = bodyItems ⟨m, o'⟩ := by
  refine List.flatMap_congr fun d hd => ?_
  have hfunctions : functionItems ⟨m, o⟩ d = functionItems ⟨m, o'⟩ d := by
    cases d with
    | simpleSum t =>
      have ht : t ∈ m.simpleSums := List.mem_filterMap.mpr ⟨_, hd, rfl⟩
      rw [functionItems, functionItems, simpleFunction_agree h ht]
    | compoundSum c => rfl
    | product p => rfl
  simp only [bodyItemsOf, hfunctions, methodItems_agree hm h hd, h.treeMethods]

end Sections

end Context

/-! ### Headers -/

open CommandLine (Arguments Inputs Plan Failure readModel)

/-- The macros are written last, whatever the options are. -/
theorem getLast?_files {a : Arguments} {inputs : Inputs} {m : Model} {plan : Plan} {path : String}
    (hmodel : (readModel a inputs.schema).result = .ok m)
    (hplan : (Plan.of a inputs).result = .ok plan) (hpath : a.macros = some path) :
    plan.files.getLast? = some (path, itemsText (macroItemsOf m)) := by
  simp only [Plan.of, result_bind, bind_eq_ok] at hplan
  obtain ⟨o, -, m', hm', out, -, text, htext, hplan⟩ := hplan
  rw [hmodel] at hm'
  cases hm'
  have hmacros : (macros m).result.mapError Failure.generating = .ok text := htext
  rw [result_macros] at hmacros
  cases hmacros
  cases hplan
  simp [Plan.filesOf, hpath]

/-- What depends on the options of a header. -/
structure RelevantOptions (m : Model) : Prop where
  /-- The code depends on what options can agree on. -/
  code : ∀ o o', o.AgreeOn m o' →
    ∃ out out', (generate m o).result = .ok out ∧ (generate m o').result = .ok out' ∧
      out.code = out'.code
  /-- The options decide whether there are tables of tags, but not what is in them. -/
  tags : ∃ tables, ∀ o, ∃ out, (generate m o).result = .ok out ∧
    out.tags = if o.sidecar then some tables else none
  /-- The macros do not depend on options, nor does the file that a run writes them to. -/
  macros : ∃ text, (macros m).result = .ok text ∧
    ∀ a inputs plan path, (readModel a inputs.schema).result = .ok m →
      (Plan.of a inputs).result = .ok plan → a.macros = some path →
      plan.files.getLast? = some (path, text)

/-- **Only relevant options matter** for the header of the model of a schema. -/
theorem generate_relevantOptions {s : Schema} {m : Model} (hm : Model.ofSchema s = .ok m) :
    RelevantOptions m where
  code := by
    intro o o' h
    have hres := Model.ofSchema_eq_ok.mp hm
    refine ⟨_, _, result_generate hres o, result_generate hres o', ?_⟩
    rw [Context.declarationItems_agree hres h, Context.bodyItems_agree hres h]
  tags := ⟨_, fun o => ⟨_, result_generate (Model.ofSchema_eq_ok.mp hm) o, rfl⟩⟩
  macros := ⟨_, result_macros m, fun _ _ _ _ => getLast?_files⟩

/-- Options with names that mean something else, or nothing, to the module with a
shared product. -/
def strayOptions : Options where
  flatSums := NameSet.addAll .empty ["Expr", "Token", "Nowhere"]
  sidecar := true
  hooks := NameSet.addAll .empty ["Op", "Expr", "Expr__Lit", "Nowhere"]

theorem sharingModule_strayOptions :
    ∃ m out out', Model.ofSchema Model.sharingModule = .ok m ∧ strayOptions.AgreeOn m {} ∧
      (generate m strayOptions).result = .ok out ∧ (generate m {}).result = .ok out' ∧
      out.code = out'.code ∧ out.tags.isSome ∧ out'.tags = none := by
  have hagree : (fun m => decide (strayOptions.AgreeOn m {})) <$>
      Model.ofSchema Model.sharingModule = .ok true := by rfl
  obtain ⟨m, hm, hagree⟩ := map_eq_ok.mp hagree
  have hagree : strayOptions.AgreeOn m {} := of_decide_eq_true hagree
  have hrelevant := generate_relevantOptions hm
  obtain ⟨out, out', hout, hout', hcode⟩ := hrelevant.code _ _ hagree
  obtain ⟨tables, htags⟩ := hrelevant.tags
  obtain ⟨out₂, hout₂, htags₂⟩ := htags strayOptions
  obtain ⟨out₃, hout₃, htags₃⟩ := htags {}
  rw [hout] at hout₂
  rw [hout'] at hout₃
  cases hout₂
  cases hout₃
  exact ⟨m, out, out', hm, hagree, hout, hout', hcode, by rw [htags₂]; rfl, htags₃⟩

end Header

end Asdl
