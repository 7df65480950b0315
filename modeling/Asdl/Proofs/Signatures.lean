/-
What is announced in a header is defined in it, and nothing else.

Declarations and bodies are written by two walks that know nothing of each other.
Reading both back:

* `Header.Item.prototype?`, `Header.Item.function?` — the functions from tags to
  names, as they are announced and as they are defined;
* `Header.Item.class?`, `Header.Item.method?` — classes with the tree methods that
  they declare, and tree methods that are defined outside of a class;
* `Header.SignaturesMatch` — announcements and definitions match one to one;
* `Header.generate_signaturesMatch` — they do in every header.

Design notes: both walks lead to one list of functions, `Header.signatures`, in
one order.  For methods the orders differ: a sum declares its base first and
defines its methods last.  So the methods are compared up to order with all pairs
of a class and a method (`Header.methodsOf`), of which no two are equal because no
two classes have one name.
-/
import Asdl.Proofs.TopLevel

namespace Asdl

namespace Header

open Model (SimpleSum CompoundSum)

/-! ### Reading items back -/

/-- The function that an item announces, and the type of its tags. -/
def Item.prototype? : Item → Option (String × String)
  | .strDeclaration sum tagType => some (sum ++ "_str", tagType)
  | _ => none

/-- The function that an item defines, and the type of its tags. -/
def Item.function? (i : Item) : Option (String × String) :=
  i.names?.map fun w => (w.function, w.parameter)

/-- A class as it is written: the methods that it declares, and what stands before
and after them. -/
structure ClassText where
  name : String
  before : List Line
  methods : List String
  after : List Line

/-- The methods that a class declares, each with the class. -/
def ClassText.declared (k : ClassText) : List (String × String) := k.methods.map (k.name, ·)

/-- The tree methods of a class that has them. -/
def methodsIf (treeMethods : Bool) : List String := if treeMethods then treeNames else []

/-- The class that an item holds. -/
def Item.class? : Item → Option ClassText
  | .sumClass name treeMethods => some
    { name
      before := [⟨0, "class " ++ name ++ " \x7b"⟩, ⟨0, " protected:"⟩, ⟨1, name ++ "() \x7b\x7d"⟩,
        ⟨0, " public:"⟩, ⟨1, "int tag_() \x7b"⟩,
        ⟨2, "return reinterpret_cast<Obj*>(this)->tag;"⟩, ⟨1, "\x7d"⟩]
      methods := methodsIf treeMethods
      after := [⟨1, "DISALLOW_COPY_AND_ASSIGN(" ++ name ++ ")"⟩, ⟨0, "\x7d;"⟩] }
  | .dataClass k => some
    { name := k.name
      before := k.written.opening
        ++ k.written.members.map fun x => ⟨1, x.1 ++ " " ++ x.2 ++ ";"⟩
      methods := methodsIf k.treeMethods
      after := k.written.closing }
  | _ => none

/-- The method that an item defines, and its class. -/
def Item.method? : Item → Option (String × String)
  | .recordMethod cls method _ => some (cls, method.spelling)
  | .shortMethod cls _ => some (cls, "AbbreviatedTree")
  | .dispatcher sum method _ => some (sum ++ "_t", method.spelling)
  | _ => none

/-- An item is spelled as it is read back. -/
structure Item.Reads (i : Item) : Prop where
  prototype : ∀ f type, i.prototype? = some (f, type) →
    i.spelling = [⟨0, "const char* " ++ f ++ "(" ++ type ++ " tag);"⟩]
  function : ∀ f type, i.function? = some (f, type) →
    ∃ rest, i.spelling = ⟨0, "const char* " ++ f ++ "(" ++ type ++ " tag) \x7b"⟩ :: rest
  /-- A class starts with its name and has one line for each method. -/
  cls : ∀ k, i.class? = some k →
    (∃ text rest, k.before = ⟨0, text⟩ :: rest ∧ Opens k.name text) ∧
      i.spelling = k.before ++ k.methods.map (fun n => ⟨1, "hnode_t* " ++ n ++ "();"⟩) ++ k.after
  method : ∀ cls n, i.method? = some (cls, n) →
    ∃ rest, i.spelling = ⟨0, "hnode_t* " ++ cls ++ "::" ++ n ++ "() \x7b"⟩ :: rest

theorem Item.reads (i : Item) : i.Reads where
  prototype := by
    intro f type h
    cases i with
    | strDeclaration sum tagType => cases h; rfl
    | _ => cases h
  function := by
    intro f type h
    cases i with
    | strFunction sum tagType scope variants => cases h; exact ⟨_, rfl⟩
    | _ => cases h
  cls := by
    intro k h
    cases i with
    | sumClass name treeMethods => cases h; exact ⟨⟨_, _, rfl, .sumClass⟩, rfl⟩
    | dataClass c =>
      cases h
      refine ⟨⟨_, _, rfl, .dataClass _⟩, ?_⟩
      have hmethods : (if c.treeMethods then
            [⟨1, "hnode_t* PrettyTree();"⟩, ⟨1, "hnode_t* _AbbreviatedTree();"⟩,
              ⟨1, "hnode_t* AbbreviatedTree();"⟩]
          else ([] : List Line)) =
          (methodsIf c.treeMethods).map fun n => ⟨1, "hnode_t* " ++ n ++ "();"⟩ := by
        cases c.treeMethods <;> rfl
      simp only [← hmethods]
      rfl
    | _ => cases h
  method := by
    intro cls n h
    cases i with
    | recordMethod c t body => cases h; exact ⟨_, rfl⟩
    | shortMethod c hook => cases h; exact ⟨_, rfl⟩
    | dispatcher sum t cases => cases h; exact ⟨_, rfl⟩
    | _ => cases h

/-! ### What a model leads to -/

/-- The function of a sum and the type of its tags. -/
def signatureOf (o : Options) : Model.Definition → Option (String × String)
  | .simpleSum t =>
    some (t.name ++ "_str",
      if o.isFlat t.name then "int" else if o.enumSuffix then t.name ++ "_e" else t.name)
  | .compoundSum t => some (t.name ++ "_str", "int")
  | .product _ => none

/-- The functions of all sums of a model, in order. -/
def signatures (m : Model) (o : Options) : List (String × String) :=
  m.definitions.filterMap (signatureOf o)

/-- The classes of a definition. -/
def classesOf : Model.Definition → List String
  | .simpleSum _ => []
  | .compoundSum t => (t.name ++ "_t") :: t.constructors.map fun k => t.name ++ "__" ++ k.name
  | .product p => [p.name]

/-- The classes of all definitions of a model. -/
def classes (m : Model) : List String := m.definitions.flatMap classesOf

/-- What a header announces and what it defines match one to one. -/
structure SignaturesMatch (m : Model) (o : Options) : Prop where
  prototypes : (declaredItems m o).filterMap Item.prototype? = signatures m o
  functions : (definedItems m o).filterMap Item.function? = signatures m o
  /-- Each sum has one announcement and one definition. -/
  once : ∀ d ∈ m.definitions, ∀ f type, signatureOf o d = some (f, type) →
    ((declaredItems m o).filterMap Item.prototype?).filter (·.1 = f) = [(f, type)] ∧
      ((definedItems m o).filterMap Item.function?).filter (·.1 = f) = [(f, type)]
  /-- Each class is written once, and no others. -/
  classes : (((declaredItems m o).filterMap Item.class?).map ClassText.name).Perm (classes m) ∧
    (Header.classes m).Nodup
  /-- Each class declares each method once, or none. -/
  declared : ∀ cls ∈ Header.classes m, ∀ n ∈ treeNames,
    (((declaredItems m o).filterMap Item.class?).flatMap ClassText.declared).count (cls, n) =
      if o.treeMethods then 1 else 0
  /-- Each method of each class is defined once, or none is. -/
  defined : ∀ cls ∈ Header.classes m, ∀ n ∈ treeNames,
    ((definedItems m o).filterMap Item.method?).count (cls, n) =
      if o.treeMethods then 1 else 0
  /-- No other method is declared or defined. -/
  no_other : ∀ x, x ∈ ((declaredItems m o).filterMap Item.class?).flatMap ClassText.declared ∨
    x ∈ (definedItems m o).filterMap Item.method? → x.1 ∈ Header.classes m ∧ x.2 ∈ treeNames
  /-- Nothing of either kind stands in another section. -/
  elsewhere :
    (headerItems m o).filterMap Item.prototype? = (declaredItems m o).filterMap Item.prototype? ∧
    (headerItems m o).filterMap Item.function? = (definedItems m o).filterMap Item.function? ∧
    (headerItems m o).filterMap Item.class? = (declaredItems m o).filterMap Item.class? ∧
    (headerItems m o).filterMap Item.method? = (definedItems m o).filterMap Item.method?

/-! ### Functions -/

namespace Context

variable (c : Context)

theorem tagType_eq (sum : String) :
    c.tagType sum =
      if c.options.isFlat sum then "int"
      else if c.options.enumSuffix then sum ++ "_e" else sum := by
  rw [tagType, enumeration]
  split
  · rfl
  · split <;> rfl

theorem filterMap_prototype? :
    c.declarationItems.filterMap Item.prototype? = signatures c.model c.options := by
  have himmediate : ∀ d, (c.immediateItems d).filterMap Item.prototype? =
      (signatureOf c.options d).toList := by
    intro d
    cases d with
    | simpleSum t =>
      rw [immediateItems, simpleItems, signatureOf, ← tagType_eq]
      cases c.options.isFlat t.name <;> rfl
    | compoundSum t => rfl
    | product p => rfl
  have hsums : (c.model.compoundSums.flatMap c.sumItems).filterMap Item.prototype? = [] := by
    simp [List.filterMap_flatMap, sumItems, List.filterMap_cons, Item.prototype?]
  have hproducts : (c.model.products.flatMap c.productItems).filterMap Item.prototype? = [] := by
    simp [List.filterMap_flatMap, productItems, List.filterMap_cons, Item.prototype?]
  rw [declarationItems, List.filterMap_append, List.filterMap_append, hsums, hproducts,
    List.append_nil, List.append_nil, List.filterMap_flatMap, signatures,
    List.filterMap_eq_flatMap_toList]
  simp only [himmediate]

theorem filterMap_function? :
    c.bodyItems.filterMap Item.function? = signatures c.model c.options := by
  have hbody : ∀ d, (c.bodyItemsOf d).filterMap Item.function? =
      (signatureOf c.options d).toList := by
    intro d
    have hmethods : ∀ i : Item, i.isMethodPart = true → i.function? = none := by
      intro i hi
      cases i with
      | strFunction sum tagType scope variants => cases hi
      | _ => rfl
    rw [c.filterMap_bodyItemsOf hmethods]
    cases d with
    | simpleSum t =>
      rw [signatureOf, ← tagType_eq]
      rfl
    | compoundSum t => rfl
    | product p => rfl
  rw [bodyItems, List.filterMap_flatMap, signatures, List.filterMap_eq_flatMap_toList]
  simp only [hbody]

/-! ### Classes and methods -/

/-- All pairs of one of the classes and a tree method, if there are any. -/
def methodsOf (treeMethods : Bool) (names : List String) : List (String × String) :=
  names.flatMap fun n => (methodsIf treeMethods).map (n, ·)

theorem count_methodsOf {names : List String} (hnd : names.Nodup) {cls : String}
    (hcls : cls ∈ names) (treeMethods : Bool) {n : String} (hn : n ∈ treeNames) :
    (methodsOf treeMethods names).count (cls, n) = if treeMethods then 1 else 0 := by
  cases treeMethods with
  | false =>
    have hnone : methodsOf false names = [] := List.flatMap_eq_nil_iff.mpr fun _ _ => rfl
    rw [hnone]
    rfl
  | true =>
    have hpairs : (methodsOf true names).Nodup := hnd.product nodup_treeNames
    have hmem : (cls, n) ∈ methodsOf true names :=
      List.mem_flatMap.mpr ⟨cls, hcls, List.mem_map.mpr ⟨n, hn, rfl⟩⟩
    exact List.count_eq_one_of_mem hpairs hmem

theorem mem_of_mem_methodsOf {names : List String} {treeMethods : Bool} {x : String × String}
    (hx : x ∈ methodsOf treeMethods names) : x.1 ∈ names ∧ x.2 ∈ treeNames := by
  obtain ⟨cls, hcls, hx⟩ := List.mem_flatMap.mp hx
  obtain ⟨n, hn, rfl⟩ := List.mem_map.mp hx
  refine ⟨hcls, ?_⟩
  rw [methodsIf] at hn
  split at hn
  · exact hn
  · cases hn

/-- The classes of the declarations: those of the sums, then the products.  All
declare the same methods. -/
theorem map_class?_declarationItems :
    (c.declarationItems.filterMap Item.class?).map (fun k => (k.name, k.methods)) =
      ((c.model.compoundSums.flatMap fun t => classesOf (.compoundSum t))
        ++ c.model.products.flatMap fun p => classesOf (.product p)).map
          (·, methodsIf c.options.treeMethods) := by
  -- what is written at once are constants and functions, no classes
  have himmediate :
      (c.model.definitions.flatMap c.immediateItems).filterMap Item.class? = [] := by
    rw [List.filterMap_flatMap, List.flatMap_eq_nil_iff]
    intro d _
    cases d with
    | simpleSum t =>
      rw [immediateItems, simpleItems]
      cases c.options.isFlat t.name <;> rfl
    | compoundSum t => rfl
    | product p => rfl
  have hsum : ∀ t, ((c.sumItems t).filterMap Item.class?).map (fun k => (k.name, k.methods)) =
      (classesOf (.compoundSum t)).map (·, methodsIf c.options.treeMethods) := by
    intro t
    simp [sumItems, List.filterMap_flatMap, List.filterMap_cons, Item.class?, classesOf,
      List.map_eq_flatMap, List.flatMap_assoc, constructorClass, typeName, memberName]
  have hproduct : ∀ p,
      ((c.productItems p).filterMap Item.class?).map (fun k => (k.name, k.methods)) =
        (classesOf (.product p)).map (·, methodsIf c.options.treeMethods) := by
    intro p
    rfl
  rw [declarationItems, List.filterMap_append, List.filterMap_append, himmediate, List.nil_append,
    List.filterMap_flatMap, List.filterMap_flatMap, List.map_append, List.map_append,
    List.map_flatMap, List.map_flatMap, List.map_flatMap, List.map_flatMap]
  simp only [hsum, hproduct]

theorem classes_perm (m : Model) :
    ((m.compoundSums.flatMap fun t => classesOf (.compoundSum t))
      ++ m.products.flatMap fun p => classesOf (.product p)).Perm (classes m) := by
  rw [Model.flatMap_compoundSums, Model.flatMap_products]
  refine (List.flatMap_append_perm _ _ _).trans (List.Perm.flatMap_left _ fun d _ => ?_)
  cases d with
  | simpleSum t => exact List.Perm.refl _
  | compoundSum t => simp [Model.Definition.compoundSum?, Model.Definition.product?]
  | product p => exact List.Perm.refl _

/-- The methods of a definition, up to order. -/
theorem filterMap_method?_bodyItemsOf (d : Model.Definition) :
    ((c.bodyItemsOf d).filterMap Item.method?).Perm
      (methodsOf c.options.treeMethods (classesOf d)) := by
  have hfunctions : (c.functionItems d).filterMap Item.method? = [] := by
    cases d <;> rfl
  have htree : ∀ cls fields attributes,
      (c.treeItems cls fields attributes).filterMap Item.method? = treeNames.map (cls, ·) := by
    intro cls fields attributes
    rw [treeItems]
    cases c.options.hasHook cls <;> rfl
  rw [bodyItemsOf, List.filterMap_append, hfunctions, List.nil_append]
  cases c.options.treeMethods with
  | false => simp [methodsOf, methodsIf]
  | true =>
    cases d with
    | simpleSum t => exact List.Perm.refl _
    | compoundSum t =>
      -- the base comes first among the classes and last among the methods
      have hbase : (dispatchItems t).filterMap Item.method? =
          treeNames.map (t.name ++ "_t", ·) := rfl
      have hconstructors : (t.constructors.flatMap fun k => c.treeItems (memberName t.name k.name)
            k.fields t.attributes).filterMap Item.method? =
          methodsOf true (t.constructors.map fun k => t.name ++ "__" ++ k.name) := by
        rw [List.filterMap_flatMap, methodsOf, List.flatMap_map]
        simp only [htree]
        rfl
      rw [if_pos rfl, methodItems, List.filterMap_append, hbase, hconstructors, classesOf,
        methodsOf, methodsOf, List.flatMap_cons]
      exact List.perm_append_comm
    | product p =>
      rw [if_pos rfl, methodItems, htree]
      exact List.Perm.of_eq (List.append_nil _).symm

theorem filterMap_method?_perm :
    (c.bodyItems.filterMap Item.method?).Perm
      (methodsOf c.options.treeMethods (classes c.model)) := by
  rw [bodyItems, List.filterMap_flatMap, methodsOf, classes, List.flatMap_assoc]
  exact List.Perm.flatMap_left _ fun d _ => c.filterMap_method?_bodyItemsOf d

theorem declared_perm :
    ((c.declarationItems.filterMap Item.class?).flatMap ClassText.declared).Perm
      (methodsOf c.options.treeMethods (classes c.model)) := by
  have hdeclared : (c.declarationItems.filterMap Item.class?).flatMap ClassText.declared =
      ((c.declarationItems.filterMap Item.class?).map fun k => (k.name, k.methods)).flatMap
        fun x => x.2.map (x.1, ·) := by
    rw [List.flatMap_map]
    rfl
  rw [hdeclared, map_class?_declarationItems, List.flatMap_map]
  exact (classes_perm c.model).flatMap_right _

end Context

theorem classesOf_sublist (o : Options) (d : Model.Definition) :
    (classesOf d).Sublist (topLevelNames o d) := by
  cases d with
  | simpleSum t => exact List.nil_sublist _
  | compoundSum t => exact .cons_cons _ (.cons _ (.cons _ (.cons _ (.refl _))))
  | product p => exact .refl _

theorem nodup_classes {s : Schema} {m : Model} (h : Model.Resolves s m) : (classes m).Nodup :=
  (h.nodup_topLevelNames {}).sublist (.flatMap_right _ fun d _ => classesOf_sublist {} d)

theorem nodup_signatures {s : Schema} {m : Model} (h : Model.Resolves s m) (o : Options) :
    ((signatures m o).map Prod.fst).Nodup := by
  refine (h.nodup_topLevelNames o).sublist ?_
  rw [signatures, List.map_filterMap, List.filterMap_eq_flatMap_toList]
  refine .flatMap_right _ fun d _ => ?_
  cases d with
  | simpleSum t => exact .cons _ (.cons _ (.refl _))
  | compoundSum t =>
    exact .cons _ (.cons _ (.cons _ (.cons_cons _ (List.nil_sublist _))))
  | product p => exact List.nil_sublist _

/-! ### Whole headers -/

theorem signaturesMatch {s : Schema} {m : Model} (h : Model.Resolves s m) (o : Options) :
    SignaturesMatch m o := by
  let c : Context := ⟨m, o⟩
  have hdeclared : declaredItems m o = c.declarationItems := declaredItems_eq h o
  have hdefined : definedItems m o = c.bodyItems := definedItems_eq m o
  have hprototypes : (declaredItems m o).filterMap Item.prototype? = signatures m o := by
    rw [hdeclared]
    exact c.filterMap_prototype?
  have hfunctions : (definedItems m o).filterMap Item.function? = signatures m o := by
    rw [hdefined]
    exact c.filterMap_function?
  have hdistinct := nodup_classes h
  exact {
    prototypes := hprototypes
    functions := hfunctions
    once := by
      intro d hd f type hf
      have hmem : (f, type) ∈ signatures m o := List.mem_filterMap.mpr ⟨d, hd, hf⟩
      rw [hprototypes, hfunctions]
      exact ⟨filter_eq_singleton (nodup_signatures h o) hmem,
        filter_eq_singleton (nodup_signatures h o) hmem⟩
    classes := by
      have hnames := congrArg (List.map Prod.fst) c.map_class?_declarationItems
      rw [List.map_map, List.map_map] at hnames
      rw [hdeclared]
      refine ⟨(List.Perm.of_eq hnames).trans ?_, hdistinct⟩
      rw [Function.comp_def, List.map_id']
      exact Context.classes_perm m
    -- both sides are compared with all pairs of a class and a method, each of which is there once
    declared := by
      intro cls hcls n hn
      rw [hdeclared, c.declared_perm.count_eq]
      exact Context.count_methodsOf hdistinct hcls _ hn
    defined := by
      intro cls hcls n hn
      rw [hdefined, c.filterMap_method?_perm.count_eq]
      exact Context.count_methodsOf hdistinct hcls _ hn
    no_other := by
      intro x hx
      rw [hdeclared, hdefined, c.declared_perm.mem_iff, c.filterMap_method?_perm.mem_iff,
        or_self] at hx
      exact Context.mem_of_mem_methodsOf hx
    elsewhere := by
      refine ⟨filterMap_of_isDeclaration m o ?_, filterMap_of_isBody h o ?_,
        filterMap_of_isDeclaration m o ?_, filterMap_of_isBody h o ?_⟩
      · intro i hi
        cases i with
        | strDeclaration sum tagType => cases hi
        | _ => rfl
      · intro i hi
        cases i with
        | strFunction sum tagType scope variants => cases hi
        | _ => rfl
      · intro i hi
        cases i with
        | sumClass name treeMethods => cases hi
        | dataClass k => cases hi
        | _ => rfl
      · intro i hi
        cases i with
        | recordMethod cls method body => cases hi
        | shortMethod cls hook => cases hi
        | dispatcher sum method cases => cases hi
        | _ => rfl }

/-- **Announcements and definitions match one to one in every header**, which is
spelled from its items, and they are spelled as they are read back. -/
theorem generate_signaturesMatch {s : Schema} {m : Model} (hm : Model.ofSchema s = .ok m)
    (o : Options) :
    (∃ out, (generate m o).result = .ok out ∧ out.code = spell (headerItems m o)) ∧
    (∀ i ∈ headerItems m o, i.Reads) ∧ SignaturesMatch m o := by
  have h := Model.ofSchema_eq_ok.mp hm
  exact ⟨exists_code_spelled h o, fun i _ => i.reads, signaturesMatch h o⟩

theorem sharingModule_signaturesMatch :
    ∃ m, Model.ofSchema Model.sharingModule = .ok m ∧
      signatures m { enumSuffix := false } = [("Op_str", "Op"), ("Expr_str", "int")] ∧
      classes m = ["Expr_t", "Expr__Call", "Expr__Nil", "Span", "Token"] ∧
      SignaturesMatch m { enumSuffix := false } := by
  have hnames : (fun m : Model => (signatures m { enumSuffix := false }, classes m)) <$>
      Model.ofSchema Model.sharingModule =
        .ok ([("Op_str", "Op"), ("Expr_str", "int")],
          ["Expr_t", "Expr__Call", "Expr__Nil", "Span", "Token"]) := by rfl
  obtain ⟨m, hm, hnames⟩ := map_eq_ok.mp hnames
  obtain ⟨hsignatures, hclasses⟩ := Prod.mk.inj hnames
  exact ⟨m, hm, hsignatures, hclasses, (generate_signaturesMatch hm _).2.2⟩

end Header

end Asdl
