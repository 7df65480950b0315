/-
What the sections of a header hold, in closed form.

A section is written by a walk that remembers what still has to come.  For the
model of a schema nothing that was remembered is ever missing, so each walk
writes a fixed list of items:

* `Header.forwardItemsOf`, `Header.macroItemsOf`, `Context.declarationItems`,
  `Context.bodyItems` — the items of each section, in order;
* `Header.walk_forwardSection`, `Header.walk_macroTable`, `Context.walk_bodies`
  — the walks that remember nothing;
* `Context.walk_declarations` — the walk that does, for the model of a schema;
* `Header.result_generate` — the header as a whole;
* `Header.headerItems`, `Header.exists_code_eq` — all items of a header in order,
  and its text as theirs;
* `Header.filterMap_of_isDeclaration`, `Header.filterMap_of_isBody` — declarations
  stand in the second section only, and bodies in the third.

Design notes: the invariant of the walk over the declarations is `Context.queued`,
which says what is waiting after any list of definitions.  That every waiting sum
is found again needs different names; that every base is written before the
products needs that only compound sums share products.
-/
import Asdl.Generate
import Asdl.Proofs.Tags
import Mathlib.Data.List.TakeWhile

namespace Asdl

namespace Header

/-! ### Emissions -/

namespace Emission

@[simp] theorem items_ofItems (depth : Nat) (items : List Item) :
    (ofItems depth items).items = items.map (⟨depth, ·⟩) := rfl

@[simp] theorem events_ofItems (depth : Nat) (items : List Item) :
    (ofItems depth items).events = [] := rfl

@[simp] theorem outcome_ofItems (depth : Nat) (items : List Item) :
    (ofItems depth items).outcome = .ok () := rfl

theorem andThen_of_ok {e : Emission} (h : e.outcome = .ok ()) (next : Emission) :
    e.andThen next = ⟨e.items ++ next.items, e.events ++ next.events, next.outcome⟩ := by
  rw [andThen, h]

theorem andThen_of_error {e : Emission} {v : Violation} (h : e.outcome = .error v)
    (next : Emission) : e.andThen next = e := by
  rw [andThen, h]

theorem andThen_assoc (e f g : Emission) : (e.andThen f).andThen g = e.andThen (f.andThen g) := by
  cases he : e.outcome with
  | error v => rw [andThen_of_error he, andThen_of_error he, andThen_of_error he]
  | ok _ =>
    have hef : (e.andThen f).outcome = f.outcome := by rw [andThen_of_ok he]
    cases hf : f.outcome with
    | error v => rw [andThen_of_error (hef.trans hf), andThen_of_error hf]
    | ok _ =>
      rw [andThen_of_ok (hef.trans hf), andThen_of_ok he, andThen_of_ok he, andThen_of_ok hf]
      simp only [List.append_assoc]

theorem ofItems_andThen_ofItems (depth : Nat) (xs ys : List Item) :
    (ofItems depth xs).andThen (ofItems depth ys) = ofItems depth (xs ++ ys) := by
  rw [andThen_of_ok rfl]
  simp [ofItems]

theorem each_append {α : Type} (f : α → Emission) (xs ys : List α) :
    each f (xs ++ ys) = (each f xs).andThen (each f ys) := by
  induction xs with
  | nil =>
    rw [List.nil_append, each, andThen_of_ok rfl]
    simp
  | cons x xs ih => rw [List.cons_append, each, each, ih, andThen_assoc]

/-- Emissions that go well, one after the other. -/
theorem each_map_of_ok {α β : Type} {f : β → Emission} {g : α → β} {items : α → List Placed}
    {report : α → List Event} {xs : List α}
    (h : ∀ x ∈ xs, f (g x) = ⟨items x, report x, .ok ()⟩) :
    each f (xs.map g) = ⟨xs.flatMap items, xs.flatMap report, .ok ()⟩ := by
  induction xs with
  | nil => rfl
  | cons x xs ih =>
    rw [List.map_cons, each, h x List.mem_cons_self,
      ih fun y hy => h y (List.mem_cons_of_mem _ hy), andThen_of_ok rfl]
    simp only [List.flatMap_cons]

/-- The same if all of them stand at one depth. -/
theorem each_map_ofItems {α β : Type} {f : β → Emission} {g : α → β} {depth : Nat}
    {items : α → List Item} {report : α → List Event} {xs : List α}
    (h : ∀ x ∈ xs, f (g x) = { ofItems depth (items x) with events := report x }) :
    each f (xs.map g) =
      { ofItems depth (xs.flatMap items) with events := xs.flatMap report } := by
  rw [each_map_of_ok h]
  simp only [items_ofItems, List.map_flatMap, outcome_ofItems]

theorem each_ofItems {α : Type} (depth : Nat) (f : α → List Item) (xs : List α) :
    each (fun x => ofItems depth (f x)) xs = ofItems depth (xs.flatMap f) := by
  induction xs with
  | nil => rfl
  | cons x xs ih => rw [each, ih, ofItems_andThen_ofItems, List.flatMap_cons]

end Emission

/-! ### Sections without memory -/

/-- A section without memory writes for each definition, then for the end. -/
theorem Section.emission_walkFrom (s : Section Unit) (ds : List Model.Definition) :
    (s.walkFrom () ds).emission =
      (Emission.each (fun d => (s.visit () d 0).emission) ds).andThen (s.finish ()).emission := by
  induction ds with
  | nil =>
    rw [Section.walkFrom, Emission.each, Emission.andThen_of_ok rfl]
    simp
  | cons d ds ih =>
    rw [Section.walkFrom, Emission.each, Emission.andThen_assoc, ← ih]
    cases hd : (s.visit () d 0).emission.outcome with
    | error v => simp only [hd, Emission.andThen]
    | ok _ => rfl

/-- The announcements of all classes of a model. -/
def forwardItemsOf (m : Model) : List Item := m.definitions.flatMap forwardItems ++ [.blank]

/-- The macros for all simple sums of a model. -/
def macroItemsOf (m : Model) : List Item := m.definitions.flatMap macroItems

theorem walk_forwardSection (m : Model) :
    (forwardSection.walk () m).emission = .ofItems 0 (forwardItemsOf m) := by
  rw [Section.walk, Section.emission_walkFrom]
  show (Emission.each (fun d => Emission.ofItems 0 (forwardItems d)) m.definitions).andThen
    (.ofItems 0 [.blank]) = _
  rw [Emission.each_ofItems, Emission.ofItems_andThen_ofItems, forwardItemsOf]

theorem walk_macroTable (m : Model) :
    (macroTable.walk () m).emission = .ofItems 0 (macroItemsOf m) := by
  rw [Section.walk, Section.emission_walkFrom]
  show (Emission.each (fun d => Emission.ofItems 0 (macroItems d)) m.definitions).andThen
    (.ofItems 0 []) = _
  rw [Emission.each_ofItems, Emission.ofItems_andThen_ofItems, List.append_nil, macroItemsOf]

namespace Context

/-- The bodies for one definition. -/
def bodyItemsOf (c : Context) (d : Model.Definition) : List Item :=
  c.functionItems d ++ if c.options.treeMethods then c.methodItems d else []

/-- The bodies for all definitions of the model. -/
def bodyItems (c : Context) : List Item := c.model.definitions.flatMap c.bodyItemsOf

theorem walk_bodies (c : Context) :
    (c.bodies.walk () c.model).emission = .ofItems 0 c.bodyItems := by
  have hd : ∀ d, c.bodiesOf d 0 = .ofItems 0 (c.bodyItemsOf d) :=
    fun d => Emission.ofItems_andThen_ofItems 0 _ _
  rw [Section.walk, Section.emission_walkFrom]
  show (Emission.each (fun d => c.bodiesOf d 0) c.model.definitions).andThen
    (.ofItems 0 []) = _
  simp only [hd]
  rw [Emission.each_ofItems, Emission.ofItems_andThen_ofItems, List.append_nil, bodyItems]

/-! ### Declarations -/

/-- What is declared for a definition at once. -/
def immediateItems (c : Context) : Model.Definition → List Item
  | .simpleSum s => c.simpleItems s
  | .compoundSum s => tagItems s
  | .product _ => []

/-- What is remembered after some definitions. -/
def queued (c : Context) (state : Pending) (ds : List Model.Definition) : Pending :=
  ds.foldl (fun st d => (c.declare st d 0).state) state

theorem emission_declare (c : Context) (state : Pending) (d : Model.Definition) (depth : Nat) :
    (c.declare state d depth).emission = .ofItems depth (c.immediateItems d) := by
  cases d with
  | simpleSum s => rfl
  | compoundSum s => rfl
  | product p => rfl

/-- The walk writes what is due at once and then what is waiting. -/
theorem walkFrom_declarations (c : Context) (state : Pending) (ds : List Model.Definition) :
    c.declarations.walkFrom state ds =
      ⟨(c.declareWaiting (c.queued state ds)).state,
        (Emission.ofItems 0 (ds.flatMap c.immediateItems)).andThen
          (c.declareWaiting (c.queued state ds)).emission⟩ := by
  induction ds generalizing state with
  | nil =>
    rw [Section.walkFrom, Emission.andThen_of_ok rfl]
    simp [declarations, queued]
  | cons d ds ih =>
    have hq : c.queued state (d :: ds) = c.queued (c.declare state d 0).state ds := rfl
    have hvisit : c.declarations.visit state d 0 = c.declare state d 0 := rfl
    rw [Section.walkFrom]
    simp only [hvisit, emission_declare, Emission.outcome_ofItems]
    rw [ih, hq, List.flatMap_cons, ← Emission.ofItems_andThen_ofItems, Emission.andThen_assoc]

/-- **What is waiting after some definitions**: the classes of their compound sums
and products, in order. -/
theorem queued_eq (c : Context) (state : Pending) (ds : List Model.Definition) :
    c.queued state ds =
      { sums := ((ds.filterMap Model.Definition.compoundSum?).map fun s => (s.name, 0)).reverse
          ++ state.sums
        products := ((ds.filterMap Model.Definition.product?).map fun p => (p.name, 0)).reverse
          ++ state.products
        declared := state.declared
        tags := state.tags.insertAll ((ds.filterMap Model.Definition.compoundSum?).map fun s =>
          (typeName s.name, tagTableOf s)) } := by
  -- each definition goes in front of what waits, hence the reversed lists
  induction ds generalizing state with
  | nil => rfl
  | cons d ds ih =>
    have hq : c.queued state (d :: ds) = c.queued (c.declare state d 0).state ds := rfl
    rw [hq, ih]
    cases d with
    | simpleSum s => rfl
    | compoundSum s =>
      simp [declare, List.filterMap_cons, Model.Definition.compoundSum?,
        Model.Definition.product?, SortedMap.insertAll]
    | product p =>
      simp [declare, List.filterMap_cons, Model.Definition.compoundSum?,
        Model.Definition.product?]

variable {s : Schema} {c : Context}

theorem declareSum_of_mem (h : Model.Resolves s c.model) {t : Model.CompoundSum}
    (ht : t ∈ c.model.compoundSums) (depth : Nat) :
    c.declareSum (t.name, depth) =
      { Emission.ofItems depth (c.sumItems t) with events := [.declaringSum t.name] } := by
  rw [declareSum, h.compoundSum?_eq_some.mpr ⟨ht, rfl⟩]

theorem declaredBy_compoundSums (h : Model.Resolves s c.model) :
    c.declaredBy (c.model.compoundSums.map fun t => (t.name, 0)) =
      c.model.compoundSums.map fun t => typeName t.name := by
  rw [declaredBy, List.takeWhile_eq_self_iff.mpr, List.map_map]
  · rfl
  · intro w hw
    obtain ⟨t, ht, rfl⟩ := List.mem_map.mp hw
    rw [h.compoundSum?_eq_some.mpr ⟨ht, rfl⟩]
    rfl

theorem declareProduct_of_declared (h : Model.Resolves s c.model) {declared : List String}
    {p : Model.Product} (hp : p ∈ c.model.products)
    (hdeclared : ∀ b ∈ p.bases, typeName b ∈ declared) (depth : Nat) :
    c.declareProduct declared (p.name, depth) =
      { Emission.ofItems depth (c.productItems p) with
        events := [.declaringProduct p.name] } := by
  have hbases : ((p.bases.map typeName).find? fun b => !declared.contains b) = none := by
    rw [List.find?_eq_none]
    intro b hb
    obtain ⟨n, hn, rfl⟩ := List.mem_map.mp hb
    simpa using hdeclared n hn
  rw [declareProduct, h.product?_eq_some.mpr ⟨hp, rfl⟩]
  simp only [hbases]

/-- The declarations for all definitions of the model: what is due at once, then
the classes of the compound sums, then those of the products. -/
def declarationItems (c : Context) : List Item :=
  c.model.definitions.flatMap c.immediateItems
    ++ c.model.compoundSums.flatMap c.sumItems
    ++ c.model.products.flatMap c.productItems

/-- What is reported while the declarations are written. -/
def declarationEvents (m : Model) : List Event :=
  m.compoundSums.flatMap (fun t => [.declaringSum t.name])
    ++ m.products.flatMap (fun p => [.declaringProduct p.name])

/-- The tables of the tags of all compound sums of a model. -/
def tagTablesOf (m : Model) : TagTables :=
  .ofList (m.compoundSums.map fun t => (typeName t.name, tagTableOf t))

/-- **The declarations of the model of a schema are written to the end**: every
class that waits is found, and every base comes before the products. -/
theorem walk_declarations (h : Model.Resolves s c.model) :
    c.declarations.walk {} c.model =
      ⟨{ sums := [], products := []
         declared := c.model.compoundSums.map fun t => typeName t.name
         tags := tagTablesOf c.model },
        { Emission.ofItems 0 c.declarationItems with events := declarationEvents c.model }⟩ := by
  -- the definitions put every class into a queue, with the latest in front
  have hqueued : c.queued {} c.model.definitions =
      { sums := (c.model.compoundSums.map fun t => (t.name, 0)).reverse
        products := (c.model.products.map fun p => (p.name, 0)).reverse
        declared := [], tags := tagTablesOf c.model } := by
    rw [queued_eq, List.append_nil, List.append_nil]
    rfl
  have hsums : Emission.each c.declareSum (c.model.compoundSums.map fun t => (t.name, 0)) =
      { Emission.ofItems 0 (c.model.compoundSums.flatMap c.sumItems) with
        events := c.model.compoundSums.flatMap fun t => [.declaringSum t.name] } :=
    Emission.each_map_ofItems fun t ht => declareSum_of_mem h ht 0
  -- the sums are written first, so every base of a product has been declared by then
  have hbases : ∀ p ∈ c.model.products, ∀ b ∈ p.bases,
      typeName b ∈ c.model.compoundSums.map fun t => typeName t.name := by
    intro p hp b hb
    obtain ⟨t, ht, rfl⟩ := h.exists_base hp hb
    exact List.mem_map.mpr ⟨t, ht, rfl⟩
  have hproducts : Emission.each
        (c.declareProduct (c.model.compoundSums.map fun t => typeName t.name))
        (c.model.products.map fun p => (p.name, 0)) =
      { Emission.ofItems 0 (c.model.products.flatMap c.productItems) with
        events := c.model.products.flatMap fun p => [.declaringProduct p.name] } :=
    Emission.each_map_ofItems fun p hp => declareProduct_of_declared h hp (hbases p hp) 0
  -- the end of the module writes both queues, in the order of the definitions again
  rw [Section.walk, walkFrom_declarations, hqueued, declareWaiting]
  simp only [List.reverse_reverse, List.nil_append, declaredBy_compoundSums h, hsums, hproducts,
    Emission.outcome_ofItems]
  rw [Emission.andThen_of_ok rfl, Emission.andThen_of_ok rfl]
  simp only [Emission.items_ofItems, Emission.events_ofItems, List.nil_append, declarationItems,
    declarationEvents, List.map_append, List.append_assoc]

end Context

/-! ### Headers -/

theorem result_bind {ε α β : Type} (r : Run ε α) (f : α → Run ε β) :
    (r >>= f).result = r.result >>= fun a => (f a).result := by
  show (r.andThen f).result = _
  rw [Run.andThen]
  cases r.result with
  | error e => rfl
  | ok a => rfl

theorem Section.result_run {σ : Type} (s : Section σ) (state : σ) (m : Model)
    (h : (s.walk state m).emission.outcome = .ok ()) :
    (s.run state m).result = .ok ((s.walk state m).state, (s.walk state m).emission.text) := by
  simp only [Section.run, h]
  rfl

/-- Items at depth zero, as they are written. -/
def itemsText (items : List Item) : String := renderItems (items.map (⟨0, ·⟩))

/-- **The header of the model of a schema**: announcements, declarations, bodies. -/
theorem result_generate {s : Schema} {m : Model} (h : Model.Resolves s m) (o : Options) :
    (generate m o).result =
      .ok ⟨itemsText (forwardItemsOf m) ++ itemsText (Context.declarationItems ⟨m, o⟩)
          ++ itemsText (Context.bodyItems ⟨m, o⟩),
        if o.sidecar then some (Context.tagTablesOf m) else none⟩ := by
  have hf := walk_forwardSection m
  have hd := Context.walk_declarations (c := ⟨m, o⟩) h
  have hb := Context.walk_bodies ⟨m, o⟩
  simp only [generate, result_bind]
  rw [Section.result_run forwardSection () m (by rw [hf]; rfl),
    Section.result_run _ _ m (by rw [hd]; rfl), Section.result_run _ _ m (by rw [hb]; rfl),
    hd, hf, hb]
  rfl

/-! ### Items of a header -/

/-- The items of the first section, which announces classes. -/
def announcedItems (m : Model) : List Item :=
  (forwardSection.walk () m).emission.items.map Placed.item

/-- The items of the second section, which declares. -/
def declaredItems (m : Model) (o : Options) : List Item :=
  ((Context.declarations ⟨m, o⟩).walk {} m).emission.items.map Placed.item

/-- The items of the third section, which holds bodies. -/
def definedItems (m : Model) (o : Options) : List Item :=
  ((Context.bodies ⟨m, o⟩).walk () m).emission.items.map Placed.item

/-- The items of a header in the order of its text. -/
def headerItems (m : Model) (o : Options) : List Item :=
  announcedItems m ++ declaredItems m o ++ definedItems m o

theorem map_item_ofItems (depth : Nat) (items : List Item) :
    (Emission.ofItems depth items).items.map Placed.item = items := by
  rw [Emission.items_ofItems, List.map_map]
  exact List.map_id _

theorem announcedItems_eq (m : Model) : announcedItems m = forwardItemsOf m := by
  rw [announcedItems, walk_forwardSection, map_item_ofItems]

theorem declaredItems_eq {s : Schema} {m : Model} (h : Model.Resolves s m) (o : Options) :
    declaredItems m o = Context.declarationItems ⟨m, o⟩ := by
  rw [declaredItems, Context.walk_declarations (c := ⟨m, o⟩) h]
  exact map_item_ofItems 0 _

theorem definedItems_eq (m : Model) (o : Options) :
    definedItems m o = Context.bodyItems ⟨m, o⟩ := by
  have hwalk := Context.walk_bodies ⟨m, o⟩
  rw [definedItems, hwalk, map_item_ofItems]

theorem headerItems_eq {s : Schema} {m : Model} (h : Model.Resolves s m) (o : Options) :
    headerItems m o =
      forwardItemsOf m ++ Context.declarationItems ⟨m, o⟩ ++ Context.bodyItems ⟨m, o⟩ := by
  rw [headerItems, announcedItems_eq, declaredItems_eq h, definedItems_eq]

/-! ### Sections keep to their kind -/

/-- Whether an item declares a type, constants, a function or a class. -/
def Item.isDeclaration : Item → Bool
  | .constants _ _ => true
  | .enumeration _ _ => true
  | .typedef _ _ => true
  | .strDeclaration _ _ => true
  | .sumClass _ _ => true
  | .dataClass _ => true
  | .aliases _ _ => true
  | _ => false

/-- Whether an item is a body outside of a class. -/
def Item.isBody : Item → Bool
  | .strFunction _ _ _ _ => true
  | .recordMethod _ _ _ => true
  | .shortMethod _ _ => true
  | .dispatcher _ _ _ => true
  | _ => false

/-- Whether an item is a method or stands beside one. -/
def Item.isMethodPart : Item → Bool
  | .blank => true
  | .recordMethod _ _ _ => true
  | .hookDeclaration _ => true
  | .shortMethod _ _ => true
  | .dispatcher _ _ _ => true
  | _ => false

theorem not_isDeclaration_of_mem_forward {m : Model} :
    ∀ i ∈ forwardItemsOf m, i.isDeclaration = false ∧ i.isBody = false := by
  intro i hi
  rcases List.mem_append.mp hi with hi | hi
  · obtain ⟨d, -, hi⟩ := List.mem_flatMap.mp hi
    cases d with
    | simpleSum t => cases hi
    | compoundSum t => rw [List.mem_singleton.mp hi]; exact ⟨rfl, rfl⟩
    | product p => rw [List.mem_singleton.mp hi]; exact ⟨rfl, rfl⟩
  · rw [List.mem_singleton.mp hi]
    exact ⟨rfl, rfl⟩

namespace Context

variable (c : Context)

theorem not_isBody_of_mem_declarationItems : ∀ i ∈ c.declarationItems, i.isBody = false := by
  have himmediate : ∀ d, (c.immediateItems d).all (!·.isBody) = true := by
    intro d
    cases d with
    | simpleSum t =>
      rw [immediateItems, simpleItems]
      cases c.options.isFlat t.name <;> rfl
    | compoundSum t => rfl
    | product p => rfl
  have hsum : ∀ t, (c.sumItems t).all (!·.isBody) = true := by
    intro t
    rw [sumItems, List.all_append, List.all_append, List.all_flatMap]
    simp [Item.isBody]
  have hall : c.declarationItems.all (!·.isBody) = true := by
    simp only [declarationItems, List.all_append, List.all_flatMap, himmediate, hsum]
    simp [productItems, Item.isBody]
  intro i hi
  simpa using List.all_eq_true.mp hall i hi

/-- What is written for methods are methods, announcements of hand-written
functions and blank lines. -/
theorem isMethodPart_of_mem_methodItems {d : Model.Definition} :
    ∀ i ∈ c.methodItems d, i.isMethodPart = true := by
  have htree : ∀ cls fields attributes,
      (c.treeItems cls fields attributes).all Item.isMethodPart = true := by
    intro cls fields attributes
    rw [treeItems]
    cases c.options.hasHook cls <;> rfl
  rw [← List.all_eq_true]
  cases d with
  | simpleSum t => rfl
  | compoundSum t =>
    rw [methodItems, List.all_append, List.all_flatMap, Bool.and_eq_true, List.all_eq_true]
    exact ⟨fun k _ => htree _ _ _, rfl⟩
  | product p => exact htree _ _ _

/-- What cannot be read from methods is read from functions only. -/
theorem filterMap_bodyItemsOf {α : Type} {f : Item → Option α}
    (hf : ∀ i : Item, i.isMethodPart = true → f i = none) (d : Model.Definition) :
    (c.bodyItemsOf d).filterMap f = (c.functionItems d).filterMap f := by
  have hmethods : (c.methodItems d).filterMap f = [] := by
    rw [List.filterMap_eq_nil_iff]
    intro i hi
    exact hf i (c.isMethodPart_of_mem_methodItems i hi)
  rw [bodyItemsOf, List.filterMap_append]
  split
  · rw [hmethods, List.append_nil]
  · exact List.append_nil _

/-- Bodies are what stands in their section, beside methods. -/
theorem bodyPart_of_mem_bodyItems :
    ∀ i ∈ c.bodyItems, i.isMethodPart = true ∨ i.isBody = true := by
  intro i hi
  obtain ⟨d, -, hi⟩ := List.mem_flatMap.mp hi
  rcases List.mem_append.mp hi with hi | hi
  · cases d with
    | simpleSum t =>
      rcases List.mem_pair.mp hi with rfl | rfl
      · exact .inr rfl
      · exact .inl rfl
    | compoundSum t =>
      rcases List.mem_pair.mp hi with rfl | rfl
      · exact .inr rfl
      · exact .inl rfl
    | product p => cases hi
  · split at hi
    · exact .inl (c.isMethodPart_of_mem_methodItems i hi)
    · cases hi

theorem not_isDeclaration_of_mem_bodyItems : ∀ i ∈ c.bodyItems, i.isDeclaration = false := by
  intro i hi
  have hkind := c.bodyPart_of_mem_bodyItems i hi
  revert hkind
  cases i <;> simp [Item.isMethodPart, Item.isBody, Item.isDeclaration]

end Context

section

variable {s : Schema} {m : Model} {α : Type} {f : Item → Option α}

/-- What is only read from declarations is found in their section. -/
theorem filterMap_of_isDeclaration (m : Model) (o : Options)
    (hf : ∀ i : Item, i.isDeclaration = false → f i = none) :
    (headerItems m o).filterMap f = (declaredItems m o).filterMap f := by
  have hannounced : (announcedItems m).filterMap f = [] := by
    rw [announcedItems_eq, List.filterMap_eq_nil_iff]
    exact fun i hi => hf i (not_isDeclaration_of_mem_forward i hi).1
  have hdefined : (definedItems m o).filterMap f = [] := by
    rw [definedItems_eq, List.filterMap_eq_nil_iff]
    exact fun i hi => hf i (Context.not_isDeclaration_of_mem_bodyItems _ i hi)
  rw [headerItems, List.filterMap_append, List.filterMap_append, hannounced, hdefined,
    List.nil_append, List.append_nil]

/-- What is only read from bodies is found in their section. -/
theorem filterMap_of_isBody (h : Model.Resolves s m) (o : Options)
    (hf : ∀ i : Item, i.isBody = false → f i = none) :
    (headerItems m o).filterMap f = (definedItems m o).filterMap f := by
  have hannounced : (announcedItems m).filterMap f = [] := by
    rw [announcedItems_eq, List.filterMap_eq_nil_iff]
    exact fun i hi => hf i (not_isDeclaration_of_mem_forward i hi).2
  have hdeclared : (declaredItems m o).filterMap f = [] := by
    rw [declaredItems_eq h, List.filterMap_eq_nil_iff]
    exact fun i hi => hf i (Context.not_isBody_of_mem_declarationItems _ i hi)
  rw [headerItems, List.filterMap_append, List.filterMap_append, hannounced, hdeclared,
    List.nil_append, List.nil_append]

end

theorem itemsText_append (xs ys : List Item) :
    itemsText (xs ++ ys) = itemsText xs ++ itemsText ys := by
  simp only [itemsText, renderItems, renderLines, List.map_append, List.flatMap_append,
    String.join_append]

/-- The text of a header is the text of its items. -/
theorem exists_code_eq {s : Schema} {m : Model} (h : Model.Resolves s m) (o : Options) :
    ∃ out, (generate m o).result = .ok out ∧ out.code = itemsText (headerItems m o) := by
  refine ⟨_, result_generate h o, ?_⟩
  rw [headerItems_eq h o, itemsText_append, itemsText_append]

theorem result_macros (m : Model) : (macros m).result = .ok (itemsText (macroItemsOf m)) := by
  have ht := walk_macroTable m
  simp only [macros, result_bind]
  rw [Section.result_run macroTable () m (by rw [ht]; rfl), ht]
  rfl

end Header

end Asdl
