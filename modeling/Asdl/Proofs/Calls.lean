/-
Declarations that are asked for in any order.

The section of declarations can be called by hand: its definitions are visited in any
order, any number of times and at any depth, and the end may come more than once.
What an end does depends on the calls before it:

* `Header.Call`, `Section.after` — calls, and the state that they lead to;
* `Header.recent`, `Header.SumVisited` — what was visited since the last end, and the
  sums that were visited at all;
* `Context.Remembers`, `Context.remembers_after` — what the state knows about the
  calls, step by step and for every sequence;
* `Context.declareProduct_of_missing` — a product whose base was never visited;
* `Context.sumLines`, `Context.productLines` — the classes of a sum and of a product, line
  by line;
* `Context.finish_afterCalls` — what an end writes, and when it fails.

Design notes: an end empties both queues whether it fails or not, and the sums whose
classes were once written stay known.  So a base is known at an end exactly if it
waits there or was visited before an earlier one.
-/
import Asdl.Proofs.DataClasses
import Mathlib.Data.List.Induction

namespace Asdl

namespace Header

open Model (CompoundSum)

/-! ### Calls -/

/-- A call of a section: a visit of a definition at some depth, or the end. -/
inductive Call where
  | visit (d : Model.Definition) (depth : Nat)
  | finish
  deriving DecidableEq

namespace Section

variable {σ : Type}

def call (s : Section σ) (state : σ) : Call → Step σ
  | .visit d depth => s.visit state d depth
  | .finish => s.finish state

/-- The state after some calls.  A call that fails is not the last one. -/
def after (s : Section σ) (state : σ) (calls : List Call) : σ :=
  calls.foldl (fun st c => (s.call st c).state) state

theorem after_concat (s : Section σ) (state : σ) (calls : List Call) (c : Call) :
    s.after state (calls ++ [c]) = (s.call (s.after state calls) c).state := by
  rw [after, List.foldl_append]
  rfl

end Section

/-! ### What was visited -/

/-- The definitions visited since the last end, with their depths, in order. -/
def recent (calls : List Call) : List (Model.Definition × Nat) :=
  calls.foldl (fun visits c =>
    match c with
    | .visit d depth => visits ++ [(d, depth)]
    | .finish => []) []

/-- The compound sums among the recent visits, with their depths. -/
def recentSums (calls : List Call) : List (CompoundSum × Nat) :=
  (recent calls).filterMap fun v => v.1.compoundSum?.map (·, v.2)

/-- The products among the recent visits, with their depths. -/
def recentProducts (calls : List Call) : List (Model.Product × Nat) :=
  (recent calls).filterMap fun v => v.1.product?.map (·, v.2)

/-- A compound sum of this name was visited, no matter when. -/
def SumVisited (calls : List Call) (name : String) : Prop :=
  ∃ t depth, .visit (.compoundSum t) depth ∈ calls ∧ t.name = name

/-- All bases of a product were visited, no matter when. -/
def BasesVisited (calls : List Call) (p : Model.Product) : Prop := ∀ b ∈ p.bases, SumVisited calls b

section Visits

variable (calls : List Call)

@[simp] theorem recent_visit (d : Model.Definition) (depth : Nat) :
    recent (calls ++ [.visit d depth]) = recent calls ++ [(d, depth)] := by
  rw [recent, List.foldl_append]
  rfl

@[simp] theorem recent_finish : recent (calls ++ [.finish]) = [] := by
  rw [recent, List.foldl_append]
  rfl

/-- What was visited recently was visited. -/
theorem visit_mem_of_recent {v : Model.Definition × Nat} (h : v ∈ recent calls) :
    .visit v.1 v.2 ∈ calls := by
  induction calls using List.reverseRecOn with
  | nil => cases h
  | append_singleton calls c ih =>
    cases c with
    | finish =>
      rw [recent_finish] at h
      cases h
    | visit d depth =>
      rw [recent_visit, List.mem_append, List.mem_singleton] at h
      rcases h with h | rfl
      · exact List.mem_append_left _ (ih h)
      · exact List.mem_append_right _ List.mem_cons_self

theorem recentSums_visit (d : Model.Definition) (depth : Nat) :
    recentSums (calls ++ [.visit d depth]) =
      recentSums calls ++ (d.compoundSum?.map (·, depth)).toList := by
  rw [recentSums, recent_visit, List.filterMap_append]
  cases d <;> rfl

theorem recentProducts_visit (d : Model.Definition) (depth : Nat) :
    recentProducts (calls ++ [.visit d depth]) =
      recentProducts calls ++ (d.product?.map (·, depth)).toList := by
  rw [recentProducts, recent_visit, List.filterMap_append]
  cases d <;> rfl

theorem recentSums_finish : recentSums (calls ++ [.finish]) = [] := by
  rw [recentSums, recent_finish]
  rfl

theorem recentProducts_finish : recentProducts (calls ++ [.finish]) = [] := by
  rw [recentProducts, recent_finish]
  rfl

theorem sumVisited_visit {d : Model.Definition} {depth : Nat} {name : String} :
    SumVisited (calls ++ [.visit d depth]) name ↔
      SumVisited calls name ∨ ∃ t, d.compoundSum? = some t ∧ t.name = name := by
  constructor
  · rintro ⟨t, k, hmem, rfl⟩
    rcases List.mem_append.mp hmem with hmem | hmem
    · exact .inl ⟨t, k, hmem, rfl⟩
    · cases List.mem_singleton.mp hmem
      exact .inr ⟨t, rfl, rfl⟩
  · rintro (⟨t, k, hmem, rfl⟩ | ⟨t, ht, rfl⟩)
    · exact ⟨t, k, List.mem_append_left _ hmem, rfl⟩
    · obtain rfl : d = .compoundSum t := by
        cases d with
        | compoundSum u => exact congrArg _ (Option.some.inj ht)
        | _ => cases ht
      exact ⟨t, depth, List.mem_append_right _ List.mem_cons_self, rfl⟩

theorem sumVisited_finish {name : String} :
    SumVisited (calls ++ [.finish]) name ↔ SumVisited calls name := by
  constructor
  · rintro ⟨t, k, hmem, rfl⟩
    rcases List.mem_append.mp hmem with hmem | hmem
    · exact ⟨t, k, hmem, rfl⟩
    · cases List.mem_singleton.mp hmem
  · rintro ⟨t, k, hmem, rfl⟩
    exact ⟨t, k, List.mem_append_left _ hmem, rfl⟩

end Visits

namespace Context

variable {s : Schema} {c : Context} {calls : List Call} {state : Pending}

/-! ### What the state knows -/

/-- What the state knows about the calls that led to it. -/
structure Remembers (calls : List Call) (state : Pending) : Prop where
  sums : state.sums.reverse = (recentSums calls).map fun x => (x.1.name, x.2)
  products : state.products.reverse = (recentProducts calls).map fun x => (x.1.name, x.2)
  /-- A sum was visited iff its base is written or waits. -/
  declared : ∀ name, SumVisited calls name ↔
    typeName name ∈ state.declared ∨ ∃ x ∈ recentSums calls, x.1.name = name

/-- The calls visit definitions of the model only. -/
def VisitsOwn (c : Context) (calls : List Call) : Prop :=
  ∀ d depth, .visit d depth ∈ calls → d ∈ c.model.definitions

theorem VisitsOwn.left {call : Call} (h : c.VisitsOwn (calls ++ [call])) : c.VisitsOwn calls :=
  fun d depth hmem => h d depth (List.mem_append_left _ hmem)

theorem VisitsOwn.mem_compoundSums (h : c.VisitsOwn calls) {x : CompoundSum × Nat}
    (hx : x ∈ recentSums calls) : x.1 ∈ c.model.compoundSums := by
  obtain ⟨v, hv, hsum⟩ := List.mem_filterMap.mp hx
  obtain ⟨t, ht, rfl⟩ := Option.map_eq_some_iff.mp hsum
  exact List.mem_filterMap.mpr ⟨v.1, h _ _ (visit_mem_of_recent calls hv), ht⟩

theorem VisitsOwn.mem_products (h : c.VisitsOwn calls) {x : Model.Product × Nat}
    (hx : x ∈ recentProducts calls) : x.1 ∈ c.model.products := by
  obtain ⟨v, hv, hproduct⟩ := List.mem_filterMap.mp hx
  obtain ⟨p, hp, rfl⟩ := Option.map_eq_some_iff.mp hproduct
  exact List.mem_filterMap.mpr ⟨v.1, h _ _ (visit_mem_of_recent calls hv), hp⟩

/-- A visit puts a sum or a product at the end of its queue, and nothing else. -/
theorem state_declare (c : Context) (state : Pending) (d : Model.Definition) (depth : Nat) :
    (c.declare state d depth).state.sums.reverse =
        state.sums.reverse ++ (d.compoundSum?.map fun t => (t.name, depth)).toList ∧
      (c.declare state d depth).state.products.reverse =
        state.products.reverse ++ (d.product?.map fun p => (p.name, depth)).toList ∧
      (c.declare state d depth).state.declared = state.declared := by
  cases d with
  | simpleSum t => exact ⟨(List.append_nil _).symm, (List.append_nil _).symm, rfl⟩
  | compoundSum t => exact ⟨List.reverse_cons, (List.append_nil _).symm, rfl⟩
  | product p => exact ⟨(List.append_nil _).symm, List.reverse_cons, rfl⟩

/-- **One visit** keeps what the state knows. -/
theorem remembers_visit (h : Remembers calls state) (d : Model.Definition) (depth : Nat) :
    Remembers (calls ++ [.visit d depth]) (c.declare state d depth).state := by
  obtain ⟨hsums, hproducts, hdeclared⟩ := c.state_declare state d depth
  refine ⟨?_, ?_, fun name => ?_⟩
  · rw [hsums, h.sums, recentSums_visit, List.map_append]
    cases d.compoundSum? <;> rfl
  · rw [hproducts, h.products, recentProducts_visit, List.map_append]
    cases d.product? <;> rfl
  · rw [sumVisited_visit, h.declared, hdeclared, recentSums_visit, or_assoc]
    simp only [List.mem_append, Option.mem_toList, or_and_right, exists_or]
    cases d.compoundSum? with
    | none => simp
    | some t => simp

/-- The classes of a sum, at a depth. -/
def placedSum (c : Context) (x : CompoundSum × Nat) : List Placed :=
  (c.sumItems x.1).map (⟨x.2, ·⟩)

/-- The class of a product, at a depth. -/
def placedProduct (c : Context) (x : Model.Product × Nat) : List Placed :=
  (c.productItems x.1).map (⟨x.2, ·⟩)

/-- The bases that are known at an end after some calls. -/
def known (calls : List Call) (state : Pending) : List String :=
  state.declared ++ (recentSums calls).map fun x => typeName x.1.name

theorem Remembers.mem_known (h : Remembers calls state) {name : String} :
    typeName name ∈ known calls state ↔ SumVisited calls name := by
  rw [h.declared, known, List.mem_append, List.mem_map]
  simp only [typeName_inj]

/-- **The end after some calls**: the classes of all sums that wait are written, then
the products are tried one after the other, and nothing waits any longer. -/
theorem declareWaiting_eq (hm : Model.Resolves s c.model) (hown : c.VisitsOwn calls)
    (h : Remembers calls state) :
    c.declareWaiting state =
      ⟨{ state with sums := [], products := [], declared := known calls state },
        Emission.andThen
          ⟨(recentSums calls).flatMap c.placedSum,
            (recentSums calls).flatMap fun x => [.declaringSum x.1.name], .ok ()⟩
          (Emission.each (c.declareProduct (known calls state))
            ((recentProducts calls).map fun x => (x.1.name, x.2)))⟩ := by
  -- every sum that waits is one of the model, so the lookups by name find all of them
  have hfound : c.declaredBy ((recentSums calls).map fun x => (x.1.name, x.2)) =
      (recentSums calls).map fun x => typeName x.1.name := by
    rw [declaredBy, List.takeWhile_eq_self_iff.mpr, List.map_map]
    · rfl
    · intro w hw
      obtain ⟨x, hx, rfl⟩ := List.mem_map.mp hw
      rw [hm.compoundSum?_eq_some.mpr ⟨hown.mem_compoundSums hx, rfl⟩]
      rfl
  have hsums : Emission.each c.declareSum ((recentSums calls).map fun x => (x.1.name, x.2)) =
      ⟨(recentSums calls).flatMap c.placedSum,
        (recentSums calls).flatMap fun x => [.declaringSum x.1.name], .ok ()⟩ :=
    Emission.each_map_of_ok fun x hx => declareSum_of_mem hm (hown.mem_compoundSums hx) x.2
  rw [declareWaiting]
  simp only [h.sums, h.products, hfound, hsums, known]

/-- **One end** keeps what the state knows. -/
theorem remembers_finish (hm : Model.Resolves s c.model) (hown : c.VisitsOwn calls)
    (h : Remembers calls state) :
    Remembers (calls ++ [.finish]) (c.declareWaiting state).state := by
  rw [declareWaiting_eq hm hown h]
  refine ⟨?_, ?_, fun name => ?_⟩
  · rw [recentSums_finish]
    rfl
  · rw [recentProducts_finish]
    rfl
  · rw [sumVisited_finish, ← h.mem_known, recentSums_finish]
    simp

/-- **After any calls** the state knows what was visited. -/
theorem remembers_after (hm : Model.Resolves s c.model) (hown : c.VisitsOwn calls) :
    Remembers calls (c.declarations.after {} calls) := by
  induction calls using List.reverseRecOn with
  | nil => exact ⟨rfl, rfl, fun name => by simp [SumVisited, recentSums, recent, Section.after]⟩
  | append_singleton calls call ih =>
    have hbefore := ih hown.left
    rw [Section.after_concat]
    cases call with
    | visit d depth => exact remembers_visit hbefore d depth
    | finish => exact remembers_finish hm hown.left hbefore

/-! ### Products whose bases are missing -/

theorem exists_first_failure {α : Type} {P : α → Prop} {xs : List α} (h : ¬ ∀ x ∈ xs, P x) :
    ∃ before x later, xs = before ++ x :: later ∧ (∀ y ∈ before, P y) ∧ ¬ P x := by
  induction xs with
  | nil => exact absurd (List.forall_mem_nil P) h
  | cons x xs ih =>
    by_cases hx : P x
    · have hxs : ¬ ∀ y ∈ xs, P y := fun hxs => h (List.forall_mem_cons.mpr ⟨hx, hxs⟩)
      obtain ⟨before, y, later, rfl, hbefore, hy⟩ := ih hxs
      exact ⟨x :: before, y, later, rfl, List.forall_mem_cons.mpr ⟨hx, hbefore⟩, hy⟩
    · exact ⟨[], x, xs, rfl, List.forall_mem_nil P, hx⟩

/-- The first base that is missing is named, and nothing is written. -/
theorem declareProduct_of_missing (hm : Model.Resolves s c.model) {declared : List String}
    {p : Model.Product} (hp : p ∈ c.model.products) {earlier others : List String} {b : String}
    (hbases : p.bases = earlier ++ b :: others) (hearlier : ∀ n ∈ earlier, typeName n ∈ declared)
    (hb : typeName b ∉ declared) (depth : Nat) :
    c.declareProduct declared (p.name, depth) =
      ⟨[], [.declaringProduct p.name], .error (.baseMissing p.name (typeName b))⟩ := by
  -- the search for a missing base passes the earlier ones and stops at `b`
  have hnone : ((earlier.map typeName).find? fun n => !declared.contains n) = none := by
    rw [List.find?_eq_none]
    intro n hn
    obtain ⟨x, hx, rfl⟩ := List.mem_map.mp hn
    simpa using hearlier x hx
  have hfind : ((p.bases.map typeName).find? fun n => !declared.contains n) =
      some (typeName b) := by
    rw [hbases, List.map_append, List.find?_append, hnone, Option.none_or, List.map_cons,
      List.find?_cons_of_pos (by simpa using hb)]
  rw [declareProduct, hm.product?_eq_some.mpr ⟨hp, rfl⟩]
  simp only [hfind]

/-! ### The end -/

/-- The classes of a compound sum: the base, the constructors, their short names. -/
def sumLines (c : Context) (t : CompoundSum) : List Line :=
  baseLines (t.name ++ "_t") (if c.options.treeMethods then treeNames else []) ++ [⟨0, ""⟩]
    ++ t.constructors.flatMap (fun k =>
      (c.classText (constructorData t k) [t.name ++ "_t"]).lines ++ [⟨0, ""⟩])
    ++ [⟨0, "namespace " ++ t.name ++ " \x7b"⟩]
    ++ t.constructors.map (fun k =>
      ⟨1, "typedef " ++ (t.name ++ "__" ++ k.name) ++ " " ++ k.name ++ ";"⟩)
    ++ [⟨0, "\x7d"⟩, ⟨0, ""⟩]

/-- The class of a product, with the bases of the sums that share it. -/
def productLines (c : Context) (p : Model.Product) : List Line :=
  (c.classText (productData p)
    (if p.bases = [] then ["Obj"] else p.bases.map (· ++ "_t"))).lines ++ [⟨0, ""⟩]

theorem spelling_sumItems (c : Context) (t : CompoundSum) :
    (c.sumItems t).flatMap Item.spelling = c.sumLines t := by
  have hbase : [Item.sumClass (typeName t.name) c.options.treeMethods, .blank].flatMap
      Item.spelling = baseLines (t.name ++ "_t") (if c.options.treeMethods then treeNames else [])
        ++ [⟨0, ""⟩] := rfl
  have hclass (k : Model.Constructor) :
      [Item.dataClass (c.constructorClass t k), .blank].flatMap Item.spelling =
        (c.classText (constructorData t k) [t.name ++ "_t"]).lines ++ [⟨0, ""⟩] := by
    have hwritten : (c.constructorClass t k).written =
        c.classText (constructorData t k) [t.name ++ "_t"] :=
      written_eq_classText rfl rfl rfl rfl rfl
    rw [← hwritten]
    rfl
  have haliases : [Item.aliases t.name (t.constructors.map (·.name)), .blank].flatMap
      Item.spelling = [⟨0, "namespace " ++ t.name ++ " \x7b"⟩]
        ++ t.constructors.map (fun k =>
          ⟨1, "typedef " ++ (t.name ++ "__" ++ k.name) ++ " " ++ k.name ++ ";"⟩)
        ++ [⟨0, "\x7d"⟩, ⟨0, ""⟩] := by
    simp [Item.spelling, Function.comp_def]
  rw [sumItems, sumLines, List.flatMap_append, List.flatMap_append, List.flatMap_assoc, hbase,
    haliases]
  simp only [hclass, List.append_assoc]

theorem spelling_productItems (c : Context) (p : Model.Product) :
    (c.productItems p).flatMap Item.spelling = c.productLines p := by
  have hbases : basesOf p = if p.bases = [] then ["Obj"] else p.bases.map (· ++ "_t") := by
    simp only [basesOf, List.isEmpty_iff]
    rfl
  have hclass : (c.productClass p).written = c.classText (productData p) (basesOf p) :=
    written_eq_classText rfl rfl rfl rfl rfl
  rw [productLines, ← hbases, ← hclass]
  rfl

/-- The text of the classes of some sums and then some products, each at its depth. -/
def classesText (c : Context) (sums : List (CompoundSum × Nat))
    (products : List (Model.Product × Nat)) : String :=
  spellAt (sums.map (fun x => (x.2, c.sumLines x.1))
    ++ products.map fun x => (x.2, c.productLines x.1))

theorem renderItems_classes (c : Context) (sums : List (CompoundSum × Nat))
    (products : List (Model.Product × Nat)) :
    renderItems (sums.flatMap c.placedSum ++ products.flatMap c.placedProduct) =
      c.classesText sums products := by
  have hsums := renderItems_groups sums Prod.snd fun x => c.sumItems x.1
  have hproducts := renderItems_groups products Prod.snd fun x => c.productItems x.1
  simp only [spelling_sumItems] at hsums
  simp only [spelling_productItems] at hproducts
  rw [classesText, spellAt_append, ← hsums, ← hproducts]
  simp only [renderItems, renderLines, List.flatMap_append, List.map_append, String.join_append]
  rfl

/-- What an end does after some calls. -/
structure FinishesAfter (c : Context) (calls : List Call) (step : Step Pending) : Prop where
  /-- It goes well iff the bases of all products that wait were visited. -/
  succeeds : step.emission.outcome = .ok () ↔ ∀ x ∈ recentProducts calls, BasesVisited calls x.1
  /-- Then it writes the classes of all sums that wait, and after them the products. -/
  written : step.emission.outcome = .ok () →
    step.emission.text = c.classesText (recentSums calls) (recentProducts calls)
  /-- Otherwise it names the first product with a base that was not visited, and the
  first such base, and everything before that product is written. -/
  fails : ∀ v, step.emission.outcome = .error v →
    ∃ before p depth later earlier b others,
      recentProducts calls = before ++ (p, depth) :: later ∧
      (∀ x ∈ before, BasesVisited calls x.1) ∧
      p.bases = earlier ++ b :: others ∧ (∀ n ∈ earlier, SumVisited calls n) ∧
      ¬ SumVisited calls b ∧ v = .baseMissing p.name (b ++ "_t") ∧
      v.message = "product '" ++ p.name ++ "' emitted before its base '" ++ (b ++ "_t") ++ "'" ∧
      step.emission.text = c.classesText (recentSums calls) before
  /-- In both cases nothing waits any longer. -/
  emptied : step.state.sums = [] ∧ step.state.products = []
  /-- Another end goes well and does nothing. -/
  idle : c.declarations.finish step.state = ⟨step.state, {}⟩

/-- An end where nothing waits does nothing. -/
theorem declareWaiting_idle (hsums : state.sums = []) (hproducts : state.products = []) :
    c.declareWaiting state = ⟨state, {}⟩ := by
  obtain ⟨sums, products, declared, tags⟩ := state
  subst hsums hproducts
  simp [declareWaiting, declaredBy, Emission.each, Emission.andThen]

/-- Products that wait and whose bases were all visited are written in order. -/
theorem each_declareProduct_of_visited (hm : Model.Resolves s c.model) (h : Remembers calls state)
    {xs : List (Model.Product × Nat)} (hown : ∀ x ∈ xs, x.1 ∈ c.model.products)
    (hbases : ∀ x ∈ xs, BasesVisited calls x.1) :
    Emission.each (c.declareProduct (known calls state)) (xs.map fun x => (x.1.name, x.2)) =
      ⟨xs.flatMap c.placedProduct, xs.flatMap fun x => [.declaringProduct x.1.name], .ok ()⟩ :=
  Emission.each_map_of_ok fun x hx =>
    declareProduct_of_declared hm (hown x hx) (fun b hb => h.mem_known.mpr (hbases x hx b hb)) x.2

/-- If the bases of all products that wait were visited, everything is written. -/
theorem emission_of_visited (hm : Model.Resolves s c.model) (hown : c.VisitsOwn calls)
    (h : Remembers calls state) (hbases : ∀ x ∈ recentProducts calls, BasesVisited calls x.1) :
    (c.declareWaiting state).emission.text =
        c.classesText (recentSums calls) (recentProducts calls) ∧
      (c.declareWaiting state).emission.outcome = .ok () := by
  rw [declareWaiting_eq hm hown h, Emission.andThen_of_ok rfl,
    each_declareProduct_of_visited hm h (fun x hx => hown.mem_products hx) hbases]
  exact ⟨c.renderItems_classes _ _, rfl⟩

/-- The first product with a base that was not visited ends the end. -/
theorem emission_of_missing (hm : Model.Resolves s c.model) (hown : c.VisitsOwn calls)
    (h : Remembers calls state) {before later : List (Model.Product × Nat)} {p : Model.Product}
    {depth : Nat} (hproducts : recentProducts calls = before ++ (p, depth) :: later)
    (hbefore : ∀ x ∈ before, BasesVisited calls x.1) {earlier others : List String} {b : String}
    (hbases : p.bases = earlier ++ b :: others) (hearlier : ∀ n ∈ earlier, SumVisited calls n)
    (hb : ¬ SumVisited calls b) :
    (c.declareWaiting state).emission.text = c.classesText (recentSums calls) before ∧
      (c.declareWaiting state).emission.outcome = .error (.baseMissing p.name (b ++ "_t")) := by
  have hmem : ∀ x ∈ before ++ (p, depth) :: later, x.1 ∈ c.model.products := by
    rw [← hproducts]
    exact fun x hx => hown.mem_products hx
  have hmissing : c.declareProduct (known calls state) (p.name, depth) = _ :=
    declareProduct_of_missing hm
      (hmem (p, depth) (List.mem_append_right _ List.mem_cons_self)) hbases
      (fun n hn => h.mem_known.mpr (hearlier n hn)) (fun hin => hb (h.mem_known.mp hin)) depth
  -- the products in front of `p` are written, `p` fails, and the later ones are not reached
  rw [declareWaiting_eq hm hown h, Emission.andThen_of_ok rfl, hproducts, List.map_append,
    Emission.each_append,
    each_declareProduct_of_visited hm h (fun x hx => hmem x (List.mem_append_left _ hx)) hbefore,
    Emission.andThen_of_ok rfl, List.map_cons, Emission.each, hmissing,
    Emission.andThen_of_error rfl, List.append_nil]
  exact ⟨c.renderItems_classes _ _, rfl⟩

/-- **An end after any calls**: when it fails, what it writes, and what it leaves. -/
theorem finish_afterCalls {s : Schema} {m : Model} (hm : Model.ofSchema s = .ok m) (o : Options)
    (calls : List Call) (hown : VisitsOwn ⟨m, o⟩ calls) :
    FinishesAfter ⟨m, o⟩ calls
      ((declarations ⟨m, o⟩).finish ((declarations ⟨m, o⟩).after {} calls)) := by
  have hres : Model.Resolves s (Context.mk m o).model := Model.ofSchema_eq_ok.mp hm
  have h := remembers_after (c := ⟨m, o⟩) hres hown
  -- whether the end succeeds or not, it leaves nothing waiting
  have hempty : (declareWaiting ⟨m, o⟩ ((declarations ⟨m, o⟩).after {} calls)).state.sums = [] ∧
      (declareWaiting ⟨m, o⟩ ((declarations ⟨m, o⟩).after {} calls)).state.products = [] := by
    rw [declareWaiting_eq hres hown h]
    exact ⟨rfl, rfl⟩
  have hidle := declareWaiting_idle (c := ⟨m, o⟩) hempty.1 hempty.2
  by_cases hvisited : ∀ x ∈ recentProducts calls, BasesVisited calls x.1
  · obtain ⟨htext, hok⟩ := emission_of_visited (c := ⟨m, o⟩) hres hown h hvisited
    refine ⟨⟨fun _ => hvisited, fun _ => hok⟩, fun _ => htext, fun v hv => ?_, hempty, hidle⟩
    cases hok.symm.trans hv
  · -- the first product that is missing a base, and the first base that it misses
    obtain ⟨before, ⟨p, depth⟩, later, hproducts, hbefore, hp⟩ := exists_first_failure hvisited
    obtain ⟨earlier, b, others, hbases, hearlier, hb⟩ := exists_first_failure hp
    obtain ⟨htext, herror⟩ :=
      emission_of_missing (c := ⟨m, o⟩) hres hown h hproducts hbefore hbases hearlier hb
    have hfailed : (declareWaiting ⟨m, o⟩
        ((declarations ⟨m, o⟩).after {} calls)).emission.outcome ≠ .ok () := by
      intro hok
      cases herror.symm.trans hok
    refine ⟨⟨fun hok => absurd hok hfailed, fun hall => absurd hall hvisited⟩,
      fun hok => absurd hok hfailed, fun v hv => ?_, hempty, hidle⟩
    obtain rfl : .baseMissing p.name (b ++ "_t") = v := Except.error.inj (herror.symm.trans hv)
    exact ⟨before, p, depth, later, earlier, b, others, hproducts, hbefore, hbases, hearlier, hb,
      rfl, rfl, htext⟩

/-- Some definitions of a model, picked by their places, each at depth one. -/
def visits (m : Model) (places : List Nat) : List Call :=
  places.filterMap fun i => m.definitions[i]?.map (.visit · 1)

/-- Two products without their base, an end that fails, and then everything, from the last
definition to the first. -/
def secondTry (m : Model) : List Call := visits m [2, 3] ++ [.finish] ++ visits m [3, 2, 1, 0]

theorem visitsOwn_visits (c : Context) (places : List Nat) :
    c.VisitsOwn (visits c.model places) := by
  intro d depth hmem
  obtain ⟨i, -, hvisit⟩ := List.mem_filterMap.mp hmem
  obtain ⟨e, he, hcall⟩ := Option.map_eq_some_iff.mp hvisit
  cases hcall
  exact List.mem_of_getElem? he

/-- The classes with data that an end writes: depth, name and bases. -/
def writtenClasses (step : Step Pending) : List (Nat × String × String) :=
  step.emission.items.filterMap fun p => p.item.written?.map fun w => (p.depth, w.name, w.bases)

/-- The first end writes a product and fails at the next one; the second end writes what was
visited after the first, sums before products. -/
theorem secondTry_finishes :
    ∃ m first second, Model.ofSchema Model.sharingModule = .ok m ∧
      first = (declarations ⟨m, {}⟩).finish ((declarations ⟨m, {}⟩).after {} (visits m [2, 3])) ∧
      second = (declarations ⟨m, {}⟩).finish ((declarations ⟨m, {}⟩).after {} (secondTry m)) ∧
      FinishesAfter ⟨m, {}⟩ (visits m [2, 3]) first ∧
      first.emission.outcome = .error (.baseMissing "Token" "Expr_t") ∧
      writtenClasses first = [(1, "Span", "public Obj")] ∧
      FinishesAfter ⟨m, {}⟩ (secondTry m) second ∧ second.emission.outcome = .ok () ∧
      writtenClasses second =
        [(1, "Expr__Call", "public Expr_t"), (1, "Expr__Nil", "public Expr_t"),
          (1, "Token", "public Expr_t"), (1, "Span", "public Obj")] := by
  have hends : (fun m : Model =>
      let first := (declarations ⟨m, {}⟩).finish
        ((declarations ⟨m, {}⟩).after {} (visits m [2, 3]))
      let second := (declarations ⟨m, {}⟩).finish
        ((declarations ⟨m, {}⟩).after {} (secondTry m))
      ((first.emission.outcome, writtenClasses first),
        second.emission.outcome, writtenClasses second)) <$>
      Model.ofSchema Model.sharingModule =
        .ok ((.error (.baseMissing "Token" "Expr_t"), [(1, "Span", "public Obj")]), .ok (),
          [(1, "Expr__Call", "public Expr_t"), (1, "Expr__Nil", "public Expr_t"),
            (1, "Token", "public Expr_t"), (1, "Span", "public Obj")]) := by rfl
  obtain ⟨m, hm, hends⟩ := map_eq_ok.mp hends
  obtain ⟨hfirst, hsecond⟩ := Prod.mk.inj hends
  obtain ⟨hfailed, hspan⟩ := Prod.mk.inj hfirst
  obtain ⟨hok, hclasses⟩ := Prod.mk.inj hsecond
  have hown := visitsOwn_visits ⟨m, {}⟩
  have hsecondTry : VisitsOwn ⟨m, {}⟩ (secondTry m) := by
    intro d depth hmem
    rcases List.mem_append.mp hmem with hmem | hmem
    · rcases List.mem_append.mp hmem with hmem | hmem
      · exact hown _ d depth hmem
      · cases List.mem_singleton.mp hmem
    · exact hown _ d depth hmem
  exact ⟨m, _, _, hm, rfl, rfl, finish_afterCalls hm {} _ (hown _), hfailed, hspan,
    finish_afterCalls hm {} _ hsecondTry, hok, hclasses⟩

end Context

end Header

end Asdl
