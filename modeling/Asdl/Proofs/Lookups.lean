/-
A schema and its model are searched alike.

A schema is built from imports and definitions that come in any order.  Its index keeps the
first definition of a name, and the index of a model keeps the last one.  A model exists only
if no name is defined twice, so the two lead to the same place:

* `Catalog.Step`, `Catalog.after` — steps of building, and what they lead to;
* `Catalog.schema_after` — the schema holds what was added, in order;
* `Catalog.find?_eq_some` — what is found in a catalog is the first definition of the name;
* `Model.FoundAs` — a definition is found under its kind, and under no other;
* `Model.Answers`, `Model.Resolves.exists_answers` — what a model has for a definition, and
  where;
* `Catalog.after_searchedAlike` — all of this for every sequence of steps.

Design notes: definitions are compared by their positions.  That a name leads to one
position only is what the checks on a schema are needed for; everything else follows from
the definitions being resolved one by one.
-/
import Asdl.Proofs.References
import Asdl.Schema.Catalog
import Mathlib.Data.List.Induction

namespace Asdl

namespace Catalog

/-! ### Building -/

/-- One step of building a schema. -/
inductive Step where
  | use (u : Use)
  | definition (d : Definition)
  deriving DecidableEq, Repr

def Step.use? : Step → Option Use
  | use u => some u
  | definition _ => none

def Step.definition? : Step → Option Definition
  | use _ => none
  | definition d => some d

def step (c : Catalog) : Step → Catalog
  | .use u => c.addUse u
  | .definition d => c.addDefinition d

/-- The catalog of a module after some steps. -/
def after (name : String) (steps : List Step) : Catalog := steps.foldl step (empty name)

/-- The imports among some steps, in order. -/
def usesIn (steps : List Step) : List Use := steps.filterMap Step.use?

/-- The definitions among some steps, in order. -/
def definitionsIn (steps : List Step) : List Definition := steps.filterMap Step.definition?

theorem after_concat (name : String) (steps : List Step) (last : Step) :
    after name (steps ++ [last]) = (after name steps).step last := List.foldl_concat ..

/-- A step adds what it says to the schema. -/
theorem schema_step (c : Catalog) (s : Step) :
    (c.step s).schema =
      ⟨c.schema.name, c.schema.uses ++ s.use?.toList,
        c.schema.definitions ++ s.definition?.toList⟩ := by
  cases s with
  | use u =>
    show c.schema.addUse u = ⟨_, _, c.schema.definitions ++ []⟩
    rw [List.append_nil]
    rfl
  | definition d =>
    show c.schema.addDefinition d = ⟨_, c.schema.uses ++ [], _⟩
    rw [List.append_nil]
    rfl

/-- **The schema holds what was added**, in order and with repetitions. -/
theorem schema_after (name : String) (steps : List Step) :
    (after name steps).schema = ⟨name, usesIn steps, definitionsIn steps⟩ := by
  induction steps using List.reverseRecOn with
  | nil => rfl
  | append_singleton steps last ih =>
    have huses : usesIn (steps ++ [last]) = usesIn steps ++ last.use?.toList := by
      rw [usesIn, List.filterMap_append]
      cases last <;> rfl
    have hdefinitions : definitionsIn (steps ++ [last]) =
        definitionsIn steps ++ last.definition?.toList := by
      rw [definitionsIn, List.filterMap_append]
      cases last <;> rfl
    rw [after_concat, schema_step, ih, huses, hdefinitions]

/-! ### Searching -/

variable {c : Catalog} {n : String}

/-- **The first definition of a name is found.** -/
theorem find?_eq_some {d : Definition} :
    c.find? n = some d ↔
      ∃ before behind, c.schema.definitions = before ++ d :: behind ∧ d.name = n ∧
        ∀ e ∈ before, e.name ≠ n := by
  rw [find?, c.index_eq, Schema.find?, List.find?_eq_some_iff_append]
  simp only [beq_iff_eq, Bool.not_eq_true', beq_eq_false_iff_ne]
  constructor
  · rintro ⟨hname, before, behind, hsplit, hbefore⟩
    exact ⟨before, behind, hsplit, hname, hbefore⟩
  · rintro ⟨before, behind, hsplit, hname, hbefore⟩
    exact ⟨hname, before, behind, hsplit, hbefore⟩

theorem find?_eq_none : c.find? n = none ↔ ∀ d ∈ c.schema.definitions, d.name ≠ n := by
  rw [find?, c.index_eq, Schema.find?, List.find?_eq_none]
  simp only [beq_iff_eq, ne_eq]

theorem defines_iff : c.defines n = true ↔ ∃ d ∈ c.schema.definitions, d.name = n := by
  rw [defines, NameTable.contains, c.index_eq, Schema.find?, List.find?_isSome]
  simp only [beq_iff_eq]

end Catalog

/-! ### The model -/

namespace Model

/-- The name leads to `r` in a search for its kind, and to nothing in a search for another
one. -/
def FoundAs (m : Model) (n : String) (r : Definition) : Kind → Prop
  | .simpleSum =>
    ∃ t, r = .simpleSum t ∧ m.simpleSum? n = some t ∧ m.compoundSum? n = none ∧
      m.product? n = none
  | .compoundSum =>
    ∃ t, r = .compoundSum t ∧ m.compoundSum? n = some t ∧ m.simpleSum? n = none ∧
      m.product? n = none
  | .product =>
    ∃ p, r = .product p ∧ m.product? n = some p ∧ m.simpleSum? n = none ∧
      m.compoundSum? n = none

/-- What a model has under the name `n`, which a schema defines as `d`. -/
structure Answers (s : Schema) (m : Model) (n : String) (d : Asdl.Definition) (i : Nat)
    (r : Definition) : Prop where
  defined : s.definitions[i]? = some d
  /-- The name is defined nowhere else. -/
  once : ∀ j e, s.definitions[j]? = some e → e.name = n → j = i
  /-- What the definition is resolved to stands at the same position. -/
  resolved : m.definitions[i]? = some r
  resolve : (Scope.ofSchema s).resolve d = .ok r
  names : d.name = n ∧ r.name = n
  found : m.find? n = some r
  kind : m.FoundAs n r (kindOf d)

theorem foundAs_of_resolve {sc : Scope} {m : Model} {n : String} {d : Asdl.Definition}
    {r : Definition} (hres : sc.resolve d = .ok r) (hr : m.find? n = some r) :
    m.FoundAs n r (kindOf d) := by
  -- each of the three searches looks at what is found under the name
  have hsimple : m.simpleSum? n = r.simpleSum? := by rw [simpleSum?, hr, Option.bind_some]
  have hcompound : m.compoundSum? n = r.compoundSum? := by rw [compoundSum?, hr, Option.bind_some]
  have hproduct : m.product? n = r.product? := by rw [product?, hr, Option.bind_some]
  rcases Scope.resolve_eq_ok.mp hres with
    ⟨t, rfl, ht, rfl⟩ | ⟨t, u, rfl, ht, -, rfl⟩ | ⟨p, q, rfl, -, rfl⟩
  · have hkind : kindOf (.sum t) = .simpleSum := if_pos ht
    rw [hkind]
    exact ⟨_, rfl, hsimple, hcompound, hproduct⟩
  · have hkind : kindOf (.sum t) = .compoundSum := if_neg (by simp [ht])
    rw [hkind]
    exact ⟨_, rfl, hcompound, hsimple, hproduct⟩
  · exact ⟨_, rfl, hproduct, hsimple, hcompound⟩

namespace Resolves

variable {s : Schema} {m : Model}

/-- A name stands at one position of an accepted schema. -/
theorem position_unique (h : Resolves s m) {i j : Nat} {d e : Asdl.Definition}
    (hd : s.definitions[i]? = some d) (he : s.definitions[j]? = some e) (hname : e.name = d.name) :
    j = i := by
  obtain ⟨hnd, -⟩ := Schema.checkNames_eq_ok.mp h.checkNames
  have hj : j < (s.definitions.map Asdl.Definition.name).length := by
    rw [List.length_map]
    exact (List.getElem?_eq_some_iff.mp he).choose
  refine (List.getElem?_inj hj hnd).mp ?_
  rw [List.getElem?_map, List.getElem?_map, hd, he, Option.map_some, Option.map_some, hname]

/-- **A definition is found as what it was resolved to**, where it was defined. -/
theorem exists_answers (h : Resolves s m) {d : Asdl.Definition} (hd : d ∈ s.definitions) :
    ∃ i r, Answers s m d.name d i r := by
  obtain ⟨i, hi⟩ := List.mem_iff_getElem?.mp hd
  obtain ⟨r, hr, hres⟩ := exists_getElem?_right (mapM_eq_ok.mp h.definitions) hi
  have hname := Scope.resolve_name hres
  have hfound : m.find? d.name = some r :=
    h.find?_eq_some.mpr ⟨List.mem_of_getElem? hr, hname⟩
  exact ⟨i, r, hi, fun j e he hne => h.position_unique hi he hne, hr, hres, ⟨rfl, hname⟩, hfound,
    foundAs_of_resolve hres hfound⟩

/-- A name that is not defined leads to nothing in the model. -/
theorem find?_eq_none (h : Resolves s m) {n : String} (hn : ∀ d ∈ s.definitions, d.name ≠ n) :
    m.find? n = none := by
  cases hr : m.find? n with
  | none => rfl
  | some r =>
    obtain ⟨hmem, hname⟩ := h.find?_eq_some.mp hr
    obtain ⟨d, hd, hres⟩ := exists_mem_left (mapM_eq_ok.mp h.definitions) hmem
    exact absurd ((Scope.resolve_name hres).symm.trans hname) (hn d hd)

end Resolves

end Model

/-! ### Both -/

namespace Catalog

/-- A catalog and a model that are searched alike. -/
structure SearchedAlike (c : Catalog) (m : Model) : Prop where
  isSome : ∀ n, (m.find? n).isSome = (c.find? n).isSome
  /-- What the catalog finds was resolved to what the model finds. -/
  answers : ∀ n d, c.find? n = some d → ∃ i r, m.Answers c.schema n d i r
  nothing : ∀ n, c.find? n = none →
    m.simpleSum? n = none ∧ m.compoundSum? n = none ∧ m.product? n = none

theorem searchedAlike_of_resolves {c : Catalog} {m : Model} (h : Model.Resolves c.schema m) :
    SearchedAlike c m := by
  have hanswers : ∀ n d, c.find? n = some d → ∃ i r, m.Answers c.schema n d i r := by
    intro n d hd
    obtain ⟨before, behind, hsplit, rfl, -⟩ := find?_eq_some.mp hd
    exact h.exists_answers (by rw [hsplit]; simp)
  have hnothing : ∀ n, c.find? n = none → m.find? n = none :=
    fun n hn => h.find?_eq_none (find?_eq_none.mp hn)
  -- the model answers when the schema does, and only then
  refine ⟨fun n => ?_, hanswers, fun n hn => ?_⟩
  · cases hd : c.find? n with
    | none =>
      rw [hnothing n hd]
      rfl
    | some d =>
      obtain ⟨i, r, hr⟩ := hanswers n d hd
      rw [hr.found]
      rfl
  · rw [Model.simpleSum?, Model.compoundSum?, Model.product?, hnothing n hn]
    exact ⟨rfl, rfl, rfl⟩

/-- **A schema and its model are searched alike.**  After any steps the schema holds what
was added, a search leads to the first definition of the name, and there is one exactly if
the name was defined.  In the model of such a schema the same names are found, each as what
its definition was resolved to, at the same position and under its own kind only. -/
theorem after_searchedAlike (name : String) (steps : List Step) :
    (after name steps).schema = ⟨name, usesIn steps, definitionsIn steps⟩ ∧
    (∀ n d, (after name steps).find? n = some d ↔
      ∃ before behind, definitionsIn steps = before ++ d :: behind ∧ d.name = n ∧
        ∀ e ∈ before, e.name ≠ n) ∧
    (∀ n, (after name steps).defines n = true ↔ ∃ d ∈ definitionsIn steps, d.name = n) ∧
    ∀ m, Model.ofSchema (after name steps).schema = .ok m → SearchedAlike (after name steps) m := by
  have hschema := schema_after name steps
  refine ⟨hschema, fun n d => ?_, fun n => ?_, fun m hm => ?_⟩
  · rw [find?_eq_some, hschema]
  · rw [defines_iff, hschema]
  · exact searchedAlike_of_resolves (Model.ofSchema_eq_ok.mp hm)

/-- Definitions of all three kinds, with an import between them. -/
def mixedSteps : List Step := [
  .definition (.sum ⟨"Tree", [⟨"Leaf", [⟨"at", .named "loc" .scalar⟩], none⟩,
    ⟨"Node", [], some "Pair"⟩], []⟩),
  .use ⟨["core"], ["loc"]⟩,
  .definition (.sum ⟨"Color", [⟨"Red", [], none⟩, ⟨"Black", [], none⟩], []⟩),
  .definition (.product ⟨"Pair", [⟨"color", .named "Color" .scalar⟩], []⟩)]

/-- The module is accepted, and each of its names is found as what it is. -/
theorem mixedSteps_searchedAlike :
    ∃ m, Model.ofSchema (after "m" mixedSteps).schema = .ok m ∧
      ["Tree", "loc", "Color", "Pair"].map (fun n =>
          ((m.simpleSum? n).isSome, (m.compoundSum? n).isSome, (m.product? n).isSome)) =
        [(false, true, false), (false, false, false), (true, false, false), (false, false, true)] ∧
      SearchedAlike (after "m" mixedSteps) m := by
  have hkinds : (fun m : Model => ["Tree", "loc", "Color", "Pair"].map fun n =>
        ((m.simpleSum? n).isSome, (m.compoundSum? n).isSome, (m.product? n).isSome)) <$>
      Model.ofSchema (after "m" mixedSteps).schema =
        .ok [(false, true, false), (false, false, false), (true, false, false),
          (false, false, true)] := by rfl
  obtain ⟨m, hm, hkinds⟩ := map_eq_ok.mp hkinds
  exact ⟨m, hm, hkinds, (after_searchedAlike "m" mixedSteps).2.2.2 m hm⟩

/-- A second definition of a name is kept in the schema and passed over by a search. -/
example :
    let c := after "m" (mixedSteps ++ [.definition (.product ⟨"Color", [], []⟩)])
    c.schema.definitions.length = 4 ∧ (c.find? "Color").map Definition.isProduct = some false :=
  ⟨rfl, rfl⟩

end Catalog

end Asdl
