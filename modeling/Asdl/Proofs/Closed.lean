/-
Models are closed, and every member has an initial value of its own.

A field of a model mentions types by kind and name.  In the model of a schema a search
under that name leads to a definition of that kind, and a simple sum that is found has a
first variant:

* `Model.TypeRef.Met` — what is found for a type that is mentioned;
* `Model.Resolves.met_of_member` — every type in a member of a definition is met;
* `Header.Initial.text_ne_zero` — the only initial value that is written as `0`;
* `Header.Context.initial_of_met` — which is no value of a member whose types are met;
* `Header.ofSchema_closed` — all of this for every model of a schema and all options.

Design notes: the kinds of names are collected before anything is resolved, and the
model is searched by an index that is built afterwards.  Both go by the definitions, and
`Model.Resolves.in_of_resolveName` compares them name by name.
-/
import Asdl.Proofs.Agreement
import Asdl.Proofs.References

namespace Asdl

namespace Model

/-- What is found for a type that is mentioned. -/
def TypeRef.Met (m : Model) : TypeRef → Prop
  | primitive _ => True
  | external n =>
    n ∈ m.externals ∧ (∀ p : Primitive, p.name ≠ n) ∧ ∀ d ∈ m.definitions, d.name ≠ n
  | simpleSum n => ∃ t, m.simpleSum? n = some t ∧ t.variants ≠ []
  | compoundSum n => ∃ c, m.compoundSum? n = some c
  | product n => ∃ p, m.product? n = some p

namespace Resolves

variable {s : Schema} {m : Model}

theorem variants_ne_nil (h : Resolves s m) {t : SimpleSum} (ht : t ∈ m.simpleSums) :
    t.variants ≠ [] := by
  obtain ⟨u, -, rfl, hbody⟩ := h.exists_checked_simpleSum ht
  have hne := (Sum.checkBody_eq_ok.mp hbody).1
  simpa [Scope.resolveSimple] using hne

/-- Imported names are not defined. -/
theorem definition_name_ne_external (h : Resolves s m) {n : String} (hn : n ∈ m.externals)
    {d : Definition} (hd : d ∈ m.definitions) : d.name ≠ n := by
  rintro rfl
  obtain ⟨e, he, hres⟩ := exists_mem_left (mapM_eq_ok.mp h.definitions) hd
  have hfree := (Schema.checkNames_eq_ok.mp h.checkNames).2 e he
  rw [Scope.resolve_name hres, h.externals] at hn
  simp [Schema.isReserved, hn] at hfree

/-- A name is taken for a built-in type before it is taken for an imported one. -/
theorem not_primitive_of_external {sc : Scope} {owner field n name : String}
    (h : sc.resolveName owner field n = .ok (.external name)) (p : Primitive) : p.name ≠ name := by
  rintro rfl
  unfold Scope.resolveName at h
  split at h
  · cases h
  · next hnone =>
    split at h
    · cases h
      rw [Primitive.ofName?_name] at hnone
      cases hnone
    · split at h <;> cases h

/-- **Whatever a name stands for is found** under that name. -/
theorem met_of_resolveName (h : Resolves s m) {owner field n : String} {r : TypeRef}
    (hr : (Scope.ofSchema s).resolveName owner field n = .ok r) : r.Met m := by
  have hin := h.in_of_resolveName hr
  cases r with
  | primitive p => trivial
  | external name =>
    exact ⟨hin, not_primitive_of_external hr, fun _ => h.definition_name_ne_external hin⟩
  | simpleSum name =>
    obtain ⟨t, ht, hname⟩ := hin
    exact ⟨t, h.simpleSum?_eq_some.mpr ⟨ht, hname⟩, h.variants_ne_nil ht⟩
  | compoundSum name =>
    obtain ⟨c, hc, hname⟩ := hin
    exact ⟨c, h.compoundSum?_eq_some.mpr ⟨hc, hname⟩⟩
  | product name =>
    obtain ⟨p, hp, hname⟩ := hin
    exact ⟨p, h.product?_eq_some.mpr ⟨hp, hname⟩⟩

theorem met_of_member (h : Resolves s m) {d : Definition} (hd : d ∈ m.definitions) {f : Field}
    (hf : f ∈ d.members) : ∀ r ∈ f.type.refs, r.Met m := by
  intro r hr
  obtain ⟨_, _, _, hn⟩ := h.exists_resolveName_of_member hd hf hr
  exact h.met_of_resolveName hn

end Resolves

end Model

namespace Header

open Model (TypeRef FieldType)

/-! ### Initial values -/

/-- Only one initial value is written as `0`. -/
theorem Initial.text_ne_zero {i : Initial} (h : i ≠ .zero) : i.text ≠ "0" := by
  intro htext
  have hlist := congrArg String.toList htext
  cases i with
  | zero => exact h rfl
  | emptyList element => simp [text] at hlist
  | absent element => simp [text] at hlist
  | enumerator enumeration variant =>
    -- two colons are longer than the text
    have hlength := congrArg List.length hlist
    simp [text] at hlength
    omega
  | _ => simp [text] at hlist

namespace Context

variable {c : Context}

theorem initial_simpleSum {n : String} {t : Model.SimpleSum} (ht : c.model.simpleSum? n = some t)
    {v : String × Nat} {rest : List (String × Nat)} (hv : t.variants = v :: rest) :
    c.initial (.scalar (.simpleSum n)) = .enumerator (c.enumeration n) v.1 := by
  have hfirst : c.firstVariant? n = some v.1 := by
    rw [firstVariant?, ht, Option.bind_some, hv]
    rfl
  rw [initial, initialScalar, hfirst]

/-- A member whose types are met never has to do without a value. -/
theorem initial_of_met {t : FieldType} (h : ∀ r ∈ t.refs, r.Met c.model) : c.initial t ≠ .zero := by
  cases t with
  | scalar r =>
    cases r with
    | simpleSum n =>
      -- the only type whose value is looked up
      obtain ⟨u, hu, hne⟩ := h _ List.mem_cons_self
      obtain ⟨v, rest, hv⟩ := List.exists_cons_of_ne_nil hne
      rw [initial_simpleSum hu hv]
      intro hzero
      cases hzero
    | primitive p => cases p <;> (intro hzero; cases hzero)
    | _ => intro hzero; cases hzero
  | optional r =>
    rw [initial]
    split <;> (intro hzero; cases hzero)
  | _ => intro hzero; cases hzero

end Context

/-- A closed model: what its definitions mention is found in it, and what is written for
a member follows. -/
structure Closed (m : Model) : Prop where
  met : ∀ d ∈ m.definitions, ∀ f ∈ d.members, ∀ r ∈ f.type.refs, r.Met m
  variants : ∀ n t, m.simpleSum? n = some t → t.variants ≠ []
  /-- A single value of a simple sum starts as its first variant, whatever the options. -/
  first : ∀ o : Options, ∀ d ∈ m.definitions, ∀ f ∈ d.members, ∀ n,
    f.type = .scalar (.simpleSum n) →
      ∃ t v rest, m.simpleSum? n = some t ∧ t.variants = v :: rest ∧
        (Context.initial ⟨m, o⟩ f.type).text = Context.enumeration ⟨m, o⟩ n ++ "::" ++ v.1
  /-- No member is written with the value that stands for a missing variant. -/
  never_zero : ∀ o : Options, ∀ d ∈ m.definitions, ∀ f ∈ d.members,
    (Context.initial ⟨m, o⟩ f.type).text ≠ "0"

/-- **Every model of a schema is closed.** -/
theorem ofSchema_closed {s : Schema} {m : Model} (hm : Model.ofSchema s = .ok m) : Closed m := by
  have h := Model.ofSchema_eq_ok.mp hm
  refine ⟨fun d hd f hf => h.met_of_member hd hf, fun n t ht => ?_, ?_, ?_⟩
  · exact h.variants_ne_nil (h.simpleSum?_eq_some.mp ht).1
  · intro o d hd f hf n hn
    have hmet := h.met_of_member hd hf
    rw [hn] at hmet
    obtain ⟨t, ht, hne⟩ := hmet _ List.mem_cons_self
    obtain ⟨v, rest, hv⟩ := List.exists_cons_of_ne_nil hne
    refine ⟨t, v, rest, ht, hv, ?_⟩
    rw [hn, Context.initial_simpleSum (c := ⟨m, o⟩) ht hv]
    rfl
  · intro o d hd f hf
    exact Initial.text_ne_zero (Context.initial_of_met (h.met_of_member hd hf))

/-- A module with references forward, backward and in a circle, in fields, attributes
and both sides of a map; one of its types is imported. -/
def tangledModule : Schema where
  name := "m"
  uses := [⟨["core"], ["loc"]⟩]
  definitions := [
    .product ⟨"Pair", [⟨"left", .named "Tree" .scalar⟩, ⟨"color", .named "Color" .scalar⟩],
      [⟨"at", .named "loc" .scalar⟩]⟩,
    .sum ⟨"Color", [⟨"Red", [], none⟩, ⟨"Black", [], none⟩], []⟩,
    .sum ⟨"Tree", [⟨"Leaf", [⟨"pairs", .map (.named "Color" .scalar) (.named "Pair" .scalar)⟩],
      none⟩, ⟨"Node", [], some "Pair"⟩], [⟨"mark", .named "Color" .scalar⟩]⟩]

theorem tangledModule_closed :
    ∃ m, Model.ofSchema tangledModule = .ok m ∧
      m.definitions.map (fun d => d.members.map fun f =>
          (f.type.refs, (Context.initial ⟨m, {}⟩ f.type).text)) =
        [[([.compoundSum "Tree"], "nullptr"), ([.simpleSum "Color"], "Color_e::Red"),
            ([.external "loc"], "-1")],
          [],
          [([.simpleSum "Color", .product "Pair"], "nullptr"),
            ([.simpleSum "Color"], "Color_e::Red")]] ∧
      Closed m := by
  have hmembers : (fun m : Model => m.definitions.map fun d => d.members.map fun f =>
        (f.type.refs, (Context.initial ⟨m, {}⟩ f.type).text)) <$> Model.ofSchema tangledModule =
      .ok [[([.compoundSum "Tree"], "nullptr"), ([.simpleSum "Color"], "Color_e::Red"),
            ([.external "loc"], "-1")],
          [],
          [([.simpleSum "Color", .product "Pair"], "nullptr"),
            ([.simpleSum "Color"], "Color_e::Red")]] := by rfl
  obtain ⟨m, hm, hmembers⟩ := map_eq_ok.mp hmembers
  exact ⟨m, hm, hmembers, ofSchema_closed hm⟩

end Header

end Asdl
