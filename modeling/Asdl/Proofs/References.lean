/-
Every reference of a model is met.

A field of a model names types by what they are: built in, imported, a simple sum,
a compound sum or a product.  In the model of a schema each of them is there:

* `Model.TypeRef.In`, `Model.FieldType.In` — a type, or what a field holds, is met
  by a model;
* `Model.Definition.members`, `Model.FieldType.refs` — the fields of a definition, and
  the types that a field mentions;
* `Model.Resolves.exists_resolveName_of_member` — each of these types comes from a name
  that was looked up;
* `Model.Resolves.in_of_member` — hence the model knows it;
* `Model.Resolves.in_of_constructor`, `Model.Resolves.in_of_product` — the members
  of all classes.
-/
import Asdl.Proofs.Resolved

namespace Asdl

namespace Model

/-- A type that a model knows as what it is said to be. -/
def TypeRef.In (m : Model) : TypeRef → Prop
  | primitive _ => True
  | external n => n ∈ m.externals
  | simpleSum n => ∃ t ∈ m.simpleSums, t.name = n
  | compoundSum n => ∃ t ∈ m.compoundSums, t.name = n
  | product n => ∃ p ∈ m.products, p.name = n

/-- What a field holds consists of types that the model knows. -/
def FieldType.In (m : Model) : FieldType → Prop
  | scalar t => t.In m
  | optional t => t.In m
  | repeated t => t.In m
  | map k v => k.In m ∧ v.In m

/-- The types that a field mentions. -/
def FieldType.refs : FieldType → List TypeRef
  | scalar t => [t]
  | optional t => [t]
  | repeated t => [t]
  | map k v => [k, v]

theorem FieldType.in_iff {m : Model} {t : FieldType} : t.In m ↔ ∀ r ∈ t.refs, r.In m := by
  cases t <;> simp [FieldType.In, refs]

/-- The fields and attributes of a definition.  A shared variant has no fields of its
own. -/
def Definition.members : Definition → List Field
  | simpleSum _ => []
  | compoundSum c => c.constructors.flatMap Constructor.fields ++ c.attributes
  | product p => p.fields ++ p.attributes

/-- The reference to a definition of some kind. -/
def Kind.reference (n : String) : Kind → TypeRef
  | simpleSum => .simpleSum n
  | compoundSum => .compoundSum n
  | product => .product n

namespace Scope

variable {sc : Scope}

theorem resolveOperand_eq_ok {owner field role : String} {e : TypeExpr} {t : TypeRef} :
    sc.resolveOperand owner field role e = .ok t ↔
      ∃ n, e = .named n .scalar ∧ sc.resolveName owner field n = .ok t := by
  unfold resolveOperand
  split
  · simp
  · next hnot =>
    constructor
    · intro h
      cases h
    · rintro ⟨n, rfl, -⟩
      exact absurd rfl (hnot n)

theorem exists_resolveName_of_mem_refs {owner field : String} {e : TypeExpr} {t : FieldType}
    (ht : sc.resolveType owner field e = .ok t) {r : TypeRef} (hr : r ∈ t.refs) :
    ∃ n, sc.resolveName owner field n = .ok r := by
  cases e with
  | named n multiplicity =>
    obtain ⟨u, hu, ht⟩ := bind_eq_ok.mp ht
    -- a single type is mentioned, and it is the one that the name stands for
    have hsame : r = u := by
      cases multiplicity with
      | map => cases ht
      | _ =>
        rw [← pure_eq_ok.mp ht] at hr
        exact List.mem_singleton.mp hr
    rw [hsame]
    exact ⟨n, hu⟩
  | map k v =>
    obtain ⟨kt, hkt, ht⟩ := bind_eq_ok.mp ht
    obtain ⟨vt, hvt, ht⟩ := bind_eq_ok.mp ht
    obtain ⟨kn, -, hkn⟩ := resolveOperand_eq_ok.mp hkt
    obtain ⟨vn, -, hvn⟩ := resolveOperand_eq_ok.mp hvt
    rw [← pure_eq_ok.mp ht] at hr
    rcases List.mem_cons.mp hr with rfl | hr
    · exact ⟨kn, hkn⟩
    · rw [List.mem_singleton.mp hr]
      exact ⟨vn, hvn⟩

/-- **Every type in a resolved field comes from a name** that was looked up for it. -/
theorem exists_resolveName_of_mem {owner : String} {fs : List Asdl.Field} {gs : List Field}
    (hgs : sc.resolveFields owner fs = .ok gs) {g : Field} (hg : g ∈ gs) {r : TypeRef}
    (hr : r ∈ g.type.refs) : ∃ field n, sc.resolveName owner field n = .ok r := by
  obtain ⟨f, -, hf⟩ := exists_mem_left (mapM_eq_ok.mp hgs) hg
  obtain ⟨t, ht, hgt⟩ := bind_eq_ok.mp hf
  rw [← pure_eq_ok.mp hgt] at hr
  exact ⟨f.name, exists_resolveName_of_mem_refs ht hr⟩

end Scope

namespace Resolves

variable {s : Schema} {m : Model}

theorem simpleSum?_eq_some (h : Resolves s m) {n : String} {t : SimpleSum} :
    m.simpleSum? n = some t ↔ t ∈ m.simpleSums ∧ t.name = n := by
  refine h.bind_find?_eq_some fun d q hq => ?_
  cases d with
  | simpleSum => cases hq; rfl
  | _ => cases hq

/-- A definition of a schema is found in the model under its name and kind. -/
theorem in_of_kind (h : Resolves s m) {n : String} {k : Kind}
    (hk : (Scope.ofSchema s).kinds.find? n = some k) : (k.reference n).In m := by
  obtain ⟨d, hd, rfl, rfl⟩ := (Scope.kinds_find?_eq_some h.checkNames).mp hk
  obtain ⟨r, hr, hres⟩ := exists_mem_right (mapM_eq_ok.mp h.definitions) hd
  have hname := Scope.resolve_name hres
  rcases Scope.resolve_eq_ok.mp hres with
    ⟨t, rfl, ht, rfl⟩ | ⟨t, c, rfl, ht, -, rfl⟩ | ⟨p, q, rfl, -, rfl⟩
  · have hkind : kindOf (.sum t) = .simpleSum := if_pos ht
    rw [hkind]
    exact ⟨_, List.mem_filterMap.mpr ⟨_, hr, rfl⟩, hname⟩
  · have hkind : kindOf (.sum t) = .compoundSum := if_neg (by simp [ht])
    rw [hkind]
    exact ⟨_, List.mem_filterMap.mpr ⟨_, hr, rfl⟩, hname⟩
  · exact ⟨_, List.mem_filterMap.mpr ⟨_, hr, rfl⟩, hname⟩

theorem in_of_resolveName (h : Resolves s m) {owner field n : String} {t : TypeRef}
    (ht : (Scope.ofSchema s).resolveName owner field n = .ok t) : t.In m := by
  -- the places that a name is searched in, one after the other
  unfold Scope.resolveName at ht
  split at ht
  · cases ht
    trivial
  · split at ht
    · next hext =>
      cases ht
      show n ∈ m.externals
      rw [h.externals]
      exact List.contains_iff_mem.mp hext
    · split at ht
      · next hk => cases ht; exact h.in_of_kind hk
      · next hk => cases ht; exact h.in_of_kind hk
      · next hk => cases ht; exact h.in_of_kind hk
      · cases ht

/-- Every type that a definition mentions comes from a name that was looked up. -/
theorem exists_resolveName_of_member (h : Resolves s m) {d : Definition} (hd : d ∈ m.definitions)
    {f : Field} (hf : f ∈ d.members) {r : TypeRef} (hr : r ∈ f.type.refs) :
    ∃ owner field n, (Scope.ofSchema s).resolveName owner field n = .ok r := by
  obtain ⟨e, -, hres⟩ := exists_mem_left (mapM_eq_ok.mp h.definitions) hd
  rcases Scope.resolve_eq_ok.mp hres with
    ⟨t, -, -, rfl⟩ | ⟨t, c, -, -, hc, rfl⟩ | ⟨p, q, -, hq, rfl⟩
  · cases hf
  · obtain ⟨-, hvs, has, -⟩ := Scope.resolveCompound_eq_ok.mp hc
    rcases List.mem_append.mp hf with hf | hf
    · obtain ⟨k, hk, hf⟩ := List.mem_flatMap.mp hf
      obtain ⟨w, hw, hwk⟩ := List.mem_filterMap.mp hk
      obtain ⟨⟨v, i⟩, -, hv⟩ := exists_mem_left (mapM_eq_ok.mp hvs) hw
      rcases Scope.resolveVariant_eq_ok.mp hv with ⟨p, -, rfl⟩ | ⟨-, fs, hfs, rfl⟩
      · cases hwk -- has no class, and its fields are not resolved
      · cases hwk
        exact ⟨_, Scope.exists_resolveName_of_mem hfs hf hr⟩
    · exact ⟨_, Scope.exists_resolveName_of_mem has hf hr⟩
  · obtain ⟨hfs, has, -⟩ := Scope.resolveProduct_eq_ok.mp hq
    rcases List.mem_append.mp hf with hf | hf
    · exact ⟨_, Scope.exists_resolveName_of_mem hfs hf hr⟩
    · exact ⟨_, Scope.exists_resolveName_of_mem has hf hr⟩

theorem in_of_member (h : Resolves s m) {d : Definition} (hd : d ∈ m.definitions) {f : Field}
    (hf : f ∈ d.members) : f.type.In m := by
  refine FieldType.in_iff.mpr fun r hr => ?_
  obtain ⟨_, _, _, hn⟩ := h.exists_resolveName_of_member hd hf hr
  exact h.in_of_resolveName hn

/-- The members of the class of a constructor, attributes included. -/
theorem in_of_constructor (h : Resolves s m) {c : CompoundSum} (hc : c ∈ m.compoundSums)
    {k : Constructor} (hk : k ∈ c.constructors) : ∀ f ∈ k.fields ++ c.attributes, f.type.In m := by
  intro f hf
  refine h.in_of_member (mem_definitions_of_compoundSum hc) (List.mem_append.mpr ?_)
  exact (List.mem_append.mp hf).imp_left fun hf => List.mem_flatMap.mpr ⟨k, hk, hf⟩

theorem in_of_product (h : Resolves s m) {p : Product} (hp : p ∈ m.products) :
    ∀ f ∈ p.fields ++ p.attributes, f.type.In m :=
  fun _ hf => h.in_of_member (mem_definitions_of_product hp) hf

end Resolves

end Model

end Asdl
