/-
What resolution makes of a schema.

A schema that passes all checks is resolved definition by definition.  This file
says what each step yields and what the finished model is:

* `Model.Resolves` and `Model.ofSchema_eq_ok` — the model of a schema consists of
  its definitions, resolved in order;
* `Model.Scope.resolveCompound_eq_ok`, `resolveProduct_eq_ok`,
  `resolveVariant_eq_ok` — one step each;
* `Model.Resolves.find?_eq_some` — searching the model by name;
* `Model.Resolves.products`, `compoundSums`, `simpleSums` — the definitions of
  one kind correspond to each other in order.

Design notes: lists of definitions are compared by `List.Forall₂`, which keeps
the order.  Tables are only ever looked at through `NameTable.find?_ofList_eq_some`.
-/
import Asdl.Proofs.Checks

namespace Asdl

/-! ### Tables with different names -/

/-- A table of different names binds exactly what its list binds. -/
theorem NameTable.find?_ofList_eq_some {α : Type} {xs : List (String × α)}
    (h : (xs.map Prod.fst).Nodup) {n : String} {a : α} :
    (ofList xs).find? n = some a ↔ (n, a) ∈ xs := by
  rw [find?_ofList]
  induction xs with
  | nil => simp
  | cons x xs ih =>
    obtain ⟨m, b⟩ := x
    rw [List.map_cons, List.nodup_cons] at h
    rw [List.lookup_cons, List.mem_cons, Prod.mk.injEq]
    by_cases hn : n = m
    · subst hn
      -- the name is bound here and nowhere else
      have hrest : (n, a) ∉ xs := fun hmem => h.1 (List.mem_map.mpr ⟨_, hmem, rfl⟩)
      simp [hrest, eq_comm]
    · rw [beq_eq_false_iff_ne.mpr hn]
      simp only [ih h.2, hn, false_and, false_or]

namespace Model

/-! ### One definition -/

namespace Scope

variable {sc : Scope}

theorem resolveField_name {owner : String} {f : Asdl.Field} {g : Field}
    (h : sc.resolveField owner f = .ok g) : g.name = f.name := by
  obtain ⟨t, -, ht⟩ := bind_eq_ok.mp h
  rw [pure_eq_ok] at ht
  rw [← ht]

theorem resolveVariant_eq_ok {v : Asdl.Variant} {i : Nat} {w : Variant} :
    sc.resolveVariant (v, i) = .ok w ↔
      (∃ p, v.shared = some p ∧ w = .shared ⟨v.name, sc.tagOf p, p⟩) ∨
        (v.shared = none ∧ ∃ fs, sc.resolveFields v.name v.fields = .ok fs ∧
          w = .constructor ⟨v.name, i, fs⟩) := by
  unfold resolveVariant
  cases hv : v.shared with
  | some p => simp [eq_comm]
  | none =>
    simp only [bind_eq_ok, pure_eq_ok]
    simp [eq_comm]

theorem resolveVariant_name {v : Asdl.Variant × Nat} {w : Variant}
    (h : sc.resolveVariant v = .ok w) : w.name = v.1.name := by
  rcases resolveVariant_eq_ok.mp h with ⟨p, -, rfl⟩ | ⟨-, fs, -, rfl⟩
  · rfl
  · rfl

theorem resolveCompound_eq_ok {s : Sum} {c : CompoundSum} :
    sc.resolveCompound s = .ok c ↔
      s.variants.length < firstProductTag ∧
        (s.variants.zipIdx 1).mapM sc.resolveVariant = .ok c.variants ∧
        sc.resolveFields s.name s.attributes = .ok c.attributes ∧ c.name = s.name := by
  rw [resolveCompound, seq_eq_ok, refuseIf_eq_ok, decide_eq_false_iff_not, Nat.not_le]
  simp only [bind_eq_ok, pure_eq_ok]
  constructor
  · rintro ⟨hlen, vs, hvs, as, has, rfl⟩
    exact ⟨hlen, hvs, has, rfl⟩
  · rintro ⟨hlen, hvs, has, hname⟩
    obtain ⟨_, vs, as⟩ := c
    cases hname
    exact ⟨hlen, vs, hvs, as, has, rfl⟩

theorem resolveCompound_map_name {s : Sum} {c : CompoundSum}
    (h : sc.resolveCompound s = .ok c) :
    c.variants.map Variant.name = s.variants.map Asdl.Variant.name := by
  obtain ⟨-, hvs, -, -⟩ := resolveCompound_eq_ok.mp h
  calc c.variants.map Variant.name
      = (s.variants.zipIdx 1).map fun v => v.1.name :=
        map_eq_map (fun _ _ hv => resolveVariant_name hv) (mapM_eq_ok.mp hvs)
    _ = ((s.variants.zipIdx 1).map Prod.fst).map Asdl.Variant.name := by rw [List.map_map]; rfl
    _ = s.variants.map Asdl.Variant.name := by rw [List.zipIdx_map_fst]

theorem resolveProduct_eq_ok {p : Asdl.Product} {q : Product} :
    sc.resolveProduct p = .ok q ↔
      sc.resolveFields p.name p.fields = .ok q.fields ∧
        sc.resolveFields p.name p.attributes = .ok q.attributes ∧
        q.name = p.name ∧ q.tag = sc.tagOf p.name ∧ q.bases = sc.basesOf p.name := by
  rw [resolveProduct]
  simp only [bind_eq_ok, pure_eq_ok]
  constructor
  · rintro ⟨fs, hfs, as, has, rfl⟩
    exact ⟨hfs, has, rfl, rfl, rfl⟩
  · rintro ⟨hfs, has, hname, htag, hbases⟩
    obtain ⟨_, _, fs, as, _⟩ := q
    cases hname
    cases htag
    cases hbases
    exact ⟨fs, hfs, as, has, rfl⟩

/-- A definition is resolved according to its kind. -/
theorem resolve_eq_ok {d : Asdl.Definition} {r : Definition} :
    sc.resolve d = .ok r ↔
      (∃ s, d = .sum s ∧ s.isSimple = true ∧ r = .simpleSum (resolveSimple s)) ∨
        (∃ s c, d = .sum s ∧ s.isSimple = false ∧ sc.resolveCompound s = .ok c ∧
          r = .compoundSum c) ∨
        ∃ p q, d = .product p ∧ sc.resolveProduct p = .ok q ∧ r = .product q := by
  cases d with
  | sum s =>
    rw [resolve]
    cases hs : s.isSimple with
    | true =>
      rw [if_pos rfl, Except.ok.injEq]
      constructor
      · rintro rfl
        exact .inl ⟨s, rfl, hs, rfl⟩
      · rintro (⟨_, ⟨⟩, -, rfl⟩ | ⟨_, _, ⟨⟩, hs', -⟩ | ⟨_, _, ⟨⟩, -⟩)
        · rfl
        · cases hs.symm.trans hs'
    | false =>
      rw [if_neg (by simp), map_eq_ok]
      constructor
      · rintro ⟨c, hc, rfl⟩
        exact .inr (.inl ⟨s, c, rfl, hs, hc, rfl⟩)
      · rintro (⟨_, ⟨⟩, hs', -⟩ | ⟨_, c, ⟨⟩, -, hc, rfl⟩ | ⟨_, _, ⟨⟩, -⟩)
        · cases hs.symm.trans hs'
        · exact ⟨c, hc, rfl⟩
  | product p =>
    rw [resolve, map_eq_ok]
    constructor
    · rintro ⟨q, hq, rfl⟩
      exact .inr (.inr ⟨p, q, rfl, hq, rfl⟩)
    · rintro (⟨_, ⟨⟩, -⟩ | ⟨_, _, ⟨⟩, -⟩ | ⟨_, q, ⟨⟩, hq, rfl⟩)
      exact ⟨q, hq, rfl⟩

theorem resolve_name {d : Asdl.Definition} {r : Definition} (h : sc.resolve d = .ok r) :
    r.name = d.name := by
  rcases resolve_eq_ok.mp h with ⟨s, rfl, -, rfl⟩ | ⟨s, c, rfl, -, hc, rfl⟩ | ⟨p, q, rfl, hq, rfl⟩
  · rfl
  · exact (resolveCompound_eq_ok.mp hc).2.2.2
  · exact (resolveProduct_eq_ok.mp hq).2.2.1

/-! ### Scopes -/

variable {s : Schema}

/-- The scope knows the kind of every definition. -/
theorem kinds_find?_eq_some (h : s.checkNames = .ok ()) {n : String} {k : Kind} :
    (ofSchema s).kinds.find? n = some k ↔ ∃ d ∈ s.definitions, d.name = n ∧ kindOf d = k := by
  have hnd : ((s.definitions.map fun d => (d.name, kindOf d)).map Prod.fst).Nodup := by
    rw [List.map_map]
    exact (Schema.checkNames_eq_ok.mp h).1
  rw [ofSchema, NameTable.find?_ofList_eq_some hnd]
  simp

theorem nodup_products (h : s.checkNames = .ok ()) :
    (s.products.map Asdl.Product.name).Nodup := by
  have hnd := (Schema.checkNames_eq_ok.mp h).1
  rw [List.Nodup, List.pairwise_map] at hnd ⊢
  rw [Schema.products, List.pairwise_filterMap]
  refine hnd.imp fun {d e} hne p hp q hq => ?_
  cases d with
  | sum => cases hp
  | product =>
    cases e with
    | sum => cases hq
    | product =>
      cases hp
      cases hq
      exact hne

/-- The tags of the products go on from the first one in order. -/
theorem tags_find?_eq_some (h : s.checkNames = .ok ()) {n : String} {t : Nat} :
    (ofSchema s).tags.find? n = some t ↔
      ∃ k p, s.products[k]? = some p ∧ p.name = n ∧ t = firstProductTag + k := by
  have hnd : (((s.products.map Asdl.Product.name).zipIdx firstProductTag).map Prod.fst).Nodup := by
    rw [List.zipIdx_map_fst]
    exact nodup_products h
  rw [ofSchema, NameTable.find?_ofList_eq_some hnd, List.mk_mem_zipIdx_iff_le_and_getElem?_sub]
  constructor
  · rintro ⟨hle, hk⟩
    rw [List.getElem?_map, Option.map_eq_some_iff] at hk
    obtain ⟨p, hp, rfl⟩ := hk
    exact ⟨t - firstProductTag, p, hp, rfl, by omega⟩
  · rintro ⟨k, p, hp, rfl, rfl⟩
    refine ⟨by omega, ?_⟩
    rw [Nat.add_sub_cancel_left, List.getElem?_map, hp]
    rfl

/-- The bases of a product are the sums that share it. -/
theorem mem_basesOf {p b : String} :
    b ∈ (ofSchema s).basesOf p ↔ ∃ t ∈ s.sums, t.name = b ∧ p ∈ sharedBy t := by
  rw [basesOf, ofSchema, NameTable.getD_find?_groups]
  simp only [List.mem_map, List.mem_filter, List.mem_flatMap, beq_iff_eq]
  constructor
  · rintro ⟨_, ⟨⟨t, ht, q, hq, rfl⟩, rfl⟩, rfl⟩
    exact ⟨t, ht, rfl, hq⟩
  · rintro ⟨t, ht, rfl, hp⟩
    exact ⟨(p, t.name), ⟨⟨t, ht, p, hp, rfl⟩, rfl⟩, rfl⟩

/-- A sum that shares something is no mere enumeration. -/
theorem not_isSimple_of_shared {t : Sum} {p : String} (hp : p ∈ sharedBy t) :
    t.isSimple = false := by
  obtain ⟨v, hv, hp⟩ := List.mem_filterMap.mp hp
  by_contra hsimple
  simp only [Sum.isSimple, Bool.not_eq_false, Bool.and_eq_true, List.all_eq_true] at hsimple
  have hbare := hsimple.2 v hv
  simp [Variant.isBare, hp] at hbare

end Scope

/-! ### Models -/

theorem CompoundSum.mem_constructors {c : CompoundSum} {k : Constructor} :
    k ∈ c.constructors ↔ .constructor k ∈ c.variants := by
  rw [CompoundSum.constructors, List.mem_filterMap]
  constructor
  · rintro ⟨v, hv, hvk⟩
    cases v with
    | constructor => cases hvk; exact hv
    | shared => cases hvk
  · exact fun hk => ⟨_, hk, rfl⟩

/-- The model consists of the definitions of the schema, resolved in order. -/
structure Resolves (s : Schema) (m : Model) : Prop where
  check : s.check = .ok ()
  name : m.name = s.name
  externals : m.externals = s.externals
  definitions : s.definitions.mapM (Scope.ofSchema s).resolve = .ok m.definitions

theorem ofSchema_eq_ok {s : Schema} {m : Model} : Model.ofSchema s = .ok m ↔ Resolves s m := by
  rw [ofSchema, seq_eq_ok]
  constructor
  · rintro ⟨hc, h⟩
    obtain ⟨ds, hds, h⟩ := bind_eq_ok.mp h
    rw [pure_eq_ok] at h
    subst h
    exact ⟨hc, rfl, rfl, hds⟩
  · rintro ⟨hc, hname, hext, hds⟩
    refine ⟨hc, bind_eq_ok.mpr ⟨_, hds, ?_⟩⟩
    obtain ⟨_, _, _, _, hindex⟩ := m
    cases hname
    cases hext
    cases hindex
    rfl

namespace Resolves

variable {s : Schema} {m : Model}

theorem validate (h : Resolves s m) : s.validate = .ok () := (Schema.check_eq_ok.mp h.check).1

theorem checkNames (h : Resolves s m) : s.checkNames = .ok () :=
  (Schema.validate_eq_ok.mp h.validate).1

theorem checkGenerated (h : Resolves s m) : s.checkGenerated = .ok () :=
  (Schema.validate_eq_ok.mp h.validate).2.1

theorem checkBases (h : Resolves s m) {sum : Sum} (hs : sum ∈ s.sums) :
    (Scope.ofSchema s).checkBases sum = .ok () :=
  (Schema.check_eq_ok.mp h.check).2.2 sum hs

theorem map_name (h : Resolves s m) :
    m.definitions.map Definition.name = s.definitions.map Asdl.Definition.name :=
  map_eq_map (fun _ _ hr => Scope.resolve_name hr) (mapM_eq_ok.mp h.definitions)

theorem nodup_names (h : Resolves s m) : (m.definitions.map Definition.name).Nodup := by
  rw [h.map_name]
  exact (Schema.checkNames_eq_ok.mp h.checkNames).1

/-- A name finds exactly the definition that has it. -/
theorem find?_eq_some (h : Resolves s m) {n : String} {d : Definition} :
    m.find? n = some d ↔ d ∈ m.definitions ∧ d.name = n := by
  rw [find?_eq_find?]
  have hfound {e : Definition} (he : m.definitions.reverse.find? (·.name == n) = some e) :
      e ∈ m.definitions ∧ e.name = n :=
    ⟨List.mem_reverse.mp (List.mem_of_find?_eq_some he), by simpa using List.find?_some he⟩
  refine ⟨hfound, ?_⟩
  rintro ⟨hd, hname⟩
  cases hfind : m.definitions.reverse.find? (·.name == n) with
  | none =>
    exact absurd (List.find?_eq_none.mp hfind d (List.mem_reverse.mpr hd)) (by simp [hname])
  | some e =>
    -- the search stops at the last definition of the name, and there is only one
    obtain ⟨he, hsame⟩ := hfound hfind
    rw [List.inj_on_of_nodup_map h.nodup_names he hd (hsame.trans hname.symm)]

/-- The same for the definitions of one kind. -/
theorem bind_find?_eq_some (h : Resolves s m) {α : Type} {select : Definition → Option α}
    {nameOf : α → String} (hsel : ∀ d a, select d = some a → nameOf a = d.name) {n : String}
    {a : α} :
    (m.find? n).bind select = some a ↔ a ∈ m.definitions.filterMap select ∧ nameOf a = n := by
  rw [Option.bind_eq_some_iff, List.mem_filterMap]
  simp only [h.find?_eq_some]
  constructor
  · rintro ⟨d, ⟨hd, hn⟩, ha⟩
    exact ⟨⟨d, hd, ha⟩, (hsel d a ha).trans hn⟩
  · rintro ⟨⟨d, hd, ha⟩, hn⟩
    exact ⟨d, ⟨hd, (hsel d a ha).symm.trans hn⟩, ha⟩

theorem product?_eq_some (h : Resolves s m) {n : String} {p : Product} :
    m.product? n = some p ↔ p ∈ m.products ∧ p.name = n := by
  refine h.bind_find?_eq_some fun d q hq => ?_
  cases d with
  | product => cases hq; rfl
  | _ => cases hq

theorem compoundSum?_eq_some (h : Resolves s m) {n : String} {c : CompoundSum} :
    m.compoundSum? n = some c ↔ c ∈ m.compoundSums ∧ c.name = n := by
  refine h.bind_find?_eq_some fun d q hq => ?_
  cases d with
  | compoundSum => cases hq; rfl
  | _ => cases hq

/-! ### Definitions of one kind -/

theorem mem_definitions_of_product {p : Product} (hp : p ∈ m.products) :
    .product p ∈ m.definitions := by
  obtain ⟨d, hd, hdp⟩ := List.mem_filterMap.mp hp
  cases d with
  | product => cases hdp; exact hd
  | _ => cases hdp

theorem mem_definitions_of_compoundSum {t : CompoundSum} (ht : t ∈ m.compoundSums) :
    .compoundSum t ∈ m.definitions := by
  obtain ⟨d, hd, hdt⟩ := List.mem_filterMap.mp ht
  cases d with
  | compoundSum => cases hdt; exact hd
  | _ => cases hdt

theorem mem_definitions_of_simpleSum {t : SimpleSum} (ht : t ∈ m.simpleSums) :
    .simpleSum t ∈ m.definitions := by
  obtain ⟨d, hd, hdt⟩ := List.mem_filterMap.mp ht
  cases d with
  | simpleSum => cases hdt; exact hd
  | _ => cases hdt

/-- The products of the schema and of the model correspond in order. -/
theorem products (h : Resolves s m) :
    List.Forall₂ (fun p q => (Scope.ofSchema s).resolveProduct p = .ok q)
      s.products m.products := by
  refine List.rel_filterMap ?_ (mapM_eq_ok.mp h.definitions)
  intro d r hr
  rcases Scope.resolve_eq_ok.mp hr with
    ⟨t, rfl, -, rfl⟩ | ⟨t, c, rfl, -, -, rfl⟩ | ⟨p, q, rfl, hq, rfl⟩
  · exact .none
  · exact .none
  · exact .some hq

/-- The sums that are no mere enumerations correspond in order. -/
theorem compoundSums (h : Resolves s m) :
    List.Forall₂ (fun t c => (Scope.ofSchema s).resolveCompound t = .ok c)
      (s.sums.filter (!·.isSimple)) m.compoundSums := by
  rw [Schema.sums, List.filter_filterMap]
  refine List.rel_filterMap ?_ (mapM_eq_ok.mp h.definitions)
  intro d r hr
  rcases Scope.resolve_eq_ok.mp hr with
    ⟨t, rfl, ht, rfl⟩ | ⟨t, c, rfl, ht, hc, rfl⟩ | ⟨p, q, rfl, -, rfl⟩
  · simp only [Asdl.Definition.sum?, Option.filter_some, ht]
    exact .none
  · simp only [Asdl.Definition.sum?, Option.filter_some, ht]
    exact .some hc
  · exact .none

/-- The sums that are mere enumerations correspond in order. -/
theorem simpleSums (h : Resolves s m) :
    m.simpleSums = (s.sums.filter (·.isSimple)).map Scope.resolveSimple := by
  rw [Schema.sums, List.filter_filterMap, List.map_filterMap, ← List.forall₂_eq_eq_eq]
  refine List.Forall₂.flip (List.rel_filterMap ?_ (mapM_eq_ok.mp h.definitions))
  intro d r hr
  rcases Scope.resolve_eq_ok.mp hr with
    ⟨t, rfl, ht, rfl⟩ | ⟨t, c, rfl, ht, -, rfl⟩ | ⟨p, q, rfl, -, rfl⟩
  · simp only [Asdl.Definition.sum?, Option.filter_some, ht]
    exact .some rfl
  · simp only [Asdl.Definition.sum?, Option.filter_some, ht]
    exact .none
  · exact .none

/-- Every base of a product is a compound sum of the model. -/
theorem exists_base (h : Resolves s m) {p : Product} (hp : p ∈ m.products) {b : String}
    (hb : b ∈ p.bases) : ∃ c ∈ m.compoundSums, c.name = b := by
  obtain ⟨q, -, hq⟩ := exists_mem_left h.products hp
  rw [(Scope.resolveProduct_eq_ok.mp hq).2.2.2.2] at hb
  obtain ⟨t, ht, rfl, hshared⟩ := Scope.mem_basesOf.mp hb
  have hfilter : t ∈ s.sums.filter (!·.isSimple) :=
    List.mem_filter.mpr ⟨ht, by rw [Scope.not_isSimple_of_shared hshared]; rfl⟩
  obtain ⟨c, hc, hres⟩ := exists_mem_right h.compoundSums hfilter
  exact ⟨c, hc, (Scope.resolveCompound_eq_ok.mp hres).2.2.2⟩

end Resolves

end Model

end Asdl
