/-
Which schemas have a model.

The checks and the resolution of a schema stop at the first defect, in an order
of their own.  Here is what they come to, without any order:

* `Schema.Acceptable` — the condition on a schema, clause by clause;
* `Model.Scope.exists_resolve_sum`, `exists_resolve_product` — a definition can be
  resolved iff its fields have usable types and it is not too large;
* `Schema.Acceptable.check`, `Schema.Acceptable.of_check` — the clauses against the
  checks and the resolution of single definitions;
* `Model.exists_ofSchema_iff` — a schema has a model iff it is acceptable.

Design notes: a shared variant is never a class, so nothing is asked of its
fields.  A sum with attributes is never a mere enumeration, so the attributes of
every sum are resolved.
-/
import Asdl.Proofs.Resolved

namespace Asdl

theorem Primitive.isSome_ofName? {n : String} :
    (Primitive.ofName? n).isSome ↔ ∃ p : Primitive, p.name = n := by
  constructor
  · intro h
    unfold Primitive.ofName? at h
    split at h
    · exact ⟨.string, by simp_all [Primitive.name]⟩
    split at h
    · exact ⟨.int, by simp_all [Primitive.name]⟩
    split at h
    · exact ⟨.float, by simp_all [Primitive.name]⟩
    split at h
    · exact ⟨.bool, by simp_all [Primitive.name]⟩
    split at h
    · exact ⟨.any, by simp_all [Primitive.name]⟩
    · cases h
  · rintro ⟨p, rfl⟩
    rw [Primitive.ofName?_name]
    rfl

/-! ### The condition -/

namespace Schema

/-- A name that can be the type of a field: built in, imported or defined. -/
def Knows (s : Schema) (n : String) : Prop :=
  (∃ p : Primitive, p.name = n) ∨ n ∈ s.externals ∨ ∃ d ∈ s.definitions, d.name = n

/-- The types that a field can have.  Maps are not nested, and a named type is
never marked as a map. -/
inductive Usable (s : Schema) : TypeExpr → Prop where
  | scalar {n : String} (h : s.Knows n) : Usable s (.named n .scalar)
  | optional {n : String} (h : s.Knows n) : Usable s (.named n .optional)
  | repeated {n : String} (h : s.Knows n) : Usable s (.named n .repeated)
  | map {k v : String} (hk : s.Knows k) (hv : s.Knows v) :
      Usable s (.map (.named k .scalar) (.named v .scalar))

/-- The names that are derived from the sums of a schema. -/
def derivedNames (s : Schema) : List String :=
  s.sums.flatMap fun t =>
    [t.name ++ "_t", t.name ++ "_e", t.name ++ "_i", t.name ++ "_str"] ++
      if t.isSimple then []
      else (t.variants.filter (·.shared.isNone)).map fun v => t.name ++ "__" ++ v.name

/-- The members of one class: different names, and none of them the tag's. -/
def MembersDiffer (members : List Field) : Prop :=
  (members.map Field.name).Nodup ∧ ∀ f ∈ members, f.name ≠ "tag"

/-- What a schema must satisfy to have a model. -/
structure Acceptable (s : Schema) : Prop where
  distinct : (s.definitions.map Definition.name).Nodup
  unreserved : ∀ d ∈ s.definitions,
    (∀ p : Primitive, p.name ≠ d.name) ∧ d.name ≠ "map" ∧ d.name ∉ s.externals
  derived_distinct : s.derivedNames.Nodup
  derived_new : ∀ d ∈ s.definitions, d.name ∉ s.derivedNames
  no_array_size : ∀ t ∈ s.sums, t.isSimple = true → ∀ v ∈ t.variants, v.name ≠ "ARRAY_SIZE"
  variants : ∀ t ∈ s.sums, t.variants ≠ [] ∧ (t.variants.map Variant.name).Nodup
  product_members : ∀ p ∈ s.products, MembersDiffer (p.fields ++ p.attributes)
  variant_members : ∀ t ∈ s.sums, ∀ v ∈ t.variants, v.shared = none →
    MembersDiffer (v.fields ++ t.attributes)
  product_count : s.products.length ≤ 64536
  shared : ∀ t ∈ s.sums, ∀ v ∈ t.variants, ∀ n, v.shared = some n → ∃ p ∈ s.products, p.name = n
  shared_once : ∀ t ∈ s.sums, (t.variants.filterMap Variant.shared).Nodup
  compound_size : ∀ t ∈ s.sums, t.isSimple = false → t.variants.length ≤ 999
  product_types : ∀ p ∈ s.products, ∀ f ∈ p.fields ++ p.attributes, s.Usable f.type
  variant_types : ∀ t ∈ s.sums, ∀ v ∈ t.variants, v.shared = none → ∀ f ∈ v.fields, s.Usable f.type
  attribute_types : ∀ t ∈ s.sums, ∀ f ∈ t.attributes, s.Usable f.type

/-! ### Sums and products -/

theorem mem_sums {s : Schema} {t : Sum} : t ∈ s.sums ↔ .sum t ∈ s.definitions := by
  rw [sums, List.mem_filterMap]
  constructor
  · rintro ⟨d, hd, hdt⟩
    cases d with
    | sum u => cases hdt; exact hd
    | product p => cases hdt
  · exact fun ht => ⟨_, ht, rfl⟩

theorem mem_products {s : Schema} {p : Product} :
    p ∈ s.products ↔ .product p ∈ s.definitions := by
  rw [products, List.mem_filterMap]
  constructor
  · rintro ⟨d, hd, hdp⟩
    cases d with
    | sum u => cases hdp
    | product q => cases hdp; exact hd
  · exact fun hp => ⟨_, hp, rfl⟩

theorem forall_definitions {s : Schema} {P : Definition → Prop} :
    (∀ d ∈ s.definitions, P d) ↔
      (∀ t ∈ s.sums, P (.sum t)) ∧ ∀ p ∈ s.products, P (.product p) := by
  simp only [mem_sums, mem_products]
  constructor
  · exact fun h => ⟨fun t ht => h _ ht, fun p hp => h _ hp⟩
  · rintro ⟨hsums, hproducts⟩ d hd
    cases d with
    | sum t => exact hsums t hd
    | product p => exact hproducts p hd

theorem generatedNames_eq_derivedNames (s : Schema) : s.generatedNames = s.derivedNames :=
  s.generatedNames_eq

end Schema

/-! ### Types and fields -/

/-- A list can be mapped iff each of its elements can. -/
theorem exists_mapM_eq_ok {α β ε : Type} {f : α → Except ε β} {xs : List α} :
    (∃ ys, xs.mapM f = .ok ys) ↔ ∀ x ∈ xs, ∃ y, f x = .ok y := by
  constructor
  · rintro ⟨ys, hys⟩ x hx
    obtain ⟨y, -, hy⟩ := exists_mem_right (mapM_eq_ok.mp hys) hx
    exact ⟨y, hy⟩
  · intro h
    induction xs with
    | nil => exact ⟨[], rfl⟩
    | cons x xs ih =>
      obtain ⟨y, hy⟩ := h x List.mem_cons_self
      obtain ⟨ys, hys⟩ := ih fun z hz => h z (List.mem_cons_of_mem _ hz)
      exact ⟨y :: ys, mapM_eq_ok.mpr (.cons hy (mapM_eq_ok.mp hys))⟩

namespace Model

namespace Scope

variable {s : Schema}

theorem exists_resolveName (h : s.checkNames = .ok ()) (owner field : String) {n : String} :
    (∃ t, (ofSchema s).resolveName owner field n = .ok t) ↔ s.Knows n := by
  rw [resolveName, Schema.Knows, ← Primitive.isSome_ofName?]
  cases Primitive.ofName? n with
  | some p => simp
  | none =>
    by_cases hext : n ∈ s.externals
    · have hcontains : (ofSchema s).externals.contains n = true := List.contains_iff_mem.mpr hext
      simp only [hcontains, hext, if_true, true_or, or_true, iff_true]
      exact ⟨_, rfl⟩
    · have hcontains : (ofSchema s).externals.contains n = false := by
        simpa using (fun hn => hext hn : n ∉ (ofSchema s).externals)
      -- only a definition is left, and the scope knows its kind
      have hkind :
          (∃ k, (ofSchema s).kinds.find? n = some k) ↔ ∃ d ∈ s.definitions, d.name = n := by
        simp only [kinds_find?_eq_some h]
        constructor
        · rintro ⟨k, d, hd, hn, -⟩
          exact ⟨d, hd, hn⟩
        · rintro ⟨d, hd, hn⟩
          exact ⟨kindOf d, d, hd, hn, rfl⟩
      simp only [hcontains, hext, Option.isSome_none, Bool.false_eq_true, if_false, false_or]
      rw [← hkind]
      cases (ofSchema s).kinds.find? n with
      | none => simp
      | some k => cases k <;> simp

theorem exists_resolveOperand (h : s.checkNames = .ok ()) (owner field role : String)
    {e : TypeExpr} :
    (∃ t, (ofSchema s).resolveOperand owner field role e = .ok t) ↔
      ∃ n, e = .named n .scalar ∧ s.Knows n := by
  cases e with
  | map k v => simp [resolveOperand]
  | named n multiplicity =>
    cases multiplicity with
    | scalar => simp [resolveOperand, exists_resolveName h owner field]
    | optional => simp [resolveOperand]
    | repeated => simp [resolveOperand]
    | map => simp [resolveOperand]

theorem exists_resolveType (h : s.checkNames = .ok ()) (owner field : String) {e : TypeExpr} :
    (∃ t, (ofSchema s).resolveType owner field e = .ok t) ↔ s.Usable e := by
  cases e with
  | named n multiplicity =>
    constructor
    · rintro ⟨t, ht⟩
      obtain ⟨u, hu, ht⟩ := bind_eq_ok.mp ht
      have hn : s.Knows n := (exists_resolveName h owner field).mp ⟨u, hu⟩
      cases multiplicity with
      | scalar => exact .scalar hn
      | optional => exact .optional hn
      | repeated => exact .repeated hn
      -- a name cannot stand for a map of something
      | map => cases ht
    · intro hu
      have hok : ∀ hn : s.Knows n, ∃ u, (ofSchema s).resolveName owner field n = .ok u :=
        (exists_resolveName h owner field).mpr
      cases hu with
      | scalar hn => obtain ⟨u, hu⟩ := hok hn; exact ⟨_, bind_eq_ok.mpr ⟨u, hu, rfl⟩⟩
      | optional hn => obtain ⟨u, hu⟩ := hok hn; exact ⟨_, bind_eq_ok.mpr ⟨u, hu, rfl⟩⟩
      | repeated hn => obtain ⟨u, hu⟩ := hok hn; exact ⟨_, bind_eq_ok.mpr ⟨u, hu, rfl⟩⟩
  | map k v =>
    constructor
    · rintro ⟨t, ht⟩
      obtain ⟨kt, hkt, ht⟩ := bind_eq_ok.mp ht
      obtain ⟨vt, hvt, -⟩ := bind_eq_ok.mp ht
      obtain ⟨kn, rfl, hk⟩ := (exists_resolveOperand h owner field "key").mp ⟨kt, hkt⟩
      obtain ⟨vn, rfl, hv⟩ := (exists_resolveOperand h owner field "value").mp ⟨vt, hvt⟩
      exact .map hk hv
    · rintro (_ | _ | _ | ⟨hk, hv⟩)
      obtain ⟨kt, hkt⟩ := (exists_resolveOperand h owner field "key").mpr ⟨_, rfl, hk⟩
      obtain ⟨vt, hvt⟩ := (exists_resolveOperand h owner field "value").mpr ⟨_, rfl, hv⟩
      exact ⟨_, bind_eq_ok.mpr ⟨kt, hkt, bind_eq_ok.mpr ⟨vt, hvt, rfl⟩⟩⟩

theorem exists_resolveFields (h : s.checkNames = .ok ()) (owner : String)
    {fs : List Asdl.Field} :
    (∃ gs, (ofSchema s).resolveFields owner fs = .ok gs) ↔ ∀ f ∈ fs, s.Usable f.type := by
  have hfield : ∀ f, (∃ g, (ofSchema s).resolveField owner f = .ok g) ↔ s.Usable f.type := by
    intro f
    rw [← exists_resolveType h owner f.name]
    constructor
    · rintro ⟨g, hg⟩
      obtain ⟨t, ht, -⟩ := bind_eq_ok.mp hg
      exact ⟨t, ht⟩
    · rintro ⟨t, ht⟩
      exact ⟨_, bind_eq_ok.mpr ⟨t, ht, rfl⟩⟩
  simp only [resolveFields, exists_mapM_eq_ok, hfield]

/-! ### Definitions -/

theorem exists_resolveVariant (h : s.checkNames = .ok ()) {v : Asdl.Variant × Nat} :
    (∃ w, (ofSchema s).resolveVariant v = .ok w) ↔
      (v.1.shared = none → ∀ f ∈ v.1.fields, s.Usable f.type) := by
  rw [resolveVariant]
  cases v.1.shared with
  | some p => simp
  | none =>
    rw [← exists_resolveFields h v.1.name]
    constructor
    · rintro ⟨w, hw⟩ -
      obtain ⟨fs, hfs, -⟩ := bind_eq_ok.mp hw
      exact ⟨fs, hfs⟩
    · intro hfs
      obtain ⟨fs, hfs⟩ := hfs rfl
      exact ⟨_, bind_eq_ok.mpr ⟨fs, hfs, rfl⟩⟩

theorem exists_resolveCompound (h : s.checkNames = .ok ()) {t : Sum} :
    (∃ c, (ofSchema s).resolveCompound t = .ok c) ↔
      t.variants.length ≤ 999 ∧
        (∀ v ∈ t.variants, v.shared = none → ∀ f ∈ v.fields, s.Usable f.type) ∧
        ∀ f ∈ t.attributes, s.Usable f.type := by
  have hlength : t.variants.length < firstProductTag ↔ t.variants.length ≤ 999 := by
    rw [firstProductTag]
    omega
  -- positions play no part in what can be resolved
  have hvariants : (∃ ws, (t.variants.zipIdx 1).mapM (ofSchema s).resolveVariant = .ok ws) ↔
      ∀ v ∈ t.variants, v.shared = none → ∀ f ∈ v.fields, s.Usable f.type := by
    simp only [exists_mapM_eq_ok, exists_resolveVariant h]
    constructor
    · intro hall v hv
      obtain ⟨i, hi⟩ := List.mem_iff_getElem?.mp hv
      have hmem : (v, 1 + i) ∈ t.variants.zipIdx 1 :=
        List.mk_mem_zipIdx_iff_le_and_getElem?_sub.mpr
          ⟨by omega, by rw [Nat.add_sub_cancel_left]; exact hi⟩
      exact hall _ hmem
    · intro hall v hv
      exact hall v.1 (List.fst_mem_of_mem_zipIdx hv)
  rw [← hlength, ← hvariants, ← exists_resolveFields h t.name]
  constructor
  · rintro ⟨c, hc⟩
    obtain ⟨hlen, hvs, has, -⟩ := resolveCompound_eq_ok.mp hc
    exact ⟨hlen, ⟨_, hvs⟩, ⟨_, has⟩⟩
  · rintro ⟨hlen, ⟨vs, hvs⟩, ⟨as, has⟩⟩
    exact ⟨⟨t.name, vs, as⟩, resolveCompound_eq_ok.mpr ⟨hlen, hvs, has, rfl⟩⟩

/-- A mere enumeration has neither fields nor attributes. -/
theorem fields_of_isSimple {t : Sum} (h : t.isSimple = true) :
    (∀ v ∈ t.variants, v.fields = []) ∧ t.attributes = [] := by
  simp only [Sum.isSimple, Bool.and_eq_true, List.all_eq_true, List.isEmpty_iff] at h
  refine ⟨fun v hv => ?_, h.1⟩
  have hbare := h.2 v hv
  simp only [Variant.isBare, Bool.and_eq_true, List.isEmpty_iff] at hbare
  exact hbare.1

theorem exists_resolve_sum (h : s.checkNames = .ok ()) {t : Sum} :
    (∃ r, (ofSchema s).resolve (.sum t) = .ok r) ↔
      (t.isSimple = false → t.variants.length ≤ 999) ∧
        (∀ v ∈ t.variants, v.shared = none → ∀ f ∈ v.fields, s.Usable f.type) ∧
        ∀ f ∈ t.attributes, s.Usable f.type := by
  cases ht : t.isSimple with
  | true =>
    -- there is nothing to resolve in a simple sum, so the right side holds as well
    obtain ⟨hfields, hattributes⟩ := fields_of_isSimple ht
    have hres : (ofSchema s).resolve (.sum t) = .ok (.simpleSum (resolveSimple t)) := by
      rw [resolve, if_pos ht]
    refine ⟨fun _ => ⟨fun hfalse => ?_, fun v hv _ f hf => ?_, fun f hf => ?_⟩, fun _ => ⟨_, hres⟩⟩
    · cases hfalse
    · rw [hfields v hv] at hf
      cases hf
    · rw [hattributes] at hf
      cases hf
  | false =>
    simp only [forall_const]
    rw [← exists_resolveCompound h]
    constructor
    · rintro ⟨r, hr⟩
      rw [resolve, if_neg (by simp [ht])] at hr
      obtain ⟨c, hc, -⟩ := map_eq_ok.mp hr
      exact ⟨c, hc⟩
    · rintro ⟨c, hc⟩
      exact ⟨.compoundSum c, resolve_eq_ok.mpr (.inr (.inl ⟨t, c, rfl, ht, hc, rfl⟩))⟩

theorem exists_resolve_product (h : s.checkNames = .ok ()) {p : Asdl.Product} :
    (∃ r, (ofSchema s).resolve (.product p) = .ok r) ↔
      ∀ f ∈ p.fields ++ p.attributes, s.Usable f.type := by
  simp only [List.mem_append, or_imp, forall_and]
  rw [← exists_resolveFields h p.name, ← exists_resolveFields h p.name]
  constructor
  · rintro ⟨r, hr⟩
    obtain ⟨q, hq, -⟩ := map_eq_ok.mp hr
    obtain ⟨hfs, has, -⟩ := resolveProduct_eq_ok.mp hq
    exact ⟨⟨_, hfs⟩, ⟨_, has⟩⟩
  · rintro ⟨⟨fs, hfs⟩, ⟨as, has⟩⟩
    let q : Product := ⟨p.name, (ofSchema s).tagOf p.name, fs, as, (ofSchema s).basesOf p.name⟩
    have hq : (ofSchema s).resolveProduct p = .ok q :=
      resolveProduct_eq_ok.mpr ⟨hfs, has, rfl, rfl, rfl⟩
    exact ⟨.product q, map_eq_ok.mpr ⟨q, hq, rfl⟩⟩

end Scope

end Model

/-! ### Schemas -/

namespace Schema

theorem isReserved_eq_false {s : Schema} {n : String} :
    s.isReserved n = false ↔ (∀ p : Primitive, p.name ≠ n) ∧ n ≠ "map" ∧ n ∉ s.externals := by
  have hprimitive : (Primitive.ofName? n).isSome = false ↔ ∀ p : Primitive, p.name ≠ n := by
    rw [← Bool.not_eq_true, Primitive.isSome_ofName?]
    exact not_exists
  have hext : s.externals.contains n = false ↔ n ∉ s.externals := by
    rw [← Bool.not_eq_true, List.contains_iff_mem]
  rw [isReserved, Bool.or_eq_false_iff, Bool.or_eq_false_iff, hprimitive, hext,
    beq_eq_false_iff_ne, and_assoc]
  rfl

theorem hidesArraySize_eq_false {t : Sum} :
    hidesArraySize (.sum t) = false ↔
      (t.isSimple = true → ∀ v ∈ t.variants, v.name ≠ "ARRAY_SIZE") := by
  rw [hidesArraySize]
  cases t.isSimple with
  | false => simp
  | true => simp [arraySizeName]

/-- The names that the scope takes for products are those of products. -/
theorem kinds_eq_product {s : Schema} (h : s.checkNames = .ok ()) {n : String} :
    (Model.Scope.ofSchema s).kinds.find? n = some .product ↔ ∃ p ∈ s.products, p.name = n := by
  rw [Model.Scope.kinds_find?_eq_some h]
  constructor
  · rintro ⟨d, hd, hn, hkind⟩
    cases d with
    | sum u =>
      rw [Model.kindOf] at hkind
      split at hkind <;> cases hkind
    | product p => exact ⟨p, mem_products.mpr hd, hn⟩
  · rintro ⟨p, hp, hn⟩
    exact ⟨_, mem_products.mp hp, hn, rfl⟩

/-- A sum shares products of the module, and none of them twice. -/
theorem checkBases_eq_ok_iff {s : Schema} (h : s.checkNames = .ok ()) {t : Sum} :
    (Model.Scope.ofSchema s).checkBases t = .ok () ↔
      (∀ v ∈ t.variants, ∀ n, v.shared = some n → ∃ p ∈ s.products, p.name = n) ∧
        (t.variants.filterMap Variant.shared).Nodup := by
  have hmem : ∀ n, n ∈ Model.sharedBy t ↔ ∃ v ∈ t.variants, v.shared = some n :=
    fun n => List.mem_filterMap
  rw [Model.Scope.checkBases_eq_ok, and_comm]
  simp only [kinds_eq_product h, hmem]
  constructor
  · rintro ⟨hall, hnd⟩
    exact ⟨fun v hv n hn => hall n ⟨v, hv, hn⟩, hnd⟩
  · rintro ⟨hall, hnd⟩
    exact ⟨fun n ⟨v, hv, hn⟩ => hall v hv n hn, hnd⟩

namespace Acceptable

variable {s : Schema}

theorem checkNames (h : s.Acceptable) : s.checkNames = .ok () :=
  checkNames_eq_ok.mpr ⟨h.distinct, fun d hd => isReserved_eq_false.mpr (h.unreserved d hd)⟩

theorem checkGenerated (h : s.Acceptable) : s.checkGenerated = .ok () := by
  rw [checkGenerated_eq_ok, generatedNames_eq_derivedNames]
  refine ⟨forall_definitions.mpr ⟨fun t ht => ?_, fun p _ => rfl⟩, h.derived_distinct,
    h.derived_new⟩
  exact hidesArraySize_eq_false.mpr (h.no_array_size t ht)

theorem checkBody (h : s.Acceptable) : ∀ d ∈ s.definitions, d.checkBody = .ok () := by
  refine forall_definitions.mpr ⟨fun t ht => ?_, fun p hp => ?_⟩
  · obtain ⟨hne, hnd⟩ := h.variants t ht
    refine Sum.checkBody_eq_ok.mpr ⟨hne, hnd, fun v hv hnone => ?_⟩
    exact checkMembers_eq_ok.mpr (h.variant_members t ht v hv hnone)
  · exact checkMembers_eq_ok.mpr (h.product_members p hp)

theorem check (h : s.Acceptable) : s.check = .ok () := by
  refine check_eq_ok.mpr ⟨?_, h.product_count, fun t ht => ?_⟩
  · exact validate_eq_ok.mpr ⟨h.checkNames, h.checkGenerated, h.checkBody⟩
  · exact (checkBases_eq_ok_iff h.checkNames).mpr ⟨h.shared t ht, h.shared_once t ht⟩

theorem exists_resolve (h : s.Acceptable) :
    ∀ d ∈ s.definitions, ∃ r, (Model.Scope.ofSchema s).resolve d = .ok r := by
  refine forall_definitions.mpr ⟨fun t ht => ?_, fun p hp => ?_⟩
  · exact (Model.Scope.exists_resolve_sum h.checkNames).mpr
      ⟨h.compound_size t ht, h.variant_types t ht, h.attribute_types t ht⟩
  · exact (Model.Scope.exists_resolve_product h.checkNames).mpr (h.product_types p hp)

/-- Checks that pass and definitions that can be resolved leave nothing else to ask. -/
theorem of_check (hcheck : s.check = .ok ())
    (hresolve : ∀ d ∈ s.definitions, ∃ r, (Model.Scope.ofSchema s).resolve d = .ok r) :
    s.Acceptable := by
  obtain ⟨hvalidate, hcount, hbases⟩ := check_eq_ok.mp hcheck
  obtain ⟨hnames, hgenerated, hbodies⟩ := validate_eq_ok.mp hvalidate
  obtain ⟨hdistinct, hreserved⟩ := checkNames_eq_ok.mp hnames
  rw [checkGenerated_eq_ok, generatedNames_eq_derivedNames] at hgenerated
  obtain ⟨hhides, hderived, hnew⟩ := hgenerated
  -- what is said of all definitions, for sums and for products
  obtain ⟨hhides, -⟩ := forall_definitions.mp hhides
  obtain ⟨hsumBodies, hproductBodies⟩ := forall_definitions.mp hbodies
  obtain ⟨hsums, hproducts⟩ := forall_definitions.mp hresolve
  have hsum : ∀ t ∈ s.sums, _ := fun t ht => Sum.checkBody_eq_ok.mp (hsumBodies t ht)
  have hshared : ∀ t ∈ s.sums, _ := fun t ht => (checkBases_eq_ok_iff hnames).mp (hbases t ht)
  have htypes : ∀ t ∈ s.sums, _ := fun t ht =>
    (Model.Scope.exists_resolve_sum hnames).mp (hsums t ht)
  exact {
    distinct := hdistinct
    unreserved := fun d hd => isReserved_eq_false.mp (hreserved d hd)
    derived_distinct := hderived
    derived_new := hnew
    no_array_size := fun t ht => hidesArraySize_eq_false.mp (hhides t ht)
    variants := fun t ht => ⟨(hsum t ht).1, (hsum t ht).2.1⟩
    product_members := fun p hp => checkMembers_eq_ok.mp (hproductBodies p hp)
    variant_members := fun t ht v hv hnone => checkMembers_eq_ok.mp ((hsum t ht).2.2 v hv hnone)
    product_count := hcount
    shared := fun t ht => (hshared t ht).1
    shared_once := fun t ht => (hshared t ht).2
    compound_size := fun t ht => (htypes t ht).1
    product_types := fun p hp => (Model.Scope.exists_resolve_product hnames).mp (hproducts p hp)
    variant_types := fun t ht => (htypes t ht).2.1
    attribute_types := fun t ht => (htypes t ht).2.2 }

end Acceptable

end Schema

/-- **A schema has a model iff it is acceptable.** -/
theorem Model.exists_ofSchema_iff (s : Schema) :
    (∃ m, Model.ofSchema s = .ok m) ↔ s.Acceptable := by
  constructor
  · rintro ⟨m, hm⟩
    have h := ofSchema_eq_ok.mp hm
    exact .of_check h.check (exists_mapM_eq_ok.mp ⟨_, h.definitions⟩)
  · intro h
    obtain ⟨ds, hds⟩ := exists_mapM_eq_ok.mpr h.exists_resolve
    exact ⟨⟨s.name, s.externals, ds, _, rfl⟩, ofSchema_eq_ok.mpr ⟨h.check, rfl, rfl, hds⟩⟩

end Asdl
