/-
The tags of a resolved module.

Products are numbered from 1000 in the order of the module, the constructors of
a compound sum carry their position among its variants, and a shared variant
carries the tag of its product:

* `Model.Resolves.product_tag` — the product at place `k` has tag `1000 + k`;
* `Model.Resolves.variant_cases` — each variant is a constructor with its
  position, or shares the product at some place and has that product's tag;
* `Model.Resolves.nodup_tags` — within a sum no two variants have one tag;
* `Model.Resolves.exists_shared_product` — a shared variant and its product agree;
* `Model.ofSchema_tagsAssigned` — all of this for every model of a schema.

Design notes: two tags of one sum are told apart by three facts.  Constructors
stand at different places; they stay below 1000 because longer sums are refused;
and two shared variants name different products, which have different places.
-/
import Asdl.Proofs.Resolved

namespace Asdl

namespace Model

namespace Resolves

variable {s : Schema} {m : Model}

/-! ### Products -/

theorem tagOf_product (h : s.checkNames = .ok ()) {k : Nat} {p : Asdl.Product}
    (hp : s.products[k]? = some p) :
    (Scope.ofSchema s).tagOf p.name = firstProductTag + k := by
  have hfind := (Scope.tags_find?_eq_some h).mpr ⟨k, p, hp, rfl, rfl⟩
  rw [Scope.tagOf, hfind, Option.getD_some]

theorem product_tag (h : Resolves s m) {k : Nat} {q : Product} (hq : m.products[k]? = some q) :
    q.tag = 1000 + k ∧ q.tag ≤ 65535 := by
  obtain ⟨p, hp, hpq⟩ := exists_getElem?_left h.products hq
  have htag : q.tag = firstProductTag + k := by
    rw [(Scope.resolveProduct_eq_ok.mp hpq).2.2.2.1]
    exact tagOf_product h.checkNames hp
  have hk : k < s.products.length := (List.getElem?_eq_some_iff.mp hp).choose
  have hlimit : s.products.length ≤ productLimit := (Schema.check_eq_ok.mp h.check).2.1
  simp only [productLimit, lastTag, firstProductTag] at hlimit htag
  omega

/-- What a sum may share is the product at some place. -/
theorem shared_product (h : s.check = .ok ()) {t : Sum} (ht : t ∈ s.sums) {v : Asdl.Variant}
    (hv : v ∈ t.variants) {p : String} (hp : v.shared = some p) :
    ∃ (k : Nat) (q : Asdl.Product), s.products[k]? = some q ∧ q.name = p := by
  have hnames := (Schema.validate_eq_ok.mp (Schema.check_eq_ok.mp h).1).1
  have hmem : p ∈ sharedBy t := List.mem_filterMap.mpr ⟨v, hv, hp⟩
  have hkind := (Scope.checkBases_eq_ok.mp ((Schema.check_eq_ok.mp h).2.2 t ht)).2 p hmem
  obtain ⟨d, hd, hname, hkind⟩ := (Scope.kinds_find?_eq_some hnames).mp hkind
  cases d with
  | sum t =>
    rw [kindOf] at hkind
    split at hkind <;> cases hkind
  | product q =>
    have hq : q ∈ s.products := List.mem_filterMap.mpr ⟨_, hd, rfl⟩
    obtain ⟨k, hk⟩ := List.mem_iff_getElem?.mp hq
    exact ⟨k, q, hk, hname⟩

/-! ### Variants -/

/-- A compound sum of the model comes from a sum of the schema. -/
theorem exists_sum (h : Resolves s m) {c : CompoundSum} (hc : c ∈ m.compoundSums) :
    ∃ t ∈ s.sums, (Scope.ofSchema s).resolveCompound t = .ok c := by
  obtain ⟨t, ht, hres⟩ := exists_mem_left h.compoundSums hc
  exact ⟨t, (List.mem_filter.mp ht).1, hres⟩

/-- A variant is a constructor with its position, or it shares the product at some
place and has the tag of that place. -/
theorem variant_cases (h : Resolves s m) {t : Sum} (ht : t ∈ s.sums) {c : CompoundSum}
    (hc : (Scope.ofSchema s).resolveCompound t = .ok c) {i : Nat} {w : Variant}
    (hw : c.variants[i]? = some w) :
    ∃ v, t.variants[i]? = some v ∧ w.name = v.name ∧
      ((v.shared = none ∧ ∃ fs, w = .constructor ⟨v.name, i + 1, fs⟩) ∨
        ∃ (k : Nat) (q : Asdl.Product), s.products[k]? = some q ∧ v.shared = some q.name ∧
          w = .shared ⟨v.name, 1000 + k, q.name⟩) := by
  obtain ⟨-, hvs, -, -⟩ := Scope.resolveCompound_eq_ok.mp hc
  obtain ⟨⟨v, j⟩, hv, hres⟩ := exists_getElem?_left (mapM_eq_ok.mp hvs) hw
  rw [List.getElem?_zipIdx, Option.map_eq_some_iff] at hv
  obtain ⟨v, hv, hvj⟩ := hv
  cases hvj
  -- a shared variant has the tag of its product, any other one its place, counted from one
  rcases Scope.resolveVariant_eq_ok.mp hres with ⟨p, hp, rfl⟩ | ⟨hnone, fs, -, rfl⟩
  · obtain ⟨k, q, hq, rfl⟩ := shared_product h.check ht (List.mem_of_getElem? hv) hp
    refine ⟨v, hv, rfl, .inr ⟨k, q, hq, hp, ?_⟩⟩
    rw [tagOf_product h.checkNames hq]
    rfl
  · refine ⟨v, hv, rfl, .inl ⟨hnone, fs, ?_⟩⟩
    rw [Nat.add_comm]

/-- Different variants of a sum share different products. -/
theorem shared_ne (h : Resolves s m) {t : Sum} (ht : t ∈ s.sums) {i j : Nat} (hij : i < j)
    {v w : Asdl.Variant} (hv : t.variants[i]? = some v) (hw : t.variants[j]? = some w)
    {p q : String} (hp : v.shared = some p) (hq : w.shared = some q) : p ≠ q := by
  have hnd := (Scope.checkBases_eq_ok.mp (h.checkBases ht)).1
  rw [sharedBy, List.Nodup, List.pairwise_filterMap, List.pairwise_iff_getElem] at hnd
  obtain ⟨hi, rfl⟩ := List.getElem?_eq_some_iff.mp hv
  obtain ⟨hj, rfl⟩ := List.getElem?_eq_some_iff.mp hw
  exact hnd i j hi hj hij p hp q hq

theorem nodup_tags (h : Resolves s m) {c : CompoundSum} (hc : c ∈ m.compoundSums) :
    (c.variants.map Variant.tag).Nodup := by
  obtain ⟨t, ht, hres⟩ := h.exists_sum hc
  obtain ⟨hlen, hvs, -, -⟩ := Scope.resolveCompound_eq_ok.mp hres
  simp only [firstProductTag] at hlen
  rw [List.Nodup, List.pairwise_map, List.pairwise_iff_getElem]
  intro i j hi hj hij heq
  obtain ⟨v, hv, -, hvcase⟩ := h.variant_cases ht hres (List.getElem?_eq_getElem hi)
  obtain ⟨w, hw, -, hwcase⟩ := h.variant_cases ht hres (List.getElem?_eq_getElem hj)
  have hit : i < t.variants.length := (List.getElem?_eq_some_iff.mp hv).choose
  have hjt : j < t.variants.length := (List.getElem?_eq_some_iff.mp hw).choose
  rcases hvcase with ⟨-, fs, hvc⟩ | ⟨k, p, hp, hvp, hvc⟩ <;>
    rcases hwcase with ⟨-, gs, hwc⟩ | ⟨l, q, hq, hwq, hwc⟩ <;>
    rw [hvc, hwc] at heq <;> simp only [Variant.tag] at heq
  · omega
  · omega
  · omega
  · -- one tag means one place among the products, hence one product
    have hkl : k = l := by omega
    subst hkl
    rw [hp] at hq
    cases hq
    exact h.shared_ne ht hij hv hw hvp hwq rfl

/-- The tag of a constructor is its position, which stays below the products. -/
theorem constructor_tag (h : Resolves s m) {c : CompoundSum} (hc : c ∈ m.compoundSums) {i : Nat}
    {k : Constructor} (hk : c.variants[i]? = some (.constructor k)) :
    k.tag = i + 1 ∧ k.tag ≤ 999 := by
  obtain ⟨t, ht, hres⟩ := h.exists_sum hc
  obtain ⟨hlen, -⟩ := Scope.resolveCompound_eq_ok.mp hres
  obtain ⟨v, hv, -, ⟨-, fs, hvc⟩ | ⟨j, q, -, -, hvc⟩⟩ := h.variant_cases ht hres hk
  · have hi : i < t.variants.length := (List.getElem?_eq_some_iff.mp hv).choose
    cases hvc
    simp only [firstProductTag] at hlen
    show i + 1 = i + 1 ∧ i + 1 ≤ 999
    omega
  · cases hvc

/-- A shared variant stands for a product that has its tag and is based on the sum. -/
theorem exists_shared_product (h : Resolves s m) {c : CompoundSum} (hc : c ∈ m.compoundSums)
    {v : SharedCase} (hv : .shared v ∈ c.variants) :
    ∃ p ∈ m.products, p.name = v.product ∧ p.tag = v.tag ∧ c.name ∈ p.bases := by
  obtain ⟨t, ht, hres⟩ := h.exists_sum hc
  have hname : c.name = t.name := (Scope.resolveCompound_eq_ok.mp hres).2.2.2
  obtain ⟨i, hi⟩ := List.mem_iff_getElem?.mp hv
  obtain ⟨u, hu, -, ⟨-, fs, hvc⟩ | ⟨k, q, hq, hshared, hvc⟩⟩ := h.variant_cases ht hres hi
  · cases hvc
  · cases hvc
    obtain ⟨r, hr, hqr⟩ := exists_getElem?_right h.products hq
    obtain ⟨-, -, hrname, -, hbases⟩ := Scope.resolveProduct_eq_ok.mp hqr
    refine ⟨r, List.mem_of_getElem? hr, hrname, (h.product_tag hr).1, ?_⟩
    rw [hbases, hname]
    have hmem : q.name ∈ sharedBy t :=
      List.mem_filterMap.mpr ⟨u, List.mem_of_getElem? hu, hshared⟩
    exact Scope.mem_basesOf.mpr ⟨t, ht, rfl, hmem⟩

/-- Tags of variants are positive and fit sixteen bits. -/
theorem variant_tag_bounds (h : Resolves s m) {c : CompoundSum} (hc : c ∈ m.compoundSums)
    {v : Variant} (hv : v ∈ c.variants) : 0 < v.tag ∧ v.tag ≤ 65535 := by
  cases v with
  | constructor k =>
    obtain ⟨i, hi⟩ := List.mem_iff_getElem?.mp hv
    obtain ⟨htag, hle⟩ := h.constructor_tag hc hi
    show 0 < k.tag ∧ k.tag ≤ 65535
    omega
  | shared v =>
    obtain ⟨p, hp, -, htag, -⟩ := h.exists_shared_product hc hv
    obtain ⟨k, hk⟩ := List.mem_iff_getElem?.mp hp
    obtain ⟨hplace, hle⟩ := h.product_tag hk
    show 0 < v.tag ∧ v.tag ≤ 65535
    omega

end Resolves

/-! ### The whole module -/

/-- How tags are assigned in the model `m` of the schema `s`. -/
structure TagsAssigned (s : Schema) (m : Model) : Prop where
  /-- The products of the model are those of the schema, in order. -/
  products_order : m.products.map Product.name = s.products.map Asdl.Product.name
  /-- So are the compound sums and their variants. -/
  compounds_order :
    (m.compoundSums.map fun c => (c.name, c.variants.map Variant.name)) =
      (s.sums.filter (!·.isSimple)).map fun t => (t.name, t.variants.map Asdl.Variant.name)
  /-- So are the simple sums and their variants. -/
  simples_order :
    (m.simpleSums.map fun c => (c.name, c.variants.map Prod.fst)) =
      (s.sums.filter (·.isSimple)).map fun t => (t.name, t.variants.map Asdl.Variant.name)
  product : ∀ k p, m.products[k]? = some p → p.tag = 1000 + k ∧ p.tag ≤ 65535
  constructor : ∀ c ∈ m.compoundSums, ∀ i k, c.variants[i]? = some (.constructor k) →
    k.tag = i + 1 ∧ 1 ≤ k.tag ∧ k.tag ≤ 999
  shared : ∀ c ∈ m.compoundSums, ∀ v, .shared v ∈ c.variants →
    ∃ p, m.product? v.product = some p ∧ v.tag = p.tag
  distinct : ∀ c ∈ m.compoundSums,
    (c.variants.map Variant.tag).Nodup ∧ ∀ v ∈ c.variants, v.tag ≠ 0
  simple : ∀ c ∈ m.simpleSums, c.variants.map Prod.snd = List.range' 1 c.variants.length

/-- **Every model of a schema has its tags assigned**: products from 1000 on in
order, constructors by position, shared variants by product, and within a sum no
tag twice. -/
theorem ofSchema_tagsAssigned {s : Schema} {m : Model} (hm : Model.ofSchema s = .ok m) :
    TagsAssigned s m := by
  have h := ofSchema_eq_ok.mp hm
  refine ⟨?_, ?_, ?_, fun k p hp => h.product_tag hp, ?_, ?_, ?_, ?_⟩
  · exact map_eq_map (fun p q hq => (Scope.resolveProduct_eq_ok.mp hq).2.2.1) h.products
  · refine map_eq_map (fun t c hc => ?_) h.compoundSums
    rw [(Scope.resolveCompound_eq_ok.mp hc).2.2.2, Scope.resolveCompound_map_name hc]
  · rw [h.simpleSums, List.map_map]
    refine List.map_congr_left fun t _ => ?_
    simp only [Function.comp, Scope.resolveSimple, List.zipIdx_map_fst]
  · intro c hc i k hk
    obtain ⟨htag, hle⟩ := h.constructor_tag hc hk
    exact ⟨htag, by omega, hle⟩
  · intro c hc v hv
    obtain ⟨p, hp, hname, htag, -⟩ := h.exists_shared_product hc hv
    exact ⟨p, h.product?_eq_some.mpr ⟨hp, hname⟩, htag.symm⟩
  · intro c hc
    exact ⟨h.nodup_tags hc, fun v hv => Nat.ne_of_gt (h.variant_tag_bounds hc hv).1⟩
  · intro c hc
    rw [h.simpleSums] at hc
    obtain ⟨t, -, rfl⟩ := List.mem_map.mp hc
    rw [Scope.resolveSimple, List.zipIdx_map_snd, List.length_zipIdx]

/-- A module whose compound sum has constructors around a shared product that is
defined after it. -/
def sharingModule : Schema where
  name := "m"
  uses := [⟨["host"], ["Id"]⟩]
  definitions := [
    .sum ⟨"Op", [⟨"Add", [], none⟩, ⟨"Sub", [], none⟩], []⟩,
    .sum ⟨"Expr", [⟨"Call", [⟨"args", .named "Expr" .repeated⟩], none⟩,
      ⟨"Lit", [], some "Token"⟩, ⟨"Nil", [], none⟩], [⟨"at", .named "Id" .scalar⟩]⟩,
    .product ⟨"Span", [⟨"start", .named "int" .scalar⟩], []⟩,
    .product ⟨"Token", [⟨"span", .named "Span" .optional⟩], []⟩]

theorem sharingModule_tagsAssigned :
    ∃ m, Model.ofSchema sharingModule = .ok m ∧ TagsAssigned sharingModule m ∧
      m.compoundSums.map (fun c => c.variants.map Variant.tag) = [[1, 1001, 3]] := by
  have htags : (fun m : Model => m.compoundSums.map fun c => c.variants.map Variant.tag) <$>
      Model.ofSchema sharingModule = .ok [[1, 1001, 3]] := by rfl
  obtain ⟨m, hm, htags⟩ := map_eq_ok.mp htags
  exact ⟨m, hm, ofSchema_tagsAssigned hm, htags⟩

end Model

end Asdl
