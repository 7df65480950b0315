/-
Bases and shared variants say the same.

A variant of a compound sum may share a product, and a product lists the sums that
share it as its bases.  The list is collected from all sums before any of them is
resolved:

* `Model.CompoundSum.sharedProducts` — the products that a sum shares, in order;
* `Model.Scope.basesOf_eq` — the bases that are collected for a product, as a part of
  the sums of the schema;
* `Model.Resolves.bases_eq` — the same in the model;
* `Model.ofSchema_basesMatch` — hence the bases of a product and the shared variants
  of the sums determine each other.

Design notes: collecting adds a sum once for each of its variants that share the
product.  It is the check for a product shared twice by one sum which makes that at
most once, so the collected list is a filtered list and inherits its order.
-/
import Asdl.Proofs.HeaderNames

namespace Asdl

namespace Model

/-- The shared case that a variant is, if it is one. -/
def Variant.shared? : Variant → Option SharedCase
  | constructor _ => none
  | shared v => some v

namespace CompoundSum

/-- The products that the variants share, in order. -/
def sharedProducts (c : CompoundSum) : List String :=
  (c.variants.filterMap Variant.shared?).map SharedCase.product

/-- The variants that share a product. -/
def sharing (c : CompoundSum) (p : String) : List SharedCase :=
  (c.variants.filterMap Variant.shared?).filter (·.product == p)

theorem mem_sharedProducts {c : CompoundSum} {p : String} :
    p ∈ c.sharedProducts ↔ ∃ v : SharedCase, .shared v ∈ c.variants ∧ v.product = p := by
  rw [sharedProducts, List.mem_map]
  constructor
  · rintro ⟨v, hv, hp⟩
    obtain ⟨w, hw, hwv⟩ := List.mem_filterMap.mp hv
    cases w with
    | constructor k => cases hwv
    | shared u =>
      cases hwv
      exact ⟨v, hw, hp⟩
  · rintro ⟨v, hv, hp⟩
    exact ⟨v, List.mem_filterMap.mpr ⟨_, hv, rfl⟩, hp⟩

theorem length_sharing (c : CompoundSum) (p : String) :
    (c.sharing p).length = c.sharedProducts.count p := by
  rw [sharing, sharedProducts, List.count, List.countP_map, List.countP_eq_length_filter]
  rfl

end CompoundSum

/-! ### Bases of a schema -/

namespace Scope

/-- The products that a sum shares are those that its resolved form shares. -/
theorem sharedProducts_eq {sc : Scope} {t : Sum} {c : CompoundSum}
    (h : sc.resolveCompound t = .ok c) : c.sharedProducts = sharedBy t := by
  obtain ⟨-, hvs, -, -⟩ := resolveCompound_eq_ok.mp h
  have hshared : List.Forall₂ (fun p v => v.product = p)
      ((t.variants.zipIdx 1).filterMap fun v => v.1.shared)
      (c.variants.filterMap Variant.shared?) := by
    refine List.rel_filterMap ?_ (mapM_eq_ok.mp hvs)
    intro v w hw
    show Option.Rel _ v.1.shared w.shared?
    rcases resolveVariant_eq_ok.mp hw with ⟨p, hp, rfl⟩ | ⟨hp, fs, -, rfl⟩
    · rw [hp]
      exact .some rfl
    · rw [hp]
      exact .none
  -- variants are resolved with their numbers, which the products do not depend on
  have hzip : ((t.variants.zipIdx 1).filterMap fun v => v.1.shared) = sharedBy t := by
    have hfst :
        ((t.variants.zipIdx 1).map Prod.fst).filterMap Asdl.Variant.shared = sharedBy t := by
      rw [List.zipIdx_map_fst, sharedBy]
    rwa [List.filterMap_map] at hfst
  calc c.sharedProducts
      = ((t.variants.zipIdx 1).filterMap fun v => v.1.shared).map id :=
        map_eq_map (fun _ _ hv => hv) hshared
    _ = sharedBy t := by rw [List.map_id, hzip]

/-- What one sum adds to the bases of a product: itself, if it shares the product. -/
theorem added_bases {t : Sum} (h : (sharedBy t).Nodup) (p : String) :
    (((sharedBy t).map fun q => (q, t.name)).filter (·.1 == p)).map Prod.snd =
      if (sharedBy t).contains p then [t.name] else [] := by
  have hfilter : ((sharedBy t).map fun q => (q, t.name)).filter (·.1 == p) =
      ((sharedBy t).filter (· == p)).map fun q => (q, t.name) := by
    rw [List.filter_map]
    rfl
  have hconst : ∀ qs : List String, (qs.map fun q => (q, t.name)).map Prod.snd =
      List.replicate qs.length t.name := by
    intro qs
    rw [List.map_map, List.eq_replicate_iff]
    simp
  rw [hfilter, hconst, ← List.countP_eq_length_filter]
  change List.replicate ((sharedBy t).count p) t.name = _
  -- a sum names a product at most once, so it adds its own name once or not at all
  by_cases hp : p ∈ sharedBy t
  · rw [List.count_eq_one_of_mem h hp, if_pos (List.contains_iff_mem.mpr hp)]
    rfl
  · rw [List.count_eq_zero_of_not_mem hp, if_neg (by simpa using hp)]
    rfl

/-- **The bases of a product are the sums that share it**, each once and in order. -/
theorem basesOf_eq {s : Schema} (h : ∀ t ∈ s.sums, (sharedBy t).Nodup) (p : String) :
    (ofSchema s).basesOf p = (s.sums.filter fun t => (sharedBy t).contains p).map Sum.name := by
  rw [basesOf, ofSchema, NameTable.getD_find?_groups]
  revert h
  induction s.sums with
  | nil => exact fun _ => rfl
  | cons t ts ih =>
    intro h
    rw [List.flatMap_cons, List.filter_append, List.map_append,
      added_bases (h t List.mem_cons_self), ih fun u hu => h u (List.mem_cons_of_mem _ hu),
      List.filter_cons]
    by_cases hp : (sharedBy t).contains p = true
    · rw [if_pos hp, if_pos hp]
      rfl
    · rw [if_neg hp, if_neg hp]
      rfl

end Scope

/-! ### Bases of a model -/

namespace Resolves

variable {s : Schema} {m : Model}

theorem nodup_sharedBy (h : Resolves s m) {t : Sum} (ht : t ∈ s.sums) : (sharedBy t).Nodup :=
  (Scope.checkBases_eq_ok.mp (h.checkBases ht)).1

theorem nodup_sharedProducts (h : Resolves s m) {c : CompoundSum} (hc : c ∈ m.compoundSums) :
    c.sharedProducts.Nodup := by
  obtain ⟨t, ht, hres⟩ := h.exists_sum hc
  rw [Scope.sharedProducts_eq hres]
  exact h.nodup_sharedBy ht

/-- The bases of a product are the compound sums of the model that share it. -/
theorem bases_eq (h : Resolves s m) {p : Product} (hp : p ∈ m.products) :
    p.bases = (m.compoundSums.filter fun c => c.sharedProducts.contains p.name).map
      CompoundSum.name := by
  obtain ⟨q, -, hq⟩ := exists_mem_left h.products hp
  obtain ⟨-, -, hname, -, hbases⟩ := Scope.resolveProduct_eq_ok.mp hq
  -- only sums that are no mere enumerations can share anything
  have hcompound : (s.sums.filter fun t => (sharedBy t).contains p.name) =
      (s.sums.filter (!·.isSimple)).filter fun t => (sharedBy t).contains p.name := by
    rw [List.filter_filter]
    refine List.filter_congr fun t _ => ?_
    by_cases hshared : p.name ∈ sharedBy t
    · rw [Scope.not_isSimple_of_shared hshared]
      simp
    · simp [hshared]
  have hpairs : List.Forall₂ (fun t c => (Scope.ofSchema s).resolveCompound t = .ok c)
      ((s.sums.filter (!·.isSimple)).filter fun t => (sharedBy t).contains p.name)
      (m.compoundSums.filter fun c => c.sharedProducts.contains p.name) := by
    refine List.rel_filter (fun t c hc => ?_) h.compoundSums
    show (sharedBy t).contains p.name = true ↔ c.sharedProducts.contains p.name = true
    rw [Scope.sharedProducts_eq hc]
  have hnames : ∀ t c, (Scope.ofSchema s).resolveCompound t = .ok c → c.name = t.name :=
    fun t c hc => (Scope.resolveCompound_eq_ok.mp hc).2.2.2
  rw [hbases, ← hname, Scope.basesOf_eq fun t ht => h.nodup_sharedBy ht, hcompound]
  exact (map_eq_map hnames hpairs).symm

theorem mem_bases (h : Resolves s m) {p : Product} (hp : p ∈ m.products) {b : String} :
    b ∈ p.bases ↔ ∃ c ∈ m.compoundSums, c.name = b ∧ p.name ∈ c.sharedProducts := by
  rw [h.bases_eq hp, List.mem_map]
  simp only [List.mem_filter, List.contains_iff_mem]
  constructor
  · rintro ⟨c, ⟨hc, hshared⟩, hb⟩
    exact ⟨c, hc, hb, hshared⟩
  · rintro ⟨c, hc, hb, hshared⟩
    exact ⟨c, ⟨hc, hshared⟩, hb⟩

/-- Compound sums are definitions, in the same order. -/
theorem compoundSums_sublist (m : Model) :
    (m.compoundSums.map CompoundSum.name).Sublist (m.definitions.map Definition.name) := by
  rw [Model.compoundSums]
  induction m.definitions with
  | nil => exact .slnil
  | cons d ds ih =>
    cases d with
    | compoundSum c => exact ih.cons_cons _
    | simpleSum t => exact ih.cons _
    | product p => exact ih.cons _

theorem bases_sublist (h : Resolves s m) {p : Product} (hp : p ∈ m.products) :
    p.bases.Sublist (m.definitions.map Definition.name) := by
  rw [h.bases_eq hp]
  exact (List.filter_sublist.map _).trans (compoundSums_sublist m)

end Resolves

/-- The bases of products and the shared variants of sums in one model. -/
structure BasesMatch (m : Model) : Prop where
  /-- No base is listed twice. -/
  distinct : ∀ p ∈ m.products, p.bases.Nodup
  /-- Bases stand in the order of the module. -/
  ordered : ∀ p ∈ m.products, p.bases.Sublist (m.definitions.map Definition.name)
  /-- A name is a base iff it is a compound sum with a variant that shares the product. -/
  base_iff : ∀ n p, m.product? n = some p → ∀ b, b ∈ p.bases ↔
    ∃ c, m.compoundSum? b = some c ∧ ∃ v : SharedCase, .shared v ∈ c.variants ∧ v.product = n
  /-- Such a sum has exactly one such variant. -/
  once : ∀ n p, m.product? n = some p → ∀ b ∈ p.bases, ∀ c, m.compoundSum? b = some c →
    (c.sharing n).length = 1
  /-- Whatever a variant shares is a product that has the sum among its bases. -/
  product : ∀ b c, m.compoundSum? b = some c → ∀ v : SharedCase, .shared v ∈ c.variants →
    ∃ p, m.product? v.product = some p ∧ b ∈ p.bases

/-- **Bases and shared variants are inverse to each other** in every model of a schema. -/
theorem ofSchema_basesMatch {s : Schema} {m : Model} (hm : Model.ofSchema s = .ok m) :
    BasesMatch m := by
  have h := ofSchema_eq_ok.mp hm
  refine ⟨fun p hp => ?_, fun p hp => h.bases_sublist hp, ?_, ?_, ?_⟩
  · exact h.nodup_names.sublist (h.bases_sublist hp)
  · intro n p hp b
    obtain ⟨hmem, rfl⟩ := h.product?_eq_some.mp hp
    simp only [h.mem_bases hmem, h.compoundSum?_eq_some, CompoundSum.mem_sharedProducts, and_assoc]
  · intro n p hp b hb c hc
    obtain ⟨hmem, rfl⟩ := h.product?_eq_some.mp hp
    obtain ⟨c', hc', hname, hshared⟩ := (h.mem_bases hmem).mp hb
    -- one name is one sum
    rw [h.compoundSum?_eq_some.mpr ⟨hc', hname⟩] at hc
    cases hc
    rw [CompoundSum.length_sharing]
    exact List.count_eq_one_of_mem (h.nodup_sharedProducts hc') hshared
  · intro b c hc v hv
    obtain ⟨hmem, rfl⟩ := h.compoundSum?_eq_some.mp hc
    obtain ⟨p, hp, hname, -, hb⟩ := h.exists_shared_product hmem hv
    exact ⟨p, h.product?_eq_some.mpr ⟨hp, hname⟩, hb⟩

/-- A product between the two sums that share it, and one that nothing shares. -/
def sharedBetween : Schema where
  name := "m"
  uses := []
  definitions := [
    .sum ⟨"Stmt", [⟨"Mark", [], some "Token"⟩, ⟨"Skip", [], none⟩], []⟩,
    .product ⟨"Token", [⟨"span", .named "Span" .optional⟩], []⟩,
    .product ⟨"Span", [⟨"start", .named "int" .scalar⟩], []⟩,
    .sum ⟨"Expr", [⟨"Nil", [], none⟩, ⟨"Lit", [], some "Token"⟩], []⟩]

theorem sharedBetween_basesMatch :
    ∃ m, Model.ofSchema sharedBetween = .ok m ∧ BasesMatch m ∧
      (m.products.map fun p => (p.name, p.bases)) =
        [("Token", ["Stmt", "Expr"]), ("Span", [])] := by
  have hbases : (fun m : Model => m.products.map fun p => (p.name, p.bases)) <$>
      Model.ofSchema sharedBetween =
        .ok [("Token", ["Stmt", "Expr"]), ("Span", [])] := by rfl
  obtain ⟨m, hm, hbases⟩ := map_eq_ok.mp hbases
  exact ⟨m, hm, ofSchema_basesMatch hm, hbases⟩

end Model

end Asdl
