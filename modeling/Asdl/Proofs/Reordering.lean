/-
The order of definitions hardly matters.

A schema is checked and resolved from its first definition to its last, and what is
reported of a bad one depends on that order.  Whether it has a model does not, and
neither do the definitions of the model, apart from what counts the products:

* `Schema.Reordered` — schemas that differ in the order of their definitions only;
* `Schema.Acceptable.reordered` — no clause of acceptance depends on that order;
* `Model.Definition.Alike` — definitions that differ in the tags of products and in
  the order of their bases only;
* `Model.Scope.resolve_alike` — what one step makes of a definition in the scopes of
  both schemas;
* `Model.ofSchema_reordered` — both schemas have a model or none, and each name finds
  alike definitions in them.

Design notes: types and fields are resolved by kinds and imports, which both scopes
agree on, so fields come out equal and not merely alike.
-/
import Asdl.Proofs.Acceptance

namespace Asdl

/-- Two lists that stand beside a third stand beside each other. -/
theorem forall₂_of_common {α β γ : Type} {R : α → β → Prop} {S : α → γ → Prop}
    {T : β → γ → Prop} (hT : ∀ x y z, R x y → S x z → T y z) {xs : List α} {ys : List β}
    {zs : List γ} (hR : List.Forall₂ R xs ys) (hS : List.Forall₂ S xs zs) :
    List.Forall₂ T ys zs := by
  induction hR generalizing zs with
  | nil =>
    cases hS
    exact .nil
  | cons hxy _ ih =>
    cases hS with
    | cons hxz hrest => exact .cons (hT _ _ _ hxy hxz) (ih hrest)

/-! ### Schemas -/

namespace Schema

/-- Schemas with the same imports and definitions, the latter in any order. -/
structure Reordered (s t : Schema) : Prop where
  name : s.name = t.name
  uses : s.uses = t.uses
  definitions : s.definitions.Perm t.definitions

namespace Reordered

variable {s t : Schema}

theorem symm (h : Reordered s t) : Reordered t s := ⟨h.name.symm, h.uses.symm, h.definitions.symm⟩

theorem externals (h : Reordered s t) : s.externals = t.externals := by
  rw [Schema.externals, h.uses]
  rfl

theorem sums (h : Reordered s t) : s.sums.Perm t.sums := h.definitions.filterMap _

theorem products (h : Reordered s t) : s.products.Perm t.products := h.definitions.filterMap _

theorem derivedNames (h : Reordered s t) : s.derivedNames.Perm t.derivedNames :=
  h.sums.flatMap_right _

theorem knows (h : Reordered s t) {n : String} (hn : s.Knows n) : t.Knows n := by
  rcases hn with hn | hn | ⟨d, hd, hn⟩
  · exact .inl hn
  · exact .inr (.inl (h.externals ▸ hn))
  · exact .inr (.inr ⟨d, h.definitions.mem_iff.mp hd, hn⟩)

theorem usable (h : Reordered s t) {e : TypeExpr} (he : s.Usable e) : t.Usable e := by
  cases he with
  | scalar hn => exact .scalar (h.knows hn)
  | optional hn => exact .optional (h.knows hn)
  | repeated hn => exact .repeated (h.knows hn)
  | map hk hv => exact .map (h.knows hk) (h.knows hv)

end Reordered

/-- **Acceptance does not depend on the order of definitions.** -/
theorem Acceptable.reordered {s t : Schema} (h : s.Acceptable) (hst : s.Reordered t) :
    t.Acceptable := by
  have hmem : ∀ {d}, d ∈ t.definitions → d ∈ s.definitions := hst.definitions.mem_iff.mpr
  have hsum : ∀ {u}, u ∈ t.sums → u ∈ s.sums := hst.sums.mem_iff.mpr
  have hproduct : ∀ {p}, p ∈ t.products → p ∈ s.products := hst.products.mem_iff.mpr
  -- every clause quantifies over definitions or counts names, so the order never matters
  exact {
    distinct := (hst.definitions.map Definition.name).nodup_iff.mp h.distinct
    unreserved := fun d hd => hst.externals ▸ h.unreserved d (hmem hd)
    derived_distinct := hst.derivedNames.nodup_iff.mp h.derived_distinct
    derived_new := fun d hd hn =>
      h.derived_new d (hmem hd) (hst.derivedNames.mem_iff.mpr hn)
    no_array_size := fun u hu => h.no_array_size u (hsum hu)
    variants := fun u hu => h.variants u (hsum hu)
    product_members := fun p hp => h.product_members p (hproduct hp)
    variant_members := fun u hu => h.variant_members u (hsum hu)
    product_count := hst.products.length_eq ▸ h.product_count
    shared := by
      intro u hu v hv n hn
      obtain ⟨p, hp, hname⟩ := h.shared u (hsum hu) v hv n hn
      exact ⟨p, hst.products.mem_iff.mp hp, hname⟩
    shared_once := fun u hu => h.shared_once u (hsum hu)
    compound_size := fun u hu => h.compound_size u (hsum hu)
    product_types := fun p hp f hf => hst.usable (h.product_types p (hproduct hp) f hf)
    variant_types := fun u hu v hv hnone f hf =>
      hst.usable (h.variant_types u (hsum hu) v hv hnone f hf)
    attribute_types := fun u hu f hf => hst.usable (h.attribute_types u (hsum hu) f hf) }

end Schema

namespace Model

/-! ### Alike definitions -/

/-- Variants that are equal but for the tag of a product. -/
inductive Variant.Alike : Variant → Variant → Prop where
  | constructor (c : Constructor) : Alike (.constructor c) (.constructor c)
  | shared (name product : String) (tag tag' : Nat) :
      Alike (.shared ⟨name, tag, product⟩) (.shared ⟨name, tag', product⟩)

/-- Definitions that are equal but for the tags of products and the order of bases. -/
inductive Definition.Alike : Definition → Definition → Prop where
  | simpleSum (c : SimpleSum) : Alike (.simpleSum c) (.simpleSum c)
  | compoundSum (name : String) (attributes : List Field) {vs ws : List Variant}
      (h : List.Forall₂ Variant.Alike vs ws) :
      Alike (.compoundSum ⟨name, vs, attributes⟩) (.compoundSum ⟨name, ws, attributes⟩)
  | product (name : String) (tag tag' : Nat) (fields attributes : List Field)
      {bases bases' : List String} (h : bases.Perm bases') :
      Alike (.product ⟨name, tag, fields, attributes, bases⟩)
        (.product ⟨name, tag', fields, attributes, bases'⟩)

namespace Scope

/-- Scopes that are equal but for the tags of products and the order of bases. -/
structure Alike (a b : Scope) : Prop where
  externals : a.externals = b.externals
  kinds : ∀ n, a.kinds.find? n = b.kinds.find? n
  bases : ∀ p, (a.basesOf p).Perm (b.basesOf p)

/-! ### Types and fields -/

section Steps

variable {a b : Scope} (h : Alike a b)
include h

theorem resolveName_alike (owner field n : String) :
    a.resolveName owner field n = b.resolveName owner field n := by
  rw [resolveName, resolveName, h.externals, h.kinds]

theorem resolveOperand_alike (owner field role : String) (e : TypeExpr) :
    a.resolveOperand owner field role e = b.resolveOperand owner field role e := by
  unfold resolveOperand
  split
  · exact resolveName_alike h owner field _
  · rfl

theorem resolveType_alike (owner field : String) (e : TypeExpr) :
    a.resolveType owner field e = b.resolveType owner field e := by
  cases e with
  | named n multiplicity => rw [resolveType, resolveType, resolveName_alike h]
  | map k v => rw [resolveType, resolveType, resolveOperand_alike h, resolveOperand_alike h]

theorem resolveFields_alike (owner : String) (fs : List Asdl.Field) :
    a.resolveFields owner fs = b.resolveFields owner fs := by
  have hfield : a.resolveField owner = b.resolveField owner := by
    funext f
    rw [resolveField, resolveField, resolveType_alike h]
  rw [resolveFields, resolveFields, hfield]

/-! ### Definitions -/

theorem resolveVariant_alike {v : Asdl.Variant × Nat} {w w' : Variant}
    (hw : a.resolveVariant v = .ok w) (hw' : b.resolveVariant v = .ok w') : w.Alike w' := by
  rcases resolveVariant_eq_ok.mp hw with ⟨p, hp, rfl⟩ | ⟨hnone, fs, hfs, rfl⟩
  · rcases resolveVariant_eq_ok.mp hw' with ⟨p', hp', rfl⟩ | ⟨hnone, -⟩
    · rw [hp] at hp'
      cases hp'
      exact .shared _ _ _ _
    · rw [hp] at hnone
      cases hnone
  · rcases resolveVariant_eq_ok.mp hw' with ⟨p', hp', -⟩ | ⟨-, fs', hfs', rfl⟩
    · rw [hnone] at hp'
      cases hp'
    · rw [resolveFields_alike h, hfs'] at hfs
      cases hfs
      exact .constructor _

theorem resolveCompound_alike {t : Sum} {c c' : CompoundSum} (hc : a.resolveCompound t = .ok c)
    (hc' : b.resolveCompound t = .ok c') :
    (Definition.compoundSum c).Alike (.compoundSum c') := by
  obtain ⟨-, hvs, has, hname⟩ := resolveCompound_eq_ok.mp hc
  obtain ⟨-, hvs', has', hname'⟩ := resolveCompound_eq_ok.mp hc'
  rw [resolveFields_alike h, has'] at has
  obtain ⟨_, vs, as⟩ := c
  obtain ⟨_, vs', as'⟩ := c'
  cases has
  cases hname
  cases hname'
  refine .compoundSum _ _ (forall₂_of_common ?_ (mapM_eq_ok.mp hvs) (mapM_eq_ok.mp hvs'))
  exact fun _ _ _ hw hw' => resolveVariant_alike h hw hw'

theorem resolveProduct_alike {p : Asdl.Product} {q q' : Product} (hq : a.resolveProduct p = .ok q)
    (hq' : b.resolveProduct p = .ok q') : (Definition.product q).Alike (.product q') := by
  obtain ⟨hfs, has, hname, -, hbases⟩ := resolveProduct_eq_ok.mp hq
  obtain ⟨hfs', has', hname', -, hbases'⟩ := resolveProduct_eq_ok.mp hq'
  rw [resolveFields_alike h, hfs'] at hfs
  rw [resolveFields_alike h, has'] at has
  obtain ⟨_, tag, fs, as, bases⟩ := q
  obtain ⟨_, tag', fs', as', bases'⟩ := q'
  cases hfs
  cases has
  cases hname
  cases hname'
  cases hbases
  cases hbases'
  exact .product _ _ _ _ _ (h.bases p.name)

/-- A definition is resolved to alike definitions in alike scopes. -/
theorem resolve_alike {d : Asdl.Definition} {r r' : Definition} (hr : a.resolve d = .ok r)
    (hr' : b.resolve d = .ok r') : r.Alike r' := by
  cases d with
  | product p =>
    obtain ⟨q, hq, rfl⟩ := map_eq_ok.mp hr
    obtain ⟨q', hq', rfl⟩ := map_eq_ok.mp hr'
    exact resolveProduct_alike h hq hq'
  | sum t =>
    rw [resolve] at hr hr'
    cases ht : t.isSimple with
    | true =>
      rw [if_pos ht] at hr hr'
      cases hr
      cases hr'
      exact .simpleSum _
    | false =>
      rw [if_neg (by simp [ht])] at hr hr'
      obtain ⟨c, hc, rfl⟩ := map_eq_ok.mp hr
      obtain ⟨c', hc', rfl⟩ := map_eq_ok.mp hr'
      exact resolveCompound_alike h hc hc'

end Steps

/-- The scopes of both schemas, provided that names are unique. -/
theorem ofSchema_alike {s t : Schema} (hst : s.Reordered t) (hs : s.checkNames = .ok ())
    (ht : t.checkNames = .ok ()) : (ofSchema s).Alike (ofSchema t) where
  externals := hst.externals
  kinds := by
    intro n
    refine Option.ext fun k => ?_
    rw [kinds_find?_eq_some hs, kinds_find?_eq_some ht]
    simp only [hst.definitions.mem_iff]
  bases := by
    intro p
    simp only [basesOf, ofSchema, NameTable.getD_find?_groups]
    exact ((hst.sums.flatMap_right _).filter _).map _

end Scope

/-! ### Models -/

namespace Resolves

variable {s t : Schema} {m m' : Model}

theorem exists_reordered (h : Resolves s m) (hst : s.Reordered t) : ∃ m', Resolves t m' := by
  -- the two runs may stop at different defects, so they are compared by acceptance
  have hs : s.Acceptable := .of_check h.check (exists_mapM_eq_ok.mp ⟨_, h.definitions⟩)
  have ht : t.Acceptable := hs.reordered hst
  obtain ⟨ds, hds⟩ := exists_mapM_eq_ok.mpr ht.exists_resolve
  exact ⟨⟨t.name, t.externals, ds, _, rfl⟩, ht.check, rfl, rfl, hds⟩

/-- What a name finds in one model, it finds alike in the other. -/
theorem exists_find?_reordered (h : Resolves s m) (h' : Resolves t m') (hst : s.Reordered t)
    {n : String} {r : Definition} (hr : m.find? n = some r) :
    ∃ r', m'.find? n = some r' ∧ r.Alike r' := by
  obtain ⟨hmem, hname⟩ := h.find?_eq_some.mp hr
  obtain ⟨d, hd, hres⟩ := exists_mem_left (mapM_eq_ok.mp h.definitions) hmem
  -- the same definition of the other schema
  have hd' : d ∈ t.definitions := hst.definitions.mem_iff.mp hd
  obtain ⟨r', hmem', hres'⟩ := exists_mem_right (mapM_eq_ok.mp h'.definitions) hd'
  have hname' : r'.name = n := by
    rw [Scope.resolve_name hres', ← Scope.resolve_name hres, hname]
  have hscopes := Scope.ofSchema_alike hst h.checkNames h'.checkNames
  exact ⟨r', h'.find?_eq_some.mpr ⟨hmem', hname'⟩, Scope.resolve_alike hscopes hres hres'⟩

theorem find?_reordered (h : Resolves s m) (h' : Resolves t m') (hst : s.Reordered t) (n : String) :
    Option.Rel Definition.Alike (m.find? n) (m'.find? n) := by
  cases hr : m.find? n with
  | some r =>
    obtain ⟨r', hr', halike⟩ := h.exists_find?_reordered h' hst hr
    rw [hr']
    exact .some halike
  | none =>
    cases hr' : m'.find? n with
    | none => exact .none
    | some r' =>
      -- then the name is found in the first model too
      obtain ⟨r, hr₂, -⟩ := h'.exists_find?_reordered h hst.symm hr'
      rw [hr] at hr₂
      cases hr₂

end Resolves

/-- **The order of definitions decides neither acceptance nor what a name stands for**,
apart from the tags of products and the order of their bases. -/
theorem ofSchema_reordered {s t : Schema} (hst : s.Reordered t) :
    ((∃ m, Model.ofSchema s = .ok m) ↔ ∃ m, Model.ofSchema t = .ok m) ∧
      ∀ m m', Model.ofSchema s = .ok m → Model.ofSchema t = .ok m' →
        ∀ n, Option.Rel Definition.Alike (m.find? n) (m'.find? n) := by
  simp only [ofSchema_eq_ok]
  refine ⟨⟨?_, ?_⟩, fun m m' hm hm' => hm.find?_reordered hm' hst⟩
  · rintro ⟨m, hm⟩
    exact hm.exists_reordered hst
  · rintro ⟨m, hm⟩
    exact hm.exists_reordered hst.symm

/-- A module with a product that two sums share. -/
def sharedTwice : Schema where
  name := "m"
  uses := [⟨["host"], ["Id"]⟩]
  definitions := [
    .sum ⟨"Expr", [⟨"Lit", [], some "Token"⟩, ⟨"Nil", [], none⟩], [⟨"at", .named "Id" .scalar⟩]⟩,
    .sum ⟨"Stmt", [⟨"Run", [⟨"body", .named "Expr" .repeated⟩], none⟩,
      ⟨"Mark", [], some "Token"⟩], []⟩,
    .product ⟨"Span", [⟨"start", .named "int" .scalar⟩], []⟩,
    .product ⟨"Token", [⟨"span", .named "Span" .optional⟩], []⟩]

/-- The same module from its last definition to its first. -/
def sharedTwiceBackwards : Schema :=
  { sharedTwice with definitions := sharedTwice.definitions.reverse }

theorem sharedTwice_reordered :
    ∃ m m', Model.ofSchema sharedTwice = .ok m ∧ Model.ofSchema sharedTwiceBackwards = .ok m' ∧
      (m.product? "Token").map (fun p => (p.tag, p.bases)) = some (1001, ["Expr", "Stmt"]) ∧
      (m'.product? "Token").map (fun p => (p.tag, p.bases)) = some (1000, ["Stmt", "Expr"]) ∧
      ∀ n, Option.Rel Definition.Alike (m.find? n) (m'.find? n) := by
  have hst : sharedTwice.Reordered sharedTwiceBackwards := ⟨rfl, rfl, (List.reverse_perm _).symm⟩
  let token (m : Model) := (m.product? "Token").map fun p => (p.tag, p.bases)
  have hm : token <$> Model.ofSchema sharedTwice = .ok (some (1001, ["Expr", "Stmt"])) := by rfl
  have hm' : token <$> Model.ofSchema sharedTwiceBackwards =
      .ok (some (1000, ["Stmt", "Expr"])) := by rfl
  obtain ⟨m, hm, htoken⟩ := map_eq_ok.mp hm
  obtain ⟨m', hm', htoken'⟩ := map_eq_ok.mp hm'
  exact ⟨m, m', hm, hm', htoken, htoken', (ofSchema_reordered hst).2 m m' hm hm'⟩

end Model

end Asdl
