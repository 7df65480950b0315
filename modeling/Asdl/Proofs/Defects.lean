/-
Every error names a defect of the schema.

The checks and the resolution of a schema stop at the first defect and report it with
the names of what they were looking at.  Here is what each report says of the schema:

* `Schema.Owns`, `Schema.IsClass` — whose fields and members a report speaks of;
* `Schema.Exhibits` — the defect that an error stands for, kind by kind;
* `checkDistinct_eq_error`, `Schema.claim_eq_error` — where the walks stop;
* `Schema.exhibits_of_check`, `Model.Scope.exhibits_of_resolve` — what is reported
  before and during the resolution of definitions;
* `Model.ofSchema_reportsDefect` — every report is true, and a schema that has a model
  exhibits nothing that could be reported.

Design notes: a walk may stop because of a name it met before it came to the list at
hand, so its lemma speaks of the table it started with; only for the empty table is the
defect one of the list alone.  Resolution goes by tables of names, which say what the
schema says because the names of definitions were checked first.
-/
import Asdl.Proofs.Acceptance
import Mathlib.Data.List.Duplicate

namespace Asdl

/-! ### Defects -/

namespace TypeExpr

/-- The names in a type. -/
def mentions : TypeExpr → List String
  | named n _ => [n]
  | map key value => key.mentions ++ value.mentions

/-- Why no member can have a type, in the words of the report. -/
inductive Unsupported : TypeExpr → String → Prop where
  | marked (n : String) : Unsupported (.named n .map) "map multiplicity on a named type"
  | key {k v : TypeExpr} (h : ∀ n, k ≠ .named n .scalar) :
      Unsupported (.map k v) "map key must be a plain named type"
  | value {k v : TypeExpr} (h : ∀ n, v ≠ .named n .scalar) :
      Unsupported (.map k v) "map value must be a plain named type"

end TypeExpr

/-- The names that are derived from a sum. -/
inductive Sum.Derives (t : Sum) : String → Prop where
  | type : Derives t (t.name ++ "_t")
  | enumeration : Derives t (t.name ++ "_e")
  | integers : Derives t (t.name ++ "_i")
  | function : Derives t (t.name ++ "_str")
  | cls {v : Variant} (hsimple : t.isSimple = false) (hv : v ∈ t.variants)
      (hshared : v.shared = none) : Derives t (t.name ++ "__" ++ v.name)

namespace Schema

variable {s : Schema}

/-- A field or an attribute, under the name of the product, the variant with a class of
its own, or the sum that has it. -/
inductive Owns (s : Schema) : String → Field → Prop where
  | product {p : Product} {f : Field} (hp : p ∈ s.products) (hf : f ∈ p.fields ++ p.attributes) :
      Owns s p.name f
  | variant {t : Sum} {v : Variant} {f : Field} (ht : t ∈ s.sums) (hv : v ∈ t.variants)
      (hshared : v.shared = none) (hf : f ∈ v.fields) : Owns s v.name f
  | sum {t : Sum} {f : Field} (ht : t ∈ s.sums) (hf : f ∈ t.attributes) : Owns s t.name f

/-- The members of a class, under the name of the product or the variant. -/
inductive IsClass (s : Schema) : String → List Field → Prop where
  | product {p : Product} (hp : p ∈ s.products) : IsClass s p.name (p.fields ++ p.attributes)
  | variant {t : Sum} {v : Variant} (ht : t ∈ s.sums) (hv : v ∈ t.variants)
      (hshared : v.shared = none) : IsClass s v.name (v.fields ++ t.attributes)

/-- The schema has the defect that an error names.  There is none for a text that could
not be read. -/
inductive Exhibits (s : Schema) : SchemaError → Prop where
  | unknownType {owner n : String} {f : Field} (hf : s.Owns owner f) (hn : n ∈ f.type.mentions)
      (h : ¬ s.Knows n) : Exhibits s (.unknownType n f.name owner)
  | unsupportedFieldType {owner message : String} {f : Field} (hf : s.Owns owner f)
      (h : f.type.Unsupported message) : Exhibits s (.unsupportedFieldType f.name owner message)
  | duplicateBase {t : Sum} {p : Product} (ht : t ∈ s.sums) (hp : p ∈ s.products)
      (h : List.Duplicate p.name (t.variants.filterMap Variant.shared)) :
      Exhibits s (.duplicateBase t.name p.name)
  | sharedCaseNotProduct {t : Sum} {v : Variant} {n : String} (ht : t ∈ s.sums)
      (hv : v ∈ t.variants) (hn : v.shared = some n) (h : ∀ p ∈ s.products, p.name ≠ n) :
      Exhibits s (.sharedCaseNotProduct t.name v.name n)
  | duplicateDefinition {n : String} (h : List.Duplicate n (s.definitions.map Definition.name)) :
      Exhibits s (.duplicateDefinition n)
  | emptySum {t : Sum} (ht : t ∈ s.sums) (h : t.variants = []) : Exhibits s (.emptySum t.name)
  | duplicateVariant {t : Sum} {n : String} (ht : t ∈ s.sums)
      (h : List.Duplicate n (t.variants.map Variant.name)) :
      Exhibits s (.duplicateVariant t.name n)
  | duplicateField {owner n : String} {members : List Field} (hc : s.IsClass owner members)
      (h : List.Duplicate n (members.map Field.name)) : Exhibits s (.duplicateField owner n)
  | tagField {owner : String} {members : List Field} (hc : s.IsClass owner members)
      (h : "tag" ∈ members.map Field.name) : Exhibits s (.duplicateField owner "tag")
  | reservedName {d : Definition} (hd : d ∈ s.definitions)
      (h : (∃ p : Primitive, p.name = d.name) ∨ d.name = "map" ∨ d.name ∈ s.externals) :
      Exhibits s (.reservedName d.name)
  | tagSpaceOverflow {t : Sum} (ht : t ∈ s.sums) (hcompound : t.isSimple = false)
      (h : 1000 ≤ t.variants.length) : Exhibits s (.tagSpaceOverflow t.name t.variants.length)
  | productTagOverflow {p : Product} (h : s.products[64536]? = some p) :
      Exhibits s (.productTagOverflow p.name 65536)
  | nameClash {t : Sum} {n : String} (ht : t ∈ s.sums) (hn : t.Derives n)
      (h : List.Duplicate n s.derivedNames ∨ ∃ d ∈ s.definitions, d.name = n) :
      Exhibits s (.nameClash n t.name)
  | arraySize {t : Sum} {v : Variant} (ht : t ∈ s.sums) (hsimple : t.isSimple = true)
      (hv : v ∈ t.variants) (h : v.name = "ARRAY_SIZE") :
      Exhibits s (.nameClash "ARRAY_SIZE" t.name)

end Schema

/-! ### Where a walk stops -/

section Walks

variable {α β ε : Type}

theorem forM_eq_error {f : α → Except ε Unit} {xs : List α} {e : ε} (h : xs.forM f = .error e) :
    ∃ x ∈ xs, f x = .error e := by
  induction xs with
  | nil => cases h
  | cons x xs ih =>
    rcases bind_eq_error.mp h with hx | ⟨_, -, hxs⟩
    · exact ⟨x, List.mem_cons_self, hx⟩
    · obtain ⟨y, hy, he⟩ := ih hxs
      exact ⟨y, List.mem_cons_of_mem _ hy, he⟩

theorem mapM_eq_error {f : α → Except ε β} {xs : List α} {e : ε} (h : xs.mapM f = .error e) :
    ∃ x ∈ xs, f x = .error e := by
  induction xs with
  | nil => cases h
  | cons x xs ih =>
    rw [List.mapM_cons] at h
    rcases bind_eq_error.mp h with hx | ⟨_, -, h⟩
    · exact ⟨x, List.mem_cons_self, hx⟩
    · rcases bind_eq_error.mp h with hxs | ⟨_, -, h⟩
      · obtain ⟨y, hy, he⟩ := ih hxs
        exact ⟨y, List.mem_cons_of_mem _ hy, he⟩
      · cases h

theorem foldlM_eq_error {f : β → α → Except ε β} {xs : List α} {b : β} {e : ε}
    (h : xs.foldlM f b = .error e) :
    ∃ before x after c, xs = before ++ x :: after ∧ before.foldlM f b = .ok c ∧
      f c x = .error e := by
  induction xs generalizing b with
  | nil => cases h
  | cons x xs ih =>
    rw [List.foldlM_cons] at h
    rcases bind_eq_error.mp h with hx | ⟨c, hc, hxs⟩
    · exact ⟨[], x, xs, b, rfl, rfl, hx⟩
    · obtain ⟨before, y, after, d, rfl, hd, he⟩ := ih hxs
      refine ⟨x :: before, y, after, d, rfl, ?_, he⟩
      rw [List.foldlM_cons]
      exact bind_eq_ok.mpr ⟨c, hc, hd⟩

theorem map_eq_error {x : Except ε α} {f : α → β} {e : ε} : f <$> x = .error e ↔ x = .error e := by
  cases x with
  | error e' => simp [Functor.map, Except.map]
  | ok a => simp [Functor.map, Except.map]

theorem refuseIf_eq_error {c : Bool} {e e' : ε} :
    refuseIf c e = .error e' ↔ c = true ∧ e = e' := by
  cases c with
  | false => simp [refuseIf]
  | true => simp [refuseIf]

variable {name : α → String} {repeated : α → ε} {check : α → Except ε Unit}

theorem checkDistinctFrom_eq_error {seen : NameTable Unit} {xs : List α} {e : ε}
    (h : checkDistinctFrom name repeated check seen xs = .error e) :
    (∃ x ∈ xs, check x = .error e) ∨
      ∃ x ∈ xs, repeated x = e ∧ (seen.contains (name x) = true ∨
        List.Duplicate (name x) (xs.map name) ∧ ∃ y ∈ xs, name y = name x ∧ check y = .ok ()) := by
  induction xs generalizing seen with
  | nil => cases h
  | cons x xs ih =>
    rw [checkDistinctFrom] at h
    split at h
    · next hseen =>
      cases h
      exact .inr ⟨x, List.mem_cons_self, rfl, .inl hseen⟩
    · split at h
      · next hx =>
        cases h
        exact .inl ⟨x, List.mem_cons_self, hx⟩
      · next hx =>
        rcases ih h with ⟨y, hy, he⟩ | ⟨y, hy, he, hseen | ⟨hdup, z, hz, hzy⟩⟩
        · exact .inl ⟨y, List.mem_cons_of_mem _ hy, he⟩
        · refine .inr ⟨y, List.mem_cons_of_mem _ hy, he, ?_⟩
          -- a name that is seen now was seen before or is the one just met
          rw [NameTable.contains, NameTable.find?_insert] at hseen
          split at hseen
          · next hname =>
            refine .inr ⟨?_, x, List.mem_cons_self, hname, hx⟩
            rw [List.map_cons, hname]
            exact List.Mem.duplicate_cons_self (List.mem_map_of_mem hy)
          · exact .inl hseen
        · exact .inr ⟨y, List.mem_cons_of_mem _ hy, he,
            .inr ⟨hdup.duplicate_cons _, z, List.mem_cons_of_mem _ hz, hzy⟩⟩

/-- **The walk stops** at a thing that does not pass, or at one whose name is repeated
after another has passed with it. -/
theorem checkDistinct_eq_error {xs : List α} {e : ε}
    (h : checkDistinct name repeated check xs = .error e) :
    (∃ x ∈ xs, check x = .error e) ∨
      ∃ x ∈ xs, repeated x = e ∧ List.Duplicate (name x) (xs.map name) ∧
        ∃ y ∈ xs, name y = name x ∧ check y = .ok () := by
  rcases checkDistinctFrom_eq_error h with hx | ⟨x, hx, he, hseen | hdup⟩
  · exact .inl hx
  · rw [NameTable.contains, NameTable.find?_empty] at hseen
    cases hseen
  · exact .inr ⟨x, hx, he, hdup⟩

theorem duplicate_append {x : α} {xs ys : List α} (hx : x ∈ xs) (hy : x ∈ ys) :
    List.Duplicate x (xs ++ ys) :=
  List.duplicate_iff_sublist.mpr
    ((List.singleton_sublist.mpr hx).append (List.singleton_sublist.mpr hy))

end Walks

/-! ### Names of definitions and generated names -/

theorem Sum.derives_iff {t : Sum} {n : String} : t.Derives n ↔ n ∈ t.generatedNames := by
  rw [generatedNames, List.mem_append]
  constructor
  · -- four names come with any sum, the classes with a compound one only
    rintro (_ | _ | _ | _ | ⟨hsimple, hv, hshared⟩)
    · exact .inl (by simp [typeName])
    · exact .inl (by simp [enumName])
    · exact .inl (by simp [intsName])
    · exact .inl (by simp [strName])
    · rw [if_neg (by simp [hsimple])]
      exact .inr (List.mem_map.mpr ⟨_, List.mem_filter.mpr ⟨hv, by simp [hshared]⟩, rfl⟩)
  · rintro (hn | hn)
    · simp only [List.mem_cons, List.not_mem_nil, or_false] at hn
      rcases hn with rfl | rfl | rfl | rfl
      · exact .type
      · exact .enumeration
      · exact .integers
      · exact .function
    · split at hn
      · cases hn
      · next hsimple =>
        obtain ⟨v, hv, rfl⟩ := List.mem_map.mp hn
        obtain ⟨hv, hshared⟩ := List.mem_filter.mp hv
        exact .cls (by simpa using hsimple) hv (by simpa using hshared)

namespace Schema

variable {s : Schema} {e : SchemaError}

theorem isReserved_eq_true {n : String} :
    s.isReserved n = true ↔ (∃ p : Primitive, p.name = n) ∨ n = "map" ∨ n ∈ s.externals := by
  rw [isReserved, Bool.or_eq_true, Bool.or_eq_true, Primitive.isSome_ofName?, beq_iff_eq,
    List.contains_iff_mem, or_assoc]
  rfl

theorem exhibits_of_checkNames (h : s.checkNames = .error e) : s.Exhibits e := by
  rcases checkDistinct_eq_error h with ⟨d, hd, he⟩ | ⟨d, hd, rfl, hdup, -⟩
  · obtain ⟨hreserved, rfl⟩ := refuseIf_eq_error.mp he
    exact .reservedName hd (isReserved_eq_true.mp hreserved)
  · exact .duplicateDefinition hdup

/-- A name that is refused was taken before, by the table or earlier in the list. -/
theorem claim_eq_error {owner : String} {taken : NameTable String} {names : List String}
    (h : claim owner taken names = .error e) :
    ∃ n other, e = .nameClash n other ∧ n ∈ names ∧
      (taken.find? n = some other ∨ other = owner ∧ List.Duplicate n names) := by
  induction names generalizing taken with
  | nil => cases h
  | cons m names ih =>
    rw [claim] at h
    split at h
    · next other hm =>
      cases h
      exact ⟨m, other, rfl, List.mem_cons_self, .inl hm⟩
    · obtain ⟨n, other, rfl, hn, htaken | ⟨rfl, hdup⟩⟩ := ih h
      · refine ⟨n, other, rfl, List.mem_cons_of_mem _ hn, ?_⟩
        rw [NameTable.find?_insert] at htaken
        split at htaken
        · -- taken by the claim of `m` just now, so the name is there twice
          next hmn =>
          cases htaken
          rw [hmn]
          exact .inr ⟨rfl, List.Mem.duplicate_cons_self hn⟩
        · exact .inl htaken
      · exact ⟨n, other, rfl, List.mem_cons_of_mem _ hn, .inr ⟨rfl, hdup.duplicate_cons _⟩⟩

/-- Whoever stands in the table of claimed names has generated the name. -/
theorem owner_of_claimedAll {taken : NameTable String} {ds : List Definition} {n owner : String}
    (h : (claimedAll taken ds).find? n = some owner) :
    (∃ d ∈ ds, d.name = owner ∧ n ∈ d.generatedNames) ∨ taken.find? n = some owner := by
  induction ds generalizing taken with
  | nil => exact .inr h
  | cons d ds ih =>
    have hlater : (claimedAll (claimed d.name taken d.generatedNames) ds).find? n = some owner := h
    rcases ih hlater with ⟨x, hx, hname, hn⟩ | h
    · exact .inl ⟨x, List.mem_cons_of_mem _ hx, hname, hn⟩
    · rw [find?_claimed] at h
      split at h
      · next hn =>
        cases h
        exact .inl ⟨d, List.mem_cons_self, rfl, hn⟩
      · exact .inr h

theorem exhibits_of_nameClash {d : Definition} {n : String} (hd : d ∈ s.definitions)
    (hn : n ∈ d.generatedNames)
    (h : List.Duplicate n s.generatedNames ∨ ∃ x ∈ s.definitions, x.name = n) :
    s.Exhibits (.nameClash n d.name) := by
  rw [generatedNames_eq_derivedNames] at h
  cases d with
  | sum t => exact .nameClash (mem_sums.mpr hd) (Sum.derives_iff.mpr hn) h
  | product p => cases hn

theorem exhibits_of_claimDefinition {before after : List Definition} {d : Definition}
    (hds : s.definitions = before ++ d :: after)
    (h : claimDefinition (claimedAll .empty before) d = .error e) : s.Exhibits e := by
  have hd : d ∈ s.definitions := by simp [hds]
  have hnames : s.generatedNames = before.flatMap Definition.generatedNames
      ++ (d.generatedNames ++ after.flatMap Definition.generatedNames) := by
    rw [generatedNames, hds, List.flatMap_append, List.flatMap_cons]
  rw [claimDefinition] at h
  -- the array size is looked at before any name is claimed
  split at h
  · next hhides =>
    cases h
    cases d with
    | sum t =>
      simp only [hidesArraySize, Bool.and_eq_true, List.any_eq_true, beq_iff_eq] at hhides
      obtain ⟨hsimple, v, hv, hname⟩ := hhides
      exact .arraySize (mem_sums.mpr hd) hsimple hv hname
    | product p => cases hhides
  · obtain ⟨n, other, rfl, hn, htaken | ⟨rfl, hdup⟩⟩ := claim_eq_error h
    · -- taken by an earlier definition: its name, and now that of `d`
      rcases owner_of_claimedAll htaken with ⟨x, hx, rfl, hnx⟩ | hempty
      · refine exhibits_of_nameClash (by simp [hds, hx]) hnx (.inl ?_)
        rw [hnames]
        exact duplicate_append (List.mem_flatMap.mpr ⟨x, hx, hnx⟩) (List.mem_append_left _ hn)
      · rw [NameTable.find?_empty] at hempty
        cases hempty
    · -- taken by `d` itself
      refine exhibits_of_nameClash hd hn (.inl ?_)
      rw [hnames]
      refine hdup.mono_sublist ?_
      exact (List.sublist_append_left _ _).trans (List.sublist_append_right _ _)

theorem exhibits_of_checkGenerated (h : s.checkGenerated = .error e) : s.Exhibits e := by
  rcases bind_eq_error.mp h with hclaim | ⟨taken, hclaim, hfree⟩
  · obtain ⟨before, d, after, taken, hds, hbefore, hd⟩ := foldlM_eq_error hclaim
    obtain ⟨-, -, -, rfl⟩ := foldlM_claimDefinition_eq_ok.mp hbefore
    exact exhibits_of_claimDefinition hds hd
  · obtain ⟨-, -, -, rfl⟩ := foldlM_claimDefinition_eq_ok.mp hclaim
    obtain ⟨d, hd, he⟩ := forM_eq_error hfree
    split at he
    · next owner htaken =>
      cases he
      rcases owner_of_claimedAll htaken with ⟨x, hx, rfl, hnx⟩ | hempty
      · exact exhibits_of_nameClash hx hnx (.inr ⟨d, hd, rfl⟩)
      · rw [NameTable.find?_empty] at hempty
        cases hempty
    · cases he

/-! ### Bodies -/

theorem exhibits_of_checkMembers {owner : String} {members : List Field}
    (hc : s.IsClass owner members) (h : checkMembers owner members = .error e) :
    s.Exhibits e := by
  rcases checkDistinct_eq_error h with ⟨f, hf, he⟩ | ⟨f, hf, rfl, hdup, -⟩
  · obtain ⟨htag, rfl⟩ := refuseIf_eq_error.mp he
    have htag : f.name = "tag" := beq_iff_eq.mp htag
    rw [htag]
    exact .tagField hc (htag ▸ List.mem_map_of_mem hf)
  · exact .duplicateField hc hdup

theorem exhibits_of_checkBody {d : Definition} (hd : d ∈ s.definitions)
    (h : d.checkBody = .error e) : s.Exhibits e := by
  cases d with
  | product p => exact exhibits_of_checkMembers (.product (mem_products.mpr hd)) h
  | sum t =>
    have ht := mem_sums.mpr hd
    change t.checkBody = .error e at h
    rw [Sum.checkBody] at h
    split at h
    · next hempty =>
      cases h
      exact .emptySum ht (List.isEmpty_iff.mp hempty)
    · rcases checkDistinct_eq_error h with ⟨v, hv, he⟩ | ⟨v, hv, rfl, hdup, -⟩
      · rw [Sum.checkVariant] at he
        split at he
        · cases he
        · next hshared => exact exhibits_of_checkMembers (.variant ht hv hshared) he
      · exact .duplicateVariant ht hdup

/-! ### Shared products -/

theorem exhibits_of_checkBases (hnames : s.checkNames = .ok ()) {t : Sum} (ht : t ∈ s.sums)
    (h : (Model.Scope.ofSchema s).checkBases t = .error e) : s.Exhibits e := by
  rcases checkDistinct_eq_error h with ⟨x, hx, he⟩ | ⟨x, hx, rfl, hdup, y, -, hyx, hy⟩
  · obtain ⟨v, hv, hvx⟩ := List.mem_filterMap.mp hx
    obtain ⟨n, hn, rfl⟩ := Option.map_eq_some_iff.mp hvx
    obtain ⟨hkind, rfl⟩ := refuseIf_eq_error.mp he
    refine .sharedCaseNotProduct ht hv hn fun p hp hpn => ?_
    exact bne_iff_ne.mp hkind ((kinds_eq_product hnames).mpr ⟨p, hp, hpn⟩)
  · -- the one that was met first is known to share a product
    have hkind := bne_eq_false_iff_eq.mp (refuseIf_eq_ok.mp hy)
    obtain ⟨p, hp, hpn⟩ := (kinds_eq_product hnames).mp hkind
    rw [Model.map_snd_shared, ← hyx, ← hpn] at hdup
    rw [← hyx, ← hpn]
    exact .duplicateBase ht hp hdup

theorem exhibits_of_checkProductCount (h : s.checkProductCount = .error e) : s.Exhibits e := by
  rw [checkProductCount] at h
  split at h
  · next p hp =>
    cases h
    exact .productTagOverflow hp
  · cases h

/-- What is reported before the first definition is resolved. -/
theorem exhibits_of_check (h : s.check = .error e) : s.Exhibits e := by
  rcases bind_eq_error.mp h with hvalidate | ⟨_, hvalidate, h⟩
  · rcases bind_eq_error.mp hvalidate with hnames | ⟨_, -, hvalidate⟩
    · exact exhibits_of_checkNames hnames
    rcases bind_eq_error.mp hvalidate with hgenerated | ⟨_, -, hbodies⟩
    · exact exhibits_of_checkGenerated hgenerated
    · obtain ⟨d, hd, hbody⟩ := forM_eq_error hbodies
      exact exhibits_of_checkBody hd hbody
  · rcases bind_eq_error.mp h with hcount | ⟨_, -, hbases⟩
    · exact exhibits_of_checkProductCount hcount
    · obtain ⟨t, ht, hbase⟩ := forM_eq_error hbases
      exact exhibits_of_checkBases (validate_eq_ok.mp hvalidate).1 ht hbase

/-- An error that speaks of a field of `owner`, and what it says is so. -/
def Faulty (s : Schema) (owner : String) (f : Field) (e : SchemaError) : Prop :=
  (∃ n ∈ f.type.mentions, ¬ s.Knows n ∧ e = .unknownType n f.name owner) ∨
    ∃ message, f.type.Unsupported message ∧ e = .unsupportedFieldType f.name owner message

theorem Faulty.exhibits {owner : String} {f : Field} (h : s.Faulty owner f e)
    (hf : s.Owns owner f) : s.Exhibits e := by
  rcases h with ⟨n, hn, hknows, rfl⟩ | ⟨message, hmessage, rfl⟩
  · exact .unknownType hf hn hknows
  · exact .unsupportedFieldType hf hmessage

end Schema

/-! ### Types and definitions -/

namespace Model

namespace Scope

variable {s : Schema} {e : SchemaError} {owner field : String}

theorem resolveName_eq_error (hnames : s.checkNames = .ok ()) {n : String}
    (h : (ofSchema s).resolveName owner field n = .error e) :
    ¬ s.Knows n ∧ e = .unknownType n field owner := by
  constructor
  · intro hknows
    obtain ⟨r, hr⟩ := (exists_resolveName hnames owner field).mpr hknows
    rw [hr] at h
    cases h
  · unfold resolveName at h
    split at h
    · cases h
    · split at h
      · cases h
      · split at h <;> cases h
        rfl

theorem resolveOperand_eq_error (hnames : s.checkNames = .ok ()) {role : String} {x : TypeExpr}
    (h : (ofSchema s).resolveOperand owner field role x = .error e) :
    (∃ n ∈ x.mentions, ¬ s.Knows n ∧ e = .unknownType n field owner) ∨
      (∀ n, x ≠ .named n .scalar) ∧
        e = .unsupportedFieldType field owner
          ("map " ++ role ++ " must be a plain named type") := by
  unfold resolveOperand at h
  split at h
  · next n => exact .inl ⟨n, List.mem_singleton_self _, resolveName_eq_error hnames h⟩
  · next hplain =>
    cases h
    exact .inr ⟨hplain, rfl⟩

theorem resolveField_eq_error (hnames : s.checkNames = .ok ()) {f : Asdl.Field}
    (h : (ofSchema s).resolveField owner f = .error e) : s.Faulty owner f e := by
  obtain ⟨name, type⟩ := f
  rcases bind_eq_error.mp h with h | ⟨_, -, h⟩
  · cases type with
    | named n multiplicity =>
      rcases bind_eq_error.mp h with hn | ⟨_, -, h⟩
      · exact .inl ⟨n, List.mem_singleton_self _, resolveName_eq_error hnames hn⟩
      · cases multiplicity with
        | map => cases h; exact .inr ⟨_, .marked n, rfl⟩
        | _ => cases h
    | map k v =>
      rcases bind_eq_error.mp h with hk | ⟨_, -, h⟩
      · rcases resolveOperand_eq_error hnames hk with ⟨n, hn, he⟩ | ⟨hplain, rfl⟩
        · exact .inl ⟨n, List.mem_append_left _ hn, he⟩
        · exact .inr ⟨_, .key hplain, rfl⟩
      rcases bind_eq_error.mp h with hv | ⟨_, -, h⟩
      · rcases resolveOperand_eq_error hnames hv with ⟨n, hn, he⟩ | ⟨hplain, rfl⟩
        · exact .inl ⟨n, List.mem_append_right _ hn, he⟩
        · exact .inr ⟨_, .value hplain, rfl⟩
      · cases h
  · cases h

theorem exhibits_of_resolveFields (hnames : s.checkNames = .ok ()) {fs : List Asdl.Field}
    (hfs : ∀ f ∈ fs, s.Owns owner f) (h : (ofSchema s).resolveFields owner fs = .error e) :
    s.Exhibits e := by
  obtain ⟨f, hf, he⟩ := mapM_eq_error h
  exact (resolveField_eq_error hnames he).exhibits (hfs f hf)

theorem exhibits_of_resolveCompound (hnames : s.checkNames = .ok ()) {t : Sum} (ht : t ∈ s.sums)
    (hcompound : t.isSimple = false) (h : (ofSchema s).resolveCompound t = .error e) :
    s.Exhibits e := by
  rcases bind_eq_error.mp h with hsize | ⟨_, -, h⟩
  · obtain ⟨hlarge, rfl⟩ := refuseIf_eq_error.mp hsize
    exact .tagSpaceOverflow ht hcompound (of_decide_eq_true hlarge)
  rcases bind_eq_error.mp h with hvariants | ⟨_, -, h⟩
  · obtain ⟨⟨v, i⟩, hv, he⟩ := mapM_eq_error hvariants
    have hv : v ∈ t.variants := List.fst_mem_of_mem_zipIdx hv
    unfold resolveVariant at he
    split at he
    · -- a shared variant has no fields, so resolving it cannot fail
      cases he
    · next hshared =>
      rcases bind_eq_error.mp he with hfields | ⟨_, -, he⟩
      · exact exhibits_of_resolveFields hnames (fun f hf => .variant ht hv hshared hf) hfields
      · cases he
  rcases bind_eq_error.mp h with hattributes | ⟨_, -, h⟩
  · exact exhibits_of_resolveFields hnames (fun f hf => .sum ht hf) hattributes
  · cases h

theorem exhibits_of_resolveProduct (hnames : s.checkNames = .ok ()) {p : Asdl.Product}
    (hp : p ∈ s.products) (h : (ofSchema s).resolveProduct p = .error e) : s.Exhibits e := by
  rcases bind_eq_error.mp h with hfields | ⟨_, -, h⟩
  · refine exhibits_of_resolveFields hnames (fun f hf => ?_) hfields
    exact .product hp (List.mem_append_left _ hf)
  rcases bind_eq_error.mp h with hattributes | ⟨_, -, h⟩
  · refine exhibits_of_resolveFields hnames (fun f hf => ?_) hattributes
    exact .product hp (List.mem_append_right _ hf)
  · cases h

/-- What is reported while definitions are resolved. -/
theorem exhibits_of_resolve (hnames : s.checkNames = .ok ()) {d : Asdl.Definition}
    (hd : d ∈ s.definitions) (h : (ofSchema s).resolve d = .error e) : s.Exhibits e := by
  cases d with
  | product p =>
    exact exhibits_of_resolveProduct hnames (Schema.mem_products.mpr hd) (map_eq_error.mp h)
  | sum t =>
    rw [resolve] at h
    split at h
    · cases h
    · next hcompound =>
      exact exhibits_of_resolveCompound hnames (Schema.mem_sums.mpr hd) (by simpa using hcompound)
        (map_eq_error.mp h)

end Scope

end Model

/-! ### Schemas with a model -/

namespace Schema

variable {s : Schema}

theorem Usable.knows {x : TypeExpr} (h : s.Usable x) {n : String} (hn : n ∈ x.mentions) :
    s.Knows n := by
  cases h with
  | map hk hv =>
    rcases List.mem_append.mp hn with hn | hn
    · rw [List.mem_singleton.mp hn]; exact hk
    · rw [List.mem_singleton.mp hn]; exact hv
  | _ h => rw [List.mem_singleton.mp hn]; exact h

theorem Usable.not_unsupported {x : TypeExpr} (h : s.Usable x) {message : String} :
    ¬ x.Unsupported message := by
  intro hx
  cases hx with
  | marked n => cases h
  | key hplain => cases h; exact hplain _ rfl
  | value hplain => cases h; exact hplain _ rfl

namespace Acceptable

theorem usable_of_owns (h : s.Acceptable) {owner : String} {f : Field} (hf : s.Owns owner f) :
    s.Usable f.type := by
  cases hf with
  | product hp hf => exact h.product_types _ hp _ hf
  | variant ht hv hshared hf => exact h.variant_types _ ht _ hv hshared _ hf
  | sum ht hf => exact h.attribute_types _ ht _ hf

theorem membersDiffer_of_isClass (h : s.Acceptable) {owner : String} {members : List Field}
    (hc : s.IsClass owner members) : MembersDiffer members := by
  cases hc with
  | product hp => exact h.product_members _ hp
  | variant ht hv hshared => exact h.variant_members _ ht _ hv hshared

/-- **An acceptable schema has no defect** that an error could name. -/
theorem not_exhibits (h : s.Acceptable) {e : SchemaError} : ¬ s.Exhibits e := by
  intro he
  -- every defect contradicts the part of `Acceptable` that is about the same construct
  cases he with
  | unknownType hf hn hknows => exact hknows ((h.usable_of_owns hf).knows hn)
  | unsupportedFieldType hf hx => exact (h.usable_of_owns hf).not_unsupported hx
  | duplicateBase ht _ hdup => exact hdup.not_nodup (h.shared_once _ ht)
  | sharedCaseNotProduct ht hv hn hnone =>
    obtain ⟨p, hp, hpn⟩ := h.shared _ ht _ hv _ hn
    exact hnone p hp hpn
  | duplicateDefinition hdup => exact hdup.not_nodup h.distinct
  | emptySum ht hempty => exact (h.variants _ ht).1 hempty
  | duplicateVariant ht hdup => exact hdup.not_nodup (h.variants _ ht).2
  | duplicateField hc hdup => exact hdup.not_nodup (h.membersDiffer_of_isClass hc).1
  | tagField hc htag =>
    obtain ⟨f, hf, hname⟩ := List.mem_map.mp htag
    exact (h.membersDiffer_of_isClass hc).2 f hf hname
  | reservedName hd hreserved =>
    obtain ⟨hprimitive, hmap, hext⟩ := h.unreserved _ hd
    rcases hreserved with ⟨p, hp⟩ | hname | hmem
    · exact hprimitive p hp
    · exact hmap hname
    · exact hext hmem
  | tagSpaceOverflow ht hcompound hsize =>
    have hle := h.compound_size _ ht hcompound
    omega
  | productTagOverflow hp =>
    have hlt := (List.getElem?_eq_some_iff.mp hp).choose
    have hle := h.product_count
    omega
  | nameClash ht hn hclash =>
    rcases hclash with hdup | ⟨d, hd, rfl⟩
    · exact hdup.not_nodup h.derived_distinct
    · refine h.derived_new d hd ?_
      rw [← generatedNames_eq_derivedNames, generatedNames_eq]
      exact List.mem_flatMap.mpr ⟨_, ht, Sum.derives_iff.mp hn⟩
  | arraySize ht hsimple hv hname => exact h.no_array_size _ ht hsimple _ hv hname

end Acceptable

end Schema

/-- **Every error names a defect of the schema**, never that it could not be read; and a
schema with a model has none of these defects. -/
theorem Model.ofSchema_reportsDefect (s : Schema) :
    (∀ e, Model.ofSchema s = .error e → s.Exhibits e) ∧
      (∀ p, Model.ofSchema s ≠ .error (.parse p)) ∧
      ∀ m, Model.ofSchema s = .ok m → ∀ e, ¬ s.Exhibits e := by
  have hreport : ∀ e, Model.ofSchema s = .error e → s.Exhibits e := by
    intro e h
    rcases bind_eq_error.mp h with hcheck | ⟨_, hcheck, h⟩
    · exact Schema.exhibits_of_check hcheck
    rcases bind_eq_error.mp h with hresolve | ⟨_, -, h⟩
    · obtain ⟨d, hd, he⟩ := mapM_eq_error hresolve
      have hnames := (Schema.validate_eq_ok.mp (Schema.check_eq_ok.mp hcheck).1).1
      exact Scope.exhibits_of_resolve hnames hd he
    · cases h
  refine ⟨hreport, fun p h => ?_, fun m hm e => ?_⟩
  · cases hreport _ h
  · have h := ofSchema_eq_ok.mp hm
    have haccept : s.Acceptable := .of_check h.check (exists_mapM_eq_ok.mp ⟨_, h.definitions⟩)
    exact haccept.not_exhibits

/-- The class of `B__C` in `A` and that of `C` in `A__B` have one name; the report names the
sum that came first.  Renamed, the module has a model. -/
def crossedModule (variant : String) : Schema where
  name := "m"
  uses := []
  definitions := [
    .sum ⟨"A", [⟨"B__C", [⟨"x", .named "int" .scalar⟩], none⟩], []⟩,
    .sum ⟨"A__B", [⟨variant, [⟨"y", .named "A" .optional⟩], none⟩], []⟩]

theorem crossedModule_reportsDefect :
    Model.ofSchema (crossedModule "C") = .error (.nameClash "A__B__C" "A") ∧
      (crossedModule "C").Exhibits (.nameClash "A__B__C" "A") ∧
      ∃ m, Model.ofSchema (crossedModule "D") = .ok m ∧
        ∀ e, ¬ (crossedModule "D").Exhibits e := by
  have herror : Model.ofSchema (crossedModule "C") = .error (.nameClash "A__B__C" "A") := by rfl
  have hm : (fun _ => ()) <$> Model.ofSchema (crossedModule "D") = .ok () := by rfl
  obtain ⟨m, hm, -⟩ := map_eq_ok.mp hm
  exact ⟨herror, (Model.ofSchema_reportsDefect _).1 _ herror, m, hm,
    (Model.ofSchema_reportsDefect _).2.2 m hm⟩

end Asdl
