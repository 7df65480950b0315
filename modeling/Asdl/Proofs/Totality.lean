/-
After resolution nothing fails.

A schema that has a model has a header and a table of macros under any options:

* `Model.tagLookups` — the names whose tags are asked for when a definition is
  resolved; `Model.Scope.resolve_withTags` says that no others are;
* `Model.exists_tag_of_lookup` — all of them have tags once the checks passed;
* `generateText_eq_error` — the ways in which a text has no header;
* `no_failure_after_resolution` — the three facts together.
-/
import Asdl.Proofs.Sections

namespace Asdl

namespace Model

/-! ### Lookups of tags -/

/-- The products whose tags are asked for when a definition is resolved. -/
def tagLookups : Asdl.Definition → List String
  | .sum s => if s.isSimple then [] else sharedBy s
  | .product p => [p.name]

namespace Scope

variable {sc : Scope} {tags : NameTable Nat}

theorem resolveVariant_withTags {v : Asdl.Variant × Nat}
    (h : ∀ p, v.1.shared = some p → tags.find? p = sc.tags.find? p) :
    ({ sc with tags } : Scope).resolveVariant v = sc.resolveVariant v := by
  rw [resolveVariant, resolveVariant]
  cases hv : v.1.shared with
  | none => rfl
  | some p => simp only [tagOf, h p hv]

theorem mapM_resolveVariant_withTags {vs : List (Asdl.Variant × Nat)}
    (h : ∀ v ∈ vs, ∀ p, v.1.shared = some p → tags.find? p = sc.tags.find? p) :
    vs.mapM ({ sc with tags } : Scope).resolveVariant = vs.mapM sc.resolveVariant := by
  induction vs with
  | nil => rfl
  | cons v vs ih =>
    rw [List.mapM_cons, List.mapM_cons, resolveVariant_withTags (h v List.mem_cons_self),
      ih fun w hw => h w (List.mem_cons_of_mem _ hw)]

/-- Resolving a definition reads the table of tags at `tagLookups` and nowhere
else. -/
theorem resolve_withTags {d : Asdl.Definition}
    (h : ∀ n ∈ tagLookups d, tags.find? n = sc.tags.find? n) :
    ({ sc with tags } : Scope).resolve d = sc.resolve d := by
  cases d with
  | sum s =>
    rw [tagLookups] at h
    rw [resolve, resolve]
    split
    · rfl
    · next hs =>
      rw [if_neg hs] at h
      -- of a compound sum only the shared variants look up tags
      have hvs : (s.variants.zipIdx 1).mapM ({ sc with tags } : Scope).resolveVariant =
          (s.variants.zipIdx 1).mapM sc.resolveVariant := by
        refine mapM_resolveVariant_withTags fun v hv p hp => h p ?_
        exact List.mem_filterMap.mpr ⟨v.1, List.fst_mem_of_mem_zipIdx hv, hp⟩
      rw [resolveCompound, resolveCompound, hvs]
      rfl
  | product p =>
    have hp := h p.name List.mem_cons_self
    rw [resolve, resolve, resolveProduct, resolveProduct, tagOf, tagOf, hp]
    rfl

end Scope

/-- The checks see to it that every lookup finds a tag. -/
theorem exists_tag_of_lookup {s : Schema} (h : s.check = .ok ()) {d : Asdl.Definition}
    (hd : d ∈ s.definitions) {n : String} (hn : n ∈ tagLookups d) :
    ∃ t, (Scope.ofSchema s).tags.find? n = some t := by
  have hnames := (Schema.validate_eq_ok.mp (Schema.check_eq_ok.mp h).1).1
  -- whatever is looked up is the name of a product
  have hplace : ∃ (k : Nat) (q : Asdl.Product), s.products[k]? = some q ∧ q.name = n := by
    cases d with
    | sum t =>
      rw [tagLookups] at hn
      split at hn
      · cases hn
      · obtain ⟨v, hv, hp⟩ := List.mem_filterMap.mp hn
        exact Resolves.shared_product h (List.mem_filterMap.mpr ⟨_, hd, rfl⟩) hv hp
    | product p =>
      rw [tagLookups, List.mem_singleton] at hn
      have hp : p ∈ s.products := List.mem_filterMap.mpr ⟨_, hd, rfl⟩
      obtain ⟨k, hk⟩ := List.mem_iff_getElem?.mp hp
      exact ⟨k, p, hk, hn.symm⟩
  obtain ⟨k, q, hk, hq⟩ := hplace
  exact ⟨_, (Scope.tags_find?_eq_some hnames).mpr ⟨k, q, hk, hq, rfl⟩⟩

end Model

/-! ### Texts -/

theorem result_parseText (source : String) : (parseText source).result = Schema.parse source := by
  rw [parseText]
  cases Schema.parse source with
  | error p => rfl
  | ok s => rfl

/-- A text has no header iff it cannot be read or its schema cannot be resolved. -/
theorem generateText_eq_error {source : String} {o : Options} {e : Error} :
    (generateText source o).result = .error e ↔
      (∃ p, Schema.parse source = .error p ∧ e = .parse p) ∨
        ∃ s d, Schema.parse source = .ok s ∧ Model.ofSchema s = .error d ∧ e = .schema d := by
  simp only [generateText, Header.result_bind, Run.mapError, result_parseText]
  -- the stages in order; the one that fails determines the error
  cases hp : Schema.parse source with
  | error p =>
    constructor
    · intro h
      cases h
      exact .inl ⟨p, rfl, rfl⟩
    · rintro (⟨p, ⟨⟩, rfl⟩ | ⟨s, d, ⟨⟩, -⟩)
      rfl
  | ok s =>
    show ((resolveSchema s).result.mapError Error.schema >>= fun m =>
      (Header.generate m o).result.mapError Error.violation) = .error e ↔ _
    simp only [resolveSchema]
    cases hm : Model.ofSchema s with
    | error d =>
      constructor
      · intro h
        cases h
        exact .inr ⟨s, d, rfl, hm, rfl⟩
      · rintro (⟨p, ⟨⟩, -⟩ | ⟨s, d, ⟨⟩, hd, rfl⟩)
        rw [hm] at hd
        cases hd
        rfl
    | ok m =>
      -- generating never fails for the model of a schema
      show (Header.generate m o).result.mapError Error.violation = .error e ↔ _
      rw [Header.result_generate (Model.ofSchema_eq_ok.mp hm)]
      constructor
      · intro h
        cases h
      · rintro (⟨p, ⟨⟩, -⟩ | ⟨s, d, ⟨⟩, hd, -⟩)
        rw [hm] at hd
        cases hd

/-- **Nothing fails after resolution.**  A model has a header and macros under any
options; no lookup of a tag misses once the checks have passed; and a text has no
header exactly if it cannot be read or resolved, for the very same reason. -/
theorem no_failure_after_resolution :
    (∀ (s : Schema) (m : Model) (o : Options), Model.ofSchema s = .ok m →
      (∃ out, (Header.generate m o).result = .ok out) ∧
        ∃ text, (Header.macros m).result = .ok text) ∧
    (∀ s : Schema, s.check = .ok () →
      (∀ d ∈ s.definitions, ∀ n ∈ Model.tagLookups d,
        ∃ t, (Model.Scope.ofSchema s).tags.find? n = some t) ∧
      ∀ tags : NameTable Nat,
        (∀ d ∈ s.definitions, ∀ n ∈ Model.tagLookups d,
          tags.find? n = (Model.Scope.ofSchema s).tags.find? n) →
        ∀ d ∈ s.definitions, ({ Model.Scope.ofSchema s with tags } : Model.Scope).resolve d =
          (Model.Scope.ofSchema s).resolve d) ∧
    ∀ (source : String) (o : Options) (e : Error),
      (generateText source o).result = .error e ↔
        (∃ p, Schema.parse source = .error p ∧ e = .parse p) ∨
          ∃ s d, Schema.parse source = .ok s ∧ Model.ofSchema s = .error d ∧ e = .schema d := by
  refine ⟨fun s m o hm => ?_, fun s hs => ⟨fun d hd n hn => ?_, ?_⟩, ?_⟩
  · have h := Model.ofSchema_eq_ok.mp hm
    exact ⟨⟨_, Header.result_generate h o⟩, ⟨_, Header.result_macros m⟩⟩
  · exact Model.exists_tag_of_lookup hs hd hn
  · intro tags htags d hd
    exact Model.Scope.resolve_withTags (htags d hd)
  · intro source o e
    exact generateText_eq_error

/-- The module with a shared product has a header, its products have tags, and one
more tag in the table changes nothing. -/
theorem sharingModule_header :
    (∃ m, Model.ofSchema Model.sharingModule = .ok m ∧
      (∃ out, (Header.generate m { treeMethods := false }).result = .ok out) ∧
        ∃ text, (Header.macros m).result = .ok text) ∧
    Model.sharingModule.check = .ok () ∧
    (∃ t, (Model.Scope.ofSchema Model.sharingModule).tags.find? "Token" = some t) ∧
    ∀ d ∈ Model.sharingModule.definitions,
      ({ Model.Scope.ofSchema Model.sharingModule with
          tags := (Model.Scope.ofSchema Model.sharingModule).tags.insert "Op" 7 } :
        Model.Scope).resolve d = (Model.Scope.ofSchema Model.sharingModule).resolve d := by
  obtain ⟨hgenerate, hlookups, -⟩ := no_failure_after_resolution
  have hcheck : Model.sharingModule.check = .ok () := by rfl
  obtain ⟨hfound, hothers⟩ := hlookups _ hcheck
  have hm : (fun _ => ()) <$> Model.ofSchema Model.sharingModule = .ok () := by rfl
  obtain ⟨m, hm, -⟩ := map_eq_ok.mp hm
  refine ⟨⟨m, hm, hgenerate _ m _ hm⟩, hcheck, ?_, ?_⟩
  · exact hfound (.product ⟨"Token", [⟨"span", .named "Span" .optional⟩], []⟩)
      (by decide) "Token" (by decide)
  · refine hothers _ fun d hd n hn => ?_
    have hop : "Op" ≠ n := by
      rintro rfl
      revert d
      decide
    rw [NameTable.find?_insert, if_neg hop]

end Asdl
