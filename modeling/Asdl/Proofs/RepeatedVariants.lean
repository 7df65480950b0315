/-
What is reported for two variants of one name.

Two variants of a sum that share a name are refused.  The checks of generated names run
before the variants are compared, and the class of the later variant may be what they stop
at:

* `Twins`, `Frame` — a sum with two variants singled out, and the schema around it;
* `Twins.renamed` — the sum in which the later of the two has another name;
* `Twins.OwnClass`, `Schema.Takes` — the later variant has a class, and a schema has a use
  for a name already;
* `validate_twins` — which report a schema gets that would pass with the later variant
  renamed;
* `twinModule_validate` — two constructors of one name are reported as something else.

Design notes: the checks are not followed step by step.  A schema that would pass when one
name is changed has few defects, every report names one of them, and that leaves a single
report for each stage of the checks.
-/
import Asdl.Proofs.Defects

namespace Asdl

/-! ### Two variants of a sum -/

/-- A sum in which two variants are singled out. -/
structure Twins where
  name : String
  before : List Variant
  first : Variant
  between : List Variant
  later : Variant
  behind : List Variant
  attributes : List Field

namespace Twins

/-- The sum with both variants. -/
def sum (x : Twins) : Sum :=
  ⟨x.name, (x.before ++ x.first :: x.between) ++ x.later :: x.behind, x.attributes⟩

/-- The later variant has another name. -/
def renamed (x : Twins) (n : String) : Twins := { x with later := { x.later with name := n } }

/-- The later variant has a class of its own. -/
def OwnClass (x : Twins) : Prop := x.sum.isSimple = false ∧ x.later.shared = none

instance (x : Twins) : Decidable x.OwnClass :=
  inferInstanceAs (Decidable (_ ∧ _))

theorem isSimple_renamed (x : Twins) (n : String) :
    (x.renamed n).sum.isSimple = x.sum.isSimple := by
  simp [sum, renamed, Sum.isSimple, Variant.isBare]

theorem ownClass_renamed {x : Twins} {n : String} : (x.renamed n).OwnClass ↔ x.OwnClass := by
  rw [OwnClass, isSimple_renamed]
  rfl

/-- The classes among some variants of the sum. -/
def classesIn (x : Twins) (vs : List Variant) : List String :=
  if x.sum.isSimple then []
  else (vs.filter (·.shared.isNone)).map fun v => memberName x.name v.name

/-- The class of the later variant, if it has one. -/
def ownNames (x : Twins) : List String :=
  if x.OwnClass then [memberName x.name x.later.name] else []

/-- The names that the sum generates up to the later variant. -/
def namesBefore (x : Twins) : List String :=
  [typeName x.name, enumName x.name, intsName x.name, strName x.name]
    ++ x.classesIn (x.before ++ x.first :: x.between)

theorem classesIn_renamed (x : Twins) (n : String) (vs : List Variant) :
    (x.renamed n).classesIn vs = x.classesIn vs := by
  rw [classesIn, isSimple_renamed]
  rfl

theorem namesBefore_renamed (x : Twins) (n : String) :
    (x.renamed n).namesBefore = x.namesBefore := by
  rw [namesBefore, classesIn_renamed]
  rfl

theorem classesIn_append (x : Twins) (vs ws : List Variant) :
    x.classesIn (vs ++ ws) = x.classesIn vs ++ x.classesIn ws := by
  unfold classesIn
  by_cases hsimple : x.sum.isSimple = true
  · simp [hsimple]
  · simp [hsimple]

theorem classesIn_later (x : Twins) :
    x.classesIn (x.later :: x.behind) = x.ownNames ++ x.classesIn x.behind := by
  unfold classesIn ownNames
  by_cases hsimple : x.sum.isSimple = true
  · have hnone : ¬ x.OwnClass := fun h => by simp [h.1] at hsimple
    simp [hsimple, hnone]
  · by_cases hshared : x.later.shared = none
    · have hown : x.OwnClass := ⟨by simpa using hsimple, hshared⟩
      simp [hsimple, hown, hshared]
    · have hnone : ¬ x.OwnClass := fun h => hshared h.2
      simp [hsimple, hnone, hshared]

theorem generatedNames_sum (x : Twins) :
    x.sum.generatedNames = x.namesBefore ++ (x.ownNames ++ x.classesIn x.behind) := by
  have hnames : x.sum.generatedNames =
      [typeName x.name, enumName x.name, intsName x.name, strName x.name]
        ++ x.classesIn ((x.before ++ x.first :: x.between) ++ x.later :: x.behind) := rfl
  rw [hnames, classesIn_append, classesIn_later, namesBefore, List.append_assoc]

end Twins

/-! ### The schema around a definition -/

/-- A schema in which one definition is left out. -/
structure Frame where
  name : String
  uses : List Use
  above : List Definition
  below : List Definition

namespace Frame

/-- The schema with a sum in the empty place. -/
def fill (f : Frame) (t : Sum) : Schema := ⟨f.name, f.uses, f.above ++ .sum t :: f.below⟩

theorem mem_fill {f : Frame} {t : Sum} {d : Definition} :
    d ∈ (f.fill t).definitions ↔ d = .sum t ∨ d ∈ f.above ++ f.below := by
  rw [fill, List.mem_append, List.mem_cons, List.mem_append]
  tauto

theorem generatedNames_fill (f : Frame) (t : Sum) :
    (f.fill t).generatedNames = f.above.flatMap Definition.generatedNames
      ++ (t.generatedNames ++ f.below.flatMap Definition.generatedNames) := by
  rw [Schema.generatedNames, fill, List.flatMap_append, List.flatMap_cons]
  rfl

/-- The names that are generated up to the later variant. -/
def namesBefore (f : Frame) (x : Twins) : List String :=
  f.above.flatMap Definition.generatedNames ++ x.namesBefore

/-- The names that are generated behind the later variant. -/
def namesBehind (f : Frame) (x : Twins) : List String :=
  x.classesIn x.behind ++ f.below.flatMap Definition.generatedNames

theorem generatedNames_twins (f : Frame) (x : Twins) :
    (f.fill x.sum).generatedNames = f.namesBefore x ++ (x.ownNames ++ f.namesBehind x) := by
  rw [generatedNames_fill, Twins.generatedNames_sum, namesBefore, namesBehind]
  simp only [List.append_assoc]

theorem generatedNames_renamed (f : Frame) (x : Twins) (n : String) :
    (f.fill (x.renamed n).sum).generatedNames =
      f.namesBefore x ++ ((x.renamed n).ownNames ++ f.namesBehind x) := by
  rw [generatedNames_twins, namesBefore, namesBehind, Twins.namesBefore_renamed,
    Twins.classesIn_renamed]
  rfl

end Frame

/-- A schema has a use for a name: it generates it or defines it. -/
def Schema.Takes (s : Schema) (n : String) : Prop :=
  n ∈ s.derivedNames ∨ ∃ d ∈ s.definitions, d.name = n

/-- Only names are refused for what is generated. -/
theorem Schema.eq_nameClash_of_checkGenerated {s : Schema} {e : SchemaError}
    (h : s.checkGenerated = .error e) : ∃ n owner, e = .nameClash n owner := by
  rcases bind_eq_error.mp h with hclaim | ⟨taken, -, hfree⟩
  · obtain ⟨before, d, after, taken, -, -, hd⟩ := foldlM_eq_error hclaim
    rw [claimDefinition] at hd
    split at hd
    · cases hd
      exact ⟨_, _, rfl⟩
    · obtain ⟨n, other, rfl, -⟩ := claim_eq_error hd
      exact ⟨n, other, rfl⟩
  · obtain ⟨d, -, hd⟩ := forM_eq_error hfree
    split at hd
    · cases hd
      exact ⟨_, _, rfl⟩
    · cases hd

/-- A walk that has to fail fails with some error. -/
theorem exists_error {ε : Type} {x : Except ε Unit} (h : x ≠ .ok ()) : ∃ e, x = .error e := by
  cases x with
  | error e => exact ⟨e, rfl⟩
  | ok u => exact absurd rfl h

/-! ### The checks of a schema with twins -/

section Checks

variable {f : Frame} {x : Twins} {n : String}

/-- Both schemas define the same names. -/
theorem map_name_twins : (f.fill x.sum).definitions.map Definition.name =
    (f.fill (x.renamed n).sum).definitions.map Definition.name := by
  simp [Frame.fill, Definition.name, Twins.sum, Twins.renamed]

theorem exists_definition_renamed {d : Definition} (hd : d ∈ (f.fill x.sum).definitions) :
    ∃ d' ∈ (f.fill (x.renamed n).sum).definitions, d'.name = d.name := by
  have hmem : d.name ∈ (f.fill (x.renamed n).sum).definitions.map Definition.name :=
    map_name_twins ▸ List.mem_map_of_mem hd
  exact List.mem_map.mp hmem

theorem checkNames_twins (h : (f.fill (x.renamed n).sum).checkNames = .ok ()) :
    (f.fill x.sum).checkNames = .ok () := by
  rw [Schema.checkNames_eq_ok] at h ⊢
  obtain ⟨hdistinct, hreserved⟩ := h
  rw [← map_name_twins] at hdistinct
  refine ⟨hdistinct, fun d hd => ?_⟩
  obtain ⟨d', hd', hname⟩ := exists_definition_renamed hd
  rw [← hname]
  exact hreserved d' hd'

/-- The constant of a simple sum is hidden by the first of the two if by any. -/
theorem hidesArraySize_twins (hsame : x.later.name = x.first.name)
    (h : ∀ d ∈ (f.fill (x.renamed n).sum).definitions, Schema.hidesArraySize d = false) :
    ∀ d ∈ (f.fill x.sum).definitions, Schema.hidesArraySize d = false := by
  intro d hd
  rcases Frame.mem_fill.mp hd with rfl | hd
  · have hsum := Schema.hidesArraySize_eq_false.mp (h _ (Frame.mem_fill.mpr (.inl rfl)))
    rw [Twins.isSimple_renamed] at hsum
    refine Schema.hidesArraySize_eq_false.mpr fun hsimple v hv => ?_
    have hall := hsum hsimple
    rcases List.mem_append.mp hv with hv | hv
    · exact hall v (List.mem_append_left _ hv)
    · rcases List.mem_cons.mp hv with rfl | hv
      · rw [hsame]
        exact hall x.first (by simp [Twins.sum, Twins.renamed])
      · exact hall v (List.mem_append_right _ (List.mem_cons_of_mem _ hv))
  · exact h d (Frame.mem_fill.mpr (.inr hd))

/-- Members pass under any name of their class. -/
theorem checkVariant_twins (h : (x.renamed n).sum.checkBody = .ok ()) :
    ∀ v ∈ x.sum.variants, x.sum.checkVariant v = .ok () := by
  obtain ⟨-, -, hmembers⟩ := Sum.checkBody_eq_ok.mp h
  have hpass : ∀ v ∈ (x.renamed n).sum.variants, v.shared = none →
      ((v.fields ++ x.attributes).map Field.name).Nodup ∧
        ∀ m ∈ v.fields ++ x.attributes, m.name ≠ tagMember :=
    fun v hv hshared => checkMembers_eq_ok.mp (hmembers v hv hshared)
  intro v hv
  refine Sum.checkVariant_eq_ok.mpr fun hshared => checkMembers_eq_ok.mpr ?_
  rcases List.mem_append.mp hv with hv | hv
  · exact hpass v (List.mem_append_left _ hv) hshared
  · rcases List.mem_cons.mp hv with rfl | hv
    · exact hpass { x.later with name := n } (by simp [Twins.sum, Twins.renamed]) hshared
    · exact hpass v (List.mem_append_right _ (List.mem_cons_of_mem _ hv)) hshared

/-- The name of the twins is the only one that variants share. -/
theorem eq_of_duplicate_variant {m : String}
    (h : ((x.renamed n).sum.variants.map Variant.name).Nodup)
    (hm : List.Duplicate m (x.sum.variants.map Variant.name)) : m = x.later.name := by
  by_contra hne
  have hrest : ((x.before ++ x.first :: x.between ++ x.behind).map Variant.name).Nodup := by
    refine h.sublist (.map _ ?_)
    exact List.Sublist.append_left (List.sublist_cons_self _ _) _
  -- without the later variant the name is met as often as before
  have hcount := List.duplicate_iff_two_le_count.mp hm
  have hone := List.nodup_iff_count_le_one.mp hrest m
  simp only [Twins.sum, List.map_append, List.map_cons, List.count_append] at hcount hone
  rw [List.count_cons_of_ne (Ne.symm hne)] at hcount
  omega

theorem checkBody_twins (hsame : x.later.name = x.first.name)
    (h : (x.renamed n).sum.checkBody = .ok ()) :
    x.sum.checkBody = .error (.duplicateVariant x.name x.first.name) := by
  have hnodup := (Sum.checkBody_eq_ok.mp h).2.1
  have hfail : x.sum.checkBody ≠ .ok () := by
    intro hok
    have hnd := (Sum.checkBody_eq_ok.mp hok).2.1
    rw [Twins.sum, List.map_append, List.nodup_append] at hnd
    exact hnd.2.2 x.first.name (by simp) x.later.name (by simp) hsame.symm
  obtain ⟨e, he⟩ := exists_error hfail
  have hwalk := he
  rw [Sum.checkBody, if_neg (by simp [Twins.sum])] at hwalk
  -- the variants themselves are fine, so it is their names that fail
  rcases checkDistinct_eq_error hwalk with ⟨v, hv, hcheck⟩ | ⟨v, -, rfl, hdup, -⟩
  · rw [checkVariant_twins h v hv] at hcheck
    cases hcheck
  · rw [he, eq_of_duplicate_variant hnodup hdup, hsame]
    rfl

/-! ### Generated names of a schema with twins -/

/-- Without the class of the later variant nothing is generated twice. -/
theorem nodup_others (h : (f.fill (x.renamed n).sum).generatedNames.Nodup) :
    (f.namesBefore x ++ f.namesBehind x).Nodup := by
  rw [Frame.generatedNames_renamed] at h
  refine h.sublist (List.Sublist.append_left ?_ _)
  exact List.sublist_append_right _ _

theorem mem_others {m : String} (h : m ∈ f.namesBefore x ++ f.namesBehind x) :
    m ∈ (f.fill (x.renamed n).sum).generatedNames := by
  rw [Frame.generatedNames_renamed]
  rcases List.mem_append.mp h with h | h
  · exact List.mem_append_left _ h
  · exact List.mem_append_right _ (List.mem_append_right _ h)

/-- A generated name is that of the later variant or was there without it. -/
theorem mem_generatedNames_twins {m : String} (h : m ∈ (f.fill x.sum).generatedNames) :
    (x.OwnClass ∧ m = memberName x.name x.later.name) ∨ m ∈ f.namesBefore x ++ f.namesBehind x := by
  rw [Frame.generatedNames_twins, Twins.ownNames] at h
  by_cases hown : x.OwnClass
  · rw [if_pos hown] at h
    simp only [List.mem_append, List.mem_singleton] at h ⊢
    tauto
  · rw [if_neg hown] at h
    exact .inr h

/-- The only name that can be generated twice is that of the later variant. -/
theorem eq_of_duplicate_generated {m : String}
    (h : (f.fill (x.renamed n).sum).generatedNames.Nodup)
    (hm : List.Duplicate m (f.fill x.sum).generatedNames) :
    x.OwnClass ∧ m = memberName x.name x.later.name := by
  have hnodup := nodup_others h
  rw [Frame.generatedNames_twins, Twins.ownNames] at hm
  by_cases hown : x.OwnClass
  · refine ⟨hown, ?_⟩
    by_contra hne
    rw [if_pos hown] at hm
    -- any other name is counted as often as without the later twin, where it is there once
    have hcount := List.duplicate_iff_two_le_count.mp hm
    have hone := List.nodup_iff_count_le_one.mp hnodup m
    simp only [List.count_append, List.count_singleton] at hcount hone
    rw [if_neg (by simpa using Ne.symm hne)] at hcount
    omega
  · rw [if_neg hown] at hm
    exact absurd hnodup hm.not_nodup

/-- The later variant's class is generated if it has one. -/
theorem own_mem_generatedNames (hown : x.OwnClass) :
    memberName x.name x.later.name ∈ (f.fill x.sum).generatedNames := by
  rw [Frame.generatedNames_twins, Twins.ownNames, if_pos hown]
  simp

/-- A class that nobody else has a use for clashes with nothing. -/
theorem checkGenerated_twins (hsame : x.later.name = x.first.name)
    (h : (f.fill (x.renamed n).sum).checkGenerated = .ok ())
    (hfree : ¬ (x.OwnClass ∧
      (f.fill (x.renamed n).sum).Takes (memberName x.name x.first.name))) :
    (f.fill x.sum).checkGenerated = .ok () := by
  obtain ⟨hhides, hnodup, hnew⟩ := Schema.checkGenerated_eq_ok.mp h
  refine Schema.checkGenerated_eq_ok.mpr ⟨hidesArraySize_twins hsame hhides, ?_, ?_⟩
  · by_contra hdup
    obtain ⟨m, hm⟩ := List.exists_duplicate_iff_not_nodup.mpr hdup
    obtain ⟨hown, rfl⟩ := eq_of_duplicate_generated hnodup hm
    -- the name is met once more, so it is among the others
    rw [Frame.generatedNames_twins, Twins.ownNames, if_pos hown] at hm
    have hcount := List.duplicate_iff_two_le_count.mp hm
    simp only [List.count_append, List.count_singleton_self] at hcount
    have hpos :
        0 < (f.namesBefore x ++ f.namesBehind x).count (memberName x.name x.later.name) := by
      rw [List.count_append]
      omega
    have htaken := mem_others (n := n) (List.count_pos_iff.mp hpos)
    rw [Schema.generatedNames_eq_derivedNames, hsame] at htaken
    exact hfree ⟨hown, .inl htaken⟩
  · intro d hd hmem
    obtain ⟨d', hd', hname⟩ := exists_definition_renamed (n := n) hd
    rcases mem_generatedNames_twins hmem with ⟨hown, hm⟩ | hother
    · exact hfree ⟨hown, .inr ⟨d', hd', by rw [hname, hm, hsame]⟩⟩
    · exact hnew d' hd' (hname ▸ mem_others hother)

/-- A class that somebody else has a use for clashes with that. -/
theorem checkGenerated_twins_ne_ok (hsame : x.later.name = x.first.name) (hne : n ≠ x.first.name)
    (hown : x.OwnClass)
    (htakes : (f.fill (x.renamed n).sum).Takes (memberName x.name x.first.name)) :
    (f.fill x.sum).checkGenerated ≠ .ok () := by
  intro hok
  obtain ⟨-, hnodup, hnew⟩ := Schema.checkGenerated_eq_ok.mp hok
  have hmem := own_mem_generatedNames (f := f) hown
  rw [hsame] at hmem
  rcases htakes with htaken | ⟨d, hd, hname⟩
  · rw [← Schema.generatedNames_eq_derivedNames, Frame.generatedNames_renamed, Twins.ownNames,
      if_pos (Twins.ownClass_renamed.mpr hown)] at htaken
    rw [Frame.generatedNames_twins, Twins.ownNames, if_pos hown, hsame, List.singleton_append,
      List.nodup_middle] at hnodup
    -- the class of the renamed variant is another one
    have hother : memberName x.name x.first.name ≠ memberName x.name n :=
      fun heq => hne ((String.append_right_inj _).mp heq).symm
    have hmiddle : memberName x.name x.first.name ∈ f.namesBefore x ++ f.namesBehind x := by
      simp only [List.mem_append, List.mem_singleton] at htaken ⊢
      rcases htaken with hbefore | heq | hbehind
      · exact .inl hbefore
      · exact absurd heq hother
      · exact .inr hbehind
    exact (List.nodup_cons.mp hnodup).1 hmiddle
  · have hdefined : d.name ∈ (f.fill x.sum).definitions.map Definition.name := by
      rw [map_name_twins (n := n)]
      exact List.mem_map_of_mem hd
    obtain ⟨d', hd', hname'⟩ := List.mem_map.mp hdefined
    refine hnew d' hd' ?_
    rw [hname', hname]
    exact hmem

/-- A class that somebody else has a use for is what the generated names are refused for. -/
theorem checkGenerated_twins_of_takes (hsame : x.later.name = x.first.name)
    (h : (f.fill (x.renamed n).sum).checkGenerated = .ok ()) (hne : n ≠ x.first.name)
    (hown : x.OwnClass)
    (htakes : (f.fill (x.renamed n).sum).Takes (memberName x.name x.first.name)) :
    ∃ t ∈ (f.fill x.sum).sums, t.Derives (memberName x.name x.first.name) ∧
      (f.fill x.sum).checkGenerated =
        .error (.nameClash (memberName x.name x.first.name) t.name) := by
  obtain ⟨hhides, hnodup, hnew⟩ := Schema.checkGenerated_eq_ok.mp h
  obtain ⟨e, he⟩ := exists_error (checkGenerated_twins_ne_ok hsame hne hown htakes)
  obtain ⟨m, owner, rfl⟩ := Schema.eq_nameClash_of_checkGenerated he
  -- the report names a defect, and there is only one of its kind
  cases Schema.exhibits_of_checkGenerated he with
  | arraySize ht hsimple hv hname =>
    have hall := hidesArraySize_twins hsame hhides _ (Schema.mem_sums.mp ht)
    exact absurd hname (Schema.hidesArraySize_eq_false.mp hall hsimple _ hv)
  | @nameClash t _ ht hderives hclash =>
    suffices hm : m = memberName x.name x.later.name by
      rw [hm, hsame] at he hderives
      exact ⟨t, ht, hderives, he⟩
    rcases hclash with hdup | ⟨d, hd, rfl⟩
    · rw [← Schema.generatedNames_eq_derivedNames] at hdup
      exact (eq_of_duplicate_generated hnodup hdup).2
    · have hgenerated : d.name ∈ (f.fill x.sum).generatedNames := by
        rw [Schema.generatedNames_eq]
        exact List.mem_flatMap.mpr ⟨t, ht, Sum.derives_iff.mp hderives⟩
      rcases mem_generatedNames_twins hgenerated with ⟨-, hm⟩ | hother
      · exact hm
      · obtain ⟨d', hd', hname⟩ := exists_definition_renamed (n := n) hd
        exact absurd (hname ▸ mem_others hother) (hnew d' hd')

theorem first_mem_namesBefore (hown : x.OwnClass) (hfirst : x.first.shared = none) :
    memberName x.name x.first.name ∈ x.namesBefore := by
  refine List.mem_append_right _ ?_
  rw [Twins.classesIn, if_neg (by simp [hown.1])]
  exact List.mem_map.mpr ⟨x.first, List.mem_filter.mpr ⟨by simp, by simp [hfirst]⟩, rfl⟩

/-- A class of the first variant belongs to no other sum. -/
theorem name_eq_of_derives (hnodup : (f.fill (x.renamed n).sum).generatedNames.Nodup)
    (hown : x.OwnClass) (hfirst : x.first.shared = none) {t : Sum} (ht : t ∈ (f.fill x.sum).sums)
    (hderives : t.Derives (memberName x.name x.first.name)) : t.name = x.name := by
  have hclass := first_mem_namesBefore hown hfirst
  have hgenerated : memberName x.name x.first.name ∈ Definition.generatedNames (.sum t) :=
    Sum.derives_iff.mp hderives
  rw [Frame.generatedNames_fill, Twins.generatedNames_sum, Twins.namesBefore_renamed,
    List.nodup_append', List.nodup_append', List.disjoint_left, List.disjoint_left] at hnodup
  obtain ⟨-, ⟨-, -, hbelow⟩, habove⟩ := hnodup
  rcases Frame.mem_fill.mp (Schema.mem_sums.mp ht) with hsum | hother
  · cases hsum
    rfl
  · -- in any other place the class would be generated twice even with the later one renamed
    rcases List.mem_append.mp hother with hmem | hmem
    · refine absurd ?_ (habove (List.mem_flatMap.mpr ⟨_, hmem, hgenerated⟩))
      exact List.mem_append_left _ (List.mem_append_left _ hclass)
    · refine absurd (List.mem_flatMap.mpr ⟨_, hmem, hgenerated⟩) (hbelow ?_)
      exact List.mem_append_left _ hclass

/-! ### Reports -/

theorem ne_first_of_checkBody (h : (x.renamed n).sum.checkBody = .ok ()) : n ≠ x.first.name := by
  have hnodup := (Sum.checkBody_eq_ok.mp h).2.1
  rw [Twins.sum, List.map_append, List.nodup_append] at hnodup
  intro heq
  exact hnodup.2.2 x.first.name (by simp [Twins.renamed]) n (by simp [Twins.renamed]) heq.symm

/-- The bodies are refused for the twins, unless something was refused before. -/
theorem checkBodies_twins (hsame : x.later.name = x.first.name)
    (h : ∀ d ∈ (f.fill (x.renamed n).sum).definitions, d.checkBody = .ok ()) :
    (f.fill x.sum).definitions.forM Definition.checkBody =
      .error (.duplicateVariant x.name x.first.name) := by
  have hbody := checkBody_twins hsame (h _ (Frame.mem_fill.mpr (.inl rfl)))
  have hfail : (f.fill x.sum).definitions.forM Definition.checkBody ≠ .ok () := by
    intro hok
    have hsum : x.sum.checkBody = .ok () := forM_eq_ok.mp hok _ (Frame.mem_fill.mpr (.inl rfl))
    rw [hbody] at hsum
    cases hsum
  obtain ⟨e, he⟩ := exists_error hfail
  obtain ⟨d, hd, hde⟩ := forM_eq_error he
  -- the definitions around the sum pass their check as they did before
  rcases Frame.mem_fill.mp hd with rfl | hother
  · have hsum : x.sum.checkBody = .error e := hde
    rw [he, ← hsum, hbody]
  · rw [h d (Frame.mem_fill.mpr (.inr hother))] at hde
    cases hde

end Checks

/-- **What is reported for two variants of one name.**  If a schema passes once the later of
the two has another name, it is refused for the two variants exactly if the class of the
later one is not in anybody's way; otherwise it is refused for the name of that class, and
two constructors are always in each other's way. -/
theorem validate_twins (f : Frame) (x : Twins) {n : String} (hsame : x.later.name = x.first.name)
    (hrenamed : (f.fill (x.renamed n).sum).validate = .ok ()) :
    ((f.fill x.sum).validate = .error (.duplicateVariant x.name x.first.name) ↔
      ¬ (x.OwnClass ∧ (f.fill (x.renamed n).sum).Takes (x.name ++ "__" ++ x.first.name))) ∧
    (x.OwnClass → (f.fill (x.renamed n).sum).Takes (x.name ++ "__" ++ x.first.name) →
      ∃ t ∈ (f.fill x.sum).sums, t.Derives (x.name ++ "__" ++ x.first.name) ∧
        (f.fill x.sum).validate = .error (.nameClash (x.name ++ "__" ++ x.first.name) t.name)) ∧
    (x.OwnClass → x.first.shared = none →
      (f.fill x.sum).validate = .error (.nameClash (x.name ++ "__" ++ x.first.name) x.name)) := by
  obtain ⟨hnames, hgenerated, hbodies⟩ := Schema.validate_eq_ok.mp hrenamed
  have hnames' := checkNames_twins hnames
  have hne := ne_first_of_checkBody (hbodies _ (Frame.mem_fill.mpr (.inl rfl)))
  have htaken : x.OwnClass →
      (f.fill (x.renamed n).sum).Takes (x.name ++ "__" ++ x.first.name) →
      ∃ t ∈ (f.fill x.sum).sums, t.Derives (x.name ++ "__" ++ x.first.name) ∧
        (f.fill x.sum).validate = .error (.nameClash (x.name ++ "__" ++ x.first.name) t.name) := by
    intro hown htakes
    obtain ⟨t, ht, hderives, hclash⟩ :=
      checkGenerated_twins_of_takes hsame hgenerated hne hown htakes
    refine ⟨t, ht, hderives, bind_eq_error.mpr (.inr ⟨(), hnames', ?_⟩)⟩
    exact bind_eq_error.mpr (.inl hclash)
  refine ⟨⟨fun hdup ⟨hown, htakes⟩ => ?_, fun hfree => ?_⟩, htaken, fun hown hfirst => ?_⟩
  · obtain ⟨t, -, -, hclash⟩ := htaken hown htakes
    rw [hdup] at hclash
    cases hclash
  · refine bind_eq_error.mpr (.inr ⟨(), hnames', bind_eq_error.mpr (.inr ⟨(), ?_, ?_⟩)⟩)
    · exact checkGenerated_twins hsame hgenerated hfree
    · exact checkBodies_twins hsame hbodies
  · have hnodup := (Schema.checkGenerated_eq_ok.mp hgenerated).2.1
    -- the class of the first one is there with the later one renamed
    have htakes : (f.fill (x.renamed n).sum).Takes (x.name ++ "__" ++ x.first.name) := by
      refine .inl ?_
      rw [← Schema.generatedNames_eq_derivedNames]
      refine mem_others (List.mem_append_left _ (List.mem_append_right _ ?_))
      exact first_mem_namesBefore hown hfirst
    obtain ⟨t, ht, hderives, hclash⟩ := htaken hown htakes
    rw [hclash, name_eq_of_derives hnodup hown hfirst ht hderives]

/-- A variant that shares a product, and a constructor of the same name. -/
def mixedTwins : Twins where
  name := "S"
  before := []
  first := ⟨"V", [], some "P"⟩
  between := [⟨"U", [], none⟩]
  later := ⟨"V", [⟨"x", .named "int" .scalar⟩], none⟩
  behind := []
  attributes := []

/-- The product that is shared, and another one. -/
def mixedFrame (other : String) : Frame where
  name := "m"
  uses := []
  above := [.product ⟨"P", [], []⟩]
  below := [.product ⟨other, [], []⟩]

/-- It depends on the other product what is reported. -/
theorem mixedTwins_validate :
    ((mixedFrame "Q").fill (mixedTwins.renamed "W").sum).validate = .ok () ∧
    ((mixedFrame "Q").fill mixedTwins.sum).validate = .error (.duplicateVariant "S" "V") ∧
    ((mixedFrame "S__V").fill (mixedTwins.renamed "W").sum).validate = .ok () ∧
    ∃ t ∈ ((mixedFrame "S__V").fill mixedTwins.sum).sums, t.Derives "S__V" ∧
      ((mixedFrame "S__V").fill mixedTwins.sum).validate = .error (.nameClash "S__V" t.name) := by
  have hfree : ((mixedFrame "Q").fill (mixedTwins.renamed "W").sum).validate = .ok () := rfl
  have htaken : ((mixedFrame "S__V").fill (mixedTwins.renamed "W").sum).validate = .ok () := rfl
  refine ⟨hfree, ?_, htaken, ?_⟩
  · refine (validate_twins (mixedFrame "Q") mixedTwins rfl hfree).1.mpr fun h => ?_
    have htakes : ¬ (("S__V" ∈ ((mixedFrame "Q").fill (mixedTwins.renamed "W").sum).derivedNames) ∨
        ∃ d ∈ ((mixedFrame "Q").fill (mixedTwins.renamed "W").sum).definitions,
          d.name = "S__V") := by decide
    exact htakes h.2
  · refine (validate_twins (mixedFrame "S__V") mixedTwins rfl htaken).2.1 ⟨rfl, rfl⟩ (.inr ?_)
    exact ⟨.product ⟨"S__V", [], []⟩, by decide, rfl⟩

/-- Two constructors of one name. -/
def twinModule (later : String) : Schema where
  name := "m"
  uses := []
  definitions := [.sum ⟨"E",
    [⟨"A", [⟨"x", .named "int" .scalar⟩], none⟩, ⟨later, [⟨"y", .named "int" .scalar⟩], none⟩], []⟩]

/-- They are refused for the name of their class, although nothing else is wrong. -/
theorem twinModule_validate :
    (twinModule "B").validate = .ok () ∧
      (twinModule "A").validate = .error (.nameClash "E__A" "E") ∧
      (twinModule "A").validate ≠ .error (.duplicateVariant "E" "A") := by
  have hclash : (twinModule "A").validate = .error (.nameClash "E__A" "E") := rfl
  refine ⟨rfl, hclash, ?_⟩
  rw [hclash]
  intro h
  cases h

end Asdl
