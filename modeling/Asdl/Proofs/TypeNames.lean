/-
When different types are written under different names.

A type is written in C++ under a name, with a star behind it if its values are held by
pointer.  Sums get an ending in most cases, and so do imported types; products, and simple sums
without the ending, are written as they are called.  The checks on a schema compare these names
with each other, but not with the names that built-in and imported types have in C++:

* `unstarred`, `Header.Context.writtenName` — the name under which a type is written;
* `Schema.CanName`, `Schema.canName_iff` — the types that a name can stand for;
* `Header.builtin_or_ending` — where the name of a type comes from;
* `Header.TypeNamesApart`, `Header.OwnNamesFree` — different types are written under different
  names, said of all pairs of types and of the names in the module;
* `Header.typeNames_apart_iff` — these are the same;
* `Header.shadowingModule_typeNames` — there is a module for which they fail.

Design notes: a name that ends in a star cannot be read from a text, but a schema that is built
otherwise may have one.  It then looks like a pointer to another type, so such names need a
clause of their own.
-/
import Asdl.Proofs.Acceptance
import Asdl.Proofs.HeaderNames
import Asdl.Proofs.Nesting

namespace Asdl

/-! ### Stars -/

/-- The text without the star at its end, if it has one. -/
def unstarred (text : String) : String :=
  if text.toList.getLast? = some '*' then String.ofList text.toList.dropLast else text

@[simp] theorem unstarred_star (n : String) : unstarred (n ++ "*") = n := by
  have hlist : (n ++ "*").toList = n.toList ++ ['*'] := String.toList_append
  rw [unstarred, hlist, List.getLast?_concat, if_pos rfl, List.dropLast_concat,
    String.ofList_toList]

theorem unstarred_of_ne {n : String} (h : n.toList.getLast? ≠ some '*') : unstarred n = n :=
  if_neg h

/-- A text is what is left of it, or has a star behind that. -/
theorem eq_or_eq_star (n : String) : n = unstarred n ∨ n = unstarred n ++ "*" := by
  by_cases h : n.toList.getLast? = some '*'
  · right
    obtain ⟨cs, hcs⟩ := List.getLast?_eq_some_iff.mp h
    have hn : n = String.ofList cs ++ "*" := by
      rw [← String.toList_inj, hcs, String.toList_append, String.toList_ofList]
      rfl
    rw [hn, unstarred_star]
  · exact .inl (unstarred_of_ne h).symm

theorem unstarred_typeName (n : String) : unstarred (typeName n) = typeName n :=
  unstarred_of_ne (by simp [typeName])

theorem unstarred_enumName (n : String) : unstarred (enumName n) = enumName n :=
  unstarred_of_ne (by simp [enumName])

theorem typeName_ne_enumName (a b : String) : typeName a ≠ enumName b := by
  intro h
  have hlast := congrArg (fun n : String => n.toList.getLast?) h
  simp [typeName, enumName] at hlast

/-! ### Types of a schema -/

namespace Model

theorem Kind.name_reference (k : Kind) (n : String) : (k.reference n).name = n := by
  cases k <;> rfl

/-- **What a name stands for**, whoever asks: a built-in type first, then an imported one,
then a definition. -/
theorem Scope.resolveName_eq_ok {sc : Scope} {owner field n : String} {t : TypeRef} :
    sc.resolveName owner field n = .ok t ↔
      (∃ p : Primitive, p.name = n ∧ t = .primitive p) ∨
        (Primitive.ofName? n = none ∧ n ∈ sc.externals ∧ t = .external n) ∨
        (Primitive.ofName? n = none ∧ n ∉ sc.externals ∧
          ∃ k, sc.kinds.find? n = some k ∧ t = k.reference n) := by
  have hprimitive : ∀ p : Primitive, Primitive.ofName? n = some p ↔ p.name = n := by
    intro p
    constructor
    · intro hp
      obtain ⟨q, rfl⟩ := Primitive.isSome_ofName?.mp (Option.isSome_of_mem hp)
      rw [Primitive.ofName?_name] at hp
      cases hp
      rfl
    · rintro rfl
      exact Primitive.ofName?_name p
  simp only [← hprimitive]
  -- the three places are searched in this order, so a hit means that the earlier ones miss
  unfold resolveName
  cases Primitive.ofName? n with
  | some p => simp [eq_comm]
  | none =>
    by_cases hext : n ∈ sc.externals
    · simp [hext, eq_comm]
    · cases sc.kinds.find? n with
      | none => simp [hext]
      | some k => cases k <;> simp [hext, Kind.reference, eq_comm]

end Model

namespace Schema

open Model (TypeRef)

/-- A type that some name stands for in the fields of the schema. -/
def CanName (s : Schema) (t : TypeRef) : Prop :=
  ∃ owner field n, (Model.Scope.ofSchema s).resolveName owner field n = .ok t

/-- The type that a definition introduces. -/
def referenceTo (d : Definition) : TypeRef := (Model.kindOf d).reference d.name

theorem name_referenceTo (d : Definition) : (referenceTo d).name = d.name :=
  Model.Kind.name_reference _ _

variable {s : Schema} {t u : TypeRef}

/-- **The types of a schema** are the built-in ones, the imported ones and its
definitions. -/
theorem canName_iff (h : s.checkNames = .ok ()) :
    s.CanName t ↔
      (∃ p, t = .primitive p) ∨
        (∃ n ∈ s.externals, Primitive.ofName? n = none ∧ t = .external n) ∨
        ∃ d ∈ s.definitions, t = referenceTo d := by
  simp only [CanName, Model.Scope.resolveName_eq_ok, exists_const]
  constructor
  · rintro ⟨n, ⟨p, -, rfl⟩ | ⟨hp, hn, rfl⟩ | ⟨-, -, k, hk, rfl⟩⟩
    · exact .inl ⟨p, rfl⟩
    · exact .inr (.inl ⟨n, hn, hp, rfl⟩)
    · obtain ⟨d, hd, rfl, rfl⟩ := (Model.Scope.kinds_find?_eq_some h).mp hk
      exact .inr (.inr ⟨d, hd, rfl⟩)
  · rintro (⟨p, rfl⟩ | ⟨n, hn, hp, rfl⟩ | ⟨d, hd, rfl⟩)
    · exact ⟨p.name, .inl ⟨p, rfl, rfl⟩⟩
    · exact ⟨n, .inr (.inl ⟨hp, hn, rfl⟩)⟩
    · -- a definition has no name that stands for something else
      have hfree := (checkNames_eq_ok.mp h).2 d hd
      simp only [isReserved, Bool.or_eq_false_iff] at hfree
      obtain ⟨⟨hprimitive, -⟩, hexternal⟩ := hfree
      have hexternal : d.name ∉ s.externals := by simpa using hexternal
      exact ⟨d.name, .inr (.inr ⟨by simpa using hprimitive, hexternal, _,
        (Model.Scope.kinds_find?_eq_some h).mpr ⟨d, hd, rfl, rfl⟩, rfl⟩)⟩

theorem canName_referenceTo (h : s.checkNames = .ok ()) {d : Definition} (hd : d ∈ s.definitions) :
    s.CanName (referenceTo d) :=
  (canName_iff h).mpr (.inr (.inr ⟨d, hd, rfl⟩))

/-- A definition introduces neither a built-in nor an imported type. -/
theorem referenceTo_ne (d : Definition) :
    (∀ p, TypeRef.primitive p ≠ referenceTo d) ∧ ∀ n, TypeRef.external n ≠ referenceTo d := by
  rw [referenceTo]
  cases Model.kindOf d <;> simp [Model.Kind.reference]

/-- A type is determined by its name. -/
theorem CanName.eq_of_name (ht : s.CanName t) (hu : s.CanName u) (hname : t.name = u.name) :
    t = u := by
  have hnamed : ∀ {owner field n : String} {r : TypeRef},
      (Model.Scope.ofSchema s).resolveName owner field n = .ok r → r.name = n := by
    intro owner field n r hr
    rcases Model.Scope.resolveName_eq_ok.mp hr with ⟨p, rfl, rfl⟩ | ⟨-, -, rfl⟩ | ⟨-, -, k, -, rfl⟩
    · rfl
    · rfl
    · exact Model.Kind.name_reference k n
  obtain ⟨owner, field, n, ht⟩ := ht
  obtain ⟨owner', field', n', hu⟩ := hu
  obtain rfl := hnamed ht
  obtain rfl := hnamed hu
  -- what a name stands for does not depend on where it is used
  have hanywhere : (Model.Scope.ofSchema s).resolveName owner' field' u.name = .ok t := by
    rw [← hname]
    exact Model.Scope.resolveName_eq_ok.mpr (Model.Scope.resolveName_eq_ok.mp ht)
  exact Except.ok.inj (hanywhere.symm.trans hu)

end Schema

namespace Header

open Model (TypeRef)

/-! ### Written names -/

/-- The name under which a type is written: its text, without a star at the end. -/
def Context.writtenName (c : Context) (t : TypeRef) : String := unstarred (c.element t).text

/-- The name of a built-in type in C++. -/
def builtinName : Primitive → String
  | .string => "Str"
  | .int => "int"
  | .float => "double"
  | .bool => "bool"
  | .any => "void"

theorem builtinName_inj {p q : Primitive} (h : builtinName p = builtinName q) : p = q := by
  cases p <;> cases q <;> first | rfl | simp [builtinName] at h

theorem underscore_not_mem_builtinName (p : Primitive) : '_' ∉ (builtinName p).toList := by
  cases p <;> simp [builtinName]

/-- No built-in type looks like a name with an ending. -/
theorem builtinName_ne_ending (p : Primitive) {n w : String}
    (hw : w = typeName n ∨ w = enumName n) : builtinName p ≠ w := by
  intro h
  apply underscore_not_mem_builtinName p
  rcases hw with hw | hw <;> simp [h, hw, typeName, enumName]

/-- Whether a definition is written under its own name: a product, and a simple sum without
the ending that is not written as integers. -/
def isOwnNamed (o : Options) : Definition → Bool
  | .product _ => true
  | .sum t => t.isSimple && !o.enumSuffix && !o.isFlat t.name

namespace Context

variable (c : Context)

theorem writtenName_primitive (p : Primitive) :
    c.writtenName (.primitive p) = builtinName p := by
  cases p with
  | string => exact unstarred_star "Str"
  | any => exact unstarred_star "void"
  | _ => exact unstarred_of_ne (by simp [element, ofPrimitive, CType.text])

theorem writtenName_external (n : String) : c.writtenName (.external n) = typeName n :=
  unstarred_typeName n

theorem writtenName_simpleSum (n : String) :
    c.writtenName (.simpleSum n) =
      if c.options.isFlat n then typeName n
      else if c.options.enumSuffix then enumName n else unstarred n := by
  rw [writtenName, element, CType.text, enumeration]
  cases hflat : c.options.isFlat n with
  | true => exact unstarred_typeName n
  | false =>
    cases c.options.enumSuffix with
    | true => exact unstarred_enumName n
    | false => rfl

/-- A definition that is not written under its own name is written under one of its
generated names. -/
theorem writtenName_ending {d : Definition} (h : isOwnNamed c.options d = false) :
    c.writtenName (Schema.referenceTo d) ∈ d.generatedNames ∧
      (c.writtenName (Schema.referenceTo d) = typeName d.name ∨
        c.writtenName (Schema.referenceTo d) = enumName d.name) := by
  cases d with
  | product p => cases h
  | sum t =>
    have hgenerated : ∀ n, n = typeName t.name ∨ n = enumName t.name →
        n ∈ (Definition.sum t).generatedNames := by
      rintro n (rfl | rfl) <;> simp [Definition.generatedNames, Sum.generatedNames]
    have hwritten : c.writtenName (Schema.referenceTo (.sum t)) = typeName t.name ∨
        c.writtenName (Schema.referenceTo (.sum t)) = enumName t.name := by
      cases hsimple : t.isSimple with
      | false =>
        rw [Schema.referenceTo, Model.kindOf, hsimple]
        exact .inl (unstarred_star _)
      | true =>
        rw [Schema.referenceTo, Model.kindOf, hsimple]
        show c.writtenName (.simpleSum t.name) = _ ∨ c.writtenName (.simpleSum t.name) = _
        rw [writtenName_simpleSum]
        -- flat sums share the ending of classes; the others have one only with the suffix
        cases hflat : c.options.isFlat t.name with
        | true => exact .inl rfl
        | false =>
          have hsuffix : c.options.enumSuffix = true := by
            simpa [isOwnNamed, hsimple, hflat] using h
          rw [hsuffix]
          exact .inr rfl
    exact ⟨hgenerated _ hwritten, hwritten⟩

theorem writtenName_ownSum {t : Sum} (h : isOwnNamed c.options (.sum t) = true) :
    c.writtenName (Schema.referenceTo (.sum t)) = unstarred t.name := by
  simp only [isOwnNamed, Bool.and_eq_true, Bool.not_eq_true'] at h
  obtain ⟨⟨hsimple, hsuffix⟩, hflat⟩ := h
  rw [Schema.referenceTo, Model.kindOf, hsimple]
  show c.writtenName (.simpleSum t.name) = _
  rw [writtenName_simpleSum, hflat, hsuffix]
  rfl

/-- A definition under its own name is written as it is called, but for a star at the end of
the name of a sum. -/
theorem writtenName_own {d : Definition} (h : isOwnNamed c.options d = true) :
    d.name = c.writtenName (Schema.referenceTo d) ∨
      (∃ t, d = .sum t) ∧ d.name = c.writtenName (Schema.referenceTo d) ++ "*" := by
  cases d with
  | product p => exact .inl (unstarred_star p.name).symm
  | sum t =>
    rw [c.writtenName_ownSum h]
    exact (eq_or_eq_star t.name).imp_right fun hstar => ⟨⟨t, rfl⟩, hstar⟩

theorem writtenName_of_starless {d : Definition} (h : isOwnNamed c.options d = true)
    (hlast : d.name.toList.getLast? ≠ some '*') :
    c.writtenName (Schema.referenceTo d) = d.name := by
  rcases c.writtenName_own h with hname | ⟨-, hname⟩
  · exact hname.symm
  · rw [hname, String.toList_append] at hlast
    exact absurd List.getLast?_concat hlast

end Context

/-! ### Names apart -/

/-- Different types are written under different names. -/
def TypeNamesApart (s : Schema) (c : Context) : Prop :=
  ∀ t u, s.CanName t → s.CanName u → t ≠ u → c.writtenName t ≠ c.writtenName u

/-- A name under which no built-in and no imported type is written. -/
def FreeName (s : Schema) (n : String) : Prop :=
  (∀ p, builtinName p ≠ n) ∧ ∀ x ∈ s.externals, Primitive.ofName? x = none → x ++ "_t" ≠ n

/-- The names in a module that keep its types apart. -/
structure OwnNamesFree (s : Schema) (c : Context) : Prop where
  free : ∀ d ∈ s.definitions, isOwnNamed c.options d = true → FreeName s d.name
  /-- A sum under its own name is not called like a pointer to another type. -/
  starless : ∀ t, .sum t ∈ s.definitions → isOwnNamed c.options (.sum t) = true →
    ∀ u, s.CanName u → u.name ≠ t.name → c.writtenName u ++ "*" ≠ t.name

variable {s : Schema} {m : Model} {c : Context}

/-- A type that is written with an ending determines the name before it. -/
theorem name_eq_of_ending {a b w : String} (ha : w = typeName a ∨ w = enumName a)
    (hb : w = typeName b ∨ w = enumName b) : a = b := by
  rcases ha with rfl | rfl
  · rcases hb with hb | hb
    · exact typeName_inj.mp hb
    · exact absurd hb (typeName_ne_enumName _ _)
  · rcases hb with hb | hb
    · exact absurd hb.symm (typeName_ne_enumName _ _)
    · exact enumName_inj.mp hb

/-- A type that is no definition under its own name is a built-in one or has an ending. -/
theorem builtin_or_ending (h : Model.Resolves s m) {t : TypeRef} (ht : s.CanName t) :
    (∃ p, t = .primitive p) ∨
      (c.writtenName t = typeName t.name ∨ c.writtenName t = enumName t.name) ∨
      ∃ d ∈ s.definitions, isOwnNamed c.options d = true ∧ t = Schema.referenceTo d := by
  rcases (Schema.canName_iff h.checkNames).mp ht with ⟨p, rfl⟩ | ⟨n, -, -, rfl⟩ | ⟨d, hd, rfl⟩
  · exact .inl ⟨p, rfl⟩
  · exact .inr (.inl (.inl (c.writtenName_external n)))
  · cases hown : isOwnNamed c.options d with
    | true => exact .inr (.inr ⟨d, hd, hown, rfl⟩)
    | false =>
      rw [Schema.name_referenceTo]
      exact .inr (.inl (c.writtenName_ending hown).2)

/-- **A definition under its own name** shares it with no other type if the names in the
module allow it. -/
theorem eq_of_own (h : Model.Resolves s m) (hfree : OwnNamesFree s c) {d : Definition}
    (hd : d ∈ s.definitions) (hown : isOwnNamed c.options d = true) {u : TypeRef}
    (hu : s.CanName u) (heq : c.writtenName (Schema.referenceTo d) = c.writtenName u) :
    Schema.referenceTo d = u := by
  have hcan := Schema.canName_referenceTo h.checkNames hd
  refine hcan.eq_of_name hu ?_
  rw [Schema.name_referenceTo]
  by_contra hne
  rcases c.writtenName_own hown with hname | ⟨⟨t, rfl⟩, hname⟩
  · -- the definition is called as the other type is written
    rw [heq] at hname
    rcases (Schema.canName_iff h.checkNames).mp hu with ⟨p, rfl⟩ | ⟨n, hn, hp, rfl⟩ | ⟨e, he, rfl⟩
    · exact (hfree.free d hd hown).1 p ((c.writtenName_primitive p).symm.trans hname.symm)
    · exact (hfree.free d hd hown).2 n hn hp ((c.writtenName_external n).symm.trans hname.symm)
    · cases howne : isOwnNamed c.options e with
      | false =>
        have hgenerated : d.name ∈ s.generatedNames := by
          rw [hname]
          exact List.mem_flatMap.mpr ⟨e, he, (c.writtenName_ending howne).1⟩
        exact (Schema.checkGenerated_eq_ok.mp h.checkGenerated).2.2 d hd hgenerated
      | true =>
        rw [Schema.name_referenceTo] at hne
        rcases c.writtenName_own howne with hnamee | ⟨⟨t, rfl⟩, hnamee⟩
        · exact hne (hname.trans hnamee.symm)
        · -- the other one has a star behind the name of this one
          rw [← heq] at hnamee
          exact hfree.starless t he howne _ hcan (by rwa [Schema.name_referenceTo]) hnamee.symm
  · -- the definition has a star behind the name of the other type
    rw [heq] at hname
    exact hfree.starless t hd hown u hu (Ne.symm hne) hname.symm

theorem typeNamesApart_of_ownNamesFree (h : Model.Resolves s m) (hfree : OwnNamesFree s c) :
    TypeNamesApart s c := by
  intro t u ht hu hne heq
  rcases builtin_or_ending (c := c) h ht with ⟨p, rfl⟩ | hendt | ⟨d, hd, hown, rfl⟩
  · rcases builtin_or_ending (c := c) h hu with ⟨q, rfl⟩ | hendu | ⟨e, he, hown, rfl⟩
    · rw [c.writtenName_primitive, c.writtenName_primitive] at heq
      exact hne (congrArg TypeRef.primitive (builtinName_inj heq))
    · exact builtinName_ne_ending p hendu ((c.writtenName_primitive p).symm.trans heq)
    · exact hne (eq_of_own h hfree he hown ht heq.symm).symm
  · rcases builtin_or_ending (c := c) h hu with ⟨q, rfl⟩ | hendu | ⟨e, he, hown, rfl⟩
    · exact builtinName_ne_ending q hendt ((c.writtenName_primitive q).symm.trans heq.symm)
    · rw [heq] at hendt
      exact hne (ht.eq_of_name hu (name_eq_of_ending hendt hendu))
    · exact hne (eq_of_own h hfree he hown ht heq.symm).symm
  · exact hne (eq_of_own h hfree hd hown hu heq)

theorem ownNamesFree_of_typeNamesApart (h : Model.Resolves s m) (hapart : TypeNamesApart s c) :
    OwnNamesFree s c := by
  have hcan := fun d => @Schema.canName_referenceTo s h.checkNames d
  constructor
  · -- a definition that takes the name of a type is written like that type
    intro d hd hown
    obtain ⟨hprimitive, hexternal⟩ := Schema.referenceTo_ne d
    constructor
    · intro p hp
      -- the names that primitives are written with have no star to lose
      have hlast : d.name.toList.getLast? ≠ some '*' := by
        rw [← hp]
        cases p <;> simp [builtinName]
      have hcanp := (Schema.canName_iff h.checkNames).mpr (.inl ⟨p, rfl⟩)
      apply hapart _ _ hcanp (hcan d hd) (hprimitive p)
      rw [c.writtenName_primitive, hp, c.writtenName_of_starless hown hlast]
    · intro x hx hname hxd
      have hlast : d.name.toList.getLast? ≠ some '*' := by
        rw [← hxd]
        simp
      have hcanx := (Schema.canName_iff h.checkNames).mpr (.inr (.inl ⟨x, hx, hname, rfl⟩))
      apply hapart _ _ hcanx (hcan d hd) (hexternal x)
      rw [c.writtenName_of_starless hown hlast, ← hxd]
      exact c.writtenName_external x
  · -- a sum whose name is that of `u` with a star is written like `u`
    intro t ht hown u hu hne hstar
    have hother : u ≠ Schema.referenceTo (.sum t) := by
      rintro rfl
      exact hne (Schema.name_referenceTo _)
    apply hapart u _ hu (hcan _ ht) hother
    rw [c.writtenName_ownSum hown, ← hstar, unstarred_star]

/-- Identifiers have no star at the end. -/
theorem not_isIdentifier_star (n : String) : isIdentifier (n ++ "*") ≠ true := by
  intro hword
  obtain ⟨c, cs, hn, hc, hcs⟩ := isWholeWord_iff.mp (isIdentifier_iff.mp hword).1
  have hstar : '*' ∈ c :: cs := by
    rw [← hn]
    simp
  rcases List.mem_cons.mp hstar with rfl | hstar
  · exact absurd hc (by decide)
  · exact absurd (hcs _ hstar) (by decide)

/-- In a module that is read from a text no sum is called like a pointer. -/
theorem ownNamesFree_of_isWritable (h : Model.Resolves s m) (hs : s.isWritable = true)
    (hfree : ∀ d ∈ s.definitions, isOwnNamed c.options d = true → FreeName s d.name) :
    OwnNamesFree s c := by
  refine ⟨hfree, fun t ht _ u _ _ hstar => ?_⟩
  obtain ⟨r, hr, hres⟩ := exists_mem_right (mapM_eq_ok.mp h.definitions) ht
  have hword := h.isIdentifier_name hs hr
  rw [Model.Scope.resolve_name hres, Definition.name, ← hstar] at hword
  exact not_isIdentifier_star _ hword

/-- **Types are written under different names exactly if the names in the module allow it.**
What is written without an ending must not have the name of a built-in type in C++ or that of
an imported type with its ending, nor may a sum be called like a pointer to another type; in a
module that is read from a text there are no such sums. -/
theorem typeNames_apart_iff (hm : Model.ofSchema s = .ok m) (o : Options) :
    (TypeNamesApart s ⟨m, o⟩ ↔ OwnNamesFree s ⟨m, o⟩) ∧
    ∀ source, Schema.parse source = .ok s →
      (TypeNamesApart s ⟨m, o⟩ ↔
        ∀ d ∈ s.definitions, isOwnNamed o d = true → FreeName s d.name) := by
  have h := Model.ofSchema_eq_ok.mp hm
  have hiff : TypeNamesApart s ⟨m, o⟩ ↔ OwnNamesFree s ⟨m, o⟩ :=
    ⟨ownNamesFree_of_typeNamesApart h, typeNamesApart_of_ownNamesFree h⟩
  refine ⟨hiff, fun source hs => hiff.trans ⟨fun hfree => hfree.free, fun hfree => ?_⟩⟩
  exact ownNamesFree_of_isWritable h (isWritable_of_parse hs) hfree

/-- A module with names that end like written ones. -/
def endingModule : Schema where
  name := "m"
  uses := [⟨["core"], ["id"]⟩]
  definitions := [
    .product ⟨"id_e", [⟨"s", .named "string" .scalar⟩, ⟨"i", .named "id" .scalar⟩], []⟩,
    .sum ⟨"int_t", [⟨"A", [], none⟩, ⟨"B", [], none⟩], []⟩,
    .sum ⟨"void_i", [⟨"A", [], none⟩, ⟨"B", [⟨"n", .named "int_t" .optional⟩], none⟩], []⟩,
    .sum ⟨"F", [⟨"A", [], none⟩], []⟩]

/-- Its enumerations are written without an ending, but for one that is written as integers. -/
def endingOptions : Options where
  enumSuffix := false
  flatSums := NameSet.add .empty "F"

theorem endingModule_typeNames :
    ∃ m, Model.ofSchema endingModule = .ok m ∧
      Schema.parse endingModule.text = .ok endingModule ∧
      endingModule.definitions.map (fun d =>
        Context.writtenName ⟨m, endingOptions⟩ (Schema.referenceTo d)) =
          ["id_e", "int_t", "void_i_t", "F_t"] ∧
      OwnNamesFree endingModule ⟨m, endingOptions⟩ ∧
      TypeNamesApart endingModule ⟨m, endingOptions⟩ := by
  have hm : (fun m => endingModule.definitions.map fun d =>
      Context.writtenName ⟨m, endingOptions⟩ (Schema.referenceTo d)) <$>
        Model.ofSchema endingModule = .ok ["id_e", "int_t", "void_i_t", "F_t"] := by rfl
  obtain ⟨m, hm, hnames⟩ := map_eq_ok.mp hm
  have hwritable : endingModule.isWritable = true := by rfl
  have hspaced := wellSpaced_map (.blank rfl .nil) (by simp : [' '] ≠ []) endingModule.tokens
  have hparse : Schema.parse endingModule.text = .ok endingModule := by
    refine Schema.parse_layout hwritable ?_ hspaced
    exact Grammar.isSchema_tokens hwritable
  have hname : ∀ n, n = "id_e" ∨ n = "int_t" → FreeName endingModule n := by
    intro n hn
    refine ⟨fun p => ?_, fun x hx _ => ?_⟩
    · rcases hn with rfl | rfl <;> cases p <;> decide
    · obtain rfl : x = "id" := List.mem_singleton.mp hx
      rcases hn with rfl | rfl <;> decide
  have hfree : ∀ d ∈ endingModule.definitions, isOwnNamed endingOptions d = true →
      FreeName endingModule d.name := by
    intro d hd hown
    simp only [endingModule, List.mem_cons, List.not_mem_nil, or_false] at hd
    rcases hd with rfl | rfl | rfl | rfl
    · exact hname _ (.inl rfl)
    · exact hname _ (.inr rfl)
    · cases hown
    · cases hown
  obtain ⟨hiff, htext⟩ := typeNames_apart_iff hm endingOptions
  have hapart := (htext _ hparse).mpr hfree
  exact ⟨m, hm, hparse, hnames, hiff.mp hapart, hapart⟩

/-- A module that defines the C++ names of a built-in and of an imported type. -/
def shadowingModule : Schema where
  name := "m"
  uses := [⟨["core"], ["id"]⟩]
  definitions := [
    .product ⟨"Str", [⟨"i", .named "id" .scalar⟩], []⟩,
    .product ⟨"id_t", [⟨"s", .named "string" .scalar⟩, ⟨"p", .named "Str" .scalar⟩], []⟩]

/-- The module is accepted, and its types are not apart, whatever the options. -/
theorem shadowingModule_typeNames :
    ∃ m, Model.ofSchema shadowingModule = .ok m ∧
      (∀ t ∈ [.primitive .string, .product "Str", .external "id", .product "id_t"],
        shadowingModule.CanName t) ∧
      ∀ o, [.primitive .string, .product "Str", .external "id", .product "id_t"].map
          (fun t => (Context.element ⟨m, o⟩ t).text) = ["Str*", "Str*", "id_t", "id_t*"] ∧
        ¬ TypeNamesApart shadowingModule ⟨m, o⟩ := by
  obtain ⟨m, hm, -⟩ : ∃ m, Model.ofSchema shadowingModule = .ok m ∧ m.name = "m" :=
    map_eq_ok.mp rfl
  have hstring : shadowingModule.CanName (.primitive .string) := ⟨"", "", "string", rfl⟩
  have hproduct : shadowingModule.CanName (.product "Str") := ⟨"", "", "Str", rfl⟩
  have hid : shadowingModule.CanName (.external "id") := ⟨"", "", "id", rfl⟩
  have hidt : shadowingModule.CanName (.product "id_t") := ⟨"", "", "id_t", rfl⟩
  refine ⟨m, hm, by simp [hstring, hproduct, hid, hidt], fun o => ⟨rfl, fun hapart => ?_⟩⟩
  exact hapart (.primitive .string) (.product "Str") hstring hproduct (by simp) rfl

end Header

end Asdl
