/-
When the checks of a schema pass.

Every check is a walk that stops at the first defect.  Here each of them is read
as a plain condition on the schema:

* `checkDistinct_eq_ok` — the walk through named things passes iff the names are
  different and each thing passes its own check;
* `Schema.checkNames_eq_ok`, `Schema.checkGenerated_eq_ok`, `Sum.checkBody_eq_ok`,
  `Schema.validate_eq_ok` — the checks that need no resolution;
* `Model.Scope.checkBases_eq_ok`, `Schema.check_eq_ok` — everything that is
  checked before the first definition is resolved.

Design notes: a walk carries a table of what it has seen, so each statement is
proved for an arbitrary table first; the table only adds names to avoid.
-/
import Asdl.Model.Resolution
import Mathlib.Data.List.Forall2
import Mathlib.Data.List.Nodup

namespace Asdl

variable {α β ε : Type}

/-! ### Outcomes -/

theorem bind_eq_ok {x : Except ε α} {f : α → Except ε β} {b : β} :
    x >>= f = .ok b ↔ ∃ a, x = .ok a ∧ f a = .ok b := by
  cases x with
  | error e => simp [bind, Except.bind]
  | ok a => simp [bind, Except.bind]

theorem map_eq_ok {x : Except ε α} {f : α → β} {b : β} :
    f <$> x = .ok b ↔ ∃ a, x = .ok a ∧ f a = b := by
  cases x with
  | error e => simp [Functor.map, Except.map]
  | ok a => simp [Functor.map, Except.map]

theorem pure_eq_ok {a b : α} : (pure a : Except ε α) = .ok b ↔ a = b := by
  simp [pure, Except.pure]

theorem bind_eq_error {x : Except ε α} {f : α → Except ε β} {e : ε} :
    x >>= f = .error e ↔ x = .error e ∨ ∃ a, x = .ok a ∧ f a = .error e := by
  cases x with
  | error e' => simp [bind, Except.bind]
  | ok a => simp [bind, Except.bind]

theorem mapError_eq_ok {δ : Type} {x : Except ε α} {f : ε → δ} {a : α} :
    x.mapError f = .ok a ↔ x = .ok a := by
  cases x with
  | error e => simp [Except.mapError]
  | ok b => simp [Except.mapError]

theorem mapError_eq_error {δ : Type} {x : Except ε α} {f : ε → δ} {d : δ} :
    x.mapError f = .error d ↔ ∃ e, x = .error e ∧ f e = d := by
  cases x with
  | error e => simp [Except.mapError]
  | ok b => simp [Except.mapError]

/-- A step without a result passes or ends everything. -/
theorem seq_eq_ok {x : Except ε Unit} {y : Except ε β} {b : β} :
    (do x; y) = .ok b ↔ x = .ok () ∧ y = .ok b := by
  rw [bind_eq_ok]
  constructor
  · rintro ⟨⟨⟩, hx, hy⟩
    exact ⟨hx, hy⟩
  · rintro ⟨hx, hy⟩
    exact ⟨(), hx, hy⟩

theorem forM_eq_ok {f : α → Except ε Unit} {xs : List α} :
    xs.forM f = .ok () ↔ ∀ x ∈ xs, f x = .ok () := by
  induction xs with
  | nil => simp [pure, Except.pure]
  | cons x xs ih =>
    show (do f x; xs.forM f) = .ok () ↔ _
    rw [seq_eq_ok, ih]
    simp

/-- A list is mapped iff each of its elements is. -/
theorem mapM_eq_ok {f : α → Except ε β} {xs : List α} {ys : List β} :
    xs.mapM f = .ok ys ↔ List.Forall₂ (fun x y => f x = .ok y) xs ys := by
  induction xs generalizing ys with
  | nil =>
    rw [List.mapM_nil, pure_eq_ok, List.forall₂_nil_left_iff]
    exact eq_comm
  | cons x xs ih =>
    rw [List.mapM_cons, bind_eq_ok]
    constructor
    · rintro ⟨y, hy, h⟩
      obtain ⟨zs, hzs, h⟩ := bind_eq_ok.mp h
      rw [pure_eq_ok] at h
      subst h
      exact .cons hy (ih.mp hzs)
    · rintro (_ | ⟨hy, hzs⟩)
      exact ⟨_, hy, bind_eq_ok.mpr ⟨_, ih.mpr hzs, rfl⟩⟩

/-! ### Lists side by side -/

section SideBySide

variable {R : α → β → Prop} {xs : List α} {ys : List β}

/-- What each pair shares, the lists share. -/
theorem map_eq_map {γ : Type} {f : α → γ} {g : β → γ} (hfg : ∀ x y, R x y → g y = f x)
    (h : List.Forall₂ R xs ys) : ys.map g = xs.map f := by
  induction h with
  | nil => rfl
  | cons hxy _ ih => rw [List.map_cons, List.map_cons, hfg _ _ hxy, ih]

theorem exists_getElem?_left (h : List.Forall₂ R xs ys) {k : Nat} {y : β}
    (hy : ys[k]? = some y) : ∃ x, xs[k]? = some x ∧ R x y := by
  induction h generalizing k with
  | nil => simp at hy
  | cons hxy _ ih =>
    cases k with
    | zero =>
      cases hy
      exact ⟨_, rfl, hxy⟩
    | succ k => exact ih hy

theorem exists_getElem?_right (h : List.Forall₂ R xs ys) {k : Nat} {x : α}
    (hx : xs[k]? = some x) : ∃ y, ys[k]? = some y ∧ R x y :=
  exists_getElem?_left (R := flip R) (List.Forall₂.flip h) hx

theorem exists_mem_left (h : List.Forall₂ R xs ys) {y : β} (hy : y ∈ ys) : ∃ x ∈ xs, R x y := by
  obtain ⟨k, hk⟩ := List.mem_iff_getElem?.mp hy
  obtain ⟨x, hx, hxy⟩ := exists_getElem?_left h hk
  exact ⟨x, List.mem_of_getElem? hx, hxy⟩

theorem exists_mem_right (h : List.Forall₂ R xs ys) {x : α} (hx : x ∈ xs) : ∃ y ∈ ys, R x y :=
  exists_mem_left (R := flip R) (List.Forall₂.flip h) hx

end SideBySide

/-! ### One walk through named things -/

theorem refuseIf_eq_ok {c : Bool} {e : ε} : refuseIf c e = .ok () ↔ c = false := by
  cases c with
  | false => simp [refuseIf]
  | true => simp [refuseIf]

/-- Names are free in a table with one more name iff they were free before and the
name is not among them. -/
theorem NameTable.free_insert {t : NameTable α} {m : String} {a : α} {names : List String} :
    (∀ n ∈ names, (t.insert m a).find? n = none) ↔
      m ∉ names ∧ ∀ n ∈ names, t.find? n = none := by
  simp only [NameTable.find?_insert]
  constructor
  · intro h
    refine ⟨fun hm => by simpa using h m hm, fun n hn => ?_⟩
    have hmn := h n hn
    split at hmn
    · cases hmn
    · exact hmn
  · rintro ⟨hm, h⟩ n hn
    rw [if_neg (by rintro rfl; exact hm hn)]
    exact h n hn

section Distinct

variable {name : α → String} {repeated : α → ε} {check : α → Except ε Unit}

theorem checkDistinctFrom_eq_ok {seen : NameTable Unit} {xs : List α} :
    checkDistinctFrom name repeated check seen xs = .ok () ↔
      (xs.map name).Nodup ∧ (∀ x ∈ xs, seen.find? (name x) = none) ∧
        ∀ x ∈ xs, check x = .ok () := by
  induction xs generalizing seen with
  | nil => simp [checkDistinctFrom]
  | cons x xs ih =>
    rw [checkDistinctFrom]
    by_cases hseen : seen.find? (name x) = none
    · rw [if_neg (by simp [NameTable.contains, hseen])]
      cases hx : check x with
      | error e => simp [hx]
      | ok _ =>
        simp only
        rw [ih]
        -- the walk goes on with one more name to avoid
        have hins : (∀ y ∈ xs, (seen.insert (name x) ()).find? (name y) = none) ↔
            name x ∉ xs.map name ∧ ∀ y ∈ xs, seen.find? (name y) = none := by
          simpa only [List.forall_mem_map] using
            @NameTable.free_insert _ seen (name x) () (xs.map name)
        rw [hins, List.map_cons, List.nodup_cons]
        simp only [List.mem_cons, forall_eq_or_imp, hseen, hx, true_and]
        tauto
    · rw [if_pos (by simpa [NameTable.contains, Option.isSome_iff_ne_none] using hseen)]
      simp [hseen]

/-- **The walk passes** iff the names are different and each thing passes. -/
theorem checkDistinct_eq_ok {xs : List α} :
    checkDistinct name repeated check xs = .ok () ↔
      (xs.map name).Nodup ∧ ∀ x ∈ xs, check x = .ok () := by
  rw [checkDistinct, checkDistinctFrom_eq_ok]
  simp

end Distinct

/-! ### Names -/

namespace Schema

theorem checkNames_eq_ok {s : Schema} :
    s.checkNames = .ok () ↔
      (s.definitions.map Definition.name).Nodup ∧
        ∀ d ∈ s.definitions, s.isReserved d.name = false := by
  rw [checkNames, checkDistinct_eq_ok]
  simp only [refuseIf_eq_ok]

/-- The table after names were claimed for `owner`. -/
def claimed (owner : String) (taken : NameTable String) (names : List String) :
    NameTable String :=
  names.foldl (fun t n => t.insert n owner) taken

theorem find?_claimed (owner : String) (taken : NameTable String) (names : List String)
    (n : String) :
    (claimed owner taken names).find? n =
      if n ∈ names then some owner else taken.find? n := by
  induction names generalizing taken with
  | nil => simp [claimed]
  | cons m names ih =>
    have hm : claimed owner taken (m :: names) = claimed owner (taken.insert m owner) names := rfl
    rw [hm, ih, NameTable.find?_insert]
    by_cases hn : n ∈ names
    · simp [hn]
    · by_cases hmn : m = n
      · simp [hmn]
      · simp [hn, hmn, Ne.symm hmn]

theorem claim_eq_ok {owner : String} {taken t : NameTable String} {names : List String} :
    claim owner taken names = .ok t ↔
      names.Nodup ∧ (∀ n ∈ names, taken.find? n = none) ∧ t = claimed owner taken names := by
  induction names generalizing taken with
  | nil => simp [claim, claimed, eq_comm]
  | cons m names ih =>
    rw [claim]
    cases hm : taken.find? m with
    | some other => simp [hm]
    | none =>
      simp only
      rw [ih]
      have hc : claimed owner taken (m :: names) = claimed owner (taken.insert m owner) names := rfl
      rw [hc, List.nodup_cons]
      rw [NameTable.free_insert]
      simp only [List.mem_cons, forall_eq_or_imp, hm, true_and]
      tauto

/-- The names generated for all definitions, in order. -/
def generatedNames (s : Schema) : List String := s.definitions.flatMap Definition.generatedNames

theorem generatedNames_eq (s : Schema) : s.generatedNames = s.sums.flatMap Sum.generatedNames := by
  rw [generatedNames, sums]
  induction s.definitions with
  | nil => rfl
  | cons d ds ih =>
    cases d with
    | sum t =>
      have hsum : Definition.sum? (.sum t) = some t := rfl
      rw [List.flatMap_cons, ih, List.filterMap_cons_some hsum, List.flatMap_cons]
      rfl
    | product p =>
      have hsum : Definition.sum? (.product p) = none := rfl
      rw [List.flatMap_cons, ih, List.filterMap_cons_none hsum]
      rfl

/-- The table after the generated names of definitions were claimed. -/
def claimedAll (taken : NameTable String) (ds : List Definition) : NameTable String :=
  ds.foldl (fun t d => claimed d.name t d.generatedNames) taken

theorem isSome_find?_claimedAll (taken : NameTable String) (ds : List Definition) (n : String) :
    ((claimedAll taken ds).find? n).isSome ↔
      n ∈ ds.flatMap Definition.generatedNames ∨ (taken.find? n).isSome := by
  induction ds generalizing taken with
  | nil => simp [claimedAll]
  | cons d ds ih =>
    have hd : claimedAll taken (d :: ds) =
        claimedAll (claimed d.name taken d.generatedNames) ds := rfl
    rw [hd, ih, find?_claimed, List.flatMap_cons, List.mem_append]
    by_cases hn : n ∈ d.generatedNames
    · simp [hn]
    · simp [hn]

theorem foldlM_claimDefinition_eq_ok {taken t : NameTable String} {ds : List Definition} :
    ds.foldlM claimDefinition taken = .ok t ↔
      (∀ d ∈ ds, hidesArraySize d = false) ∧
        (ds.flatMap Definition.generatedNames).Nodup ∧
        (∀ n ∈ ds.flatMap Definition.generatedNames, taken.find? n = none) ∧
        t = claimedAll taken ds := by
  induction ds generalizing taken with
  | nil =>
    rw [List.foldlM_nil, pure_eq_ok]
    exact ⟨fun h => ⟨by simp, by simp, by simp, h.symm⟩, fun h => h.2.2.2.symm⟩
  | cons d ds ih =>
    have hall : claimedAll taken (d :: ds) =
        claimedAll (claimed d.name taken d.generatedNames) ds := rfl
    have hok : ∀ u, claimDefinition taken d = .ok u ↔
        hidesArraySize d = false ∧ claim d.name taken d.generatedNames = .ok u := by
      intro u
      rw [claimDefinition]
      cases hidesArraySize d with
      | true => simp
      | false => simp
    -- names of later definitions are free after `d` iff they are new and were free before
    have hfree : (∀ n ∈ ds.flatMap Definition.generatedNames,
          (claimed d.name taken d.generatedNames).find? n = none) ↔
        (∀ n ∈ d.generatedNames, n ∉ ds.flatMap Definition.generatedNames) ∧
          ∀ n ∈ ds.flatMap Definition.generatedNames, taken.find? n = none := by
      simp only [find?_claimed]
      constructor
      · intro h
        refine ⟨fun n hd hn => by simpa [hd] using h n hn, fun n hn => ?_⟩
        have := h n hn
        split at this
        · cases this
        · exact this
      · rintro ⟨hnew, h⟩ n hn
        rw [if_neg (fun hd => hnew n hd hn)]
        exact h n hn
    rw [List.foldlM_cons, bind_eq_ok, List.flatMap_cons, List.nodup_append', List.disjoint_left,
      hall]
    simp only [hok, claim_eq_ok, ih, List.mem_cons, forall_eq_or_imp, List.mem_append]
    constructor
    · rintro ⟨_, ⟨hd, hnd, hfd, rfl⟩, hds, hnds, hfds, ht⟩
      obtain ⟨hnew, hfds⟩ := hfree.mp hfds
      exact ⟨⟨hd, hds⟩, ⟨hnd, hnds, fun n hn => hnew n hn⟩,
        fun n hn => hn.elim (hfd n) (hfds n), ht⟩
    · rintro ⟨⟨hd, hds⟩, ⟨hnd, hnds, hnew⟩, hf, ht⟩
      exact ⟨_, ⟨hd, hnd, fun n hn => hf n (.inl hn), rfl⟩, hds, hnds,
        hfree.mpr ⟨fun n hn => hnew hn, fun n hn => hf n (.inr hn)⟩, ht⟩

/-- **Generated names do not coincide**: they are different from each other and
from the names of definitions, and no simple sum hides its own constant. -/
theorem checkGenerated_eq_ok {s : Schema} :
    s.checkGenerated = .ok () ↔
      (∀ d ∈ s.definitions, hidesArraySize d = false) ∧
        s.generatedNames.Nodup ∧ ∀ d ∈ s.definitions, d.name ∉ s.generatedNames := by
  -- after all claims the table holds exactly the generated names
  have hmem : ∀ n, (claimedAll .empty s.definitions).find? n = none ↔ n ∉ s.generatedNames := by
    intro n
    rw [← Option.not_isSome_iff_eq_none, isSome_find?_claimedAll, generatedNames]
    simp
  rw [checkGenerated, bind_eq_ok]
  simp only [forM_eq_ok, foldlM_claimDefinition_eq_ok]
  constructor
  · rintro ⟨t, ⟨hhide, hnd, -, rfl⟩, hfree⟩
    refine ⟨hhide, hnd, fun d hd => (hmem _).mp ?_⟩
    have hd := hfree d hd
    split at hd
    · cases hd
    · assumption
  · rintro ⟨hhide, hnd, hfree⟩
    refine ⟨_, ⟨hhide, hnd, by simp, rfl⟩, fun d hd => ?_⟩
    rw [(hmem _).mpr (hfree d hd)]

end Schema

/-! ### Bodies -/

theorem checkMembers_eq_ok {owner : String} {members : List Field} :
    checkMembers owner members = .ok () ↔
      (members.map Field.name).Nodup ∧ ∀ f ∈ members, f.name ≠ tagMember := by
  rw [checkMembers, checkDistinct_eq_ok]
  simp only [refuseIf_eq_ok, beq_eq_false_iff_ne]

theorem Sum.checkVariant_eq_ok {s : Sum} {v : Variant} :
    s.checkVariant v = .ok () ↔
      (v.shared = none → checkMembers v.name (v.fields ++ s.attributes) = .ok ()) := by
  rw [checkVariant]
  cases v.shared with
  | some _ => simp
  | none => simp

theorem Sum.checkBody_eq_ok {s : Sum} :
    s.checkBody = .ok () ↔
      s.variants ≠ [] ∧ (s.variants.map Variant.name).Nodup ∧
        ∀ v ∈ s.variants, v.shared = none →
          checkMembers v.name (v.fields ++ s.attributes) = .ok () := by
  rw [checkBody]
  by_cases hv : s.variants = []
  · simp [hv]
  · rw [if_neg (by simpa using hv), checkDistinct_eq_ok]
    simp only [Sum.checkVariant_eq_ok, ne_eq, hv, not_false_eq_true, true_and]

theorem Schema.validate_eq_ok {s : Schema} :
    s.validate = .ok () ↔
      s.checkNames = .ok () ∧ s.checkGenerated = .ok () ∧
        ∀ d ∈ s.definitions, d.checkBody = .ok () := by
  rw [validate, seq_eq_ok, seq_eq_ok, forM_eq_ok]

/-! ### Shared products -/

theorem Model.map_snd_shared (sum : Sum) :
    (sum.variants.filterMap fun v => v.shared.map (v, ·)).map Prod.snd = sharedBy sum := by
  rw [sharedBy, List.map_filterMap]
  congr 1
  funext v
  cases v.shared with
  | none => rfl
  | some p => rfl

theorem Model.Scope.checkBases_eq_ok {sc : Scope} {sum : Sum} :
    sc.checkBases sum = .ok () ↔
      (sharedBy sum).Nodup ∧ ∀ p ∈ sharedBy sum, sc.kinds.find? p = some .product := by
  rw [checkBases, checkDistinct_eq_ok, map_snd_shared, ← map_snd_shared]
  simp only [List.forall_mem_map, checkShared, refuseIf_eq_ok, bne_eq_false_iff_eq]

theorem Schema.checkProductCount_eq_ok {s : Schema} :
    s.checkProductCount = .ok () ↔ s.products.length ≤ Model.productLimit := by
  rw [checkProductCount]
  cases h : s.products[Model.productLimit]? with
  | none => simpa using h
  | some p =>
    have := (List.getElem?_eq_some_iff.mp h).choose
    simp only [reduceCtorEq, false_iff]
    omega

/-- **Everything that is checked before the first definition is resolved.** -/
theorem Schema.check_eq_ok {s : Schema} :
    s.check = .ok () ↔
      s.validate = .ok () ∧ s.products.length ≤ Model.productLimit ∧
        ∀ sum ∈ s.sums, (Model.Scope.ofSchema s).checkBases sum = .ok () := by
  rw [check, seq_eq_ok, seq_eq_ok, forM_eq_ok, checkProductCount_eq_ok]

end Asdl
