/-
What records are called.

The record of a class is called after the class, with a dot for every pair of underscores.
The function of a sum calls a variant by the name of the sum, a dot and its own name.  The
two agree iff the only pair in the name of the class is the one between sum and variant:

* `Doubled` — a name with two underscores in a row;
* `dotted_eq_self`, `dotted_join` — names that keep their letters when pairs become dots;
* `recordsOf`, `namesOf` — the names of the records of a class, and the names of a variant;
* `recordNames_agree_iff` — when they agree, for every header.

Design notes: pairs are taken from the left, so an underscore at the end of a sum moves the
dot, and one at the start of a variant does not.
-/
import Asdl.Proofs.Signatures
import Asdl.Proofs.TreeBodies

namespace Asdl

namespace Header

/-! ### Dots for underscores -/

/-- Two underscores in a row. -/
def Doubled (s : String) : Prop := ['_', '_'] <:+: s.toList

instance : DecidablePred Doubled := fun s =>
  inferInstanceAs (Decidable (['_', '_'] <:+: s.toList))

theorem dotted_pair (l : List Char) : dotted ('_' :: '_' :: l) = '.' :: dotted l := rfl

theorem dotted_cons {c : Char} {l : List Char} (h : ¬ ['_', '_'] <+: c :: l) :
    dotted (c :: l) = c :: dotted l := by
  rw [dotted]
  rintro rest rfl hc
  cases hc
  exact h ⟨rest, rfl⟩

/-- A name without pairs stays as it is. -/
theorem dotted_eq_self {l : List Char} : dotted l = l ↔ ¬ ['_', '_'] <:+: l := by
  induction l with
  | nil => simp [dotted]
  | cons c l ih =>
    by_cases hpair : ['_', '_'] <+: c :: l
    · obtain ⟨rest, hrest⟩ := hpair
      rw [← hrest, List.cons_append, List.cons_append, dotted_pair]
      simp [List.infix_cons_iff]
    · rw [dotted_cons hpair, List.cons_inj_right, ih, List.infix_cons_iff, not_or]
      exact (and_iff_right hpair).symm

/-- A pair between two names becomes the dot between them iff it is the first pair, and the
last one. -/
theorem dotted_join {s v : List Char} :
    dotted (s ++ ['_', '_'] ++ v) = s ++ '.' :: v ↔
      ¬ ['_', '_'] <:+: s ++ ['_'] ∧ ¬ ['_', '_'] <:+: v := by
  induction s with
  | nil =>
    have hshort : ¬ ['_', '_'] <:+: ['_'] := by decide
    rw [List.nil_append, List.cons_append, List.cons_append, List.nil_append, dotted_pair]
    simp [dotted_eq_self, hshort]
  | cons c s ih =>
    have hsplit : c :: s ++ ['_', '_'] ++ v = (c :: s ++ ['_']) ++ '_' :: v := by simp
    -- a pair at the start is seen without what comes after the sum
    have hstart : ['_', '_'] <+: c :: s ++ ['_', '_'] ++ v ↔ ['_', '_'] <+: c :: s ++ ['_'] := by
      rw [hsplit]
      constructor
      · intro h
        exact List.prefix_of_prefix_length_le h (List.prefix_append _ _) (by simp)
      · intro h
        exact h.trans (List.prefix_append _ _)
    by_cases hpair : ['_', '_'] <+: c :: s ++ ['_']
    · -- the dot would stand where the sum has an underscore
      refine iff_of_false (fun h => ?_) fun h => h.1 hpair.isInfix
      obtain ⟨rest, hrest⟩ := hstart.2 hpair
      have hc : c = '_' := (List.cons.inj hrest).1.symm
      rw [← hrest, hc] at h
      cases h
    · have htail : dotted (c :: s ++ ['_', '_'] ++ v) = c :: dotted (s ++ ['_', '_'] ++ v) :=
        dotted_cons (mt hstart.1 hpair)
      have hinfix : ['_', '_'] <:+: c :: s ++ ['_'] ↔ ['_', '_'] <:+: s ++ ['_'] := by
        rw [List.cons_append, List.infix_cons_iff]
        exact or_iff_right hpair
      rw [htail, List.cons_append, List.cons_inj_right, ih, hinfix]

theorem recordName_eq_self {cls : String} : recordName cls = cls ↔ ¬ Doubled cls := by
  rw [recordName, Doubled, ← dotted_eq_self, ← String.toList_inj, String.toList_ofList]

theorem recordName_join {s v : String} :
    recordName (s ++ "__" ++ v) = s ++ "." ++ v ↔ ¬ Doubled (s ++ "_") ∧ ¬ Doubled v := by
  have hpair : "__".toList = ['_', '_'] := rfl
  have hdot : ".".toList = ['.'] := rfl
  have hone : "_".toList = ['_'] := rfl
  rw [recordName, Doubled, Doubled, ← String.toList_inj, String.toList_ofList]
  simp only [String.toList_append, hpair, hdot, hone]
  rw [List.append_assoc s.toList ['.'], List.singleton_append]
  exact dotted_join

/-! ### The function of a sum -/

/-- The function of a compound sum. -/
def compoundNames (t : Model.CompoundSum) : NamesText where
  function := t.name ++ "_str"
  parameter := "int"
  cases := (t.variants.map Model.Variant.name).map
    fun v => (t.name ++ "_e" ++ "::" ++ v, t.name ++ "." ++ v)

/-- The records that the methods of a class make: methods and names. -/
def recordsOf (m : Model) (o : Options) (cls : String) : List (String × String) :=
  (((headerItems m o).filterMap Item.tree?).filter fun w => w.cls = cls).map
    fun w => (w.method, w.record)

/-- What a function returns at a label. -/
def namesOf (m : Model) (o : Options) (function label : String) : List String :=
  (((headerItems m o).filterMap Item.names?).filter fun w => w.function = function).flatMap
    fun w => (w.cases.filter fun x => x.1 = label).map Prod.snd

section

variable {s : Schema} {m : Model} {o : Options}

theorem nodup_dataNames (h : Model.Resolves s m) :
    ((m.definitions.flatMap dataOf).map ClassData.name).Nodup := by
  refine (nodup_classes h).sublist ?_
  rw [List.map_flatMap]
  refine .flatMap_right _ fun d _ => ?_
  cases d with
  | simpleSum t => exact .refl _
  | compoundSum t =>
    rw [dataOf, List.map_map]
    exact .cons _ (.refl _)
  | product p => exact .refl _

theorem recordsOf_eq (h : Model.Resolves s m) (ho : o.treeMethods = true) {d : ClassData}
    (hd : d ∈ m.definitions.flatMap dataOf) :
    recordsOf m o d.name =
      [("PrettyTree", recordName d.name), ("_AbbreviatedTree", recordName d.name)] := by
  have hcls (x : ClassData) (w : TreeText) (hw : w ∈ Context.treeTexts ⟨m, o⟩ x) :
      w.cls = x.name := by
    rcases List.mem_pair.1 hw with rfl | rfl
    · rfl
    · rfl
  -- no other class has this name, so its two bodies are all that is kept
  rw [recordsOf, filterMap_tree? h ho, filter_flatMap_of_forall
    (q := fun x => decide (x.name = d.name)) fun x w hw => by rw [hcls x w hw],
    filter_eq_singleton (nodup_dataNames h) hd, List.flatMap_singleton]
  rfl

/-- The functions are those of the signatures. -/
theorem map_function_names (h : Model.Resolves s m) :
    ((headerItems m o).filterMap Item.names?).map NamesText.function =
      (signatures m o).map Prod.fst := by
  have hfunctions : ((headerItems m o).filterMap Item.names?).map
      (fun w => (w.function, w.parameter)) = signatures m o := by
    have hmatch := signaturesMatch h o
    rw [← hmatch.functions, ← hmatch.elsewhere.2.1, List.map_filterMap]
    rfl
  rw [← hfunctions, List.map_map]
  rfl

theorem compoundNames_mem {t : Model.CompoundSum} (ht : .compoundSum t ∈ m.definitions) :
    compoundNames t ∈ (headerItems m o).filterMap Item.names? := by
  refine List.mem_filterMap.2 ⟨compoundFunction t, List.mem_append_right _ ?_, rfl⟩
  rw [definedItems_eq]
  exact List.mem_flatMap.2 ⟨_, ht, List.mem_append_left _ List.mem_cons_self⟩

/-- The function of a sum returns one name for each of its variants. -/
theorem namesOf_eq (h : Model.Resolves s m) {t : Model.CompoundSum}
    (ht : .compoundSum t ∈ m.definitions) {n : String}
    (hn : n ∈ t.variants.map Model.Variant.name) :
    namesOf m o (t.name ++ "_str") (t.name ++ "_e" ++ "::" ++ n) = [t.name ++ "." ++ n] := by
  have hfunctions : (((headerItems m o).filterMap Item.names?).map NamesText.function).Nodup := by
    rw [map_function_names h]
    exact nodup_signatures h o
  have hlabels : ((compoundNames t).cases.map Prod.fst).Nodup := by
    rw [compoundNames, List.map_map]
    refine (h.nodup_variants (List.mem_filterMap.2 ⟨_, ht, rfl⟩)).map ?_
    intro a b hab
    exact (String.append_right_inj _).1 hab
  have hcase : (t.name ++ "_e" ++ "::" ++ n, t.name ++ "." ++ n) ∈ (compoundNames t).cases :=
    List.mem_map.2 ⟨n, hn, rfl⟩
  -- the sum has one such function, and the function one case for the constant
  have hfunction : (((headerItems m o).filterMap Item.names?).filter
      fun w => w.function = t.name ++ "_str") = [compoundNames t] :=
    filter_eq_singleton hfunctions (compoundNames_mem ht)
  have hlabel := filter_eq_singleton hlabels hcase
  rw [namesOf, hfunction, List.flatMap_singleton, hlabel]
  rfl

end

/-- **When records are called like the variants and the products.**  Methods and functions
are written as they are read back; the function of a sum returns `S.V`, and both records of
a class have one name. -/
theorem recordNames_agree_iff {s : Schema} {m : Model} (hm : Model.ofSchema s = .ok m)
    {o : Options} (ho : o.treeMethods = true) :
    (∃ out, (generate m o).result = .ok out ∧ out.code = itemsText (headerItems m o)) ∧
    (∀ i ∈ headerItems m o, (∀ w, i.tree? = some w → i.lines = w.lines) ∧
      ∀ w, i.names? = some w → i.lines = w.lines) ∧
    (∀ t, .compoundSum t ∈ m.definitions → ∀ k ∈ t.constructors,
      namesOf m o (t.name ++ "_str") (t.name ++ "_e" ++ "::" ++ k.name) =
        [t.name ++ "." ++ k.name] ∧
      ∃ record, recordsOf m o (t.name ++ "__" ++ k.name) =
          [("PrettyTree", record), ("_AbbreviatedTree", record)] ∧
        (record = t.name ++ "." ++ k.name ↔ ¬ Doubled (t.name ++ "_") ∧ ¬ Doubled k.name)) ∧
    (∀ p, .product p ∈ m.definitions →
      ∃ record, recordsOf m o p.name = [("PrettyTree", record), ("_AbbreviatedTree", record)] ∧
        (record = p.name ↔ ¬ Doubled p.name)) := by
  have h := Model.ofSchema_eq_ok.mp hm
  refine ⟨exists_code_eq h o, fun i _ => ⟨?_, ?_⟩, fun t ht k hk => ⟨?_, _, ?_, recordName_join⟩,
    fun p hp => ⟨_, ?_, recordName_eq_self⟩⟩
  · exact fun w hw => Item.lines_of_tree? hw
  · exact fun w hw => Item.lines_of_names? hw
  · exact namesOf_eq h ht (List.mem_map.2 ⟨_, Model.CompoundSum.mem_constructors.1 hk, rfl⟩)
  · exact recordsOf_eq h ho (d := constructorData t k)
      (List.mem_flatMap.2 ⟨_, ht, List.mem_map.2 ⟨k, hk, rfl⟩⟩)
  · exact recordsOf_eq h ho (d := productData p)
      (List.mem_flatMap.2 ⟨_, hp, List.mem_singleton_self _⟩)

/-- Underscores in names, none of them next to another. -/
def underscoredModule : Schema where
  name := "m"
  uses := []
  definitions := [
    .product ⟨"_Pos_", [⟨"line", .named "int" .scalar⟩], []⟩,
    .sum ⟨"My_Shape", [⟨"_Nil", [], none⟩, ⟨"Point_", [⟨"at", .named "_Pos_" .scalar⟩], none⟩],
      []⟩]

/-- Its sum, resolved. -/
def underscoredSum : Model.CompoundSum where
  name := "My_Shape"
  variants := [.constructor ⟨"_Nil", 1, []⟩,
    .constructor ⟨"Point_", 2, [⟨"at", .scalar (.product "_Pos_")⟩]⟩]
  attributes := []

/-- Its product, resolved. -/
def underscoredProduct : Model.Product :=
  ⟨"_Pos_", 1000, [⟨"line", .scalar (.primitive .int)⟩], [], []⟩

theorem underscoredModule_recordNames :
    ∃ m, Model.ofSchema underscoredModule = .ok m ∧ ({} : Options).treeMethods = true ∧
      .compoundSum underscoredSum ∈ m.definitions ∧ ⟨"_Nil", 1, []⟩ ∈ underscoredSum.constructors ∧
      .product underscoredProduct ∈ m.definitions ∧
      namesOf m {} "My_Shape_str" "My_Shape_e::_Nil" = ["My_Shape._Nil"] ∧
      recordsOf m {} "My_Shape___Nil" =
        [("PrettyTree", "My_Shape._Nil"), ("_AbbreviatedTree", "My_Shape._Nil")] ∧
      recordsOf m {} "_Pos_" = [("PrettyTree", "_Pos_"), ("_AbbreviatedTree", "_Pos_")] := by
  have hdefinitions : Model.definitions <$> Model.ofSchema underscoredModule =
      .ok [.product underscoredProduct, .compoundSum underscoredSum] := rfl
  obtain ⟨m, hm, hdefinitions⟩ := map_eq_ok.mp hdefinitions
  have hsum : .compoundSum underscoredSum ∈ m.definitions := by
    rw [hdefinitions]
    exact .tail _ (.head _)
  have hproduct : .product underscoredProduct ∈ m.definitions := by
    rw [hdefinitions]
    exact .head _
  have hnil : (⟨"_Nil", 1, []⟩ : Model.Constructor) ∈ underscoredSum.constructors := .head _
  obtain ⟨-, -, hsums, hproducts⟩ := recordNames_agree_iff hm (o := {}) rfl
  obtain ⟨hnames, record, hrecords, hagree⟩ := hsums _ hsum _ hnil
  obtain ⟨other, hothers, hother⟩ := hproducts _ hproduct
  have hsingle : ¬ Doubled ("My_Shape" ++ "_") ∧ ¬ Doubled "_Nil" := by decide +kernel
  have hsingle' : ¬ Doubled "_Pos_" := by decide +kernel
  rw [hagree.2 hsingle] at hrecords
  rw [hother.2 hsingle'] at hothers
  exact ⟨m, hm, rfl, hsum, hnil, hproduct, hnames, hrecords, hothers⟩

/-- A sum that ends in an underscore, a variant and a product with a pair. -/
def doubledModule : Schema where
  name := "m"
  uses := []
  definitions := [
    .sum ⟨"A_", [⟨"V", [], none⟩, ⟨"W__X", [⟨"n", .named "int" .scalar⟩], none⟩], []⟩,
    .product ⟨"P__Q", [], []⟩]

/-- The records of its classes have names that neither the function of the sum nor the
product has. -/
theorem doubledModule_recordNames :
    ∃ m, Model.ofSchema doubledModule = .ok m ∧
      namesOf m {} "A__str" "A__e::V" = ["A_.V"] ∧
      recordsOf m {} "A___V" = [("PrettyTree", "A._V"), ("_AbbreviatedTree", "A._V")] ∧
      namesOf m {} "A__str" "A__e::W__X" = ["A_.W__X"] ∧
      recordsOf m {} "A___W__X" = [("PrettyTree", "A._W.X"), ("_AbbreviatedTree", "A._W.X")] ∧
      recordsOf m {} "P__Q" = [("PrettyTree", "P.Q"), ("_AbbreviatedTree", "P.Q")] := by
  have hvalues : (fun m : Model => (namesOf m {} "A__str" "A__e::V", recordsOf m {} "A___V",
        namesOf m {} "A__str" "A__e::W__X", recordsOf m {} "A___W__X", recordsOf m {} "P__Q"))
        <$> Model.ofSchema doubledModule =
      .ok (["A_.V"], [("PrettyTree", "A._V"), ("_AbbreviatedTree", "A._V")],
        ["A_.W__X"], [("PrettyTree", "A._W.X"), ("_AbbreviatedTree", "A._W.X")],
        [("PrettyTree", "P.Q"), ("_AbbreviatedTree", "P.Q")]) := by
    rfl
  obtain ⟨m, hm, hvalues⟩ := map_eq_ok.mp hvalues
  simp only [Prod.mk.injEq] at hvalues
  exact ⟨m, hm, hvalues⟩

end Header

end Asdl
