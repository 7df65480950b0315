/-
What the bodies of the tree methods do with the members of a class.

The full tree has an entry for each field and then for each attribute, the short one for
the fields only.  A member that can be missing or empty is looked at under a test:

* `TreeDuty`, `treeDuties` — what the two bodies of a class have to do;
* `Appends` — what the statements for one member do, held against the type of the member;
* `Context.appends_block` — they do, whatever the type;
* `generate_treesAppend` — hence in every body of every header.

Design notes: there is one block for each member, under at most one test, so a statement is
inside of the test of its block.  The loop over a list stands in the block of its member and
is a single step here; what it reads are the elements of the list.
-/
import Asdl.Proofs.DataClasses

namespace Asdl

namespace Header

open Model (FieldType TypeRef)

/-! ### What a body has to do -/

/-- The types of members that are appended only if there is something to append. -/
inductive Conditional : FieldType → Prop where
  | sum (n : String) : Conditional (.scalar (.compoundSum n))
  | product (n : String) : Conditional (.scalar (.product n))
  | optional (t : TypeRef) : Conditional (.optional t)
  | repeated (t : TypeRef) : Conditional (.repeated t)

/-- Whether a value has a tree of its own. -/
def hasTree : TypeRef → Bool
  | .compoundSum _ => true
  | .product _ => true
  | _ => false

theorem isNested_eq (t : TypeRef) : isNested t = hasTree t := by
  cases t <;> rfl

/-- Whether a member holds such values; maps are not looked into. -/
def holdsTrees : FieldType → Bool
  | .scalar t => hasTree t
  | .optional t => hasTree t
  | .repeated t => hasTree t
  | .map _ _ => false

/-- The statements for member `i` do what its type asks for. -/
structure Appends (c : Context) (inner : String) (f : Model.Field) (i : Nat) (b : Block) :
    Prop where
  /-- One entry is appended, at the end, after its variable was declared once. -/
  entry : ∃ before, b.steps = before ++ [.append i f.name] ∧
    before.flatMap Statement.declares = [i] ∧ before.flatMap Statement.appends = []
  /-- The node is made from the member, from its value or from its elements. -/
  read : ∃ x, b.operands = [x] ∧ (x = .member f.name ∨ x = .content f.name ∨
    x = .element i ∧ b.loops.map Prod.fst = [f.name])
  /-- Whether there is a value is asked iff the member is an optional. -/
  asked : b.guard = some (.present f.name) ↔ ∃ e, c.member f.type = .optional e
  /-- So is the value taken, and only under that test. -/
  taken : .content f.name ∈ b.operands ↔ ∃ e, c.member f.type = .optional e
  taken_guarded : ∀ n, .content n ∈ b.operands → b.guard = some (.present n)
  tested : ∀ t, b.guard = some t → t.member = f.name
  guarded : b.guard ≠ none ↔ Conditional f.type
  /-- Trees inside of the tree are made by the method `inner`. -/
  called : b.calls.map Prod.snd = if holdsTrees f.type then [inner] else []
  /-- A tree is asked of the member or of its elements, and only under a test of it. -/
  called_guarded : ∀ x ∈ b.calls, (x.1 = .member f.name ∨ x.1 = .element i) ∧ b.guard ≠ none
  /-- The member is gone through iff it is a list, with elements of that type. -/
  looped : ∀ list element, (list, element) ∈ b.loops ↔
    list = f.name ∧ c.member f.type = .pointer (.list element)

/-- A method that makes a record: the members in it, and the method for trees inside. -/
structure TreeDuty where
  cls : String
  method : String
  inner : String
  members : List Model.Field

/-- The full tree has all members, the short one the fields. -/
def treeDuties (d : ClassData) : List TreeDuty :=
  [⟨d.name, "PrettyTree", "PrettyTree", d.fields ++ d.attributes⟩,
    ⟨d.name, "_AbbreviatedTree", "AbbreviatedTree", d.fields⟩]

/-- A method makes the record that it has to make. -/
structure Fulfils (c : Context) (duty : TreeDuty) (w : TreeText) : Prop where
  cls : w.cls = duty.cls
  method : w.method = duty.method
  appended : w.blocks.flatMap Block.appended = (duty.members.map Model.Field.name).zipIdx
  declared : w.blocks.flatMap Block.declared = List.range duty.members.length
  blocks : List.Forall₂ (fun f b => Appends c duty.inner f.1 f.2 b) duty.members.zipIdx w.blocks

/-! ### One member -/

/-- Neither an optional nor a list. -/
def IsPlain (x : CType) : Prop := (∀ e, x ≠ .optional e) ∧ ∀ e, x ≠ .pointer (.list e)

theorem NodeText.call?_nodeOf (t : TypeRef) (operand : Operand) (method : String) :
    (⟨nodeOf t, operand, method⟩ : NodeText).call? =
      if hasTree t then some (operand, method) else none := by
  cases t with
  | primitive p => cases p <;> rfl
  | _ => rfl

theorem conditional_scalar {t : TypeRef} : Conditional (.scalar t) ↔ hasTree t = true := by
  constructor
  · rintro (_ | _)
    · rfl
    · rfl
  · cases t with
    | compoundSum n => exact fun _ => .sum n
    | product n => exact fun _ => .product n
    | _ => intro h; cases h

theorem not_hasTree_of_isValue {t : TypeRef} (h : isValue t = true) : hasTree t = false := by
  cases t with
  | compoundSum n => cases h
  | product n => cases h
  | _ => rfl

namespace Context

variable (c : Context)

theorem isPlain_element (t : TypeRef) : IsPlain (c.element t) := by
  have hshape : (∃ n, c.element t = .named n) ∨ ∃ n, c.element t = .pointer (.named n) := by
    cases t with
    | primitive p => cases p <;> simp [element, ofPrimitive]
    | _ => simp [element]
  rcases hshape with ⟨n, hn⟩ | ⟨n, hn⟩ <;> simp [IsPlain, hn]

variable {c}

/-- A plain member whose node needs no call. -/
theorem appends_always {name : String} {type : FieldType} {node : Node} {inner : String}
    {i : Nat} (htype : ¬ Conditional type) (htrees : holdsTrees type = false)
    (hcall : ∀ o m, (⟨node, o, m⟩ : NodeText).call? = none) (hplain : IsPlain (c.member type)) :
    Appends c inner ⟨name, type⟩ i (Entry.block inner ⟨name, .always node⟩ i) where
  entry := ⟨[_], rfl, rfl, rfl⟩
  read := ⟨_, rfl, .inl rfl⟩
  asked := by simp [Entry.block, hplain.1]
  taken := by simp [Entry.block, Block.operands, Statement.values, hplain.1]
  taken_guarded := by simp [Entry.block, Block.operands, Statement.values]
  tested := by simp [Entry.block]
  guarded := iff_of_false (fun h => h rfl) htype
  called := by simp [Entry.block, Block.calls, Statement.values, hcall, htrees]
  called_guarded := by simp [Entry.block, Block.calls, Statement.values, hcall]
  looped := by simp [Entry.block, Block.loops, Statement.loops, hplain.2]

/-- A plain member that may be null. -/
theorem appends_ifSet {name : String} {type : FieldType} {t : TypeRef} {inner : String}
    {i : Nat} (htype : Conditional type) (htrees : holdsTrees type = hasTree t)
    (hplain : IsPlain (c.member type)) :
    Appends c inner ⟨name, type⟩ i (Entry.block inner ⟨name, .ifSet (nodeOf t)⟩ i) where
  entry := ⟨[_], rfl, rfl, rfl⟩
  read := ⟨_, rfl, .inl rfl⟩
  asked := by simp [Entry.block, hplain.1]
  taken := by simp [Entry.block, Block.operands, Statement.values, hplain.1]
  taken_guarded := by simp [Entry.block, Block.operands, Statement.values]
  tested := by simp [Entry.block, Test.member]
  guarded := iff_of_true (by simp [Entry.block]) htype
  called := by
    cases hn : hasTree t <;>
      simp [Entry.block, Block.calls, Statement.values, NodeText.call?_nodeOf, htrees, hn]
  called_guarded := by
    cases hn : hasTree t <;>
      simp [Entry.block, Block.calls, Statement.values, NodeText.call?_nodeOf, hn]
  looped := by simp [Entry.block, Block.loops, Statement.loops, hplain.2]

theorem appends_ifValue {name : String} {t : TypeRef} {inner : String} {i : Nat}
    (ht : isValue t = true) :
    Appends c inner ⟨name, .optional t⟩ i
      (Entry.block inner ⟨name, .ifValue (nodeOf t)⟩ i) where
  entry := ⟨[_], rfl, rfl, rfl⟩
  read := ⟨_, rfl, .inr (.inl rfl)⟩
  asked := by simp [Entry.block, member, ht]
  taken := by simp [Entry.block, Block.operands, Statement.values, member, ht]
  taken_guarded := by simp [Entry.block, Block.operands, Statement.values]
  tested := by simp [Entry.block, Test.member]
  guarded := iff_of_true (by simp [Entry.block]) (.optional t)
  -- Values have no trees of their own, so nothing is called.
  called := by
    simp [Entry.block, Block.calls, Statement.values, NodeText.call?_nodeOf, holdsTrees,
      not_hasTree_of_isValue ht]
  called_guarded := by
    simp [Entry.block, Block.calls, Statement.values, NodeText.call?_nodeOf,
      not_hasTree_of_isValue ht]
  looped := by simp [Entry.block, Block.loops, Statement.loops, member, ht]

theorem appends_each {name : String} {t : TypeRef} {inner : String} {i : Nat} :
    Appends c inner ⟨name, .repeated t⟩ i
      (Entry.block inner ⟨name, .each (c.element t) (nodeOf t)⟩ i) where
  entry := ⟨[_, _], rfl, rfl, rfl⟩
  read := ⟨_, rfl, .inr (.inr ⟨rfl, rfl⟩)⟩
  asked := by simp [Entry.block, member]
  taken := by simp [Entry.block, Block.operands, Statement.values, member]
  taken_guarded := by simp [Entry.block, Block.operands, Statement.values]
  tested := by simp [Entry.block, Test.member]
  guarded := iff_of_true (by simp [Entry.block]) (.repeated t)
  called := by
    cases hn : hasTree t <;>
      simp [Entry.block, Block.calls, Statement.values, NodeText.call?_nodeOf, holdsTrees, hn]
  called_guarded := by
    cases hn : hasTree t <;>
      simp [Entry.block, Block.calls, Statement.values, NodeText.call?_nodeOf, hn]
  looped := by
    simp [Entry.block, Block.loops, Statement.loops, member, eq_comm]

variable (c)

theorem appends_block (inner : String) (f : Model.Field) (i : Nat) :
    Appends c inner f i ((c.entry f).block inner i) := by
  obtain ⟨name, type⟩ := f
  cases type with
  | scalar t =>
    rw [entry, shape]
    split
    · next hn =>
      rw [isNested_eq] at hn
      exact appends_ifSet (conditional_scalar.2 hn) rfl (c.isPlain_element t)
    · next hn =>
      rw [isNested_eq] at hn
      have hcall (o m) : (⟨nodeOf t, o, m⟩ : NodeText).call? = none := by
        rw [NodeText.call?_nodeOf, if_neg hn]
      exact appends_always (mt conditional_scalar.1 hn) (Bool.eq_false_iff.2 hn) hcall
        (c.isPlain_element t)
  -- an optional value is asked for its presence, any other optional type for null
  | optional t =>
    rw [entry, shape]
    split
    · next hv => exact appends_ifValue hv
    · next hv =>
      have hmember : c.member (.optional t) = c.element t := if_neg hv
      exact appends_ifSet (.optional t) rfl (hmember ▸ c.isPlain_element t)
  | repeated t => exact appends_each
  -- maps are one leaf, whatever they hold
  | map k v =>
    have htype : ¬ Conditional (.map k v) := by
      intro h
      cases h
    have hplain : IsPlain (c.member (.map k v)) := by
      constructor <;> intro e h <;> cases h
    exact appends_always htype rfl (fun _ _ => rfl) hplain

end Context

/-! ### One body -/

namespace Appends

variable {c : Context} {inner : String} {f : Model.Field} {i : Nat} {b : Block}

theorem appended (h : Appends c inner f i b) : b.appended = [(f.name, i)] := by
  obtain ⟨before, hsteps, -, hbefore⟩ := h.entry
  rw [Block.appended, hsteps, List.flatMap_append, hbefore]
  rfl

theorem declared (h : Appends c inner f i b) : b.declared = [i] := by
  obtain ⟨before, hsteps, hbefore, -⟩ := h.entry
  rw [Block.declared, hsteps, List.flatMap_append, hbefore]
  rfl

end Appends

namespace Context

variable (c : Context)

/-- The body that makes a record of some members. -/
def treeText (cls method record : String) (inner : String) (members : List Model.Field) :
    TreeText :=
  ⟨cls, method, record, members.zipIdx.map fun f => (c.entry f.1).block inner f.2⟩

theorem fulfils_treeText (cls method record : String) (inner : String)
    (members : List Model.Field) :
    Fulfils c ⟨cls, method, inner, members⟩ (c.treeText cls method record inner members) where
  cls := rfl
  method := rfl
  appended := by
    have happended (x : Model.Field × Nat) :
        ((c.entry x.1).block inner x.2).appended = [(x.1.name, x.2)] :=
      (c.appends_block inner x.1 x.2).appended
    rw [treeText, List.flatMap_map, List.zipIdx_map]
    simp only [happended, List.map_eq_flatMap]
    rfl
  declared := by
    have hdeclared (x : Model.Field × Nat) : ((c.entry x.1).block inner x.2).declared = [x.2] :=
      (c.appends_block inner x.1 x.2).declared
    rw [treeText, List.flatMap_map]
    simp only [hdeclared]
    rw [← List.map_eq_flatMap, List.zipIdx_map_snd, List.range_eq_range']
  blocks := by
    rw [treeText, List.forall₂_map_right_iff, List.forall₂_same]
    exact fun x _ => c.appends_block inner x.1 x.2

/-- The bodies of a class with data. -/
def treeTexts (d : ClassData) : List TreeText :=
  [c.treeText d.name "PrettyTree" (recordName d.name) "PrettyTree" (d.fields ++ d.attributes),
    c.treeText d.name "_AbbreviatedTree" (recordName d.name) "AbbreviatedTree" d.fields]

/-! ### Whole headers -/

theorem filterMap_tree?_treeItems (d : ClassData) :
    (c.treeItems d.name d.fields d.attributes).filterMap Item.tree? = c.treeTexts d := by
  have hblocks (inner : TreeMethod) (members : List Model.Field) :
      (⟨recordName d.name, inner, members.map c.entry⟩ : RecordBody).blocks =
        members.zipIdx.map fun f => (c.entry f.1).block inner.spelling f.2 := by
    rw [RecordBody.blocks, List.zipIdx_map, List.map_map]
    rfl
  have hfull : (c.fullBody d.name d.fields d.attributes).blocks =
      (d.fields ++ d.attributes).zipIdx.map fun f => (c.entry f.1).block "PrettyTree" f.2 :=
    hblocks .full _
  have hshort : (c.shortBody d.name d.fields).blocks =
      d.fields.zipIdx.map fun f => (c.entry f.1).block "AbbreviatedTree" f.2 :=
    hblocks .short _
  rw [treeTexts, treeText, treeText, ← hfull, ← hshort, treeItems]
  cases c.options.hasHook d.name <;> rfl

theorem filterMap_tree?_bodyItemsOf (ho : c.options.treeMethods = true) (d : Model.Definition) :
    (c.bodyItemsOf d).filterMap Item.tree? = (dataOf d).flatMap c.treeTexts := by
  have hfunctions : (c.functionItems d).filterMap Item.tree? = [] := by
    cases d <;> rfl
  rw [bodyItemsOf, if_pos ho, List.filterMap_append, hfunctions, List.nil_append]
  cases d with
  | simpleSum t => rfl
  | compoundSum t =>
    -- the base makes no records, it asks the class that the tag stands for
    have hbase : (dispatchItems t).filterMap Item.tree? = [] := rfl
    rw [methodItems, List.filterMap_append, hbase, List.append_nil, List.filterMap_flatMap, dataOf,
      List.flatMap_map]
    simp only [← filterMap_tree?_treeItems]
    rfl
  | product p =>
    rw [methodItems, dataOf, List.flatMap_singleton, ← filterMap_tree?_treeItems]
    rfl

end Context

theorem filterMap_tree? {s : Schema} {m : Model} (h : Model.Resolves s m) {o : Options}
    (ho : o.treeMethods = true) :
    (headerItems m o).filterMap Item.tree? =
      (m.definitions.flatMap dataOf).flatMap (Context.treeTexts ⟨m, o⟩) := by
  have hdefined : (headerItems m o).filterMap Item.tree? =
      (definedItems m o).filterMap Item.tree? := by
    refine filterMap_of_isBody h o fun i hi => ?_
    cases i with
    | recordMethod cls method body => cases hi
    | _ => rfl
  rw [hdefined, definedItems_eq, Context.bodyItems, List.filterMap_flatMap, List.flatMap_assoc]
  simp only [Context.filterMap_tree?_bodyItemsOf ⟨m, o⟩ ho]

/-- **Every tree method appends what it has to.**  There are two bodies for each class with
data, in order; each is spelled as it is read back. -/
theorem generate_treesAppend {s : Schema} {m : Model} (hm : Model.ofSchema s = .ok m)
    {o : Options} (ho : o.treeMethods = true) :
    (∃ out, (generate m o).result = .ok out ∧ out.code = spell (headerItems m o)) ∧
    (∀ i ∈ headerItems m o, ∀ w, i.tree? = some w → i.spelling = w.lines) ∧
    List.Forall₂ (Fulfils ⟨m, o⟩) ((m.definitions.flatMap dataOf).flatMap treeDuties)
      ((headerItems m o).filterMap Item.tree?) := by
  have h := Model.ofSchema_eq_ok.mp hm
  refine ⟨exists_code_spelled h o, fun i _ w hw => ?_, ?_⟩
  · rw [← i.lines_eq_spelling, Item.lines_of_tree? hw]
  · rw [filterMap_tree? h ho]
    refine forall₂_flatMap fun d _ => ?_
    exact .cons (Context.fulfils_treeText _ _ _ _ _ _)
      (.cons (Context.fulfils_treeText _ _ _ _ _ _) .nil)

/-- Members that are there, that may be missing and that are lists. -/
def branchingModule : Schema where
  name := "m"
  uses := []
  definitions := [
    .product ⟨"Pos", [⟨"line", .named "int" .scalar⟩], []⟩,
    .sum ⟨"Tree", [⟨"Node", [⟨"left", .named "Tree" .scalar⟩, ⟨"kids", .named "Tree" .repeated⟩,
      ⟨"depth", .named "int" .optional⟩, ⟨"label", .named "string" .optional⟩], none⟩],
      [⟨"pos", .named "Pos" .optional⟩]⟩]

theorem branchingModule_treesAppend :
    ∃ m, Model.ofSchema branchingModule = .ok m ∧ ({} : Options).treeMethods = true ∧
      ((headerItems m {}).filterMap Item.tree?).map (fun w => (w.cls, w.method,
          w.blocks.map fun b => (b.guard, b.calls, b.appended))) =
        [("Pos", "PrettyTree", [(none, [], [("line", 0)])]),
          ("Pos", "_AbbreviatedTree", [(none, [], [("line", 0)])]),
          ("Tree__Node", "PrettyTree",
            [(some (.set "left"), [(.member "left", "PrettyTree")], [("left", 0)]),
              (some (.filled "kids"), [(.element 1, "PrettyTree")], [("kids", 1)]),
              (some (.present "depth"), [], [("depth", 2)]),
              (some (.set "label"), [], [("label", 3)]),
              (some (.set "pos"), [(.member "pos", "PrettyTree")], [("pos", 4)])]),
          ("Tree__Node", "_AbbreviatedTree",
            [(some (.set "left"), [(.member "left", "AbbreviatedTree")], [("left", 0)]),
              (some (.filled "kids"), [(.element 1, "AbbreviatedTree")], [("kids", 1)]),
              (some (.present "depth"), [], [("depth", 2)]),
              (some (.set "label"), [], [("label", 3)])])] ∧
      List.Forall₂ (Fulfils ⟨m, {}⟩) ((m.definitions.flatMap dataOf).flatMap treeDuties)
        ((headerItems m {}).filterMap Item.tree?) := by
  have hbodies : (fun m : Model => ((headerItems m {}).filterMap Item.tree?).map fun w =>
        (w.cls, w.method, w.blocks.map fun b => (b.guard, b.calls, b.appended)))
        <$> Model.ofSchema branchingModule =
      .ok [("Pos", "PrettyTree", [(none, [], [("line", 0)])]),
          ("Pos", "_AbbreviatedTree", [(none, [], [("line", 0)])]),
          ("Tree__Node", "PrettyTree",
            [(some (.set "left"), [(.member "left", "PrettyTree")], [("left", 0)]),
              (some (.filled "kids"), [(.element 1, "PrettyTree")], [("kids", 1)]),
              (some (.present "depth"), [], [("depth", 2)]),
              (some (.set "label"), [], [("label", 3)]),
              (some (.set "pos"), [(.member "pos", "PrettyTree")], [("pos", 4)])]),
          ("Tree__Node", "_AbbreviatedTree",
            [(some (.set "left"), [(.member "left", "AbbreviatedTree")], [("left", 0)]),
              (some (.filled "kids"), [(.element 1, "AbbreviatedTree")], [("kids", 1)]),
              (some (.present "depth"), [], [("depth", 2)]),
              (some (.set "label"), [], [("label", 3)])])] := by
    rfl
  obtain ⟨m, hm, hbodies⟩ := map_eq_ok.mp hbodies
  exact ⟨m, hm, rfl, hbodies, (generate_treesAppend hm rfl).2.2⟩

end Header

end Asdl
