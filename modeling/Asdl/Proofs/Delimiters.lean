/-
Parentheses and braces in generated text.

A text is well nested if, read from left to right, every closing delimiter closes the
one that was opened last, and in the end none is open:

* `Delimiter`, `delimiters` — parentheses and braces, and those of a text in order;
* `scan`, `WellNested` — reading delimiters with a stack of what is open;
* `Closes`, `closes_iff` — what leaves everything as open as it was;
* `Closes.insert` — such a part may stand anywhere inside of another one;
* `Item.Plain`, `Item.closes` — an item closes all that it opens if its names have no
  delimiters.

Design notes: the names of an item are dropped first.  What is left is a frame without
parameters, which is read by computation, and the parts repeated inside of it, which
close one by one.
-/
import Asdl.Header.Declarations
import Asdl.Token.Lexer

namespace Asdl

namespace Header

/-! ### Reading delimiters -/

/-- The two kinds of delimiters. -/
inductive Bracket where
  | paren
  | brace
  deriving DecidableEq

inductive Delimiter where
  | opening (b : Bracket)
  | closing (b : Bracket)
  deriving DecidableEq

def Delimiter.ofChar? : Char → Option Delimiter
  | '(' => some (.opening .paren)
  | ')' => some (.closing .paren)
  | '\x7b' => some (.opening .brace)
  | '\x7d' => some (.closing .brace)
  | _ => none

/-- The delimiters of a text, in order. -/
def delimiters (text : String) : List Delimiter :=
  text.toList.filterMap Delimiter.ofChar?

/-- What is open after some delimiters, the last one first.  There is no answer if a
delimiter closes what was not opened last. -/
def scan : List Bracket → List Delimiter → Option (List Bracket)
  | stack, [] => some stack
  | stack, .opening b :: ds => scan (b :: stack) ds
  | [], .closing _ :: _ => none
  | a :: stack, .closing b :: ds => if a = b then scan stack ds else none

/-- Nothing is closed that was not opened last, and nothing stays open. -/
def WellNested (text : String) : Prop := scan [] (delimiters text) = some []

/-- Whatever is open before is open afterwards, and nothing else. -/
def Closes (ds : List Delimiter) : Prop := ∀ stack, scan stack ds = some stack

theorem scan_append (stack : List Bracket) (xs ys : List Delimiter) :
    scan stack (xs ++ ys) = (scan stack xs).bind (scan · ys) := by
  fun_induction scan stack xs with
  | case1 => rfl
  | case2 stack b ds ih => rw [List.cons_append, scan, ih]
  | case3 => rfl
  | case4 stack b ds ih => rw [List.cons_append, scan, if_pos rfl, ih]
  | case5 a stack b ds hne => rw [List.cons_append, scan, if_neg hne, Option.bind_none]

/-- What lies below the stack is never looked at. -/
theorem scan_below {stack after : List Bracket} {ds : List Delimiter}
    (h : scan stack ds = some after) (below : List Bracket) :
    scan (stack ++ below) ds = some (after ++ below) := by
  fun_induction scan stack ds with
  | case1 => rw [scan, Option.some.inj h]
  | case2 stack b ds ih => exact ih h
  | case3 => cases h
  | case4 stack b ds ih => rw [List.cons_append, scan, if_pos rfl, ih h]
  | case5 => cases h

/-- It is enough to look at the empty stack. -/
theorem closes_iff {ds : List Delimiter} : Closes ds ↔ scan [] ds = some [] :=
  ⟨fun h => h [], fun h => scan_below h⟩

theorem wellNested_iff {text : String} : WellNested text ↔ Closes (delimiters text) :=
  closes_iff.symm

theorem closes_nil : Closes [] := fun _ => rfl

/-- **A part that closes may stand anywhere** inside of another one. -/
theorem Closes.insert {xs ys zs : List Delimiter} (h : Closes (xs ++ zs)) (hys : Closes ys) :
    Closes (xs ++ ys ++ zs) := by
  intro stack
  -- from any stack, the part in the middle can be left out
  have hskip : ∀ inner, scan inner (ys ++ zs) = scan inner zs := by
    intro inner
    rw [scan_append, hys, Option.bind_some]
  rw [List.append_assoc, scan_append]
  simp only [hskip]
  rw [← scan_append, h]

theorem Closes.append {xs ys : List Delimiter} (hxs : Closes xs) (hys : Closes ys) :
    Closes (xs ++ ys) := by
  have h : Closes (xs ++ ys ++ []) := .insert (by rwa [List.append_nil]) hys
  rwa [List.append_nil] at h

theorem closes_flatMap {α : Type} {f : α → List Delimiter} {xs : List α}
    (h : ∀ x ∈ xs, Closes (f x)) : Closes (xs.flatMap f) := by
  induction xs with
  | nil => exact closes_nil
  | cons x xs ih =>
    rw [List.flatMap_cons]
    obtain ⟨hx, hxs⟩ := List.forall_mem_cons.mp h
    exact hx.append (ih hxs)

/-! ### Delimiters of texts -/

theorem delimiters_append (a b : String) : delimiters (a ++ b) = delimiters a ++ delimiters b := by
  rw [delimiters, delimiters, delimiters, String.toList_append, List.filterMap_append]

theorem delimiters_empty : delimiters "" = [] := rfl

theorem Closes.of_plain {text : String} (h : delimiters text = []) : Closes (delimiters text) := by
  rw [h]
  exact closes_nil

theorem Closes.insert_text {a b c : String} (h : Closes (delimiters (a ++ c)))
    (hb : Closes (delimiters b)) : Closes (delimiters (a ++ b ++ c)) := by
  rw [delimiters_append, delimiters_append]
  rw [delimiters_append] at h
  exact h.insert hb

theorem delimiters_commas (xs : List String) : delimiters (commas xs) = xs.flatMap delimiters := by
  induction xs with
  | nil => exact delimiters_empty
  | cons x xs ih =>
    rw [List.flatMap_cons, ← ih]
    cases xs with
    | nil =>
      rw [commas, commas, String.intercalate_singleton, String.intercalate_nil, delimiters_empty,
        List.append_nil]
    | cons y ys =>
      have hcomma : delimiters ", " = [] := rfl
      rw [commas, String.intercalate_cons_cons, delimiters_append, delimiters_append, hcomma,
        List.append_nil]
      rfl

/-- Letters, digits and underscores are no delimiters. -/
theorem ofChar?_of_isWordChar {c : Char} (h : isWordChar c = true) :
    Delimiter.ofChar? c = none := by
  unfold Delimiter.ofChar?
  split
  · cases h
  · cases h
  · cases h
  · cases h
  · rfl

theorem delimiters_repr (n : Nat) : delimiters n.repr = [] := by
  rw [delimiters, Nat.toList_repr, List.filterMap_eq_nil_iff]
  intro c hc
  have hdigit : c.isDigit = true := Nat.isDigit_of_mem_toDigits (by decide) (by decide) hc
  exact ofChar?_of_isWordChar (by simp [isWordChar, Char.isAlphanum, hdigit])

/-! ### Generated names -/

/-- Neither underscores nor dots are delimiters. -/
theorem delimiters_recordName (cls : String) : delimiters (recordName cls) = delimiters cls := by
  rw [recordName, delimiters, String.toList_ofList, delimiters]
  fun_induction dotted cls.toList with
  | case1 rest ih => exact ih
  | case2 c rest _ ih => rw [List.filterMap_cons, List.filterMap_cons, ih]
  | case3 => rfl

section Names

variable {n : String} (h : delimiters n = [])
include h

theorem delimiters_typeName : delimiters (typeName n) = [] := by
  rw [typeName, delimiters_append, h]
  rfl

theorem delimiters_enumName : delimiters (enumName n) = [] := by
  rw [enumName, delimiters_append, h]
  rfl

theorem delimiters_intsName : delimiters (intsName n) = [] := by
  rw [intsName, delimiters_append, h]
  rfl

theorem delimiters_memberName {variant : String} (hvariant : delimiters variant = []) :
    delimiters (memberName n variant) = [] := by
  rw [memberName, delimiters_append, delimiters_append, h, hvariant]
  rfl

end Names

theorem delimiters_arraySizeName : delimiters arraySizeName = [] := rfl

theorem delimiters_rootClass : delimiters rootClass = [] := rfl

/-- The type of the tags of compound sums and flat ones. -/
theorem delimiters_int : delimiters "int" = [] := rfl

theorem delimiters_primitive (p : Primitive) : delimiters p.name = [] := by
  cases p <;> rfl

/-! ### Types -/

/-- The names in a type have no delimiters. -/
def CType.Plain : CType → Prop
  | .named name => delimiters name = []
  | .pointer target => target.Plain
  | .optional element => element.Plain
  | .list element => element.Plain
  | .dict key value => key.Plain ∧ value.Plain

theorem plain_ofPrimitive (p : Primitive) : (ofPrimitive p).Plain := by
  cases p <;> rfl

/-- Types are written with angle brackets and stars, which are no delimiters here. -/
theorem CType.delimiters_text {t : CType} (ht : t.Plain) : delimiters t.text = [] := by
  induction t with
  | named name => exact ht
  | pointer target ih =>
    rw [CType.text, delimiters_append, ih ht]
    rfl
  | optional element ih =>
    rw [CType.text, delimiters_append, delimiters_append, ih ht]
    rfl
  | list element ih =>
    rw [CType.text, delimiters_append, delimiters_append, ih ht]
    rfl
  | dict key value ihKey ihValue =>
    simp only [CType.text, delimiters_append, ihKey ht.1, ihValue ht.2]
    rfl

/-! ### Lines -/

/-- The delimiters of some lines, in order. -/
def lineDelimiters (ls : List Line) : List Delimiter := ls.flatMap fun l => delimiters l.text

theorem lineDelimiters_singleton (l : Line) : lineDelimiters [l] = delimiters l.text :=
  List.append_nil _

theorem lineDelimiters_append (xs ys : List Line) :
    lineDelimiters (xs ++ ys) = lineDelimiters xs ++ lineDelimiters ys :=
  List.flatMap_append

theorem lineDelimiters_map {α : Type} (f : α → Line) (xs : List α) :
    lineDelimiters (xs.map f) = xs.flatMap fun x => delimiters (f x).text :=
  List.flatMap_map ..

theorem lineDelimiters_flatMap {α : Type} (f : α → List Line) (xs : List α) :
    lineDelimiters (xs.flatMap f) = xs.flatMap fun x => lineDelimiters (f x) :=
  List.flatMap_assoc

theorem Closes.insert_lines {xs ys zs : List Line} (h : Closes (lineDelimiters (xs ++ zs)))
    (hys : Closes (lineDelimiters ys)) : Closes (lineDelimiters (xs ++ ys ++ zs)) := by
  rw [lineDelimiters_append, lineDelimiters_append]
  rw [lineDelimiters_append] at h
  exact h.insert hys

theorem closes_line {l : Line} (h : Closes (delimiters l.text)) : Closes (lineDelimiters [l]) := by
  rwa [lineDelimiters_singleton]

theorem closes_map {α : Type} {f : α → Line} {xs : List α}
    (h : ∀ x ∈ xs, Closes (delimiters (f x).text)) : Closes (lineDelimiters (xs.map f)) := by
  rw [lineDelimiters_map]
  exact closes_flatMap h

theorem closes_flatMap_lines {α : Type} {f : α → List Line} {xs : List α}
    (h : ∀ x ∈ xs, Closes (lineDelimiters (f x))) : Closes (lineDelimiters (xs.flatMap f)) := by
  rw [lineDelimiters_flatMap]
  exact closes_flatMap h

theorem delimiters_indent (depth : Nat) : delimiters (indent depth) = [] := by
  induction depth with
  | zero => exact delimiters_empty
  | succ n ih =>
    rw [indent, delimiters_append, ih]
    rfl

/-- Spaces and ends of lines are no delimiters. -/
theorem delimiters_render (l : Line) : delimiters l.render = delimiters l.text := by
  have hend : delimiters "\n" = [] := rfl
  rw [Line.render]
  split
  · next h => rw [h, hend, delimiters_empty]
  · rw [delimiters_append, delimiters_append, delimiters_indent, hend, List.append_nil,
      List.nil_append]

theorem delimiters_renderLines (ls : List Line) :
    delimiters (renderLines ls) = lineDelimiters ls := by
  induction ls with
  | nil => exact delimiters_empty
  | cons l ls ih =>
    rw [renderLines, List.map_cons, String.join_cons, delimiters_append, delimiters_render]
    exact congrArg _ ih

theorem delimiters_renderItems (ps : List Placed) :
    delimiters (renderItems ps) = ps.flatMap fun p => lineDelimiters p.item.lines := by
  have hshift : ∀ p : Placed, lineDelimiters p.lines = lineDelimiters p.item.lines :=
    fun p => List.flatMap_map ..
  rw [renderItems, delimiters_renderLines, lineDelimiters_flatMap]
  simp only [hshift]

/-! ### Entries of records -/

def Node.Plain : Node → Prop
  | .label sum => delimiters sum = []
  | _ => True

def Shape.Plain : Shape → Prop
  | .always node => node.Plain
  | .ifSet node => node.Plain
  | .ifValue node => node.Plain
  | .each element node => element.Plain ∧ node.Plain

structure Entry.Plain (e : Entry) : Prop where
  name : delimiters e.name = []
  shape : e.shape.Plain

theorem delimiters_method (t : TreeMethod) : delimiters t.name = [] := by
  cases t <;> rfl

theorem delimiters_nodeVariable (i : Nat) : delimiters (nodeVariable i) = [] := by
  rw [nodeVariable, delimiters_append, delimiters_repr]
  rfl

theorem delimiters_elementVariable (i : Nat) : delimiters (elementVariable i) = [] := by
  rw [elementVariable, delimiters_append, delimiters_repr]
  rfl

/-- The expression for a node closes if the value does that it is made of. -/
theorem Node.closes_expression {node : Node} (hnode : node.Plain) {value : String}
    (hvalue : Closes (delimiters value)) (t : TreeMethod) :
    Closes (delimiters (node.expression value t.name)) := by
  cases node with
  | flag => exact .insert_text (closes_iff.mpr rfl) hvalue
  | number => exact .insert_text (closes_iff.mpr rfl) hvalue
  | text => exact .insert_text (closes_iff.mpr rfl) hvalue
  | external => exact .insert_text (closes_iff.mpr rfl) hvalue
  | label sum =>
    refine .insert_text (closes_iff.mpr ?_) hvalue
    have hsum : delimiters sum = [] := hnode
    simp only [strName, delimiters_append, hsum]
    rfl
  | subtree =>
    have harrow : Closes (delimiters "->") := closes_iff.mpr rfl
    have hcall : Closes (delimiters "()") := closes_iff.mpr rfl
    show Closes (delimiters (value ++ "->" ++ t.name ++ "()"))
    simp only [delimiters_append, delimiters_method]
    exact ((hvalue.append harrow).append closes_nil).append hcall

namespace Entry

variable {e : Entry} (he : delimiters e.name = []) (i : Nat)
include he

theorem delimiters_this : delimiters (thisMember e.name) = [] := by
  rw [thisMember, delimiters_append, he]
  rfl

theorem closes_append : Closes (delimiters (e.append i)) := by
  unfold Entry.append
  refine closes_iff.mpr ?_
  simp only [delimiters_append, delimiters_nodeVariable, he]
  rfl

theorem closes_single (depth : Nat) (inner : TreeMethod) {node : Node} (hnode : node.Plain)
    {value : String} (hvalue : Closes (delimiters value)) :
    Closes (lineDelimiters (e.single i depth inner node value)) := by
  have hdeclaration : Closes (delimiters
      ("hnode_t* " ++ nodeVariable i ++ " = " ++ node.expression value inner.name ++ ";")) := by
    refine .insert_text (closes_iff.mpr ?_) (Node.closes_expression hnode hvalue inner)
    simp only [delimiters_append, delimiters_nodeVariable]
    rfl
  exact hdeclaration.append (closes_line (closes_append he i))

theorem closes_guarded (inner : TreeMethod) {node : Node} (hnode : node.Plain)
    {condition value : String} (hcondition : Closes (delimiters condition))
    (hvalue : Closes (delimiters value)) :
    Closes (lineDelimiters (e.guarded i inner node condition value)) := by
  refine .insert_lines ?_ (closes_single he i 2 inner hnode hvalue)
  -- the two lines of the condition, as one text
  have hframe : Closes (delimiters ("if (" ++ condition ++ (") \x7b" ++ "\x7d"))) :=
    .insert_text (closes_iff.mpr rfl) hcondition
  rw [← String.append_assoc, delimiters_append] at hframe
  rw [lineDelimiters_append, lineDelimiters_singleton, lineDelimiters_singleton]
  exact hframe

/-- **Every entry closes** what it opens. -/
theorem closes_lines (hshape : e.shape.Plain) (inner : TreeMethod) :
    Closes (lineDelimiters (e.lines i inner)) := by
  have hthis := Closes.of_plain (delimiters_this he)
  -- the texts that an entry puts into its lines: the member alone, or a call on it
  have hcall : ∀ call : String, Closes (delimiters call) →
      Closes (delimiters (thisMember e.name ++ call)) := by
    intro call hcall
    rw [delimiters_append]
    exact hthis.append hcall
  unfold Entry.lines
  cases hs : e.shape with
  | always node =>
    rw [hs] at hshape
    exact closes_single he i 1 inner hshape hthis
  | ifSet node =>
    rw [hs] at hshape
    exact closes_guarded he i inner hshape hthis hthis
  | ifValue node =>
    rw [hs] at hshape
    exact closes_guarded he i inner hshape (hcall _ (closes_iff.mpr rfl))
      (hcall _ (closes_iff.mpr rfl))
  | each element node =>
    rw [hs] at hshape
    have happend : Closes (delimiters (nodeVariable i ++ "->children->append("
        ++ node.expression (elementVariable i) inner.name ++ ");")) := by
      refine .insert_text (closes_iff.mpr ?_) (Node.closes_expression hshape.2
        (.of_plain (delimiters_elementVariable i)) inner)
      simp only [delimiters_append, delimiters_nodeVariable]
      rfl
    -- seven lines make the loop; only the one in the middle depends on the node
    show Closes (lineDelimiters ([_, _, _, _] ++ [_] ++ [_, _, _]))
    refine .insert_lines (closes_iff.mpr ?_) (closes_line happend)
    unfold Entry.append
    simp only [lineDelimiters, List.cons_append, List.nil_append, List.flatMap_cons,
      List.flatMap_nil, delimiters_append, delimiters_this he, he, CType.delimiters_text hshape.1,
      delimiters_nodeVariable, delimiters_elementVariable]
    rfl

end Entry

structure RecordBody.Plain (b : RecordBody) : Prop where
  record : delimiters b.record = []
  entries : ∀ e ∈ b.entries, e.Plain

theorem RecordBody.closes {b : RecordBody} (hb : b.Plain) : Closes (lineDelimiters b.lines) := by
  refine .insert_lines (closes_iff.mpr ?_) (closes_flatMap_lines fun e he => ?_)
  · simp only [lineDelimiters, List.flatMap_append, List.flatMap_cons, List.flatMap_nil,
      delimiters_append, hb.record]
    cases b.entries.isEmpty <;> rfl
  · have hplain := hb.entries e.1 (List.fst_mem_of_mem_zipIdx he)
    exact Entry.closes_lines hplain.name e.2 hplain.shape b.inner

/-! ### Data classes -/

def Initial.Plain : Initial → Prop
  | .emptyList element => element.Plain
  | .absent element => element.Plain
  | .enumerator scope variant => delimiters scope = [] ∧ delimiters variant = []
  | _ => True

def Tag.Plain : Tag → Prop
  | .constant scope variant => delimiters scope = [] ∧ delimiters variant = []
  | .number _ => True

structure Member.Plain (m : Member) : Prop where
  name : delimiters m.name = []
  type : m.type.Plain
  initial : m.initial.Plain

structure DataClass.Plain (c : DataClass) : Prop where
  name : delimiters c.name = []
  bases : ∀ b ∈ c.bases, delimiters b = []
  tag : c.tag.Plain
  members : ∀ m ∈ c.members, m.Plain

theorem Initial.closes {i : Initial} (hi : i.Plain) : Closes (delimiters i.text) := by
  cases i with
  | emptyList element =>
    exact .insert_text (closes_iff.mpr rfl) (.of_plain (CType.delimiters_text hi))
  | absent element =>
    exact .insert_text (closes_iff.mpr rfl) (.of_plain (CType.delimiters_text hi))
  | enumerator scope variant =>
    refine .of_plain ?_
    simp only [Initial.text, delimiters_append, hi.1, hi.2]
    rfl
  | _ => exact closes_iff.mpr rfl

theorem Tag.closes {t : Tag} (ht : t.Plain) : Closes (delimiters t.text) := by
  cases t with
  | constant scope variant =>
    refine .insert_text (closes_iff.mpr ?_) (.of_plain ht.2)
    simp only [delimiters_append, ht.1]
    rfl
  | number n => exact .of_plain (delimiters_repr n)

/-- A way to build a value closes if all that it gives to members does. -/
theorem Builder.closes_line {cls : String} (hcls : delimiters cls = []) {b : Builder}
    (hparameters : ∀ m ∈ b.parameters, m.Plain)
    (hsources : ∀ x ∈ b.sources, delimiters x.1 = [] ∧ Closes (delimiters x.2.text)) :
    Closes (delimiters (b.line cls).text) := by
  have hparameter : delimiters (commas (b.parameters.map Member.parameter)) = [] := by
    rw [delimiters_commas, List.flatMap_map, List.flatMap_eq_nil_iff]
    intro m hm
    have hplain := hparameters m hm
    simp only [Member.parameter, delimiters_append, CType.delimiters_text hplain.type, hplain.name]
    rfl
  -- every source is in parentheses of its own
  have hsource : Closes (delimiters
      (commas (b.sources.map fun x => x.1 ++ "(" ++ x.2.text ++ ")"))) := by
    rw [delimiters_commas, List.flatMap_map]
    refine closes_flatMap fun x hx => .insert_text (closes_iff.mpr ?_) (hsources x hx).2
    simp only [delimiters_append, (hsources x hx).1]
    rfl
  refine .insert_text (closes_iff.mpr ?_) hsource
  simp only [delimiters_append, hcls, hparameter]
  rfl

theorem DataClass.closes_builder {c : DataClass} (hc : c.Plain) {b : Builder}
    (hb : b ∈ c.builders) : Closes (delimiters (b.line c.name).text) := by
  have htag : delimiters tagMember = [] ∧ Closes (delimiters (Source.tag c.tag).text) :=
    ⟨rfl, Tag.closes hc.tag⟩
  have hdefault : ∀ m ∈ c.members, delimiters (byDefault m).1 = [] ∧
      Closes (delimiters (byDefault m).2.text) :=
    fun m hm => ⟨(hc.members m hm).name, Initial.closes (hc.members m hm).initial⟩
  have hparameter : ∀ m ∈ c.members, delimiters (byParameter m).1 = [] ∧
      Closes (delimiters (byParameter m).2.text) :=
    fun m hm => ⟨(hc.members m hm).name, .of_plain (hc.members m hm).name⟩
  -- the default way gives every member its initial value, the other one takes the fields
  rcases mem_builders hb with rfl | rfl
  · refine Builder.closes_line hc.name (fun m hm => by cases hm) fun x hx => ?_
    rcases List.mem_cons.mp hx with rfl | hx
    · exact htag
    · obtain ⟨m, hm, rfl⟩ := List.mem_map.mp hx
      exact hdefault m hm
  · refine Builder.closes_line hc.name
      (fun m hm => hc.members m (List.mem_append_left _ hm)) fun x hx => ?_
    rcases List.mem_cons.mp hx with rfl | hx
    · exact htag
    · rcases List.mem_append.mp hx with hx | hx
      · obtain ⟨m, hm, rfl⟩ := List.mem_map.mp hx
        exact hparameter m (List.mem_append_left _ hm)
      · obtain ⟨m, hm, rfl⟩ := List.mem_map.mp hx
        exact hdefault m (List.mem_append_right _ hm)

theorem closes_treeDeclarations (treeMethods : Bool) :
    Closes (lineDelimiters (treeDeclarations treeMethods)) := by
  cases treeMethods
  · exact closes_nil
  · exact closes_iff.mpr rfl

/-- **A class closes** what it opens: its members stand between two braces. -/
theorem DataClass.closes {c : DataClass} (hc : c.Plain) : Closes (lineDelimiters c.lines) := by
  have hbases : delimiters (commas (c.bases.map ("public " ++ ·))) = [] := by
    rw [delimiters_commas, List.flatMap_map, List.flatMap_eq_nil_iff]
    intro b hb
    rw [delimiters_append, hc.bases b hb]
    rfl
  have hmembers : Closes (lineDelimiters (c.members.map Member.line)) := by
    refine closes_map fun m hm => closes_iff.mpr ?_
    have hplain := hc.members m hm
    simp only [Member.line, delimiters_append, CType.delimiters_text hplain.type, hplain.name]
    rfl
  -- the methods, the members and the builders are taken out, in this order
  refine .insert_lines (.insert_lines ?_ hmembers) (closes_treeDeclarations c.treeMethods)
  rw [List.append_assoc]
  refine .insert_lines (closes_iff.mpr ?_) (closes_map fun b hb => closes_builder hc hb)
  simp only [lineDelimiters, List.flatMap_append, List.flatMap_cons, List.flatMap_nil,
    delimiters_append, noCopyLine, Line.blank, hc.name, hbases]
  rfl

/-! ### Items -/

/-- The names in an item have no delimiters. -/
def Item.Plain : Item → Prop
  | .blank => True
  | .forward cls => delimiters cls = []
  | .define name _ => delimiters name = []
  | .constants name values => delimiters name = [] ∧ ∀ v ∈ values, delimiters v.1 = []
  | .enumeration name values => delimiters name = [] ∧ ∀ v ∈ values, delimiters v.1 = []
  | .typedef type name => delimiters type = [] ∧ delimiters name = []
  | .strDeclaration sum tagType => delimiters sum = [] ∧ delimiters tagType = []
  | .sumClass name _ => delimiters name = []
  | .dataClass c => c.Plain
  | .aliases sum constructors => delimiters sum = [] ∧ ∀ v ∈ constructors, delimiters v = []
  | .strFunction sum tagType scope variants =>
    (delimiters sum = [] ∧ delimiters tagType = [] ∧ delimiters scope = []) ∧
      ∀ v ∈ variants, delimiters v = []
  | .recordMethod cls _ body => delimiters cls = [] ∧ body.Plain
  | .hookDeclaration cls => delimiters cls = []
  | .shortMethod cls _ => delimiters cls = []
  | .dispatcher sum _ cases =>
    delimiters sum = [] ∧ ∀ c ∈ cases, delimiters c.1 = [] ∧ delimiters c.2 = []

theorem delimiters_strSignature {sum tagType : String} (hsum : delimiters sum = [])
    (htype : delimiters tagType = []) :
    delimiters (strSignature sum tagType) = [.opening .paren, .closing .paren] := by
  unfold strSignature strName
  simp only [delimiters_append, hsum, htype]
  rfl

theorem delimiters_methodSignature {cls : String} (hcls : delimiters cls = [])
    (method : TreeMethod) :
    delimiters (methodSignature cls method) = [.opening .paren, .closing .paren] := by
  unfold methodSignature
  simp only [delimiters_append, hcls, delimiters_method]
  rfl

theorem closes_sumClass {name : String} (hname : delimiters name = []) (treeMethods : Bool) :
    Closes (lineDelimiters (sumClassLines name treeMethods)) := by
  refine .insert_lines (closes_iff.mpr ?_) (closes_treeDeclarations treeMethods)
  simp only [lineDelimiters, List.flatMap_append, List.flatMap_cons, List.flatMap_nil,
    delimiters_append, noCopyLine, hname]
  rfl

theorem closes_strCase {sum scope variant : String} (hsum : delimiters sum = [])
    (hscope : delimiters scope = []) (hvariant : delimiters variant = []) :
    Closes (lineDelimiters (strCase sum scope variant)) := by
  unfold strCase
  refine closes_iff.mpr ?_
  simp only [lineDelimiters, List.flatMap_cons, List.flatMap_nil, delimiters_append, hsum, hscope,
    hvariant]
  rfl

theorem closes_dispatchCase {sum : String} (hsum : delimiters sum = []) (method : TreeMethod)
    {c : String × String} (hc : delimiters c.1 = [] ∧ delimiters c.2 = []) :
    Closes (lineDelimiters (dispatchCase sum method c)) := by
  unfold dispatchCase
  refine closes_iff.mpr ?_
  simp only [enumName, lineDelimiters, List.flatMap_cons, List.flatMap_nil, delimiters_append,
    delimiters_method, hsum, hc.1, hc.2]
  rfl

theorem closes_shortMethod {cls : String} (hcls : delimiters cls = []) (hook : Bool) :
    Closes (lineDelimiters (Item.shortMethod cls hook).lines) := by
  refine .insert_lines (closes_iff.mpr ?_) ?_
  · simp only [lineDelimiters, List.flatMap_append, List.flatMap_cons, List.flatMap_nil,
      delimiters_append, delimiters_methodSignature hcls]
    rfl
  · split
    · refine closes_iff.mpr ?_
      simp only [hookName, lineDelimiters, List.flatMap_cons, List.flatMap_nil, delimiters_append,
        hcls]
      rfl
    · exact closes_iff.mpr rfl

/-- **An item closes all that it opens** if its names have no delimiters. -/
theorem Item.closes {i : Item} (hi : i.Plain) : Closes (lineDelimiters i.lines) := by
  -- one-line items close by evaluation once their names are gone; items of several lines are
  -- a fixed frame, which closes alone, around parts that close one by one
  cases i with
  | blank => exact closes_iff.mpr rfl
  | forward cls =>
    have hcls : delimiters cls = [] := hi
    refine closes_line (closes_iff.mpr ?_)
    simp only [delimiters_append, hcls]
    rfl
  | define name value =>
    have hname : delimiters name = [] := hi
    refine closes_line (closes_iff.mpr ?_)
    simp only [delimiters_append, hname, delimiters_repr]
    rfl
  | constants name values =>
    refine .insert_lines (closes_iff.mpr ?_) (closes_map fun v hv => closes_iff.mpr ?_)
    · simp only [lineDelimiters, List.flatMap_append, List.flatMap_cons, List.flatMap_nil,
        delimiters_append, hi.1]
      rfl
    · simp only [delimiters_append, hi.2 v hv, delimiters_repr]
      rfl
  | enumeration name values =>
    refine .insert_lines (closes_iff.mpr ?_) (closes_map fun v hv => closes_iff.mpr ?_)
    · simp only [lineDelimiters, List.flatMap_append, List.flatMap_cons, List.flatMap_nil,
        delimiters_append, hi.1]
      rfl
    · simp only [delimiters_append, hi.2 v hv, delimiters_repr]
      rfl
  | typedef type name =>
    refine closes_line (closes_iff.mpr ?_)
    simp only [delimiters_append, hi.1, hi.2]
    rfl
  | strDeclaration sum tagType =>
    refine closes_line (closes_iff.mpr ?_)
    rw [delimiters_append, delimiters_strSignature hi.1 hi.2]
    rfl
  | sumClass name treeMethods => exact closes_sumClass hi treeMethods
  | dataClass c => exact DataClass.closes hi
  | aliases sum constructors =>
    refine .insert_lines (closes_iff.mpr ?_) (closes_map fun v hv => closes_iff.mpr ?_)
    · simp only [lineDelimiters, List.flatMap_append, List.flatMap_cons, List.flatMap_nil,
        delimiters_append, hi.1]
      rfl
    · simp only [memberName, delimiters_append, hi.1, hi.2 v hv]
      rfl
  | strFunction sum tagType scope variants =>
    obtain ⟨⟨hsum, htype, hscope⟩, hvariants⟩ := hi
    refine .insert_lines (closes_iff.mpr ?_)
      (closes_flatMap_lines fun v hv => closes_strCase hsum hscope (hvariants v hv))
    simp only [lineDelimiters, List.flatMap_append, List.flatMap_cons, List.flatMap_nil,
      delimiters_append, delimiters_strSignature hsum htype]
    rfl
  | recordMethod cls method body =>
    refine .insert_lines (closes_iff.mpr ?_) (RecordBody.closes hi.2)
    simp only [lineDelimiters, List.flatMap_append, List.flatMap_cons, List.flatMap_nil,
      delimiters_append, delimiters_methodSignature hi.1]
    rfl
  | hookDeclaration cls =>
    have hcls : delimiters cls = [] := hi
    refine closes_line (closes_iff.mpr ?_)
    simp only [hookName, delimiters_append, hcls]
    rfl
  | shortMethod cls hook => exact closes_shortMethod hi hook
  | dispatcher sum method cases =>
    refine .insert_lines (closes_iff.mpr ?_)
      (closes_flatMap_lines fun c hc => closes_dispatchCase hi.1 method (hi.2 c hc))
    simp only [lineDelimiters, List.flatMap_append, List.flatMap_cons, List.flatMap_nil,
      delimiters_append, delimiters_methodSignature (delimiters_typeName hi.1)]
    rfl

-- from here on names and texts are compared, not evaluated
attribute [irreducible] delimiters

end Header

end Asdl
