/-
How headers are spelled.

An item of a header holds names, types, constants and statements.  What is written for it is
spelled out here letter by letter, once for every kind of item, and whatever is said about
the text of a header is said about items that are spelled like this:

* `Line.spelling`, `CType.spelling`, `Initial.spelling`, `Tag.spelling` — lines with their
  indentation, types, and what members are set to;
* `WrittenClass`, `NamesText`, `Switch`, `TreeText` — the larger kinds of items, as they are
  read back (`Item.written?`, `Item.names?`, `Item.switch?`, `Item.tree?`);
* `Item.spelling`, `Item.lines_eq_spelling` — items of all kinds;
* `spell`, `exists_code_spelled` — whole headers, and `spellAt` — parts of one at depths of
  their own.

Design notes: nothing here asks how a header is generated.  A spelling is put together from
the parts of an item and from fixed letters only, so it pins the text down by itself.
-/
import Asdl.Proofs.HeaderNames

namespace Asdl

namespace Header

/-! ### Lines -/

/-- A line with two spaces for each level; without text nothing is left but its end. -/
def Line.spelling (l : Line) : String :=
  if l.text = "" then "\n" else String.ofList (List.replicate (2 * l.depth) ' ') ++ l.text ++ "\n"

theorem indent_eq_spaces (depth : Nat) :
    indent depth = String.ofList (List.replicate (2 * depth) ' ') := by
  induction depth with
  | zero => rfl
  | succ n ih =>
    have hspaces : List.replicate (2 * (n + 1)) ' ' = [' ', ' '] ++ List.replicate (2 * n) ' ' := by
      rw [Nat.mul_succ, Nat.add_comm, List.replicate_add]
      rfl
    rw [indent, ih, hspaces, String.ofList_append]

theorem Line.render_eq_spelling (l : Line) : l.render = l.spelling := by
  rw [render, spelling, indent_eq_spaces]

/-! ### Types and values -/

def CType.spelling : CType → String
  | named name => name
  | pointer target => target.spelling ++ "*"
  | optional element => "Optional<" ++ element.spelling ++ ">"
  | list element => "List<" ++ element.spelling ++ ">"
  | dict key value => "Dict<" ++ key.spelling ++ ", " ++ value.spelling ++ ">"

theorem CType.text_eq_spelling (x : CType) : x.text = x.spelling := by
  induction x with
  | named name => rfl
  | pointer target ih => rw [text, spelling, ih]
  | optional element ih => rw [text, spelling, ih]
  | list element ih => rw [text, spelling, ih]
  | dict key value ihk ihv => rw [text, spelling, ihk, ihv]

def Initial.spelling : Initial → String
  | null => "nullptr"
  | minusOne => "-1"
  | zero => "0"
  | zeroFloat => "0.0"
  | no => "false"
  | emptyString => "new Str(\"\")"
  | emptyList element => "new List<" ++ element.spelling ++ ">()"
  | absent element => "Optional<" ++ element.spelling ++ ">()"
  | enumerator enumeration variant => enumeration ++ "::" ++ variant

theorem Initial.text_eq_spelling (i : Initial) : i.text = i.spelling := by
  cases i with
  | emptyList element => rw [text, spelling, CType.text_eq_spelling]
  | absent element => rw [text, spelling, CType.text_eq_spelling]
  | _ => rfl

def Tag.spelling : Tag → String
  | constant enumeration variant =>
    "static_cast<uint16_t>(" ++ enumeration ++ "::" ++ variant ++ ")"
  | number n => n.repr

def Source.spelling : Source → String
  | tag t => t.spelling
  | initial i => i.spelling
  | parameter name => name

theorem Source.text_eq_spelling (x : Source) : x.text = x.spelling := by
  cases x with
  | tag t => cases t <;> rfl
  | initial i => exact i.text_eq_spelling
  | parameter name => rfl

/-! ### Tree methods -/

/-- The methods that build trees, as they are written. -/
def treeNames : List String := ["PrettyTree", "_AbbreviatedTree", "AbbreviatedTree"]

theorem nodup_treeNames : treeNames.Nodup := by decide

def TreeMethod.spelling : TreeMethod → String
  | full => "PrettyTree"
  | shortOwn => "_AbbreviatedTree"
  | short => "AbbreviatedTree"

theorem TreeMethod.name_eq_spelling (m : TreeMethod) : m.name = m.spelling := by
  cases m <;> rfl

/-- The declarations of some tree methods inside of a class. -/
def methodDeclarations (names : List String) : List Line :=
  names.map fun n => ⟨1, "hnode_t* " ++ n ++ "();"⟩

theorem treeDeclarations_eq (treeMethods : Bool) :
    treeDeclarations treeMethods =
      methodDeclarations (if treeMethods then treeNames else []) := by
  cases treeMethods <;> rfl

/-- The first line of a method outside of its class. -/
def methodHead (cls method : String) : Line :=
  ⟨0, "hnode_t* " ++ cls ++ "::" ++ method ++ "() \x7b"⟩

theorem methodSignature_eq (cls : String) (method : TreeMethod) :
    ⟨0, methodSignature cls method ++ " \x7b"⟩ = methodHead cls method.spelling := by
  rw [methodSignature, method.name_eq_spelling, String.append_assoc]
  rfl

/-! ### Classes -/

/-- A builder as it is written: types and names of the parameters, and what each member
is set to. -/
structure BuilderText where
  parameters : List (String × String)
  initialisers : List (String × String)
  deriving DecidableEq

def BuilderText.line (cls : String) (b : BuilderText) : Line :=
  ⟨1, cls ++ "(" ++ ", ".intercalate (b.parameters.map fun p => p.1 ++ " " ++ p.2) ++ ") : "
    ++ ", ".intercalate (b.initialisers.map fun i => i.1 ++ "(" ++ i.2 ++ ")") ++ " \x7b\x7d"⟩

/-- A class with data as it is written: its builders, and types and names of its members. -/
structure WrittenClass where
  name : String
  bases : String
  builders : List BuilderText
  members : List (String × String)
  treeMethods : Bool
  deriving DecidableEq

namespace WrittenClass

def lines (w : WrittenClass) : List Line :=
  [⟨0, "class " ++ w.name ++ " : " ++ w.bases ++ " \x7b"⟩, ⟨0, " public:"⟩]
    ++ w.builders.map (BuilderText.line w.name)
    ++ w.members.map (fun m => ⟨1, m.1 ++ " " ++ m.2 ++ ";"⟩)
    ++ (if w.treeMethods then
        [⟨1, "hnode_t* PrettyTree();"⟩, ⟨1, "hnode_t* _AbbreviatedTree();"⟩,
          ⟨1, "hnode_t* AbbreviatedTree();"⟩]
      else [])
    ++ [⟨0, ""⟩, ⟨1, "DISALLOW_COPY_AND_ASSIGN(" ++ w.name ++ ")"⟩, ⟨0, "\x7d;"⟩]

/-- The lines up to the builders. -/
def opening (w : WrittenClass) : List Line :=
  [⟨0, "class " ++ w.name ++ " : " ++ w.bases ++ " \x7b"⟩, ⟨0, " public:"⟩]
    ++ w.builders.map (BuilderText.line w.name)

def closing (w : WrittenClass) : List Line :=
  [⟨0, ""⟩, ⟨1, "DISALLOW_COPY_AND_ASSIGN(" ++ w.name ++ ")"⟩, ⟨0, "\x7d;"⟩]

end WrittenClass

/-- The bases of a class, as its first line has them. -/
def basesText (bases : List String) : String := ", ".intercalate (bases.map ("public " ++ ·))

def Builder.written (b : Builder) : BuilderText :=
  ⟨b.parameters.map fun x => (x.type.spelling, x.name),
    b.sources.map fun y => (y.1, y.2.spelling)⟩

def DataClass.written (k : DataClass) : WrittenClass where
  name := k.name
  bases := basesText k.bases
  builders := k.builders.map Builder.written
  members := ("uint16_t", "tag") :: k.members.map fun x => (x.type.spelling, x.name)
  treeMethods := k.treeMethods

theorem Member.parameter_eq (x : Member) : x.parameter = x.type.spelling ++ " " ++ x.name := by
  rw [parameter, CType.text_eq_spelling]

theorem Member.line_eq (x : Member) : x.line = ⟨1, x.type.spelling ++ " " ++ x.name ++ ";"⟩ := by
  rw [line, CType.text_eq_spelling]

/-- The class with data that an item holds, as it is written. -/
def Item.written? (i : Item) : Option WrittenClass := i.dataClass?.map DataClass.written

theorem filterMap_written?_eq (items : List Item) :
    items.filterMap Item.written? = (items.filterMap Item.dataClass?).map DataClass.written := by
  rw [List.map_filterMap]
  rfl

theorem Builder.line_written (cls : String) (b : Builder) :
    b.line cls = b.written.line cls := by
  simp only [Builder.line, Builder.written, BuilderText.line, commas, Source.text_eq_spelling,
    List.map_map, Function.comp_def, ← Member.parameter_eq]

theorem DataClass.lines_written (k : DataClass) : k.lines = k.written.lines := by
  have hbuilders : k.builders.map (Builder.line k.name) =
      (k.builders.map Builder.written).map (BuilderText.line k.name) := by
    rw [List.map_map]
    exact List.map_congr_left fun b _ => b.line_written k.name
  have hmembers : k.members.map Member.line =
      (k.members.map fun x => (x.type.spelling, x.name)).map
        fun m => ⟨1, m.1 ++ " " ++ m.2 ++ ";"⟩ := by
    simp only [List.map_map, Function.comp_def, ← Member.line_eq]
  have hmethods : treeDeclarations k.treeMethods =
      if k.treeMethods then
        [⟨1, "hnode_t* PrettyTree();"⟩, ⟨1, "hnode_t* _AbbreviatedTree();"⟩,
          ⟨1, "hnode_t* AbbreviatedTree();"⟩]
      else [] := by
    cases k.treeMethods <;> rfl
  rw [DataClass.lines, WrittenClass.lines, hbuilders, hmembers, hmethods]
  simp only [DataClass.written, List.map_cons, List.append_assoc, List.cons_append,
    List.nil_append]
  rfl

/-- The base of the classes of a sum, with the tree methods that it declares. -/
def baseLines (name : String) (methods : List String) : List Line :=
  [⟨0, "class " ++ name ++ " \x7b"⟩, ⟨0, " protected:"⟩, ⟨1, name ++ "() \x7b\x7d"⟩,
      ⟨0, " public:"⟩, ⟨1, "int tag_() \x7b"⟩,
      ⟨2, "return reinterpret_cast<Obj*>(this)->tag;"⟩, ⟨1, "\x7d"⟩]
    ++ methodDeclarations methods
    ++ [⟨1, "DISALLOW_COPY_AND_ASSIGN(" ++ name ++ ")"⟩, ⟨0, "\x7d;"⟩]

/-! ### Functions and switches -/

/-- The function from the tags of a sum to names: labels and what is returned for each. -/
structure NamesText where
  function : String
  parameter : String
  cases : List (String × String)
  deriving DecidableEq

def NamesText.lines (w : NamesText) : List Line :=
  [⟨0, "const char* " ++ w.function ++ "(" ++ w.parameter ++ " tag) \x7b"⟩,
      ⟨1, "switch (tag) \x7b"⟩]
    ++ w.cases.flatMap (fun x => [⟨1, "case " ++ x.1 ++ ":"⟩, ⟨2, "return \"" ++ x.2 ++ "\";"⟩])
    ++ [⟨1, "default:"⟩, ⟨2, "std::abort();"⟩, ⟨1, "\x7d"⟩, ⟨0, "\x7d"⟩]

def Item.names? : Item → Option NamesText
  | .strFunction sum tagType scope variants =>
    some ⟨sum ++ "_str", tagType, variants.map fun v => (scope ++ "::" ++ v, sum ++ "." ++ v)⟩
  | _ => none

/-- A switch over tags: whose method it is, and for each label the class that the
value is cast to. -/
structure Switch where
  cls : String
  method : String
  cases : List (String × String)
  deriving DecidableEq

def Switch.lines (w : Switch) : List Line :=
  [methodHead w.cls w.method, ⟨1, "switch (this->tag_()) \x7b"⟩]
    ++ w.cases.flatMap (fun c =>
      [⟨1, "case " ++ c.1 ++ ": \x7b"⟩,
        ⟨2, c.2 ++ "* obj = static_cast<" ++ c.2 ++ "*>(this);"⟩,
        ⟨2, "return obj->" ++ w.method ++ "();"⟩,
        ⟨1, "\x7d"⟩])
    ++ [⟨1, "default:"⟩, ⟨2, "std::abort();"⟩, ⟨1, "\x7d"⟩, ⟨0, "\x7d"⟩]

/-- The switch that an item holds. -/
def Item.switch? : Item → Option Switch
  | .dispatcher sum method cases =>
    some ⟨sum ++ "_t", method.spelling, cases.map fun c => (sum ++ "_e" ++ "::" ++ c.1, c.2)⟩
  | _ => none

theorem strSignature_append (sum tagType ending : String) :
    strSignature sum tagType ++ ending =
      "const char* " ++ strName sum ++ "(" ++ tagType ++ (" tag)" ++ ending) :=
  String.append_assoc

theorem Item.lines_of_names? {i : Item} {w : NamesText} (h : i.names? = some w) :
    i.lines = w.lines := by
  cases i with
  | strFunction sum tagType scope variants =>
    cases h
    have hcase (v : String) : strCase sum scope v =
        [⟨1, "case " ++ (scope ++ "::" ++ v) ++ ":"⟩,
          ⟨2, "return \"" ++ (sum ++ "." ++ v) ++ "\";"⟩] := by
      simp only [strCase, String.append_assoc]
    have hsignature : "const char* " ++ (sum ++ "_str") ++ "(" ++ tagType ++ " tag) \x7b" =
        strSignature sum tagType ++ " \x7b" :=
      (strSignature_append sum tagType " \x7b").symm
    simp only [Item.lines, NamesText.lines, List.flatMap_map, hsignature, ← hcase]
  | _ => cases h

theorem Item.lines_of_switch? {i : Item} {w : Switch} (h : i.switch? = some w) :
    i.lines = w.lines := by
  cases i with
  | dispatcher sum method cases =>
    cases h
    have hcase (c : String × String) : dispatchCase sum method c =
        [⟨1, "case " ++ (sum ++ "_e" ++ "::" ++ c.1) ++ ": \x7b"⟩,
          ⟨2, c.2 ++ "* obj = static_cast<" ++ c.2 ++ "*>(this);"⟩,
          ⟨2, "return obj->" ++ method.spelling ++ "();"⟩,
          ⟨1, "\x7d"⟩] := by
      simp only [dispatchCase, enumName, method.name_eq_spelling, String.append_assoc]
    simp only [Item.lines, Switch.lines, List.flatMap_map, ← hcase, methodSignature_eq]
    rfl
  | _ => cases h

theorem Item.lines_of_written? {i : Item} {w : WrittenClass} (h : i.written? = some w) :
    i.lines = w.lines := by
  cases i with
  | dataClass k =>
    cases h
    exact k.lines_written
  | _ => cases h

/-! ### Bodies as statements -/

/-- What an expression reads: a member, the value inside of a member, an element of a list. -/
inductive Operand where
  | member (name : String)
  | content (name : String)
  | element (i : Nat)
  deriving DecidableEq

def Operand.text : Operand → String
  | member name => "this->" ++ name
  | content name => "this->" ++ name ++ ".value()"
  | element i => "i" ++ i.repr

/-- What a member is tested for: being set, holding a value, holding elements. -/
inductive Test where
  | set (name : String)
  | present (name : String)
  | filled (name : String)
  deriving DecidableEq

namespace Test

def text : Test → String
  | set name => "this->" ++ name
  | present name => "this->" ++ name ++ ".has_value()"
  | filled name => "this->" ++ name ++ " && len(" ++ ("this->" ++ name) ++ ")"

def member : Test → String
  | set name => name
  | present name => name
  | filled name => name

end Test

/-- The node of what is read, and the method for a value that makes its node itself. -/
structure NodeText where
  node : Node
  operand : Operand
  method : String
  deriving DecidableEq

namespace NodeText

/-- The call of a tree method: on what, and which one. -/
def call? (x : NodeText) : Option (Operand × String) :=
  if x.node = .subtree then some (x.operand, x.method) else none

def text (x : NodeText) : String :=
  match x.node with
  | .flag =>
    "new hnode__Leaf(" ++ x.operand.text
      ++ " ? runtime::TRUE_STR : runtime::FALSE_STR, color_e::OtherConst)"
  | .number => "new hnode__Leaf(str(" ++ x.operand.text ++ "), color_e::OtherConst)"
  | .text => "runtime::NewLeaf(" ++ x.operand.text ++ ", color_e::StringConst)"
  | .external => "new hnode__External(" ++ x.operand.text ++ ")"
  | .label sum =>
    "new hnode__Leaf(new Str(" ++ (sum ++ "_str") ++ "(" ++ x.operand.text
      ++ ")), color_e::TypeName)"
  | .subtree => x.operand.text ++ "->" ++ x.method ++ "()"

theorem text_eq (x : NodeText) : x.text = x.node.expression x.operand.text x.method := by
  obtain ⟨node, operand, method⟩ := x
  cases node <;> rfl

end NodeText

/-- A statement; `i` counts the entries of the body. -/
inductive Statement where
  | node (i : Nat) (value : NodeText)
  | array (i : Nat)
  /-- The loop that fills an array from a list. -/
  | children (i : Nat) (list : String) (element : CType) (value : NodeText)
  | append (i : Nat) (label : String)
  deriving DecidableEq

namespace Statement

def lines (depth : Nat) : Statement → List Line
  | node i value => [⟨depth, "hnode_t* " ++ ("x" ++ i.repr) ++ " = " ++ value.text ++ ";"⟩]
  | array i =>
    [⟨depth, "hnode__Array* " ++ ("x" ++ i.repr) ++ " = new hnode__Array(new List<hnode_t*>());"⟩]
  | children i list element value =>
    [⟨depth, "for (ListIter<" ++ element.spelling ++ "> it(" ++ ("this->" ++ list)
        ++ "); !it.Done(); it.Next()) \x7b"⟩,
      ⟨depth + 1, element.spelling ++ " " ++ ("i" ++ i.repr) ++ " = it.Value();"⟩,
      ⟨depth + 1, "x" ++ i.repr ++ "->children->append(" ++ value.text ++ ");"⟩,
      ⟨depth, "\x7d"⟩]
  | append i label =>
    [⟨depth, "L->append(new field(new Str(\"" ++ label ++ "\"), " ++ ("x" ++ i.repr) ++ "));"⟩]

/-- The variables for nodes that are declared. -/
def declares : Statement → List Nat
  | node i _ => [i]
  | array i => [i]
  | children _ _ _ _ => []
  | append _ _ => []

/-- The entries that are appended: the label and the variable. -/
def appends : Statement → List (String × Nat)
  | append i label => [(label, i)]
  | _ => []

def values : Statement → List NodeText
  | node _ value => [value]
  | children _ _ _ value => [value]
  | _ => []

/-- The list that is gone through, and the type of its elements. -/
def loops : Statement → List (String × CType)
  | children _ list element _ => [(list, element)]
  | _ => []

end Statement

/-- Statements, perhaps under a test. -/
structure Block where
  guard : Option Test
  steps : List Statement
  deriving DecidableEq

namespace Block

def lines (b : Block) : List Line :=
  match b.guard with
  | none => b.steps.flatMap (Statement.lines 1)
  | some t =>
    [⟨1, "if (" ++ t.text ++ ") \x7b"⟩] ++ b.steps.flatMap (Statement.lines 2) ++ [⟨1, "\x7d"⟩]

def declared (b : Block) : List Nat := b.steps.flatMap Statement.declares

def appended (b : Block) : List (String × Nat) := b.steps.flatMap Statement.appends

def operands (b : Block) : List Operand := (b.steps.flatMap Statement.values).map NodeText.operand

def calls (b : Block) : List (Operand × String) :=
  (b.steps.flatMap Statement.values).filterMap NodeText.call?

def loops (b : Block) : List (String × CType) := b.steps.flatMap Statement.loops

end Block

/-- The definition of a method that makes a record. -/
structure TreeText where
  cls : String
  method : String
  record : String
  blocks : List Block
  deriving DecidableEq

def TreeText.lines (w : TreeText) : List Line :=
  [methodHead w.cls w.method,
    ⟨1, "hnode__Record* out_node = runtime::NewRecord(new Str(\"" ++ w.record ++ "\"));"⟩]
    ++ (if w.blocks = [] then [] else [⟨1, "List<field*>* L = out_node->fields;"⟩])
    ++ w.blocks.flatMap Block.lines
    ++ [⟨1, "return out_node;"⟩, ⟨0, "\x7d"⟩]

/-- The statements for entry `i`; `inner` makes the trees inside of the tree. -/
def Entry.block (inner : String) (e : Entry) (i : Nat) : Block :=
  match e.shape with
  | .always node => ⟨none, [.node i ⟨node, .member e.name, inner⟩, .append i e.name]⟩
  | .ifSet node =>
    ⟨some (.set e.name), [.node i ⟨node, .member e.name, inner⟩, .append i e.name]⟩
  | .ifValue node =>
    ⟨some (.present e.name), [.node i ⟨node, .content e.name, inner⟩, .append i e.name]⟩
  | .each element node =>
    ⟨some (.filled e.name), [.array i, .children i e.name element ⟨node, .element i, inner⟩,
      .append i e.name]⟩

def RecordBody.blocks (b : RecordBody) : List Block :=
  b.entries.zipIdx.map fun e => e.1.block b.inner.spelling e.2

/-- The method that makes a record, if an item defines one. -/
def Item.tree? : Item → Option TreeText
  | .recordMethod cls method body => some ⟨cls, method.spelling, body.record, body.blocks⟩
  | _ => none

theorem close_twice (a : String) : a ++ ")" ++ ") \x7b" = a ++ ")) \x7b" := by
  rw [String.append_assoc]
  rfl

theorem Entry.lines_block (inner : TreeMethod) (e : Entry) (i : Nat) :
    e.lines i inner = (e.block inner.spelling i).lines := by
  obtain ⟨name, shape⟩ := e
  cases shape with
  | each element node =>
    -- the condition ends in a parenthesis of its own, which is written with that of the `if`
    have hthis : "this->" ++ name = thisMember name := rfl
    have htest : "if (" ++ (Test.filled name).text ++ ") \x7b" =
        "if (" ++ thisMember name ++ " && len(" ++ thisMember name ++ ")) \x7b" := by
      simp only [Test.text, hthis, ← String.append_assoc, close_twice]
    simp only [Entry.block, Block.lines, htest, List.flatMap_cons, Statement.lines,
      NodeText.text_eq, ← CType.text_eq_spelling, ← inner.name_eq_spelling]
    rfl
  | _ =>
    simp only [Entry.block, Block.lines, List.flatMap_cons, Statement.lines, NodeText.text_eq,
      ← inner.name_eq_spelling]
    rfl

theorem Item.lines_of_tree? {i : Item} {w : TreeText} (h : i.tree? = some w) :
    i.lines = w.lines := by
  cases i with
  | recordMethod cls method body =>
    cases h
    have hblocks : body.entries.zipIdx.flatMap (fun e => e.1.lines e.2 body.inner) =
        body.blocks.flatMap Block.lines := by
      rw [RecordBody.blocks, List.flatMap_map]
      simp only [Entry.lines_block]
    have hempty : body.blocks = [] ↔ body.entries.isEmpty = true := by
      rw [RecordBody.blocks, List.map_eq_nil_iff, List.zipIdx_eq_nil_iff, List.isEmpty_iff]
    simp only [Item.lines, RecordBody.lines, TreeText.lines, methodSignature_eq, hblocks, hempty,
      List.append_assoc, List.cons_append, List.nil_append]
  | _ => cases h

/-! ### Items -/

/-- What is written for an item, letter by letter. -/
def Item.spelling : Item → List Line
  | blank => [⟨0, ""⟩]
  | forward cls => [⟨0, "class " ++ cls ++ ";"⟩]
  | define name value => [⟨0, "#define " ++ name ++ " " ++ value.repr⟩]
  | constants name values =>
    [⟨0, "namespace " ++ name ++ " \x7b"⟩]
      ++ values.map (fun v => ⟨1, "const int " ++ v.1 ++ " = " ++ v.2.repr ++ ";"⟩)
      ++ [⟨0, "\x7d;"⟩]
  | enumeration name values =>
    [⟨0, "enum class " ++ name ++ " \x7b"⟩]
      ++ values.map (fun v => ⟨1, v.1 ++ " = " ++ v.2.repr ++ ","⟩)
      ++ [⟨0, "\x7d;"⟩]
  | typedef type name => [⟨0, "typedef " ++ type ++ " " ++ name ++ ";"⟩]
  | strDeclaration sum tagType =>
    [⟨0, "const char* " ++ (sum ++ "_str") ++ "(" ++ tagType ++ " tag);"⟩]
  | sumClass name treeMethods => baseLines name (if treeMethods then treeNames else [])
  | dataClass k => k.written.lines
  | aliases sum constructors =>
    [⟨0, "namespace " ++ sum ++ " \x7b"⟩]
      ++ constructors.map (fun v => ⟨1, "typedef " ++ (sum ++ "__" ++ v) ++ " " ++ v ++ ";"⟩)
      ++ [⟨0, "\x7d"⟩]
  | strFunction sum tagType scope variants =>
    NamesText.lines ⟨sum ++ "_str", tagType,
      variants.map fun v => (scope ++ "::" ++ v, sum ++ "." ++ v)⟩
  | recordMethod cls method body =>
    TreeText.lines ⟨cls, method.spelling, body.record, body.blocks⟩
  | hookDeclaration cls => [⟨0, "hnode_t* " ++ ("_" ++ cls) ++ "(" ++ cls ++ "* obj);"⟩]
  | shortMethod cls hook =>
    [methodHead cls "AbbreviatedTree"]
      ++ (if hook then
          [⟨1, "hnode_t* p = " ++ ("_" ++ cls) ++ "(this);"⟩,
            ⟨1, "return p ? p : _AbbreviatedTree();"⟩]
        else [⟨1, "return _AbbreviatedTree();"⟩])
      ++ [⟨0, "\x7d"⟩]
  | dispatcher sum method cases =>
    Switch.lines ⟨sum ++ "_t", method.spelling,
      cases.map fun c => (sum ++ "_e" ++ "::" ++ c.1, c.2)⟩

/-- **Every item is written as it is spelled.** -/
theorem Item.lines_eq_spelling (i : Item) : i.lines = i.spelling := by
  cases i with
  | strDeclaration sum tagType =>
    rw [Item.lines, strSignature_append]
    rfl
  | sumClass name treeMethods =>
    rw [Item.lines, sumClassLines, treeDeclarations_eq]
    rfl
  | dataClass k => exact k.lines_written
  | strFunction sum tagType scope variants => exact Item.lines_of_names? rfl
  | recordMethod cls method body => exact Item.lines_of_tree? rfl
  | shortMethod cls hook =>
    rw [Item.lines, methodSignature_eq]
    cases hook <;> rfl
  | dispatcher sum method cases => exact Item.lines_of_switch? rfl
  | _ => rfl

/-! ### Texts -/

/-- Lines at their depths, letter by letter. -/
def spellAt (xs : List (Nat × List Line)) : String :=
  String.join ((xs.flatMap fun x =>
    x.2.map fun l => (⟨x.1 + l.depth, l.text⟩ : Line)).map Line.spelling)

/-- Items that stand at the left, letter by letter. -/
def spell (items : List Item) : String :=
  String.join ((items.flatMap Item.spelling).map Line.spelling)

theorem spellAt_append (xs ys : List (Nat × List Line)) :
    spellAt (xs ++ ys) = spellAt xs ++ spellAt ys := by
  rw [spellAt, List.flatMap_append, List.map_append, String.join_append]
  rfl

/-- What is written for items in groups, each at a depth of its own. -/
theorem renderItems_groups {α : Type} (xs : List α) (depth : α → Nat) (items : α → List Item) :
    renderItems (xs.flatMap fun x => (items x).map (⟨depth x, ·⟩)) =
      spellAt (xs.map fun x => (depth x, (items x).flatMap Item.spelling)) := by
  have hrender : Line.render = Line.spelling := funext Line.render_eq_spelling
  have hshift (d : Nat) : Line.shift d = fun l => ⟨d + l.depth, l.text⟩ := rfl
  rw [renderItems, renderLines, spellAt, hrender, List.flatMap_assoc, List.flatMap_map]
  simp only [List.flatMap_map, Placed.lines, Item.lines_eq_spelling, hshift, List.map_flatMap]

theorem itemsText_eq_spell (items : List Item) : itemsText items = spell items := by
  have hgroup := renderItems_groups [items] (fun _ => 0) id
  have hleft : ∀ l : Line, (⟨0 + l.depth, l.text⟩ : Line) = l := by
    intro l
    rw [Nat.zero_add]
  rw [List.flatMap_singleton] at hgroup
  rw [itemsText, spell]
  refine hgroup.trans ?_
  rw [spellAt, List.map_singleton, List.flatMap_singleton]
  simp only [hleft, List.map_id', id]

/-- **The text of a header**, letter by letter. -/
theorem exists_code_spelled {s : Schema} {m : Model} (h : Model.Resolves s m) (o : Options) :
    ∃ out, (generate m o).result = .ok out ∧ out.code = spell (headerItems m o) := by
  obtain ⟨out, hout, hcode⟩ := exists_code_eq h o
  exact ⟨out, hout, hcode.trans (itemsText_eq_spell _)⟩

end Header

end Asdl
