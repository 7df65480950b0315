/-
Bodies of the methods that build trees.

A tree method makes a record and appends one entry for each member.  A member
that may be absent is appended only if it is there, and a member that may be
empty only if it is not.

* `Entry` — how one member is appended, and `Context.shape`, which way is taken;
* `RecordBody` — the body of a method that makes a record;
* `recordName` — the name of the record of a class.
-/
import Asdl.Header.Class

namespace Asdl

namespace Header

/-- How one member becomes an entry of a record. -/
inductive Shape where
  /-- The member is always there. -/
  | always (node : Node)
  /-- The member is a pointer that may be null. -/
  | ifSet (node : Node)
  /-- The member is a value that may be absent. -/
  | ifValue (node : Node)
  /-- The member is a list, left out if it is empty. -/
  | each (element : CType) (node : Node)
  deriving DecidableEq, Repr

/-- An entry of a record: the member's name and how it is appended. -/
structure Entry where
  name : String
  shape : Shape
  deriving DecidableEq, Repr

/-- How a field is appended.  A string may be null too but is always there; maps
are not looked into. -/
def Context.shape (c : Context) : Model.FieldType → Shape
  | .scalar t => if isNested t then .ifSet (nodeOf t) else .always (nodeOf t)
  | .optional t => if isValue t then .ifValue (nodeOf t) else .ifSet (nodeOf t)
  | .repeated t => .each (c.element t) (nodeOf t)
  | .map _ _ => .always .external

def Context.entry (c : Context) (f : Model.Field) : Entry := ⟨f.name, c.shape f.type⟩

/-- The body of a method that makes a record. -/
structure RecordBody where
  record : String
  /-- The method that builds the trees of the members. -/
  inner : TreeMethod
  entries : List Entry
  deriving DecidableEq, Repr

/-- Every pair of underscores, from the left, becomes a dot. -/
def dotted : List Char → List Char
  | '_' :: '_' :: rest => '.' :: dotted rest
  | c :: rest => c :: dotted rest
  | [] => []

/-- The name of the record of a class. -/
def recordName (cls : String) : String := String.ofList (dotted cls.toList)

/-! ### Text -/

/-- The member `name` of the value at hand. -/
def thisMember (name : String) : String := "this->" ++ name

/-- The variable for the node of entry `i`. -/
def nodeVariable (i : Nat) : String := "x" ++ i.repr

/-- The variable for an element of the list of entry `i`. -/
def elementVariable (i : Nat) : String := "i" ++ i.repr

namespace Entry

/-- The statement that appends entry `i`. -/
def append (e : Entry) (i : Nat) : String :=
  "L->append(new field(new Str(\"" ++ e.name ++ "\"), " ++ nodeVariable i ++ "));"

/-- Declares the node of `value` and appends it, at a depth. -/
def single (e : Entry) (i depth : Nat) (inner : TreeMethod) (node : Node) (value : String) :
    List Line :=
  [⟨depth, "hnode_t* " ++ nodeVariable i ++ " = " ++ node.expression value inner.name ++ ";"⟩,
    ⟨depth, e.append i⟩]

/-- The same under a condition. -/
def guarded (e : Entry) (i : Nat) (inner : TreeMethod) (node : Node) (condition value : String) :
    List Line :=
  [⟨1, "if (" ++ condition ++ ") \x7b"⟩] ++ e.single i 2 inner node value ++ [⟨1, "\x7d"⟩]

/-- The statements for entry `i`. -/
def lines (e : Entry) (i : Nat) (inner : TreeMethod) : List Line :=
  let this := thisMember e.name
  match e.shape with
  | .always node => e.single i 1 inner node this
  | .ifSet node => e.guarded i inner node this this
  | .ifValue node => e.guarded i inner node (this ++ ".has_value()") (this ++ ".value()")
  | .each element node =>
    [⟨1, "if (" ++ this ++ " && len(" ++ this ++ ")) \x7b"⟩,
      ⟨2, "hnode__Array* " ++ nodeVariable i ++ " = new hnode__Array(new List<hnode_t*>());"⟩,
      ⟨2, "for (ListIter<" ++ element.text ++ "> it(" ++ this
        ++ "); !it.Done(); it.Next()) \x7b"⟩,
      ⟨3, element.text ++ " " ++ elementVariable i ++ " = it.Value();"⟩,
      ⟨3, nodeVariable i ++ "->children->append("
        ++ node.expression (elementVariable i) inner.name ++ ");"⟩,
      ⟨2, "\x7d"⟩,
      ⟨2, e.append i⟩,
      ⟨1, "\x7d"⟩]

end Entry

/-- The statements of the body. -/
def RecordBody.lines (b : RecordBody) : List Line :=
  [⟨1, "hnode__Record* out_node = runtime::NewRecord(new Str(\"" ++ b.record ++ "\"));"⟩]
    ++ (if b.entries.isEmpty then [] else [⟨1, "List<field*>* L = out_node->fields;"⟩])
    ++ b.entries.zipIdx.flatMap (fun e => e.1.lines e.2 b.inner)
    ++ [⟨1, "return out_node;"⟩]

end Header

end Asdl
