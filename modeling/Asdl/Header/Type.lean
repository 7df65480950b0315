/-
How the types of a model are written in C++.

Built-in types, imported types and sums that are enumerations are held by value;
strings, anything, other sums and products are held by pointer.

* `CType` — a C++ type, and `CType.text`, how it is written;
* `Context.element` — the type of a single value;
* `Context.member`, `Context.initial` — the type of a member and what it holds
  when nothing is given;
* `Node` — how a value becomes a node of a tree.
-/
import Asdl.Model
import Asdl.Naming
import Asdl.Options

namespace Asdl

namespace Header

open Model (TypeRef FieldType)

/-! ### C++ types -/

/-- A C++ type. -/
inductive CType where
  | named (name : String)
  | pointer (target : CType)
  | optional (element : CType)
  | list (element : CType)
  | dict (key value : CType)
  deriving DecidableEq, Repr

/-- How the type is written. -/
def CType.text : CType → String
  | named name => name
  | pointer target => target.text ++ "*"
  | optional element => "Optional<" ++ element.text ++ ">"
  | list element => "List<" ++ element.text ++ ">"
  | dict key value => "Dict<" ++ key.text ++ ", " ++ value.text ++ ">"

/-- The C++ type of a built-in type. -/
def ofPrimitive : Primitive → CType
  | .string => .pointer (.named "Str")
  | .int => .named "int"
  | .float => .named "double"
  | .bool => .named "bool"
  | .any => .pointer (.named "void")

/-- Whether values of the type are held by value, and not by pointer. -/
def isValue : TypeRef → Bool
  | .primitive .int => true
  | .primitive .float => true
  | .primitive .bool => true
  | .primitive .string => false
  | .primitive .any => false
  | .external _ => true
  | .simpleSum _ => true
  | .compoundSum _ => false
  | .product _ => false

/-- Whether a value of the type has a tree of its own. -/
def isNested : TypeRef → Bool
  | .compoundSum _ => true
  | .product _ => true
  | _ => false

/-! ### Types of a model under some options -/

/-- The model that a header is written for, and the choices about it. -/
structure Context where
  model : Model
  options : Options

namespace Context

/-- The enumeration, or the namespace of constants, of a simple sum. -/
def enumeration (c : Context) (sum : String) : String :=
  if c.options.enumSuffix then
    if c.options.isFlat sum then intsName sum else enumName sum
  else sum

/-- The type of a single value. -/
def element (c : Context) : TypeRef → CType
  | .primitive p => ofPrimitive p
  | .external name => .named (typeName name)
  | .simpleSum name =>
    .named (if c.options.isFlat name then typeName name else c.enumeration name)
  | .compoundSum name => .pointer (.named (typeName name))
  | .product name => .pointer (.named name)

/-- The type of a member. -/
def member (c : Context) : FieldType → CType
  | .scalar t => c.element t
  | .optional t => if isValue t then .optional (c.element t) else c.element t
  | .repeated t => .pointer (.list (c.element t))
  | .map key value => .pointer (.dict (c.element key) (c.element value))

end Context

/-! ### Initial values -/

/-- What a member holds when nothing is given. -/
inductive Initial where
  | null
  | minusOne
  | zero
  | zeroFloat
  | no
  | emptyString
  | emptyList (element : CType)
  | absent (element : CType)
  | enumerator (enumeration variant : String)
  deriving DecidableEq, Repr

/-- How the initial value is written. -/
def Initial.text : Initial → String
  | null => "nullptr"
  | minusOne => "-1"
  | zero => "0"
  | zeroFloat => "0.0"
  | no => "false"
  | emptyString => "new Str(\"\")"
  | emptyList element => "new List<" ++ element.text ++ ">()"
  | absent element => "Optional<" ++ element.text ++ ">()"
  | enumerator enumeration variant => enumeration ++ "::" ++ variant

namespace Context

/-- The first variant of a simple sum. -/
def firstVariant? (c : Context) (sum : String) : Option String :=
  (c.model.simpleSum? sum).bind fun s => s.variants.head?.map Prod.fst

/-- What a member with a single value holds when nothing is given. -/
def initialScalar (c : Context) : TypeRef → Initial
  | .primitive .int => .minusOne
  | .external _ => .minusOne
  | .primitive .bool => .no
  | .primitive .float => .zeroFloat
  | .primitive .string => .emptyString
  | .primitive .any => .null
  | .simpleSum name =>
    match c.firstVariant? name with
    | some variant => .enumerator (c.enumeration name) variant
    | none => .zero
  | .compoundSum _ => .null
  | .product _ => .null

/-- What a member holds when nothing is given. -/
def initial (c : Context) : FieldType → Initial
  | .scalar t => c.initialScalar t
  | .optional t => if isValue t then .absent (c.element t) else .null
  | .repeated t => .emptyList (c.element t)
  | .map _ _ => .null

end Context

/-! ### Nodes -/

/-- How a value becomes a node of a tree. -/
inductive Node where
  /-- One of two words. -/
  | flag
  /-- The digits of a number. -/
  | number
  /-- The text itself. -/
  | text
  /-- A value that the tree does not look into. -/
  | external
  /-- The name of a variant of a simple sum. -/
  | label (sum : String)
  /-- The tree of the value itself. -/
  | subtree
  deriving DecidableEq, Repr

/-- How values of a type become nodes. -/
def nodeOf : TypeRef → Node
  | .primitive .bool => .flag
  | .primitive .int => .number
  | .primitive .float => .number
  | .primitive .string => .text
  | .primitive .any => .external
  | .external _ => .external
  | .simpleSum name => .label name
  | .compoundSum _ => .subtree
  | .product _ => .subtree

/-- The expression for the node of `value`; `method` builds the tree of a value
that has one. -/
def Node.expression (value method : String) : Node → String
  | flag =>
    "new hnode__Leaf(" ++ value ++ " ? runtime::TRUE_STR : runtime::FALSE_STR, color_e::OtherConst)"
  | number => "new hnode__Leaf(str(" ++ value ++ "), color_e::OtherConst)"
  | text => "runtime::NewLeaf(" ++ value ++ ", color_e::StringConst)"
  | external => "new hnode__External(" ++ value ++ ")"
  | label sum =>
    "new hnode__Leaf(new Str(" ++ strName sum ++ "(" ++ value ++ ")), color_e::TypeName)"
  | subtree => value ++ "->" ++ method ++ "()"

end Header

end Asdl
