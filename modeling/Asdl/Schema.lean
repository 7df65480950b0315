/-
Schemas as they are written: names are not resolved yet.

A schema is a module of definitions.  A definition is a product, one class with
fields, or a sum of variants.  A variant has fields of its own or shares a
product, so that one class belongs to several sums.

* `Schema`, `Definition`, `Sum`, `Product`, `Variant`, `Field`, `TypeExpr` —
  the parts of a schema;
* `Schema.addUse`, `Schema.addDefinition` — building one step by step;
* `Schema.find?` — the first definition of a name.

Definitions stay in the order in which they were added, repetitions included.
-/

namespace Asdl

/-! ### Built-in types -/

/-- The built-in types. -/
inductive Primitive where
  | string
  | int
  | float
  | bool
  | any
  deriving DecidableEq, Repr

namespace Primitive

/-- The name of a built-in type in schemas. -/
def name : Primitive → String
  | string => "string"
  | int => "int"
  | float => "float"
  | bool => "bool"
  | any => "any"

/-- The built-in type of a name, if there is one. -/
def ofName? (n : String) : Option Primitive :=
  if n = "string" then some string
  else if n = "int" then some int
  else if n = "float" then some float
  else if n = "bool" then some bool
  else if n = "any" then some any
  else none

@[simp] theorem ofName?_name (p : Primitive) : ofName? p.name = some p := by
  cases p <;> rfl

end Primitive

/-! ### Types and fields -/

/-- How many values a field of a named type holds. -/
inductive Multiplicity where
  /-- Exactly one. -/
  | scalar
  /-- One or none. -/
  | optional
  /-- Any number, in order. -/
  | repeated
  /-- A dictionary; schema texts write those with `TypeExpr.map`. -/
  | map
  deriving DecidableEq, Repr

/-- A field has exactly one value unless something else is said. -/
instance : Inhabited Multiplicity := ⟨.scalar⟩

/-- A type as written. -/
inductive TypeExpr where
  | named (name : String) (multiplicity : Multiplicity)
  | map (key value : TypeExpr)
  deriving DecidableEq, Repr

/-- A field or an attribute. -/
structure Field where
  name : String
  type : TypeExpr
  deriving DecidableEq, Repr

/-! ### Definitions -/

/-- A case of a sum. -/
structure Variant where
  name : String
  fields : List Field
  /-- The product that the case shares, if any. -/
  shared : Option String
  deriving DecidableEq, Repr

/-- A type with several cases; the attributes belong to every case. -/
structure Sum where
  name : String
  variants : List Variant
  attributes : List Field
  deriving DecidableEq, Repr

/-- A type with one case. -/
structure Product where
  name : String
  fields : List Field
  attributes : List Field
  deriving DecidableEq, Repr

/-- A case without fields that shares nothing. -/
def Variant.isBare (v : Variant) : Bool := v.fields.isEmpty && v.shared.isNone

/-- A simple sum is a mere enumeration: bare variants and no attributes. -/
def Sum.isSimple (s : Sum) : Bool := s.attributes.isEmpty && s.variants.all Variant.isBare

/-- A definition of a module. -/
inductive Definition where
  | sum (s : Sum)
  | product (p : Product)
  deriving DecidableEq, Repr

namespace Definition

/-- The name that the definition introduces. -/
def name : Definition → String
  | sum s => s.name
  | product p => p.name

def isProduct : Definition → Bool
  | sum _ => false
  | product _ => true

/-- The sum that the definition is, if it is one. -/
def sum? : Definition → Option Sum
  | sum s => some s
  | product _ => none

/-- The product that the definition is, if it is one. -/
def product? : Definition → Option Product
  | sum _ => none
  | product p => some p

end Definition

/-! ### Schemas -/

/-- An import of type names from another module. -/
structure Use where
  path : List String
  names : List String
  deriving DecidableEq, Repr

/-- A module: what it imports and what it defines. -/
structure Schema where
  name : String
  uses : List Use
  definitions : List Definition
  deriving DecidableEq, Repr

namespace Schema

/-- The module without imports and definitions. -/
def empty (name : String) : Schema := ⟨name, [], []⟩

def addUse (s : Schema) (u : Use) : Schema := { s with uses := s.uses ++ [u] }

def addDefinitions (s : Schema) (ds : List Definition) : Schema :=
  { s with definitions := s.definitions ++ ds }

def addDefinition (s : Schema) (d : Definition) : Schema := s.addDefinitions [d]

/-- The first definition of a name. -/
def find? (s : Schema) (name : String) : Option Definition :=
  s.definitions.find? (·.name == name)

/-- Whether the name is defined. -/
def defines (s : Schema) (name : String) : Bool := s.definitions.any (·.name == name)

/-- The imported names, in order and with repetitions. -/
def externals (s : Schema) : List String := s.uses.flatMap Use.names

/-- The sums, in order. -/
def sums (s : Schema) : List Sum := s.definitions.filterMap Definition.sum?

/-- The products, in order. -/
def products (s : Schema) : List Product := s.definitions.filterMap Definition.product?

end Schema

end Asdl
