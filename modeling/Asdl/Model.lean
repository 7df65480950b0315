/-
The resolved model of a schema.

In a model every type name has been looked up and every class has its tag: the
value by which generated code tells the classes of a sum apart.

* `Model`, `Model.Definition`, `Model.SimpleSum`, `Model.CompoundSum`,
  `Model.Product` — the model and its parts;
* `Model.find?` — the definition of a name, and `find?_eq_find?` which says that
  it is the last one in the list.
-/
import Asdl.NameTable
import Asdl.Schema

namespace Asdl

namespace Model

/-- A type that a name stands for. -/
inductive TypeRef where
  | primitive (p : Primitive)
  | external (name : String)
  | simpleSum (name : String)
  | compoundSum (name : String)
  | product (name : String)
  deriving DecidableEq, Repr

/-- The name that the type has in schemas. -/
def TypeRef.name : TypeRef → String
  | primitive p => p.name
  | external n => n
  | simpleSum n => n
  | compoundSum n => n
  | product n => n

/-- What a field holds. -/
inductive FieldType where
  | scalar (type : TypeRef)
  | optional (type : TypeRef)
  | repeated (type : TypeRef)
  | map (key value : TypeRef)
  deriving DecidableEq, Repr

/-- A field or an attribute. -/
structure Field where
  name : String
  type : FieldType
  deriving DecidableEq, Repr

/-- A sum that is a mere enumeration: its variants with their tags. -/
structure SimpleSum where
  name : String
  variants : List (String × Nat)
  deriving DecidableEq, Repr

/-- A variant with a class of its own. -/
structure Constructor where
  name : String
  tag : Nat
  fields : List Field
  deriving DecidableEq, Repr

/-- A variant whose class is a product. -/
structure SharedCase where
  name : String
  tag : Nat
  product : String
  deriving DecidableEq, Repr

/-- A case of a compound sum. -/
inductive Variant where
  | constructor (c : Constructor)
  | shared (s : SharedCase)
  deriving DecidableEq, Repr

namespace Variant

def name : Variant → String
  | constructor c => c.name
  | shared s => s.name

def tag : Variant → Nat
  | constructor c => c.tag
  | shared s => s.tag

def constructor? : Variant → Option Constructor
  | constructor c => some c
  | shared _ => none

end Variant

/-- A sum whose cases are classes. -/
structure CompoundSum where
  name : String
  variants : List Variant
  attributes : List Field
  deriving DecidableEq, Repr

/-- The variants that have a class of their own, in order. -/
def CompoundSum.constructors (s : CompoundSum) : List Constructor :=
  s.variants.filterMap Variant.constructor?

/-- A product; its bases are the sums that share it, in order. -/
structure Product where
  name : String
  tag : Nat
  fields : List Field
  attributes : List Field
  bases : List String
  deriving DecidableEq, Repr

/-- A definition of a model. -/
inductive Definition where
  | simpleSum (s : SimpleSum)
  | compoundSum (s : CompoundSum)
  | product (p : Product)
  deriving DecidableEq, Repr

namespace Definition

def name : Definition → String
  | simpleSum s => s.name
  | compoundSum s => s.name
  | product p => p.name

def simpleSum? : Definition → Option SimpleSum
  | simpleSum s => some s
  | _ => none

def compoundSum? : Definition → Option CompoundSum
  | compoundSum s => some s
  | _ => none

def product? : Definition → Option Product
  | product p => some p
  | _ => none

end Definition

/-- The table of definitions by name.  They are collected in order, so a later one
takes the place of an earlier one. -/
def indexOf (definitions : List Definition) : NameTable Definition :=
  .collect (definitions.map fun d => (d.name, d))

end Model

/-- A resolved module.  The index is the table of its definitions. -/
structure Model where
  name : String
  externals : List String
  definitions : List Model.Definition
  index : NameTable Model.Definition := Model.indexOf definitions
  index_eq : index = Model.indexOf definitions := by rfl

namespace Model

/-- The definition of a name. -/
def find? (m : Model) (name : String) : Option Definition := m.index.find? name

/-- Searching the index is searching the definitions from the end. -/
theorem find?_eq_find? (m : Model) (name : String) :
    m.find? name = m.definitions.reverse.find? (·.name == name) := by
  rw [find?, m.index_eq, indexOf, NameTable.find?_collect, ← List.map_reverse,
    NameTable.lookup_map_name]

/-- The simple sum of a name. -/
def simpleSum? (m : Model) (name : String) : Option SimpleSum :=
  (m.find? name).bind Definition.simpleSum?

/-- The compound sum of a name. -/
def compoundSum? (m : Model) (name : String) : Option CompoundSum :=
  (m.find? name).bind Definition.compoundSum?

/-- The product of a name. -/
def product? (m : Model) (name : String) : Option Product :=
  (m.find? name).bind Definition.product?

/-- The simple sums, in order. -/
def simpleSums (m : Model) : List SimpleSum := m.definitions.filterMap Definition.simpleSum?

/-- The compound sums, in order. -/
def compoundSums (m : Model) : List CompoundSum := m.definitions.filterMap Definition.compoundSum?

/-- The products, in order. -/
def products (m : Model) : List Product := m.definitions.filterMap Definition.product?

end Model

end Asdl
