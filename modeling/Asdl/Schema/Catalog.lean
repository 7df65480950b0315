/-
Schemas that are built together with an index.

A schema grows by imports and by definitions, and the index grows along with it: a name
that is defined once more stays bound to its first definition.

* `Catalog` — a schema with its index, which is searched as the schema would be;
* `Catalog.addUse`, `Catalog.addDefinition` — one more import, one more definition;
* `Catalog.find?`, `Catalog.defines` — searching the index.

Design notes: a repeated name is kept in the schema so that it can be reported, and it is
the index which passes over it.
-/
import Asdl.NameTable
import Asdl.Schema

namespace Asdl

/-- A schema and the table of its definitions by name. -/
structure Catalog where
  schema : Schema
  index : NameTable Definition
  /-- Searching the index is searching the schema. -/
  index_eq : ∀ n, index.find? n = schema.find? n

namespace Catalog

/-- The module without imports and definitions. -/
def empty (name : String) : Catalog where
  schema := .empty name
  index := .empty
  index_eq := fun n => NameTable.find?_empty n

def addUse (c : Catalog) (u : Use) : Catalog where
  schema := c.schema.addUse u
  index := c.index
  index_eq := c.index_eq

/-- The index with more definitions; those of names that it has are passed over. -/
def indexed (index : NameTable Definition) (ds : List Definition) : NameTable Definition :=
  index.insertAllNew (ds.map fun d => (d.name, d))

theorem find?_indexed (c : Catalog) (ds : List Definition) (n : String) :
    (indexed c.index ds).find? n = (c.schema.addDefinitions ds).find? n := by
  rw [indexed, NameTable.find?_insertAllNew, NameTable.lookup_map_name, c.index_eq]
  exact List.find?_append.symm

def addDefinitions (c : Catalog) (ds : List Definition) : Catalog where
  schema := c.schema.addDefinitions ds
  index := indexed c.index ds
  index_eq := c.find?_indexed ds

def addDefinition (c : Catalog) (d : Definition) : Catalog := c.addDefinitions [d]

/-- The definition of a name. -/
def find? (c : Catalog) (name : String) : Option Definition := c.index.find? name

/-- Whether the name is defined. -/
def defines (c : Catalog) (name : String) : Bool := c.index.contains name

end Catalog

end Asdl
