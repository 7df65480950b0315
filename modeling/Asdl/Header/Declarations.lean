/-
The sections of a header that only declare.

* `forwardSection` — announces every class;
* `macroTable` — defines a macro for each tag of a simple sum;
* `declarations` — declares everything else: enumerations at once, classes at
  the end, first those of the sums and then the products, so that every base
  comes before the classes that have it.

Design notes: the classes that are still to be written are remembered by name
and looked up in the model of the context at the end.  Bases that were written
once stay known.  A sum that is missing leaves the products waiting.
-/
import Asdl.Header.Section
import Asdl.TagTables

namespace Asdl

namespace Header

open Model (SimpleSum CompoundSum)

/-! ### Announcements and macros -/

/-- The announcement of the class of a definition. -/
def forwardItems : Model.Definition → List Item
  | .simpleSum _ => []
  | .compoundSum s => [.forward (typeName s.name)]
  | .product p => [.forward p.name]

/-- Announces every class. -/
def forwardSection : Section Unit where
  visit := fun _ d depth => ⟨(), .ofItems depth (forwardItems d)⟩
  finish := fun _ => ⟨(), .ofItems 0 [.blank]⟩

/-- The macros for the tags of a definition. -/
def macroItems : Model.Definition → List Item
  | .simpleSum s => s.variants.map (fun v => .define (memberName s.name v.1) v.2) ++ [.blank]
  | .compoundSum _ => []
  | .product _ => []

/-- Defines a macro for each tag of a simple sum. -/
def macroTable : Section Unit where
  visit := fun _ d depth => ⟨(), .ofItems depth (macroItems d)⟩
  finish := fun _ => ⟨(), {}⟩

/-! ### Items -/

/-- The class of a variant of a compound sum. -/
def classOf (sum : String) : Model.Variant → String
  | .constructor c => memberName sum c.name
  | .shared s => s.product

/-- The tags of a compound sum and their classes. -/
def tagTableOf (s : CompoundSum) : TagTable :=
  .ofList (s.variants.map fun v => (v.tag, classOf s.name v))

/-- The tags of a compound sum and its function. -/
def tagItems (s : CompoundSum) : List Item :=
  [.constants (enumName s.name) (s.variants.map fun v => (v.name, v.tag)),
    .blank,
    .strDeclaration s.name "int",
    .blank]

/-- The base of a class that belongs to no sum. -/
def rootClass : String := "Obj"

/-- The bases of the class of a product. -/
def basesOf (p : Model.Product) : List String :=
  if p.bases.isEmpty then [rootClass] else p.bases.map typeName

namespace Context

/-- The type of the tags of a simple sum. -/
def tagType (c : Context) (sum : String) : String :=
  if c.options.isFlat sum then "int" else c.enumeration sum

/-- The enumeration of a simple sum, its type and its function. -/
def simpleItems (c : Context) (s : SimpleSum) : List Item :=
  [if c.options.isFlat s.name then
      .constants (c.enumeration s.name) (s.variants ++ [(arraySizeName, s.variants.length + 1)])
    else .enumeration (c.enumeration s.name) s.variants,
    .typedef (c.tagType s.name) (typeName s.name),
    .blank,
    .strDeclaration s.name (c.tagType s.name),
    .blank]

/-- A field as a member of a class. -/
def memberOf (c : Context) (f : Model.Field) : Member :=
  ⟨f.name, c.member f.type, c.initial f.type⟩

/-- The class of a constructor. -/
def constructorClass (c : Context) (s : CompoundSum) (k : Model.Constructor) : DataClass where
  name := memberName s.name k.name
  bases := [typeName s.name]
  tag := .constant (enumName s.name) k.name
  fields := k.fields.map c.memberOf
  attributes := s.attributes.map c.memberOf
  treeMethods := c.options.treeMethods

/-- The classes of a compound sum: the base, the constructors, their short names. -/
def sumItems (c : Context) (s : CompoundSum) : List Item :=
  [.sumClass (typeName s.name) c.options.treeMethods, .blank]
    ++ s.constructors.flatMap (fun k => [.dataClass (c.constructorClass s k), .blank])
    ++ [.aliases s.name (s.constructors.map (·.name)), .blank]

/-- The class of a product. -/
def productClass (c : Context) (p : Model.Product) : DataClass where
  name := p.name
  bases := basesOf p
  tag := .number p.tag
  fields := p.fields.map c.memberOf
  attributes := p.attributes.map c.memberOf
  treeMethods := c.options.treeMethods

/-- The class of a product and the blank line after it. -/
def productItems (c : Context) (p : Model.Product) : List Item :=
  [.dataClass (c.productClass p), .blank]

end Context

/-! ### Declarations -/

/-- What is still to be written, and what is known. -/
structure Pending where
  /-- The compound sums whose classes wait, with their depths, latest first. -/
  sums : List (String × Nat) := []
  /-- The products whose classes wait, with their depths, latest first. -/
  products : List (String × Nat) := []
  /-- The bases that are written. -/
  declared : List String := []
  /-- The tables of the tags so far. -/
  tags : TagTables := .empty

namespace Context

/-- Writes what a definition needs at once, and remembers its classes. -/
def declare (c : Context) (state : Pending) (d : Model.Definition) (depth : Nat) :
    Step Pending :=
  match d with
  | .simpleSum s => ⟨state, .ofItems depth (c.simpleItems s)⟩
  | .compoundSum s =>
    ⟨{ state with
        sums := (s.name, depth) :: state.sums
        tags := state.tags.insert (typeName s.name) (tagTableOf s) },
      .ofItems depth (tagItems s)⟩
  | .product p => ⟨{ state with products := (p.name, depth) :: state.products }, {}⟩

/-- Writes the classes of a compound sum that waits. -/
def declareSum (c : Context) (waiting : String × Nat) : Emission :=
  match c.model.compoundSum? waiting.1 with
  | none => .failure (.sumVanished waiting.1)
  | some s => { Emission.ofItems waiting.2 (c.sumItems s) with events := [.declaringSum waiting.1] }

/-- Writes the class of a product that waits, if its bases are written. -/
def declareProduct (c : Context) (declared : List String) (waiting : String × Nat) : Emission :=
  match c.model.product? waiting.1 with
  | none => .failure (.productVanished waiting.1)
  | some p =>
    match (p.bases.map typeName).find? fun b => !declared.contains b with
    | some b =>
      { events := [.declaringProduct waiting.1], outcome := .error (.baseMissing p.name b) }
    | none =>
      { Emission.ofItems waiting.2 (c.productItems p) with
        events := [.declaringProduct waiting.1] }

/-- The bases among the waiting sums that are written before one is missing. -/
def declaredBy (c : Context) (waiting : List (String × Nat)) : List String :=
  (waiting.takeWhile fun w => (c.model.compoundSum? w.1).isSome).map fun w => typeName w.1

/-- Writes the classes of the sums that wait, then the products.  If a sum is
missing the products go on waiting. -/
def declareWaiting (c : Context) (state : Pending) : Step Pending :=
  let waiting := state.sums.reverse
  let declared := state.declared ++ c.declaredBy waiting
  let sums := Emission.each c.declareSum waiting
  match sums.outcome with
  | .error _ => ⟨{ state with sums := [], declared }, sums⟩
  | .ok () =>
    ⟨{ state with sums := [], products := [], declared },
      sums.andThen (Emission.each (c.declareProduct declared) state.products.reverse)⟩

/-- Declares enumerations at once and classes at the end. -/
def declarations (c : Context) : Section Pending where
  visit := c.declare
  finish := c.declareWaiting

end Context

end Header

end Asdl
