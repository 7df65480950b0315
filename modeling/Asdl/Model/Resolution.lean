/-
From a schema to its model.

Resolution checks the schema, numbers the products, looks at the shared variants
and then resolves one definition after the other; the first defect is reported.

* `Model.ofSchema` — the model of a schema, or why it has none;
* `Schema.resolvedNames` — the definitions that were resolved before the first
  defect, in order.

Design notes: the tags of products start at `firstProductTag` and fit sixteen
bits.  A constructor's tag is its position among the variants of its sum,
counted from one, and a sum with a variant at position `firstProductTag` is
refused, so within a sum no two classes have one tag.
-/
import Asdl.Model
import Asdl.Schema.Validity

namespace Asdl

namespace Model

/-- The tag of the first product. -/
def firstProductTag : Nat := 1000

/-- The largest tag. -/
def lastTag : Nat := 65535

/-- The number of products that get a tag. -/
def productLimit : Nat := lastTag + 1 - firstProductTag

/-! ### Scopes -/

/-- What a name is defined as. -/
inductive Kind where
  | simpleSum
  | compoundSum
  | product
  deriving DecidableEq, Repr

/-- What a definition defines. -/
def kindOf : Asdl.Definition → Kind
  | .sum s => if s.isSimple then .simpleSum else .compoundSum
  | .product _ => .product

/-- What is known of a schema before its definitions are resolved. -/
structure Scope where
  externals : List String
  kinds : NameTable Kind
  /-- The tag of each product. -/
  tags : NameTable Nat
  /-- The sums that share each product, in order. -/
  bases : NameTable (List String)

/-- The products that a sum shares, in order. -/
def sharedBy (s : Sum) : List String := s.variants.filterMap Asdl.Variant.shared

/-- The scope of the definitions of a schema. -/
def Scope.ofSchema (s : Schema) : Scope where
  externals := s.externals
  kinds := .ofList (s.definitions.map fun d => (d.name, kindOf d))
  tags := .ofList ((s.products.map Asdl.Product.name).zipIdx firstProductTag)
  bases := .groups (s.sums.flatMap fun sum => (sharedBy sum).map fun p => (p, sum.name))

namespace Scope

/-- The tag of a product; zero, which is no tag, for any other name. -/
def tagOf (sc : Scope) (product : String) : Nat := (sc.tags.find? product).getD 0

/-- The sums that share a product, in order. -/
def basesOf (sc : Scope) (product : String) : List String := (sc.bases.find? product).getD []

/-! ### Checks -/

/-- A shared variant names a product. -/
def checkShared (sc : Scope) (sum : Sum) (v : Asdl.Variant × String) : Except SchemaError Unit :=
  refuseIf (sc.kinds.find? v.2 != some .product) (.sharedCaseNotProduct sum.name v.1.name v.2)

/-- The shared variants of a sum name different products. -/
def checkBases (sc : Scope) (sum : Sum) : Except SchemaError Unit :=
  checkDistinct Prod.snd (fun v => .duplicateBase sum.name v.2) (sc.checkShared sum)
    (sum.variants.filterMap fun v => v.shared.map (v, ·))

/-! ### Types and fields -/

/-- What a name stands for: a built-in type, an imported one, or a definition. -/
def resolveName (sc : Scope) (owner field name : String) : Except SchemaError TypeRef :=
  match Primitive.ofName? name with
  | some p => .ok (.primitive p)
  | none =>
    if sc.externals.contains name then .ok (.external name)
    else match sc.kinds.find? name with
      | some .simpleSum => .ok (.simpleSum name)
      | some .compoundSum => .ok (.compoundSum name)
      | some .product => .ok (.product name)
      | none => .error (.unknownType name field owner)

/-- The keys and the values of a map are single values of a named type. -/
def resolveOperand (sc : Scope) (owner field role : String) :
    TypeExpr → Except SchemaError TypeRef
  | .named name .scalar => sc.resolveName owner field name
  | _ =>
    .error (.unsupportedFieldType field owner ("map " ++ role ++ " must be a plain named type"))

/-- What a field holds. -/
def resolveType (sc : Scope) (owner field : String) : TypeExpr → Except SchemaError FieldType
  | .named name multiplicity => do
    let type ← sc.resolveName owner field name
    match multiplicity with
    | .scalar => return .scalar type
    | .optional => return .optional type
    | .repeated => return .repeated type
    | .map => throw (.unsupportedFieldType field owner "map multiplicity on a named type")
  | .map key value => do
    let key ← sc.resolveOperand owner field "key" key
    let value ← sc.resolveOperand owner field "value" value
    return .map key value

/-- A field of the given owner. -/
def resolveField (sc : Scope) (owner : String) (f : Asdl.Field) : Except SchemaError Field := do
  let type ← sc.resolveType owner f.name f.type
  return ⟨f.name, type⟩

def resolveFields (sc : Scope) (owner : String) (fs : List Asdl.Field) :
    Except SchemaError (List Field) :=
  fs.mapM (sc.resolveField owner)

/-! ### Definitions -/

/-- A variant at a position counted from one. -/
def resolveVariant (sc : Scope) (v : Asdl.Variant × Nat) : Except SchemaError Variant :=
  match v.1.shared with
  | some product => .ok (.shared ⟨v.1.name, sc.tagOf product, product⟩)
  | none => do
    let fields ← sc.resolveFields v.1.name v.1.fields
    return .constructor ⟨v.1.name, v.2, fields⟩

/-- A sum whose cases are classes. -/
def resolveCompound (sc : Scope) (s : Sum) : Except SchemaError CompoundSum := do
  refuseIf (firstProductTag ≤ s.variants.length) (.tagSpaceOverflow s.name s.variants.length)
  let variants ← (s.variants.zipIdx 1).mapM sc.resolveVariant
  let attributes ← sc.resolveFields s.name s.attributes
  return ⟨s.name, variants, attributes⟩

/-- A sum that is a mere enumeration. -/
def resolveSimple (s : Sum) : SimpleSum := ⟨s.name, (s.variants.map Asdl.Variant.name).zipIdx 1⟩

def resolveProduct (sc : Scope) (p : Asdl.Product) : Except SchemaError Product := do
  let fields ← sc.resolveFields p.name p.fields
  let attributes ← sc.resolveFields p.name p.attributes
  return ⟨p.name, sc.tagOf p.name, fields, attributes, sc.basesOf p.name⟩

def resolve (sc : Scope) : Asdl.Definition → Except SchemaError Definition
  | .sum s =>
    if s.isSimple then .ok (.simpleSum (resolveSimple s))
    else .compoundSum <$> sc.resolveCompound s
  | .product p => .product <$> sc.resolveProduct p

end Scope

end Model

/-! ### Schemas -/

namespace Schema

/-- There are tags for all products. -/
def checkProductCount (s : Schema) : Except SchemaError Unit :=
  match s.products[Model.productLimit]? with
  | some p => .error (.productTagOverflow p.name (Model.lastTag + 1))
  | none => .ok ()

/-- Everything that is checked before the first definition is resolved. -/
def check (s : Schema) : Except SchemaError Unit := do
  s.validate
  s.checkProductCount
  s.sums.forM (Model.Scope.ofSchema s).checkBases

/-- The names of the definitions that can be resolved before the first defect. -/
def resolvedNames (s : Schema) : List String :=
  match s.check with
  | .error _ => []
  | .ok () =>
    let scope := Model.Scope.ofSchema s
    (s.definitions.takeWhile fun d => (scope.resolve d).isOk).map Definition.name

end Schema

/-- The model of a schema. -/
def Model.ofSchema (s : Schema) : Except SchemaError Model := do
  s.check
  let definitions ← s.definitions.mapM (Model.Scope.ofSchema s).resolve
  return { name := s.name, externals := s.externals, definitions }

end Asdl
