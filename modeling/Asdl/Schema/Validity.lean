/-
The checks of a schema that need no name resolution.

They run in a fixed order, and the first defect is reported:

1. `checkNames` — no definition takes the name of a built-in or imported type or
   of an earlier definition;
2. `checkGenerated` — no two generated names coincide, and none is the name of a
   definition;
3. `Definition.checkBody` — sums have variants, with different names, and the
   members of each class have different names.

`checkDistinct` is the walk behind most of them: it goes through a list once,
refuses a repeated name and otherwise applies a check of its own.
-/
import Asdl.NameTable
import Asdl.Naming
import Asdl.Schema
import Asdl.Schema.Error

namespace Asdl

/-! ### One walk through named things -/

/-- Goes through a list in order.  A thing whose name has been seen is refused
with `repeated`; any other is checked on its own. -/
def checkDistinctFrom {α ε : Type} (name : α → String) (repeated : α → ε)
    (check : α → Except ε Unit) : NameTable Unit → List α → Except ε Unit
  | _, [] => .ok ()
  | seen, a :: rest =>
    if seen.contains (name a) then .error (repeated a)
    else match check a with
      | .error e => .error e
      | .ok () => checkDistinctFrom name repeated check (seen.insert (name a) ()) rest

/-- Goes through a list of things that should have different names. -/
def checkDistinct {α ε : Type} (name : α → String) (repeated : α → ε)
    (check : α → Except ε Unit) (things : List α) : Except ε Unit :=
  checkDistinctFrom name repeated check .empty things

/-- Fails with `e` if the condition holds. -/
def refuseIf {ε : Type} (condition : Bool) (e : ε) : Except ε Unit :=
  if condition then .error e else .ok ()

namespace Schema

/-! ### Names of definitions -/

/-- The names that no definition may take. -/
def isReserved (s : Schema) (name : String) : Bool :=
  (Primitive.ofName? name).isSome || name == mapWord || s.externals.contains name

/-- Definitions have different names, none of them reserved. -/
def checkNames (s : Schema) : Except SchemaError Unit :=
  checkDistinct Definition.name (.duplicateDefinition ·.name)
    (fun d => refuseIf (s.isReserved d.name) (.reservedName d.name)) s.definitions

/-! ### Generated names -/

/-- Claims names for `owner`, in order; a name that is taken is refused with the
one who took it. -/
def claim (owner : String) :
    NameTable String → List String → Except SchemaError (NameTable String)
  | taken, [] => .ok taken
  | taken, n :: rest =>
    match taken.find? n with
    | some other => .error (.nameClash n other)
    | none => claim owner (taken.insert n owner) rest

/-- A simple sum has a constant of its own that no variant may be named like. -/
def hidesArraySize : Definition → Bool
  | .sum s => s.isSimple && s.variants.any (·.name == arraySizeName)
  | .product _ => false

/-- Claims the generated names of one definition. -/
def claimDefinition (taken : NameTable String) (d : Definition) :
    Except SchemaError (NameTable String) :=
  if hidesArraySize d then .error (.nameClash arraySizeName d.name)
  else claim d.name taken d.generatedNames

/-- The generated names are different, and none is the name of a definition. -/
def checkGenerated (s : Schema) : Except SchemaError Unit := do
  let taken ← s.definitions.foldlM claimDefinition .empty
  s.definitions.forM fun d =>
    match taken.find? d.name with
    | some owner => .error (.nameClash d.name owner)
    | none => .ok ()

end Schema

/-! ### Bodies -/

/-- The members of a class have different names, none of them `tag`. -/
def checkMembers (owner : String) (members : List Field) : Except SchemaError Unit :=
  checkDistinct Field.name (.duplicateField owner ·.name)
    (fun f => refuseIf (f.name == tagMember) (.duplicateField owner f.name)) members

/-- A variant that shares nothing is a class with its own fields and the
attributes of the sum. -/
def Sum.checkVariant (s : Sum) (v : Variant) : Except SchemaError Unit :=
  match v.shared with
  | some _ => .ok ()
  | none => checkMembers v.name (v.fields ++ s.attributes)

/-- A sum has variants, and they have different names. -/
def Sum.checkBody (s : Sum) : Except SchemaError Unit :=
  if s.variants.isEmpty then .error (.emptySum s.name)
  else checkDistinct Variant.name (.duplicateVariant s.name ·.name) s.checkVariant s.variants

/-- The checks of a single definition. -/
def Definition.checkBody : Definition → Except SchemaError Unit
  | sum s => s.checkBody
  | product p => checkMembers p.name (p.fields ++ p.attributes)

/-- All checks, in order. -/
def Schema.validate (s : Schema) : Except SchemaError Unit := do
  s.checkNames
  s.checkGenerated
  s.definitions.forM Definition.checkBody

end Asdl
