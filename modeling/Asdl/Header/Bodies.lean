/-
The section of a header that holds bodies.

Every sum has the body of its function from tags to names.  Every class has the
bodies of its tree methods, if there are any: a class with data makes records,
the base of a compound sum asks the class that the tag stands for.

Design notes: functions stand at the depth of their definition, methods always
at depth zero.
-/
import Asdl.Header.Declarations

namespace Asdl

namespace Header

open Model (SimpleSum CompoundSum)

/-- The function of a compound sum. -/
def compoundFunction (s : CompoundSum) : Item :=
  .strFunction s.name "int" (enumName s.name) (s.variants.map (·.name))

/-- The class for each variant of a compound sum. -/
def casesOf (s : CompoundSum) : List (String × String) :=
  s.variants.map fun v => (v.name, classOf s.name v)

/-- The methods of the base of a compound sum. -/
def dispatchItems (s : CompoundSum) : List Item :=
  TreeMethod.all.flatMap fun m => [.dispatcher s.name m (casesOf s), .blank]

namespace Context

/-- The tree with all members. -/
def fullBody (c : Context) (cls : String) (fields attributes : List Model.Field) : RecordBody :=
  ⟨recordName cls, .full, (fields ++ attributes).map c.entry⟩

/-- The tree without attributes. -/
def shortBody (c : Context) (cls : String) (fields : List Model.Field) : RecordBody :=
  ⟨recordName cls, .short, fields.map c.entry⟩

/-- The tree methods of a class with data. -/
def treeItems (c : Context) (cls : String) (fields attributes : List Model.Field) : List Item :=
  [.recordMethod cls .full (c.fullBody cls fields attributes), .blank,
    .recordMethod cls .shortOwn (c.shortBody cls fields), .blank]
    ++ (if c.options.hasHook cls then [.hookDeclaration cls, .blank] else [])
    ++ [.shortMethod cls (c.options.hasHook cls), .blank]

/-- The function of a simple sum. -/
def simpleFunction (c : Context) (s : SimpleSum) : Item :=
  .strFunction s.name (c.tagType s.name) (c.enumeration s.name) (s.variants.map Prod.fst)

/-- The functions of a definition. -/
def functionItems (c : Context) : Model.Definition → List Item
  | .simpleSum s => [c.simpleFunction s, .blank]
  | .compoundSum s => [compoundFunction s, .blank]
  | .product _ => []

/-- The methods of a definition. -/
def methodItems (c : Context) : Model.Definition → List Item
  | .simpleSum _ => []
  | .compoundSum s =>
    s.constructors.flatMap (fun k => c.treeItems (memberName s.name k.name) k.fields s.attributes)
      ++ dispatchItems s
  | .product p => c.treeItems p.name p.fields p.attributes

/-- The bodies that a definition needs. -/
def bodiesOf (c : Context) (d : Model.Definition) (depth : Nat) : Emission :=
  (Emission.ofItems depth (c.functionItems d)).andThen
    (.ofItems 0 (if c.options.treeMethods then c.methodItems d else []))

/-- Writes all bodies. -/
def bodies (c : Context) : Section Unit where
  visit := fun _ d depth => ⟨(), c.bodiesOf d depth⟩
  finish := fun _ => ⟨(), {}⟩

end Context

end Header

end Asdl
