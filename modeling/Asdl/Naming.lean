/-
The names that are generated for the definitions of a schema.

Every sum `S` gives the type `S_t`, the enumeration `S_e` or `S_i` and the
function `S_str`; a constructor `V` of a compound sum gives the class `S__V`.
`Definition.generatedNames` lists all names that may be generated, whatever the
options; a schema is refused if two of them coincide.
-/
import Asdl.Schema

namespace Asdl

/-- The type of a sum. -/
def typeName (sum : String) : String := sum ++ "_t"

/-- The enumeration of the tags of a sum. -/
def enumName (sum : String) : String := sum ++ "_e"

/-- The integer constants of a simple sum. -/
def intsName (sum : String) : String := sum ++ "_i"

/-- The function from tags to their names. -/
def strName (sum : String) : String := sum ++ "_str"

/-- The class of a constructor, and the macro of a variant. -/
def memberName (sum variant : String) : String := sum ++ "__" ++ variant

/-- The constant that counts the variants of a simple sum. -/
def arraySizeName : String := "ARRAY_SIZE"

/-- The member that every data class has. -/
def tagMember : String := "tag"

/-- The word that starts a map type. -/
def mapWord : String := "map"

/-- The names generated for a sum: four in any case, and the classes of the
variants that share nothing unless the sum is a mere enumeration. -/
def Sum.generatedNames (s : Sum) : List String :=
  [typeName s.name, enumName s.name, intsName s.name, strName s.name] ++
    if s.isSimple then []
    else (s.variants.filter (·.shared.isNone)).map fun v => memberName s.name v.name

/-- A product generates its own name only. -/
def Definition.generatedNames : Definition → List String
  | sum s => s.generatedNames
  | product _ => []

end Asdl
