/-
What can be wrong with a schema, and how it is said.

* `ParseError` — the text is not a schema;
* `SchemaError` — the schema has a definition that cannot be used;
* `ParseError.message`, `SchemaError.message` — the wording.

Line numbers start at one.
-/

namespace Asdl

/-- Why a text is not a schema. -/
inductive ParseError where
  /-- A character that starts no token. -/
  | invalidToken (text : String) (line : Nat)
  /-- A token that cannot stand where it does. -/
  | unexpectedToken (expected found : String) (line : Nat)
  /-- The text ends although something has to follow. -/
  | unexpectedEnd (expected : String)
  /-- A token after the closing brace of the module. -/
  | trailingInput (found : String) (line : Nat)
  deriving DecidableEq, Repr

/-- The wording of a parse error. -/
def ParseError.message : ParseError → String
  | invalidToken text line => "invalid token '" ++ text ++ "' at line " ++ line.repr
  | unexpectedToken expected found line =>
    "expected " ++ expected ++ ", found '" ++ found ++ "' at line " ++ line.repr
  | unexpectedEnd expected => "unexpected end of input, expected " ++ expected
  | trailingInput found line =>
    "trailing input '" ++ found ++ "' at line " ++ line.repr ++ " after module"

/-- Why a schema has no model. -/
inductive SchemaError where
  /-- The schema could not be read. -/
  | parse (error : ParseError)
  /-- A field mentions a type that nothing defines. -/
  | unknownType (type field owner : String)
  /-- A sum shares one product twice. -/
  | duplicateBase (sum product : String)
  /-- A variant shares something that is no product. -/
  | sharedCaseNotProduct (sum variant target : String)
  /-- A field has a type that no member can have. -/
  | unsupportedFieldType (field owner message : String)
  /-- Two definitions have one name. -/
  | duplicateDefinition (name : String)
  /-- A sum without variants. -/
  | emptySum (sum : String)
  /-- Two variants of a sum have one name. -/
  | duplicateVariant (sum variant : String)
  /-- Two members of one class have one name. -/
  | duplicateField (owner field : String)
  /-- A definition is named like a built-in or imported type. -/
  | reservedName (name : String)
  /-- A sum has so many variants that their tags reach those of the products. -/
  | tagSpaceOverflow (sum : String) (variants : Nat)
  /-- A product would get a tag of more than sixteen bits. -/
  | productTagOverflow (product : String) (tag : Nat)
  /-- A name is taken by a declaration that is generated for a sum. -/
  | nameClash (name owner : String)
  deriving DecidableEq, Repr

/-- The wording of a schema error. -/
def SchemaError.message : SchemaError → String
  | parse error => "parse error: " ++ error.message
  | unknownType type field owner =>
    "unknown type '" ++ type ++ "' in field '" ++ field ++ "' of '" ++ owner ++ "'"
  | duplicateBase sum product =>
    "duplicate base: two variants of sum '" ++ sum ++ "' refer to product '" ++ product ++ "'"
  | sharedCaseNotProduct sum variant target =>
    "variant '" ++ variant ++ "' of sum '" ++ sum ++ "' shares '" ++ target
      ++ "', which is not a product"
  | unsupportedFieldType field owner message =>
    "unsupported type for field '" ++ field ++ "' of '" ++ owner ++ "': " ++ message
  | duplicateDefinition name => "duplicate definition: '" ++ name ++ "'"
  | emptySum sum => "sum '" ++ sum ++ "' has no variants"
  | duplicateVariant sum variant => "duplicate variant '" ++ variant ++ "' in sum '" ++ sum ++ "'"
  | duplicateField owner field => "duplicate field '" ++ field ++ "' in '" ++ owner ++ "'"
  | reservedName name => "definition '" ++ name ++ "' shadows a built-in or external type"
  | tagSpaceOverflow sum variants =>
    "sum '" ++ sum ++ "' has " ++ variants.repr
      ++ " variants, which overlaps the product tag space"
  | productTagOverflow product tag =>
    "product '" ++ product ++ "' would get tag " ++ tag.repr ++ ", above the 16-bit tag limit"
  | nameClash name owner =>
    "'" ++ name ++ "' clashes with the generated declaration of '" ++ owner ++ "'"

end Asdl
