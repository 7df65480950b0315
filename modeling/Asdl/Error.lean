/-
Why a run fails, and how it is said.

* `FileFault` — a file cannot be read or written;
* `JsonFault` — a text is not the JSON that is asked for;
* `Violation` — a header cannot be written in the order that was asked for;
* `Error` — any failure of a run.
-/
import Asdl.Schema.Error

namespace Asdl

/-- Why a file cannot be read or written. -/
inductive FileFault where
  | missing
  | notDirectory
  | isDirectory
  | nameTooLong
  | notText
  /-- Any other fault, as the system puts it. -/
  | other (message : String)
  deriving DecidableEq, Repr

def FileFault.message : FileFault → String
  | missing => "No such file or directory (os error 2)"
  | notDirectory => "Not a directory (os error 20)"
  | isDirectory => "Is a directory (os error 21)"
  | nameTooLong => "File name too long (os error 36)"
  | notText => "stream did not contain valid UTF-8"
  | other message => message

/-- Why a text is not the JSON that is asked for. -/
inductive JsonFault where
  /-- The text ends too early. -/
  | ended
  /-- The text is not JSON, or holds more than one value. -/
  | malformed
  /-- A value has the wrong type, or a key is repeated. -/
  | mistyped
  deriving DecidableEq, Repr

/-- Why a header cannot be written in the order that was asked for. -/
inductive Violation where
  /-- A compound sum is to be declared that the model does not have. -/
  | sumVanished (name : String)
  /-- A product is to be declared that the model does not have. -/
  | productVanished (name : String)
  /-- A product is to be declared before one of its bases. -/
  | baseMissing (product base : String)
  /-- A refusal with a text of its own. -/
  | refused (message : String)
  deriving DecidableEq, Repr

def Violation.message : Violation → String
  | sumVanished name => "compound sum '" ++ name ++ "' vanished"
  | productVanished name => "product '" ++ name ++ "' vanished"
  | baseMissing product base =>
    "product '" ++ product ++ "' emitted before its base '" ++ base ++ "'"
  | refused message => message

/-- Why a run fails. -/
inductive Error where
  | parse (error : ParseError)
  | schema (error : SchemaError)
  | file (fault : FileFault)
  | json (fault : JsonFault)
  | violation (violation : Violation)
  deriving DecidableEq, Repr

/-- The wording of an error.  Faults of JSON texts are not described further. -/
def Error.message : Error → String
  | parse error => "schema parse error: " ++ error.message
  | schema error => "schema error: " ++ error.message
  | file fault => "IO error: " ++ fault.message
  | json _ => "JSON error: "
  | violation v => "invariant violation: " ++ v.message

end Asdl
