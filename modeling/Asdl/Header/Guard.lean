/-
The frame of a header file: a comment that says where it comes from, and the
lines that keep it from being included twice.
-/

namespace Asdl

namespace Header

/-- Letters become capital, and what is neither a letter nor a digit of ASCII
becomes an underscore. -/
def guardChar (c : Char) : Char := if c.isAlphanum then c.toUpper else '_'

/-- The macro that marks a header as included. -/
def guardName (module : String) : String :=
  "ASDL_" ++ String.ofList (module.toList.map guardChar) ++ "_H"

/-- A header file with the given code. -/
def withGuard (module code : String) : String :=
  "// Generated by asdlgen from module " ++ module ++ ". Do not edit.\n\n"
    ++ "#ifndef " ++ guardName module ++ "\n"
    ++ "#define " ++ guardName module ++ "\n\n"
    ++ code
    ++ "#endif  // " ++ guardName module ++ "\n"

end Header

end Asdl
