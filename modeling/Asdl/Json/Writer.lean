/-
Writing JSON.

* `Json.quote` — a text as a JSON string: quotes, backslashes and control
  characters are escaped, all else stands for itself;
* `Json.object` — an object over several lines, members two spaces deeper.
-/

namespace Asdl

namespace Json

/-- A hexadecimal digit, in lower case. -/
def hexDigit (n : Nat) : Char := Nat.digitChar n

/-- A character inside a string. -/
def escape (c : Char) : List Char :=
  if c = '"' then ['\\', '"']
  else if c = '\\' then ['\\', '\\']
  else if c = '\n' then ['\\', 'n']
  else if c = '\r' then ['\\', 'r']
  else if c = '\t' then ['\\', 't']
  else if c = '\x08' then ['\\', 'b']
  else if c = '\x0c' then ['\\', 'f']
  else if c.toNat < 0x20 then
    ['\\', 'u', '0', '0', hexDigit (c.toNat / 16), hexDigit (c.toNat % 16)]
  else [c]

/-- A text as a JSON string. -/
def quote (s : String) : String :=
  String.ofList ('"' :: (s.toList.flatMap escape ++ ['"']))

/-- Two spaces for each level. -/
def indentation : Nat → String
  | 0 => ""
  | n + 1 => "  " ++ indentation n

/-- An object that stands at a depth; the members are given with their values as
they are written. -/
def object (depth : Nat) (members : List (String × String)) : String :=
  if members.isEmpty then "\x7b\x7d"
  else
    "\x7b\n" ++
      ",\n".intercalate
        (members.map fun m => indentation (depth + 1) ++ quote m.1 ++ ": " ++ m.2) ++
      "\n" ++ indentation depth ++ "\x7d"

end Json

end Asdl
