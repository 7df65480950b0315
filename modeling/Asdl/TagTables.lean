/-
Tables of tags, for tools that look at values from outside.

For the type of each compound sum there is a table from tags to classes.  The
tables are written as JSON, types in order of their names and tags in numeric
order.
-/
import Asdl.Json.Writer
import Asdl.SortedMap

namespace Asdl

/-- A table from tags to classes. -/
abbrev TagTable := SortedMap Nat String

/-- A table for each type. -/
abbrev TagTables := SortedMap String TagTable

/-- One table as JSON. -/
def TagTable.json (t : TagTable) : String :=
  Json.object 1 (t.entries.map fun e => (e.1.repr, Json.quote e.2))

/-- The tables as JSON. -/
def TagTables.json (t : TagTables) : String :=
  Json.object 0 (t.entries.map fun e => (e.1, TagTable.json e.2))

end Asdl
