/-
Lines of generated text.

A line has a depth and a text; it is written with two spaces for each level of
depth.  An empty line is written without them.
-/

namespace Asdl

namespace Header

/-- A line of generated text. -/
structure Line where
  depth : Nat
  text : String
  deriving DecidableEq, Repr

/-- Two spaces for each level. -/
def indent : Nat → String
  | 0 => ""
  | n + 1 => "  " ++ indent n

namespace Line

/-- A line without text. -/
def blank : Line := ⟨0, ""⟩

/-- The same line, `depth` levels deeper. -/
def shift (depth : Nat) (l : Line) : Line := ⟨depth + l.depth, l.text⟩

/-- The line as it is written, with its end. -/
def render (l : Line) : String :=
  if l.text = "" then "\n" else indent l.depth ++ l.text ++ "\n"

end Line

/-- Lines as they are written. -/
def renderLines (ls : List Line) : String := String.join (ls.map Line.render)

end Header

end Asdl
