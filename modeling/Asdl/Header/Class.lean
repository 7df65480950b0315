/-
Data classes of the generated header.

A data class holds its tag, its fields and the attributes of its sum.  It can be
built from its fields, the attributes taking their initial values, and also from
nothing at all.

* `DataClass` — a class with its bases, its tag and its members;
* `DataClass.builders` — the ways to build a value;
* `DataClass.lines` — how the class is written.
-/
import Asdl.Header.Line
import Asdl.Header.Type

namespace Asdl

namespace Header

/-! ### Tree methods -/

/-- The methods that build trees. -/
inductive TreeMethod where
  /-- The tree with all members. -/
  | full
  /-- The tree without attributes, as generated. -/
  | shortOwn
  /-- The tree without attributes, unless a hand-written function has another. -/
  | short
  deriving DecidableEq, Repr

namespace TreeMethod

def name : TreeMethod → String
  | full => "PrettyTree"
  | shortOwn => "_AbbreviatedTree"
  | short => "AbbreviatedTree"

def all : List TreeMethod := [full, shortOwn, short]

/-- The declaration of the method inside a class. -/
def declaration (m : TreeMethod) : Line := ⟨1, "hnode_t* " ++ m.name ++ "();"⟩

end TreeMethod

/-- The declarations of the tree methods of a class that has them. -/
def treeDeclarations (treeMethods : Bool) : List Line :=
  if treeMethods then TreeMethod.all.map TreeMethod.declaration else []

/-! ### Data classes -/

/-- A member of a data class. -/
structure Member where
  name : String
  type : CType
  initial : Initial
  deriving DecidableEq, Repr

/-- How a class writes its tag. -/
inductive Tag where
  /-- By a constant of the sum that it belongs to. -/
  | constant (enumeration variant : String)
  /-- By number. -/
  | number (n : Nat)
  deriving DecidableEq, Repr

def Tag.text : Tag → String
  | constant enumeration variant =>
    "static_cast<uint16_t>(" ++ enumeration ++ "::" ++ variant ++ ")"
  | number n => n.repr

/-- A class that holds data. -/
structure DataClass where
  name : String
  bases : List String
  tag : Tag
  fields : List Member
  attributes : List Member
  treeMethods : Bool
  deriving DecidableEq, Repr

/-- Where a member gets its first value from. -/
inductive Source where
  | tag (t : Tag)
  | initial (i : Initial)
  | parameter (name : String)
  deriving DecidableEq, Repr

def Source.text : Source → String
  | tag t => t.text
  | initial i => i.text
  | parameter name => name

/-- A way to build a value: the parameters, and what each member gets. -/
structure Builder where
  parameters : List Member
  sources : List (String × Source)
  deriving DecidableEq, Repr

namespace DataClass

/-- The members besides the tag, in order. -/
def members (c : DataClass) : List Member := c.fields ++ c.attributes

/-- A member that takes its initial value. -/
def byDefault (m : Member) : String × Source := (m.name, .initial m.initial)

/-- A member that takes the parameter of its name. -/
def byParameter (m : Member) : String × Source := (m.name, .parameter m.name)

/-- Building a value from nothing. -/
def fromNothing (c : DataClass) : Builder :=
  ⟨[], (tagMember, .tag c.tag) :: c.members.map byDefault⟩

/-- Building a value from its fields. -/
def fromFields (c : DataClass) : Builder :=
  ⟨c.fields, (tagMember, .tag c.tag) :: (c.fields.map byParameter ++ c.attributes.map byDefault)⟩

/-- The ways to build a value.  Without fields both are the same. -/
def builders (c : DataClass) : List Builder :=
  if c.fields.isEmpty then [c.fromFields] else [c.fromNothing, c.fromFields]

theorem mem_builders {c : DataClass} {b : Builder} (h : b ∈ c.builders) :
    b = c.fromNothing ∨ b = c.fromFields := by
  rw [builders] at h
  split at h
  · exact .inr (List.mem_singleton.mp h)
  · simpa using h

end DataClass

/-! ### Text -/

/-- Things separated by commas. -/
def commas (xs : List String) : String := ", ".intercalate xs

def Member.parameter (m : Member) : String := m.type.text ++ " " ++ m.name

def Member.line (m : Member) : Line := ⟨1, m.type.text ++ " " ++ m.name ++ ";"⟩

/-- A builder of the class `cls`. -/
def Builder.line (cls : String) (b : Builder) : Line :=
  ⟨1, cls ++ "(" ++ commas (b.parameters.map Member.parameter) ++ ") : "
    ++ commas (b.sources.map fun s => s.1 ++ "(" ++ s.2.text ++ ")") ++ " \x7b\x7d"⟩

/-- The line that keeps a class from being copied. -/
def noCopyLine (cls : String) : Line := ⟨1, "DISALLOW_COPY_AND_ASSIGN(" ++ cls ++ ")"⟩

/-- How the class is written. -/
def DataClass.lines (c : DataClass) : List Line :=
  [⟨0, "class " ++ c.name ++ " : " ++ commas (c.bases.map ("public " ++ ·)) ++ " \x7b"⟩,
    ⟨0, " public:"⟩]
    ++ c.builders.map (Builder.line c.name)
    ++ [⟨1, "uint16_t " ++ tagMember ++ ";"⟩]
    ++ c.members.map Member.line
    ++ treeDeclarations c.treeMethods
    ++ [.blank, noCopyLine c.name, ⟨0, "\x7d;"⟩]

end Header

end Asdl
