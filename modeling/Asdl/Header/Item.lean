/-
The items of a generated header.

An `Item` is what stands between blank lines: a declaration, a class, a function
or the body of a method.  `Item.lines` is how it is written.  A blank line is an
item too.
-/
import Asdl.Header.Tree

namespace Asdl

namespace Header

/-- An item of a header. -/
inductive Item where
  | blank
  /-- The announcement of a class. -/
  | forward (cls : String)
  /-- The macro for a tag. -/
  | define (name : String) (value : Nat)
  /-- A namespace of integer constants. -/
  | constants (name : String) (values : List (String × Nat))
  /-- A typed enumeration. -/
  | enumeration (name : String) (values : List (String × Nat))
  /-- Another name for a type. -/
  | typedef (type name : String)
  /-- The announcement of the function from tags to names. -/
  | strDeclaration (sum tagType : String)
  /-- The common base of the classes of a compound sum. -/
  | sumClass (name : String) (treeMethods : Bool)
  | dataClass (c : DataClass)
  /-- Short names for the classes of the constructors of a compound sum. -/
  | aliases (sum : String) (constructors : List String)
  /-- The function from tags to names. -/
  | strFunction (sum tagType enumeration : String) (variants : List String)
  /-- A method that makes a record. -/
  | recordMethod (cls : String) (method : TreeMethod) (body : RecordBody)
  /-- The announcement of a hand-written function for the short tree. -/
  | hookDeclaration (cls : String)
  /-- The method for the short tree, which may ask a hand-written function. -/
  | shortMethod (cls : String) (hook : Bool)
  /-- A method of a compound sum: the class for each variant. -/
  | dispatcher (sum : String) (method : TreeMethod) (cases : List (String × String))
  deriving DecidableEq, Repr

/-! ### Text -/

/-- The start of a function from tags to names. -/
def strSignature (sum tagType : String) : String :=
  "const char* " ++ strName sum ++ "(" ++ tagType ++ " tag)"

/-- The start of a method outside its class. -/
def methodSignature (cls : String) (method : TreeMethod) : String :=
  "hnode_t* " ++ cls ++ "::" ++ method.name ++ "()"

/-- The hand-written function of a class. -/
def hookName (cls : String) : String := "_" ++ cls

/-- The lines for a variant in the function from tags to names. -/
def strCase (sum enumeration variant : String) : List Line :=
  [⟨1, "case " ++ enumeration ++ "::" ++ variant ++ ":"⟩,
    ⟨2, "return \"" ++ sum ++ "." ++ variant ++ "\";"⟩]

/-- The lines for a variant in a method of a compound sum. -/
def dispatchCase (sum : String) (method : TreeMethod) (c : String × String) : List Line :=
  [⟨1, "case " ++ enumName sum ++ "::" ++ c.1 ++ ": \x7b"⟩,
    ⟨2, c.2 ++ "* obj = static_cast<" ++ c.2 ++ "*>(this);"⟩,
    ⟨2, "return obj->" ++ method.name ++ "();"⟩,
    ⟨1, "\x7d"⟩]

/-- How the base of a compound sum is written. -/
def sumClassLines (name : String) (treeMethods : Bool) : List Line :=
  [⟨0, "class " ++ name ++ " \x7b"⟩,
    ⟨0, " protected:"⟩,
    ⟨1, name ++ "() \x7b\x7d"⟩,
    ⟨0, " public:"⟩,
    ⟨1, "int tag_() \x7b"⟩,
    ⟨2, "return reinterpret_cast<Obj*>(this)->tag;"⟩,
    ⟨1, "\x7d"⟩]
    ++ treeDeclarations treeMethods
    ++ [noCopyLine name, ⟨0, "\x7d;"⟩]

/-- How an item is written. -/
def Item.lines : Item → List Line
  | blank => [.blank]
  | forward cls => [⟨0, "class " ++ cls ++ ";"⟩]
  | define name value => [⟨0, "#define " ++ name ++ " " ++ value.repr⟩]
  | constants name values =>
    [⟨0, "namespace " ++ name ++ " \x7b"⟩]
      ++ values.map (fun v => ⟨1, "const int " ++ v.1 ++ " = " ++ v.2.repr ++ ";"⟩)
      ++ [⟨0, "\x7d;"⟩]
  | enumeration name values =>
    [⟨0, "enum class " ++ name ++ " \x7b"⟩]
      ++ values.map (fun v => ⟨1, v.1 ++ " = " ++ v.2.repr ++ ","⟩)
      ++ [⟨0, "\x7d;"⟩]
  | typedef type name => [⟨0, "typedef " ++ type ++ " " ++ name ++ ";"⟩]
  | strDeclaration sum tagType => [⟨0, strSignature sum tagType ++ ";"⟩]
  | sumClass name treeMethods => sumClassLines name treeMethods
  | dataClass c => c.lines
  | aliases sum constructors =>
    [⟨0, "namespace " ++ sum ++ " \x7b"⟩]
      ++ constructors.map (fun v => ⟨1, "typedef " ++ memberName sum v ++ " " ++ v ++ ";"⟩)
      ++ [⟨0, "\x7d"⟩]
  | strFunction sum tagType scope variants =>
    [⟨0, strSignature sum tagType ++ " \x7b"⟩, ⟨1, "switch (tag) \x7b"⟩]
      ++ variants.flatMap (strCase sum scope)
      ++ [⟨1, "default:"⟩, ⟨2, "std::abort();"⟩, ⟨1, "\x7d"⟩, ⟨0, "\x7d"⟩]
  | recordMethod cls method body =>
    [⟨0, methodSignature cls method ++ " \x7b"⟩] ++ body.lines ++ [⟨0, "\x7d"⟩]
  | hookDeclaration cls => [⟨0, "hnode_t* " ++ hookName cls ++ "(" ++ cls ++ "* obj);"⟩]
  | shortMethod cls hook =>
    [⟨0, methodSignature cls .short ++ " \x7b"⟩]
      ++ (if hook then
          [⟨1, "hnode_t* p = " ++ hookName cls ++ "(this);"⟩,
            ⟨1, "return p ? p : " ++ TreeMethod.shortOwn.name ++ "();"⟩]
        else [⟨1, "return " ++ TreeMethod.shortOwn.name ++ "();"⟩])
      ++ [⟨0, "\x7d"⟩]
  | dispatcher sum method cases =>
    [⟨0, methodSignature (typeName sum) method ++ " \x7b"⟩,
      ⟨1, "switch (this->tag_()) \x7b"⟩]
      ++ cases.flatMap (dispatchCase sum method)
      ++ [⟨1, "default:"⟩, ⟨2, "std::abort();"⟩, ⟨1, "\x7d"⟩, ⟨0, "\x7d"⟩]

/-- An item and how deep it stands. -/
structure Placed where
  depth : Nat
  item : Item
  deriving DecidableEq, Repr

def Placed.lines (p : Placed) : List Line := p.item.lines.map (.shift p.depth)

/-- Items as they are written. -/
def renderItems (ps : List Placed) : String := renderLines (ps.flatMap Placed.lines)

end Header

end Asdl
