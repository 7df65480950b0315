/-
What the items of a header use and what they declare.

An item can be read if what it uses was declared before it.  Both are said of the parts of
an item here, and both are held against its letters:

* `Need` — what a use can ask for: an announced class, a complete class, a type for values,
  a constant, a function, a hand-written function;
* `Item.needs`, `Item.provides` — what an item uses and what is there after it;
* `Mentions`, `Item.mentions_of_needs` — what is used stands in one of the lines;
* `Declares`, `Item.declares_of_provides` — what is there afterwards was declared by them;
* `IsBody`, `Item.isBody_of_spelling` — the lines that start a body outside of a class.

Design notes: whether a name is used at some place of a text cannot be told from the text
alone, since the names of a schema can be any texts.  So the uses come from the parts of an
item, while a declaration is known by its first line.
-/
import Asdl.Proofs.Spelling

namespace Asdl

namespace Header

/-! ### Needs -/

/-- Something that must be there before it is used. -/
inductive Need where
  /-- A class that pointers can point to. -/
  | announced (cls : String)
  /-- A class with all its members. -/
  | complete (cls : String)
  /-- A type of values. -/
  | type (name : String)
  /-- A constant in a namespace or an enumeration. -/
  | constant (space name : String)
  | function (name : String)
  /-- A function that is written by hand. -/
  | hook (name : String)
  deriving DecidableEq

/-- What a type needs: pointers their targets, values their types. -/
def CType.needs : CType → List Need
  | named name => [.type name]
  | pointer (named name) => [.announced name]
  | pointer target => target.needs
  | optional element => element.needs
  | list element => element.needs
  | dict key value => key.needs ++ value.needs

example : (CType.pointer (.dict (.named "Op_e") (.pointer (.named "Expr_t")))).needs =
    [.type "Op_e", .announced "Expr_t"] := by decide

def Initial.needs : Initial → List Need
  | emptyList element => element.needs
  | absent element => element.needs
  | enumerator enumeration variant => [.constant enumeration variant]
  | _ => []

def Source.needs : Source → List Need
  | tag (.constant enumeration variant) => [.constant enumeration variant]
  | tag (.number _) => []
  | initial i => i.needs
  | parameter _ => []

/-- The parameters of a builder and what it sets the members to. -/
def Builder.needs (b : Builder) : List Need :=
  b.parameters.flatMap (·.type.needs) ++ b.sources.flatMap (·.2.needs)

/-- A class needs its bases whole, and what its builders and members need. -/
def DataClass.needs (k : DataClass) : List Need :=
  k.bases.map .complete ++ k.builders.flatMap Builder.needs ++ k.members.flatMap (·.type.needs)

def Node.needs : Node → List Need
  | label sum => [.function (sum ++ "_str")]
  | _ => []

def Shape.needs : Shape → List Need
  | always node => node.needs
  | ifSet node => node.needs
  | ifValue node => node.needs
  | each element node => element.needs ++ node.needs

/-- What an item uses. -/
def Item.needs : Item → List Need
  | typedef type _ => [.type type]
  | strDeclaration _ tagType => [.type tagType]
  | dataClass k => k.needs
  | aliases sum constructors => constructors.map fun v => .complete (sum ++ "__" ++ v)
  | strFunction _ tagType space variants => .type tagType :: variants.map (.constant space)
  | recordMethod cls _ body => .complete cls :: body.entries.flatMap (·.shape.needs)
  | hookDeclaration cls => [.complete cls]
  | shortMethod cls hook => .complete cls :: if hook then [.hook ("_" ++ cls)] else []
  | dispatcher sum _ cases =>
    .complete (sum ++ "_t") :: cases.flatMap fun x => [.constant (sum ++ "_e") x.1, .complete x.2]
  | _ => []

/-- What is there after an item. -/
def Item.provides : Item → List Need
  | forward cls => [.announced cls]
  | constants name values => values.map fun v => .constant name v.1
  | enumeration name values => .type name :: values.map fun v => .constant name v.1
  | typedef _ name => [.type name]
  | strDeclaration sum _ => [.function (sum ++ "_str")]
  | sumClass name _ => [.complete name]
  | dataClass k => [.complete k.name]
  | hookDeclaration cls => [.hook ("_" ++ cls)]
  | _ => []

/-! ### Declarations by their lines -/

/-- What some lines declare.  A class is complete only with the line that ends it. -/
inductive Declares : Need → List Line → Prop where
  | announcement (cls : String) : Declares (.announced cls) [⟨0, "class " ++ cls ++ ";"⟩]
  | base (cls : String) (rest : List Line) :
      Declares (.complete cls) ([⟨0, "class " ++ cls ++ " \x7b"⟩] ++ rest ++ [⟨0, "\x7d;"⟩])
  | derived (cls bases : String) (rest : List Line) :
      Declares (.complete cls)
        ([⟨0, "class " ++ cls ++ " : " ++ bases ++ " \x7b"⟩] ++ rest ++ [⟨0, "\x7d;"⟩])
  | typedef (type name : String) :
      Declares (.type name) [⟨0, "typedef " ++ type ++ " " ++ name ++ ";"⟩]
  | enumeration (name : String) (rest : List Line) :
      Declares (.type name) ([⟨0, "enum class " ++ name ++ " \x7b"⟩] ++ rest ++ [⟨0, "\x7d;"⟩])
  | enumerator (space : String) {name : String} {value : Nat} {rest : List Line}
      (h : ⟨1, name ++ " = " ++ value.repr ++ ","⟩ ∈ rest) :
      Declares (.constant space name)
        ([⟨0, "enum class " ++ space ++ " \x7b"⟩] ++ rest ++ [⟨0, "\x7d;"⟩])
  | constant (space : String) {name : String} {value : Nat} {rest : List Line}
      (h : ⟨1, "const int " ++ name ++ " = " ++ value.repr ++ ";"⟩ ∈ rest) :
      Declares (.constant space name)
        ([⟨0, "namespace " ++ space ++ " \x7b"⟩] ++ rest ++ [⟨0, "\x7d;"⟩])
  | function (name type : String) :
      Declares (.function name) [⟨0, "const char* " ++ name ++ "(" ++ type ++ " tag);"⟩]
  | hook (name cls : String) :
      Declares (.hook name) [⟨0, "hnode_t* " ++ name ++ "(" ++ cls ++ "* obj);"⟩]

/-- A class with data ends with the line that completes it. -/
theorem WrittenClass.declares_lines (w : WrittenClass) : Declares (.complete w.name) w.lines := by
  have hlines : w.lines = [⟨0, "class " ++ w.name ++ " : " ++ w.bases ++ " \x7b"⟩] ++
      ([⟨0, " public:"⟩] ++ w.builders.map (BuilderText.line w.name)
        ++ w.members.map (fun m => ⟨1, m.1 ++ " " ++ m.2 ++ ";"⟩)
        ++ (if w.treeMethods then
            [⟨1, "hnode_t* PrettyTree();"⟩, ⟨1, "hnode_t* _AbbreviatedTree();"⟩,
              ⟨1, "hnode_t* AbbreviatedTree();"⟩]
          else [])
        ++ [⟨0, ""⟩, ⟨1, "DISALLOW_COPY_AND_ASSIGN(" ++ w.name ++ ")"⟩]) ++ [⟨0, "\x7d;"⟩] := by
    simp only [WrittenClass.lines, List.append_assoc, List.cons_append, List.nil_append]
  rw [hlines]
  exact .derived w.name w.bases _

/-- So does the base of a sum. -/
theorem declares_baseLines (name : String) (methods : List String) :
    Declares (.complete name) (baseLines name methods) := by
  have hlines : baseLines name methods = [⟨0, "class " ++ name ++ " \x7b"⟩] ++
      ([⟨0, " protected:"⟩, ⟨1, name ++ "() \x7b\x7d"⟩, ⟨0, " public:"⟩, ⟨1, "int tag_() \x7b"⟩,
          ⟨2, "return reinterpret_cast<Obj*>(this)->tag;"⟩, ⟨1, "\x7d"⟩]
        ++ methodDeclarations methods
        ++ [⟨1, "DISALLOW_COPY_AND_ASSIGN(" ++ name ++ ")"⟩]) ++ [⟨0, "\x7d;"⟩] := by
    simp only [baseLines, List.append_assoc, List.cons_append, List.nil_append]
  rw [hlines]
  exact .base name _

/-- **What is there after an item was declared by its lines.** -/
theorem Item.declares_of_provides {i : Item} {u : Need} (h : u ∈ i.provides) :
    Declares u i.spelling := by
  cases i with
  | forward cls => rw [List.mem_singleton.mp h]; exact .announcement cls
  | constants name values =>
    obtain ⟨v, hv, rfl⟩ := List.mem_map.mp h
    exact .constant name (List.mem_map.mpr ⟨v, hv, rfl⟩)
  | enumeration name values =>
    rcases List.mem_cons.mp h with rfl | h
    · exact .enumeration name _
    · obtain ⟨v, hv, rfl⟩ := List.mem_map.mp h
      exact .enumerator name (List.mem_map.mpr ⟨v, hv, rfl⟩)
  | typedef type name => rw [List.mem_singleton.mp h]; exact .typedef type name
  | strDeclaration sum tagType => rw [List.mem_singleton.mp h]; exact .function _ tagType
  | sumClass name treeMethods => rw [List.mem_singleton.mp h]; exact declares_baseLines name _
  | dataClass k => rw [List.mem_singleton.mp h]; exact k.written.declares_lines
  | hookDeclaration cls => rw [List.mem_singleton.mp h]; exact .hook _ cls
  | _ => cases h

/-! ### Uses in the lines -/

/-- One text stands inside of another. -/
def Within (a b : String) : Prop := a.toList <:+: b.toList

namespace Within

variable {a b : String}

theorem refl (a : String) : Within a a := List.infix_refl _

theorem append_left (c : String) (h : Within a b) : Within a (c ++ b) := by
  rw [Within, String.toList_append]
  exact h.trans (List.suffix_append _ _).isInfix

theorem append_right (h : Within a b) (c : String) : Within a (b ++ c) := by
  rw [Within, String.toList_append]
  exact h.trans (List.prefix_append _ _).isInfix

theorem between (a b c : String) : Within b (a ++ b ++ c) := ((refl b).append_left a).append_right c

/-- The first of two names in a line. -/
theorem first_name (a b c d e : String) : Within b (a ++ b ++ c ++ d ++ e) :=
  ((between a b c).append_right d).append_right e

/-- Two texts that follow each other, behind a third one. -/
theorem pair (a b c : String) : Within (b ++ c) (a ++ b ++ c) := by
  rw [String.append_assoc]
  exact (refl _).append_left a

theorem triple (a b c d : String) : Within (b ++ c ++ d) (a ++ b ++ c ++ d) := by
  have hgroup : a ++ b ++ c ++ d = a ++ (b ++ c ++ d) := by simp only [String.append_assoc]
  rw [hgroup]
  exact (refl _).append_left a

/-- A call without its arguments. -/
theorem call (a b : String) : Within (b ++ "(") (a ++ b ++ "(this);") := by
  have hgroup : a ++ b ++ "(this);" = a ++ (b ++ "(") ++ "this);" := by
    have hthis : "(this);" = "(" ++ "this);" := rfl
    rw [hthis]
    simp only [String.append_assoc]
  rw [hgroup]
  exact ((refl _).append_left a).append_right _

theorem intercalate {xs : List String} {x : String} (hx : x ∈ xs) (h : Within a x) (sep : String) :
    Within a (sep.intercalate xs) := by
  induction xs with
  | nil => cases hx
  | cons y ys ih =>
    cases ys with
    | nil =>
      rw [String.intercalate_singleton, ← List.mem_singleton.mp hx]
      exact h
    | cons z zs =>
      rw [String.intercalate_cons_cons]
      rcases List.mem_cons.mp hx with rfl | hx
      · exact (h.append_right sep).append_right _
      · exact (ih hx).append_left _

end Within

/-- The letters of a use. -/
def Need.text : Need → String
  | announced cls => cls ++ "*"
  | complete cls => cls
  | type name => name
  | constant space name => space ++ "::" ++ name
  | function name => name ++ "("
  | hook name => name ++ "("

/-- A use stands in one of some lines. -/
def Mentions (u : Need) (lines : List Line) : Prop := ∃ l ∈ lines, Within u.text l.text

theorem CType.within_of_needs {x : CType} {u : Need} (h : u ∈ x.needs) :
    Within u.text x.spelling := by
  induction x with
  | named name => rw [List.mem_singleton.mp h]; exact .refl _
  | pointer target ih =>
    cases target with
    | named name => rw [List.mem_singleton.mp h]; exact .refl _
    | _ => rw [spelling]; exact (ih h).append_right _
  | optional element ih => rw [spelling]; exact ((ih h).append_left _).append_right _
  | list element ih => rw [spelling]; exact ((ih h).append_left _).append_right _
  | dict key value ihk ihv =>
    rw [spelling]
    rcases List.mem_append.mp h with h | h
    · exact ((((ihk h).append_left _).append_right _).append_right _).append_right _
    · exact ((ihv h).append_left _).append_right _

theorem Initial.within_of_needs {x : Initial} {u : Need} (h : u ∈ x.needs) :
    Within u.text x.spelling := by
  cases x with
  | emptyList element =>
    rw [spelling]
    exact ((CType.within_of_needs h).append_left _).append_right _
  | absent element =>
    rw [spelling]
    exact ((CType.within_of_needs h).append_left _).append_right _
  | enumerator enumeration variant => rw [List.mem_singleton.mp h]; exact .refl _
  | _ => cases h

theorem Source.within_of_needs {x : Source} {u : Need} (h : u ∈ x.needs) :
    Within u.text x.spelling := by
  cases x with
  | tag t =>
    cases t with
    | constant enumeration variant =>
      rw [List.mem_singleton.mp h]
      exact (Within.triple _ _ _ _).append_right _
    | number n => cases h
  | initial i => exact Initial.within_of_needs h
  | parameter name => cases h

theorem Builder.within_of_needs {b : Builder} {u : Need} (h : u ∈ b.needs) (cls : String) :
    Within u.text (b.written.line cls).text := by
  rcases List.mem_append.mp h with h | h
  · obtain ⟨x, hx, hu⟩ := List.mem_flatMap.mp h
    have hparameter : Within u.text (x.type.spelling ++ " " ++ x.name) :=
      ((CType.within_of_needs hu).append_right _).append_right _
    have hmem : x.type.spelling ++ " " ++ x.name ∈
        b.written.parameters.map fun p => p.1 ++ " " ++ p.2 :=
      List.mem_map.mpr ⟨_, List.mem_map_of_mem hx, rfl⟩
    rw [BuilderText.line]
    exact ((((hparameter.intercalate hmem ", ").append_left _).append_right _).append_right
      _).append_right _
  · obtain ⟨y, hy, hu⟩ := List.mem_flatMap.mp h
    have hsource : Within u.text (y.1 ++ "(" ++ y.2.spelling ++ ")") :=
      ((Source.within_of_needs hu).append_left _).append_right _
    have hmem : y.1 ++ "(" ++ y.2.spelling ++ ")" ∈
        b.written.initialisers.map fun i => i.1 ++ "(" ++ i.2 ++ ")" :=
      List.mem_map.mpr ⟨_, List.mem_map_of_mem hy, rfl⟩
    rw [BuilderText.line]
    exact ((hsource.intercalate hmem ", ").append_left _).append_right _

theorem DataClass.mentions_of_needs {k : DataClass} {u : Need} (h : u ∈ k.needs) :
    Mentions u k.written.lines := by
  rcases List.mem_append.mp h with h | h
  · rcases List.mem_append.mp h with h | h
    · -- a base stands in the first line
      obtain ⟨b, hb, rfl⟩ := List.mem_map.mp h
      have hbase : Within b ("public " ++ b) := (Within.refl b).append_left _
      have hbases : Within b k.written.bases := hbase.intercalate (List.mem_map_of_mem hb) ", "
      refine ⟨⟨0, "class " ++ k.name ++ " : " ++ k.written.bases ++ " \x7b"⟩, ?_,
        (hbases.append_left _).append_right _⟩
      simp [WrittenClass.lines, DataClass.written]
    · obtain ⟨b, hb, hu⟩ := List.mem_flatMap.mp h
      refine ⟨b.written.line k.name, ?_, Builder.within_of_needs hu k.name⟩
      have hline : b.written.line k.name ∈ k.written.builders.map (BuilderText.line k.name) :=
        List.mem_map_of_mem (List.mem_map_of_mem hb)
      simp only [WrittenClass.lines, List.mem_append]
      exact .inl (.inl (.inl (.inr hline)))
  · obtain ⟨x, hx, hu⟩ := List.mem_flatMap.mp h
    refine ⟨⟨1, x.type.spelling ++ " " ++ x.name ++ ";"⟩, ?_,
      (((CType.within_of_needs hu).append_right _).append_right _).append_right _⟩
    have hline : (⟨1, x.type.spelling ++ " " ++ x.name ++ ";"⟩ : Line) ∈
        k.written.members.map fun m => ⟨1, m.1 ++ " " ++ m.2 ++ ";"⟩ :=
      List.mem_map.mpr ⟨_, List.mem_cons_of_mem _ (List.mem_map_of_mem hx), rfl⟩
    simp only [WrittenClass.lines, List.mem_append]
    exact .inl (.inl (.inr hline))

theorem NodeText.within_of_needs {x : NodeText} {u : Need} (h : u ∈ x.node.needs) :
    Within u.text x.text := by
  obtain ⟨node, operand, method⟩ := x
  cases node with
  | label sum =>
    rw [List.mem_singleton.mp h]
    exact ((Within.pair _ _ _).append_right _).append_right _
  | _ => cases h

theorem Entry.mentions_of_needs {e : Entry} {u : Need} (h : u ∈ e.shape.needs) (inner : String)
    (i : Nat) : Mentions u (e.block inner i).lines := by
  obtain ⟨name, shape⟩ := e
  have hnode (node : Node) (operand : Operand) (hu : u ∈ node.needs) :
      Within u.text ("hnode_t* " ++ ("x" ++ i.repr) ++ " = "
        ++ (⟨node, operand, inner⟩ : NodeText).text ++ ";") :=
    ((NodeText.within_of_needs hu).append_left _).append_right _
  cases shape with
  | always node => exact ⟨_, List.mem_cons_self, hnode node _ h⟩
  | ifSet node => exact ⟨_, List.mem_cons_of_mem _ List.mem_cons_self, hnode node _ h⟩
  | ifValue node => exact ⟨_, List.mem_cons_of_mem _ List.mem_cons_self, hnode node _ h⟩
  | each element node =>
    rcases List.mem_append.mp h with h | h
    · -- the type of the elements is written in the head of the loop
      refine ⟨⟨2, "for (ListIter<" ++ element.spelling ++ "> it(" ++ ("this->" ++ name)
        ++ "); !it.Done(); it.Next()) \x7b"⟩, ?_, ?_⟩
      · exact List.mem_cons_of_mem _ (List.mem_cons_of_mem _ List.mem_cons_self)
      · exact ((((CType.within_of_needs h).append_left _).append_right _).append_right
          _).append_right _
    · refine ⟨⟨3, "x" ++ i.repr ++ "->children->append("
        ++ (⟨node, .element i, inner⟩ : NodeText).text ++ ");"⟩, ?_, ?_⟩
      · exact List.mem_cons_of_mem _ (List.mem_cons_of_mem _ (List.mem_cons_of_mem _
          (List.mem_cons_of_mem _ List.mem_cons_self)))
      · exact ((NodeText.within_of_needs h).append_left _).append_right _

/-- **What an item uses stands in one of its lines.** -/
theorem Item.mentions_of_needs {i : Item} {u : Need} (h : u ∈ i.needs) :
    Mentions u i.spelling := by
  cases i with
  | typedef type name =>
    rw [List.mem_singleton.mp h]
    exact ⟨_, List.mem_cons_self, Within.first_name _ _ _ _ _⟩
  | strDeclaration sum tagType =>
    rw [List.mem_singleton.mp h]
    exact ⟨_, List.mem_cons_self, Within.between _ _ _⟩
  | dataClass k => exact DataClass.mentions_of_needs h
  | aliases sum constructors =>
    obtain ⟨v, hv, rfl⟩ := List.mem_map.mp h
    refine ⟨⟨1, "typedef " ++ (sum ++ "__" ++ v) ++ " " ++ v ++ ";"⟩, ?_,
      Within.first_name _ _ _ _ _⟩
    exact List.mem_append_left _ (List.mem_append_right _ (List.mem_map_of_mem hv))
  | strFunction sum tagType scope variants =>
    rcases List.mem_cons.mp h with rfl | h
    · exact ⟨_, List.mem_cons_self, Within.between _ _ _⟩
    · obtain ⟨v, hv, rfl⟩ := List.mem_map.mp h
      refine ⟨⟨1, "case " ++ (scope ++ "::" ++ v) ++ ":"⟩, ?_,
        Within.between _ _ _⟩
      refine List.mem_append_left _ (List.mem_append_right _ (List.mem_flatMap.mpr ?_))
      exact ⟨_, List.mem_map_of_mem hv, List.mem_cons_self⟩
  | recordMethod cls method body =>
    rcases List.mem_cons.mp h with rfl | h
    · exact ⟨_, List.mem_cons_self, Within.first_name _ _ _ _ _⟩
    · obtain ⟨e, he, hu⟩ := List.mem_flatMap.mp h
      have hindexed : e ∈ body.entries.zipIdx.map Prod.fst := by rwa [List.zipIdx_map_fst]
      obtain ⟨⟨e, n⟩, hen, rfl⟩ := List.mem_map.mp hindexed
      obtain ⟨l, hl, hwithin⟩ := Entry.mentions_of_needs hu body.inner.spelling n
      refine ⟨l, List.mem_append_left _ (List.mem_append_right _ ?_), hwithin⟩
      exact List.mem_flatMap.mpr ⟨_, List.mem_map.mpr ⟨_, hen, rfl⟩, hl⟩
  | hookDeclaration cls =>
    rw [List.mem_singleton.mp h]
    exact ⟨_, List.mem_cons_self, Within.between _ _ _⟩
  | shortMethod cls hook =>
    rcases List.mem_cons.mp h with rfl | h
    · exact ⟨_, List.mem_cons_self, Within.first_name _ _ _ _ _⟩
    · cases hook with
      | true =>
        rw [List.mem_singleton.mp h]
        exact ⟨_, List.mem_cons_of_mem _ List.mem_cons_self, Within.call _ _⟩
      | false => cases h
  | dispatcher sum method cases =>
    rcases List.mem_cons.mp h with rfl | h
    · exact ⟨_, List.mem_cons_self, Within.first_name _ _ _ _ _⟩
    · obtain ⟨x, hx, hu⟩ := List.mem_flatMap.mp h
      -- the label and the cast of one case
      have hcase : ∀ l ∈ [(⟨1, "case " ++ (sum ++ "_e" ++ "::" ++ x.1) ++ ": \x7b"⟩ : Line),
          ⟨2, x.2 ++ "* obj = static_cast<" ++ x.2 ++ "*>(this);"⟩],
          l ∈ (Item.dispatcher sum method cases).spelling := by
        intro l hl
        refine List.mem_append_left _ (List.mem_append_right _ (List.mem_flatMap.mpr ?_))
        refine ⟨_, List.mem_map_of_mem hx, ?_⟩
        rcases List.mem_pair.mp hl with rfl | rfl
        · exact List.mem_cons_self
        · exact List.mem_cons_of_mem _ List.mem_cons_self
      rcases List.mem_pair.mp hu with rfl | rfl
      · exact ⟨_, hcase _ List.mem_cons_self, Within.between _ _ _⟩
      · exact ⟨_, hcase _ (List.mem_cons_of_mem _ List.mem_cons_self),
          (((Within.refl _).append_right _).append_right _).append_right _⟩
  | _ => cases h

/-! ### Bodies by their lines -/

/-- The lines of a body outside of a class: how the first one starts, and that it is not
the only one. -/
inductive IsBody : List Line → Prop where
  | function (name type : String) (next : Line) (rest : List Line) :
      IsBody (⟨0, "const char* " ++ name ++ "(" ++ type ++ " tag) \x7b"⟩ :: next :: rest)
  | method (cls name : String) (next : Line) (rest : List Line) :
      IsBody (⟨0, "hnode_t* " ++ cls ++ "::" ++ name ++ "() \x7b"⟩ :: next :: rest)

/-- A text begins with some letters. -/
def Begins (p t : String) : Prop := p.toList <+: t.toList

instance (p t : String) : Decidable (Begins p t) :=
  inferInstanceAs (Decidable (p.toList <+: t.toList))

namespace Begins

variable {p q t : String}

theorem append (p t : String) : Begins p (p ++ t) := by
  rw [Begins, String.toList_append]
  exact List.prefix_append _ _

theorem append_right (h : Begins p t) (c : String) : Begins p (t ++ c) := by
  rw [Begins, String.toList_append]
  exact h.trans (List.prefix_append _ _)

/-- A line of a word, a name and its end. -/
theorem append₂ (p a b : String) : Begins p (p ++ a ++ b) := (append p a).append_right b

/-- A line of a word and two names, with something between them. -/
theorem append₄ (p a b c d : String) : Begins p (p ++ a ++ b ++ c ++ d) :=
  ((append₂ p a b).append_right c).append_right d

/-- Of two beginnings of a text one begins with the other. -/
theorem comparable (hp : Begins p t) (hq : Begins q t) : Begins p q ∨ Begins q p :=
  List.prefix_or_prefix_of_prefix hp hq

end Begins

/-- The words that declarations start with, apart from the type of a function. -/
def declarationWords : List String := ["class ", "typedef ", "enum class ", "namespace "]

/-- The types that functions start with. -/
def functionWords : List String := ["const char* ", "hnode_t* "]

/-- A text does not start both as a declaration and as a function. -/
theorem not_both_words {p q t : String} (hp : p ∈ declarationWords) (hq : q ∈ functionWords)
    (hpt : Begins p t) (hqt : Begins q t) : False := by
  have happart : ∀ p ∈ declarationWords, ∀ q ∈ functionWords,
      ¬ (Begins p q ∨ Begins q p) := by decide
  exact happart p hp q hq (hpt.comparable hqt)

/-- How the lines of a declaration start. -/
theorem Declares.start {u : Need} {ls : List Line} (h : Declares u ls) :
    (∃ f, u = .hook f) ∨
    (∃ l, ls = [l] ∧ Begins "const char* " l.text) ∨
      ∃ p ∈ declarationWords, ∃ l rest, ls = l :: rest ∧ Begins p l.text := by
  have hword {p t : String} {rest : List Line} (hp : p ∈ declarationWords) (ht : Begins p t) :
      ∃ p ∈ declarationWords, ∃ l rest', ⟨0, t⟩ :: rest = l :: rest' ∧ Begins p l.text :=
    ⟨p, hp, _, _, rfl, ht⟩
  -- a declaration of one line or of many starts with its word, a function with its type
  cases h with
  | announcement cls =>
    exact .inr (.inr (hword (p := "class ") (by decide) (.append₂ _ _ _)))
  | base cls rest =>
    exact .inr (.inr (hword (p := "class ") (by decide) (.append₂ _ _ _)))
  | derived cls bases rest =>
    exact .inr (.inr (hword (p := "class ") (by decide) (.append₄ _ _ _ _ _)))
  | typedef type name =>
    exact .inr (.inr (hword (p := "typedef ") (by decide) (.append₄ _ _ _ _ _)))
  | enumeration name rest =>
    exact .inr (.inr (hword (p := "enum class ") (by decide) (.append₂ _ _ _)))
  | enumerator space hvalue =>
    exact .inr (.inr (hword (p := "enum class ") (by decide) (.append₂ _ _ _)))
  | constant space hvalue =>
    exact .inr (.inr (hword (p := "namespace ") (by decide) (.append₂ _ _ _)))
  | function name type =>
    exact .inr (.inl ⟨_, rfl, .append₄ _ _ _ _ _⟩)
  | hook name cls => exact .inl ⟨name, rfl⟩

theorem IsBody.start {ls : List Line} (h : IsBody ls) :
    ∃ q ∈ functionWords, ∃ l next rest, ls = l :: next :: rest ∧ Begins q l.text := by
  cases h with
  | function name type next rest =>
    exact ⟨"const char* ", by decide, _, _, _, rfl, .append₄ _ _ _ _ _⟩
  | method cls name next rest =>
    exact ⟨"hnode_t* ", by decide, _, _, _, rfl, .append₄ _ _ _ _ _⟩

/-- Lines that start a body are those of a body. -/
theorem Item.isBody_of_spelling {i : Item} (h : IsBody i.spelling) : i.isBody = true := by
  obtain ⟨q, hq, l, next, rest, hlines, hbegins⟩ := h.start
  -- a body has two lines at least and starts with the type of a function, and no
  -- declaration does both
  have hclash {p t : String} {tail : List Line} (hp : p ∈ declarationWords) (ht : Begins p t)
      (heq : ⟨0, t⟩ :: tail = l :: next :: rest) : False := by
    obtain ⟨rfl, -⟩ := List.cons.inj heq
    exact not_both_words hp hq ht hbegins
  cases i with
  | strFunction sum tagType scope variants => rfl
  | recordMethod cls method body => rfl
  | shortMethod cls hook => rfl
  | dispatcher sum method cases => rfl
  | constants name values =>
    exact (hclash (p := "namespace ") (by decide) (.append₂ _ _ _) hlines).elim
  | enumeration name values =>
    exact (hclash (p := "enum class ") (by decide) (.append₂ _ _ _) hlines).elim
  | sumClass name treeMethods =>
    exact (hclash (p := "class ") (by decide) (.append₂ _ _ _) hlines).elim
  | dataClass k =>
    exact (hclash (p := "class ") (by decide) (.append₄ _ _ _ _ _) hlines).elim
  | aliases sum constructors =>
    exact (hclash (p := "namespace ") (by decide) (.append₂ _ _ _) hlines).elim
  | _ => cases hlines

/-- How the items among the bodies start.  Only hand-written functions are announced there. -/
theorem Item.start_of_bodyPart {i : Item} (hi : i.isMethodPart = true ∨ i.isBody = true) :
    i.spelling = [⟨0, ""⟩] ∨ ∃ q ∈ functionWords, ∃ l rest,
      i.spelling = l :: rest ∧ Begins q l.text ∧ (rest = [] → q = "hnode_t* ") := by
  have hmethod (cls method : String) (rest : List Line) : ∃ q ∈ functionWords, ∃ l rest',
      methodHead cls method :: rest = l :: rest' ∧ Begins q l.text ∧
        (rest' = [] → q = "hnode_t* ") :=
    ⟨"hnode_t* ", by decide, _, _, rfl, .append₄ _ _ _ _ _, fun _ => rfl⟩
  cases i with
  | blank => exact .inl rfl
  | strFunction sum tagType scope variants =>
    exact .inr ⟨"const char* ", by decide, _, _, rfl, .append₄ _ _ _ _ _, fun h => by cases h⟩
  | recordMethod cls method body => exact .inr (hmethod cls _ _)
  | hookDeclaration cls =>
    exact .inr ⟨"hnode_t* ", by decide, _, _, rfl, .append₄ _ _ _ _ _, fun _ => rfl⟩
  | shortMethod cls hook => exact .inr (hmethod cls _ _)
  | dispatcher sum method cases => exact .inr (hmethod _ _ _)
  | _ => rcases hi with hi | hi <;> cases hi

/-- **Among the bodies nothing is declared but hand-written functions.** -/
theorem Item.eq_hook_of_declares {i : Item} (hi : i.isMethodPart = true ∨ i.isBody = true)
    {u : Need} (h : Declares u i.spelling) : ∃ f, u = .hook f := by
  rcases h.start with hhook | ⟨l, hone, hbegins⟩ | ⟨p, hp, l, rest, hlines, hbegins⟩
  · exact hhook
  · -- blanks apart, the only part of a body that is one line is a hook, of another type
    rcases Item.start_of_bodyPart hi with hblank | ⟨q, -, l', rest, hlines, hq, honly⟩
    · rw [hone] at hblank
      cases hblank
      exact absurd hbegins (by decide)
    · rw [hone] at hlines
      cases hlines
      rw [honly rfl] at hq
      exact absurd (hbegins.comparable hq) (by decide)
  · rcases Item.start_of_bodyPart hi with hblank | ⟨q, hq, l', rest', hlines', hbegins', -⟩
    · rw [hlines] at hblank
      cases hblank
      have hempty : ∀ p ∈ declarationWords, ¬ Begins p "" := by decide
      exact absurd hbegins (hempty p hp)
    · rw [hlines] at hlines'
      cases hlines'
      exact (not_both_words hp hq hbegins hbegins').elim

end Header

end Asdl
