/-
Tokens of the schema language.

A schema text is made of three reserved words, thirteen punctuation marks and
identifiers.  This file holds

* `Keyword`, `Punct`, `Token` — the three kinds of token and their sum;
* `Token.text` — how a token is written;
* `Token.ofWord` — which token a whole word is;
* `ofChar?_char`, `char_of_ofChar?` — marks and characters determine each other.
-/

namespace Asdl

/-- The reserved words. -/
inductive Keyword where
  | module
  | attributes
  | use
  deriving DecidableEq, Repr

namespace Keyword

/-- How the word is written. -/
def spelling : Keyword → String
  | module => "module"
  | attributes => "attributes"
  | use => "use"

/-- The reserved word that a whole word is, if it is one. -/
def ofWord? (w : String) : Option Keyword :=
  if w = "module" then some module
  else if w = "attributes" then some attributes
  else if w = "use" then some use
  else none

@[simp] theorem ofWord?_spelling (k : Keyword) : ofWord? k.spelling = some k := by
  cases k <;> rfl

theorem spelling_of_ofWord? {w : String} {k : Keyword} (h : ofWord? w = some k) :
    k.spelling = w := by
  unfold ofWord? at h
  split at h
  · next hw => cases h; exact hw.symm
  · split at h
    · next hw => cases h; exact hw.symm
    · split at h
      · next hw => cases h; exact hw.symm
      · cases h

end Keyword

/-- The punctuation marks, each a single character. -/
inductive Punct where
  | equal
  | pipe
  | comma
  | dot
  | question
  | star
  | percent
  | lparen
  | rparen
  | lbrace
  | rbrace
  | lbracket
  | rbracket
  deriving DecidableEq, Repr

namespace Punct

/-- The character of a mark. -/
def char : Punct → Char
  | equal => '='
  | pipe => '|'
  | comma => ','
  | dot => '.'
  | question => '?'
  | star => '*'
  | percent => '%'
  | lparen => '('
  | rparen => ')'
  | lbrace => '{'
  | rbrace => '}'
  | lbracket => '['
  | rbracket => ']'

/-- The mark that a character is, if it is one. -/
def ofChar? : Char → Option Punct
  | '=' => some equal
  | '|' => some pipe
  | ',' => some comma
  | '.' => some dot
  | '?' => some question
  | '*' => some star
  | '%' => some percent
  | '(' => some lparen
  | ')' => some rparen
  | '{' => some lbrace
  | '}' => some rbrace
  | '[' => some lbracket
  | ']' => some rbracket
  | _ => none

@[simp] theorem ofChar?_char (p : Punct) : ofChar? p.char = some p := by
  cases p <;> rfl

theorem char_of_ofChar? {c : Char} {p : Punct} (h : ofChar? c = some p) : p.char = c := by
  unfold ofChar? at h
  split at h <;> cases h <;> rfl

end Punct

/-- A token of the schema language. -/
inductive Token where
  | keyword (k : Keyword)
  | punct (p : Punct)
  | ident (name : String)
  deriving DecidableEq, Repr

namespace Token

/-- How the token is written. -/
def text : Token → String
  | keyword k => k.spelling
  | punct p => String.singleton p.char
  | ident name => name

/-- The token that a whole word is: a reserved word or an identifier. -/
def ofWord (w : String) : Token :=
  match Keyword.ofWord? w with
  | some k => keyword k
  | none => ident w

@[simp] theorem text_ofWord (w : String) : (ofWord w).text = w := by
  unfold ofWord
  split
  · next k hk => exact Keyword.spelling_of_ofWord? hk
  · rfl

end Token

/-! ### Character classes -/

/-- A word starts with an ASCII letter or an underscore. -/
def isWordStart (c : Char) : Bool := c.isAlpha || c == '_'

/-- A word goes on with ASCII letters, digits and underscores. -/
def isWordChar (c : Char) : Bool := c.isAlphanum || c == '_'

/-- Space, tab, carriage return and line feed separate tokens. -/
def isBlank (c : Char) : Bool := c == ' ' || c == '\t' || c == '\r' || c == '\n'

end Asdl
