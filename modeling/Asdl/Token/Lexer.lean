/-
Cutting a text into tokens.

A text is cut, from the left and without loss, into `Piece`s: runs of blanks,
comments, tokens and stray characters.  Tokens and stray characters then get
their place in the text: the UTF-8 offsets of their first byte and of the byte
after their last one, and their line.

* `pieces` — the cut; `flatMap_text_pieces` says that nothing is lost;
* `lexemes` — tokens and stray characters with their places;
* `tokenize` — the tokens with their lines, or the first stray character.
-/
import Asdl.Schema.Error
import Asdl.Token

namespace Asdl

/-! ### Pieces -/

/-- A stretch of a schema text. -/
inductive Piece where
  /-- A maximal run of blanks. -/
  | blank (run : List Char)
  /-- A comment, from `--` or `#` up to the end of the line. -/
  | comment (text : List Char)
  /-- A token. -/
  | token (t : Token)
  /-- A character that can start no other piece. -/
  | stray (c : Char)
  deriving DecidableEq, Repr

namespace Piece

/-- The characters of a piece. -/
def text : Piece → List Char
  | blank run => run
  | comment cs => cs
  | token t => t.text.toList
  | stray c => [c]

/-- A comment starts with `#` or with two dashes. -/
def startsComment (c : Char) (rest : List Char) : Bool :=
  c == '#' || (c == '-' && rest.head? == some '-')

/-- The first piece of the text `c :: rest`, and what follows it. -/
def first (c : Char) (rest : List Char) : Piece × List Char :=
  if isBlank c then
    (blank (c :: rest.takeWhile isBlank), rest.dropWhile isBlank)
  else if startsComment c rest then
    (comment (c :: rest.takeWhile (· != '\n')), rest.dropWhile (· != '\n'))
  else if isWordStart c then
    (token (.ofWord (.ofList (c :: rest.takeWhile isWordChar))), rest.dropWhile isWordChar)
  else
    match Punct.ofChar? c with
    | some p => (token (.punct p), rest)
    | none => (stray c, rest)

/-- The first piece and the rest make up the text. -/
theorem text_append_first (c : Char) (rest : List Char) :
    (first c rest).1.text ++ (first c rest).2 = c :: rest := by
  unfold first
  split
  · simp [text]
  · split
    · simp [text]
    · split
      · simp [text]
      · split
        · next p hp => simp [text, Token.text, Punct.char_of_ofChar? hp]
        · simp [text]

theorem length_first_le (c : Char) (rest : List Char) :
    (first c rest).2.length ≤ rest.length := by
  unfold first
  split
  · exact (List.dropWhile_suffix _).length_le
  · split
    · exact (List.dropWhile_suffix _).length_le
    · split
      · exact (List.dropWhile_suffix _).length_le
      · split <;> exact Nat.le_refl _

end Piece

/-- The pieces of a text, in order. -/
def pieces : List Char → List Piece
  | [] => []
  | c :: rest => (Piece.first c rest).1 :: pieces (Piece.first c rest).2
termination_by s => s.length
decreasing_by
  exact Nat.lt_succ_of_le (Piece.length_first_le c rest)

/-- The pieces of a text make up the text. -/
theorem flatMap_text_pieces (s : List Char) : (pieces s).flatMap Piece.text = s := by
  fun_induction pieces s with
  | case1 => rfl
  | case2 c rest ih => rw [List.flatMap_cons, ih, Piece.text_append_first]

/-! ### Places -/

/-- What stands at a place of the text: a token, or a character that is none. -/
inductive Mark where
  | token (t : Token)
  | stray (c : Char)
  deriving DecidableEq, Repr

/-- How the mark is written. -/
def Mark.text : Mark → String
  | token t => t.text
  | stray c => String.singleton c

/-- A mark with its place: UTF-8 offsets of its ends, and its line. -/
structure Lexeme where
  mark : Mark
  start : Nat
  stop : Nat
  line : Nat
  deriving DecidableEq, Repr

/-- The mark of a piece that is not skipped. -/
def Piece.mark? : Piece → Option Mark
  | token t => some (.token t)
  | stray c => some (.stray c)
  | blank _ => none
  | comment _ => none

/-- The number of bytes of a text in UTF-8. -/
def byteSize (cs : List Char) : Nat := cs.foldr (fun c n => c.utf8Size + n) 0

/-- Gives the marks among consecutive pieces their places; the first piece
starts at byte `offset` on line `line`. -/
def place (offset line : Nat) : List Piece → List Lexeme
  | [] => []
  | p :: ps =>
    let stop := offset + byteSize p.text
    let rest := place stop (line + p.text.count '\n') ps
    match p.mark? with
    | some mark => ⟨mark, offset, stop, line⟩ :: rest
    | none => rest

/-- The tokens and stray characters of a text with their places, in order. -/
def lexemes (source : String) : List Lexeme := place 0 1 (pieces source.toList)

/-! ### Tokens with their lines -/

/-- A token and the line that it starts on. -/
structure Located where
  token : Token
  line : Nat
  deriving DecidableEq, Repr

/-- A stray character is an error. -/
def Lexeme.located (l : Lexeme) : Except ParseError Located :=
  match l.mark with
  | .token t => .ok ⟨t, l.line⟩
  | .stray c => .error (.invalidToken (String.singleton c) l.line)

/-- The tokens of a text with their lines, or the first stray character. -/
def tokenize (source : String) : Except ParseError (List Located) :=
  (lexemes source).mapM Lexeme.located

end Asdl
