/-
Tokens and the texts that hold them.

A text is cut into pieces, and some of the pieces are tokens.  This file says which
tokens with which lines a text has, and which texts have given tokens:

* `tokensOf`, `newlines`, `locate` — the tokens among pieces, the lines that pieces
  take up, and the tokens with their lines;
* `tokenize_of_clean`, `tokenize_of_stray` — the two outcomes of `tokenize`;
* `getElem?_locate` — the token at some place, and its line;
* `Token.isWritable`, `isWritable_of_mem_pieces` — the tokens that texts can have;
* `WellSpaced`, `marks_layout` — tokens that are written one after the other, with
  blanks and comments between them, are found again.

Design notes: blanks and comments leave no mark, so everything about separators is
said of `marks`, which keeps tokens and stray characters.  What follows a token is
looked at only after a word, and only its first character counts.
-/
import Asdl.Token.Lexer
import Mathlib.Data.List.Chain
import Mathlib.Data.List.TakeWhile
import Mathlib.Tactic.Tauto

namespace Asdl

/-! ### What pieces hold -/

/-- The token that a piece is, if it is one. -/
def Piece.token? : Piece → Option Token
  | token t => some t
  | _ => none

def Piece.isStray : Piece → Bool
  | stray _ => true
  | _ => false

/-- The tokens among some pieces, in order. -/
def tokensOf (ps : List Piece) : List Token := ps.filterMap Piece.token?

/-- No piece is a stray character. -/
def Clean (ps : List Piece) : Prop := ∀ p ∈ ps, p.isStray = false

instance (ps : List Piece) : Decidable (Clean ps) := List.decidableBAll _ _

/-- The number of line ends in some pieces. -/
def newlines (ps : List Piece) : Nat := (ps.flatMap Piece.text).count '\n'

theorem newlines_cons (p : Piece) (ps : List Piece) :
    newlines (p :: ps) = p.text.count '\n' + newlines ps := by
  rw [newlines, List.flatMap_cons, List.count_append, newlines]

theorem clean_cons {p : Piece} {ps : List Piece} :
    Clean (p :: ps) ↔ p.isStray = false ∧ Clean ps := List.forall_mem_cons

/-! ### Lines -/

/-- The tokens among some pieces with their lines; the first piece starts on line
`line`. -/
def locate (line : Nat) : List Piece → List Located
  | [] => []
  | p :: ps =>
    match p.token? with
    | some t => ⟨t, line⟩ :: locate (line + p.text.count '\n') ps
    | none => locate (line + p.text.count '\n') ps

theorem map_token_locate (line : Nat) (ps : List Piece) :
    (locate line ps).map Located.token = tokensOf ps := by
  induction ps generalizing line with
  | nil => rfl
  | cons p ps ih =>
    rw [locate, tokensOf, List.filterMap_cons]
    cases p.token? with
    | some t => exact congrArg (t :: ·) (ih _)
    | none => exact ih _

theorem Piece.token?_eq_some {p : Piece} {t : Token} : p.token? = some t ↔ p = .token t := by
  cases p <;> simp [token?]

theorem locate_append (line : Nat) (ps qs : List Piece) :
    locate line (ps ++ qs) = locate line ps ++ locate (line + newlines ps) qs := by
  induction ps generalizing line with
  | nil => rfl
  | cons p ps ih =>
    rw [List.cons_append, locate, locate, newlines_cons, ← Nat.add_assoc, ih]
    cases p.token? with
    | some t => rfl
    | none => rfl

theorem exists_of_getElem?_locate {line k : Nat} {ps : List Piece} {t : Located}
    (h : (locate line ps)[k]? = some t) :
    ∃ before after, ps = before ++ .token t.token :: after ∧ (tokensOf before).length = k ∧
      t.line = line + newlines before := by
  -- a token uses up one place of the list, any other piece only moves the line
  induction ps generalizing line k with
  | nil => cases h
  | cons p ps ih =>
    rw [locate] at h
    cases hp : p.token? with
    | some u =>
      rw [hp] at h
      cases Piece.token?_eq_some.mp hp
      cases k with
      | zero =>
        cases h
        exact ⟨[], ps, rfl, rfl, rfl⟩
      | succ k =>
        obtain ⟨before, after, rfl, hk, hline⟩ := ih h
        refine ⟨.token u :: before, after, rfl, congrArg (· + 1) hk, ?_⟩
        rw [newlines_cons, hline, Nat.add_assoc]
    | none =>
      rw [hp] at h
      obtain ⟨before, after, rfl, hk, hline⟩ := ih h
      refine ⟨p :: before, after, rfl, ?_, ?_⟩
      · rw [tokensOf, List.filterMap_cons_none hp]
        exact hk
      · rw [newlines_cons, hline, Nat.add_assoc]

/-- **The token at a place** is the one before which the text has that many tokens,
and its line is counted from what stands before it. -/
theorem getElem?_locate {line k : Nat} {ps : List Piece} {t : Located} :
    (locate line ps)[k]? = some t ↔
      ∃ before after, ps = before ++ .token t.token :: after ∧ (tokensOf before).length = k ∧
        t.line = line + newlines before := by
  constructor
  · exact exists_of_getElem?_locate
  · rintro ⟨before, after, rfl, rfl, hline⟩
    have hlength : (locate line before).length = (tokensOf before).length := by
      rw [← map_token_locate line, List.length_map]
    rw [locate_append, ← hlength, List.getElem?_append_right (Nat.le_refl _), Nat.sub_self,
      ← hline]
    rfl

/-! ### The two outcomes -/

theorem mapM_located_place (offset line : Nat) {ps : List Piece} (h : Clean ps) :
    (place offset line ps).mapM Lexeme.located = .ok (locate line ps) := by
  induction ps generalizing offset line with
  | nil => rfl
  | cons p ps ih =>
    obtain ⟨hp, hps⟩ := clean_cons.mp h
    cases p with
    | stray c => cases hp
    | token t =>
      rw [place, locate]
      simp only [Piece.mark?, Piece.token?]
      rw [List.mapM_cons, ih _ _ hps]
      rfl
    | blank run => exact ih _ _ hps
    | comment text => exact ih _ _ hps

theorem mapM_located_place_stray (offset line : Nat) {before after : List Piece} {c : Char}
    (h : Clean before) :
    (place offset line (before ++ .stray c :: after)).mapM Lexeme.located =
      .error (.invalidToken (String.singleton c) (line + newlines before)) := by
  induction before generalizing offset line with
  | nil => rfl
  | cons p before ih =>
    obtain ⟨hp, hbefore⟩ := clean_cons.mp h
    rw [List.cons_append, newlines_cons, ← Nat.add_assoc]
    cases p with
    | stray d => cases hp
    | token t =>
      rw [place]
      simp only [Piece.mark?]
      rw [List.mapM_cons, ih _ _ hbefore]
      rfl
    | blank run => exact ih _ _ hbefore
    | comment text => exact ih _ _ hbefore

theorem tokenize_of_clean {source : String} (h : Clean (pieces source.toList)) :
    tokenize source = .ok (locate 1 (pieces source.toList)) := mapM_located_place 0 1 h

/-- **The first stray character is reported**, with its line. -/
theorem tokenize_of_stray {source : String} {before after : List Piece} {c : Char}
    (hpieces : pieces source.toList = before ++ .stray c :: after) (h : Clean before) :
    tokenize source = .error (.invalidToken (String.singleton c) (1 + newlines before)) := by
  rw [tokenize, lexemes, hpieces]
  exact mapM_located_place_stray 0 1 h

theorem exists_first_stray {ps : List Piece} (h : ¬ Clean ps) :
    ∃ before c after, ps = before ++ .stray c :: after ∧ Clean before := by
  induction ps with
  | nil => exact absurd (fun p hp => by cases hp) h
  | cons p ps ih =>
    by_cases hp : p.isStray = false
    · have hps : ¬ Clean ps := fun hps => h (clean_cons.mpr ⟨hp, hps⟩)
      obtain ⟨before, c, after, rfl, hbefore⟩ := ih hps
      exact ⟨p :: before, c, after, rfl, clean_cons.mpr ⟨hp, hbefore⟩⟩
    · cases p with
      | stray c => exact ⟨[], c, ps, rfl, fun q hq => by cases hq⟩
      | _ => exact absurd rfl hp

/-! ### Words -/

/-- A letter or an underscore, then letters, digits and underscores. -/
def isWholeWord (w : String) : Bool :=
  match w.toList with
  | [] => false
  | c :: cs => isWordStart c && cs.all isWordChar

/-- A word that is not reserved. -/
def isIdentifier (w : String) : Bool :=
  isWholeWord w && !(["module", "attributes", "use"].contains w)

theorem isWholeWord_iff {w : String} :
    isWholeWord w = true ↔
      ∃ c cs, w.toList = c :: cs ∧ isWordStart c = true ∧ ∀ d ∈ cs, isWordChar d = true := by
  rw [isWholeWord]
  cases w.toList with
  | nil => simp
  | cons c cs => simp

theorem Keyword.ofWord?_eq_none {w : String} :
    ofWord? w = none ↔ ["module", "attributes", "use"].contains w = false := by
  rw [ofWord?, ← Bool.not_eq_true, List.contains_iff_mem]
  simp only [List.mem_cons, List.not_mem_nil, or_false, not_or]
  by_cases hm : w = "module"
  · simp [hm]
  · by_cases ha : w = "attributes"
    · simp [ha]
    · by_cases hu : w = "use"
      · simp [hu]
      · simp [hm, ha, hu]

theorem isIdentifier_iff {w : String} :
    isIdentifier w = true ↔ isWholeWord w = true ∧ Keyword.ofWord? w = none := by
  rw [isIdentifier, Bool.and_eq_true, Bool.not_eq_true', Keyword.ofWord?_eq_none]

namespace Token

/-- Whether the token is written with letters. -/
def isWord : Token → Bool
  | keyword _ => true
  | ident _ => true
  | punct _ => false

/-- Whether the token can stand in a text. -/
def isWritable : Token → Bool
  | keyword _ => true
  | punct _ => true
  | ident name => isIdentifier name

theorem isWritable_ofWord {w : String} (h : isWholeWord w = true) :
    (ofWord w).isWritable = true := by
  unfold ofWord
  split
  · rfl
  · next hw => exact isIdentifier_iff.mpr ⟨h, hw⟩

theorem ofWord_text {t : Token} (hword : t.isWord = true) (h : t.isWritable = true) :
    ofWord t.text = t := by
  cases t with
  | keyword k => rw [text, ofWord, Keyword.ofWord?_spelling]
  | punct p => cases hword
  | ident name => rw [text, ofWord, (isIdentifier_iff.mp h).2]

theorem isWholeWord_text {t : Token} (hword : t.isWord = true) (h : t.isWritable = true) :
    isWholeWord t.text = true := by
  cases t with
  | keyword k => cases k <;> rfl
  | punct p => cases hword
  | ident name => exact (isIdentifier_iff.mp h).1

end Token

/-! ### Characters -/

theorem not_isBlank_of_isWordChar {c : Char} (h : isWordChar c = true) : isBlank c = false := by
  by_contra hblank
  simp only [isBlank, Bool.not_eq_false, Bool.or_eq_true, beq_iff_eq] at hblank
  rcases hblank with ((rfl | rfl) | rfl) | rfl <;> revert h <;> decide

theorem not_startsComment_of_isWordChar {c : Char} (h : isWordChar c = true) (rest : List Char) :
    Piece.startsComment c rest = false := by
  have hhash : c ≠ '#' := by
    rintro rfl
    revert h
    decide
  have hdash : c ≠ '-' := by
    rintro rfl
    revert h
    decide
  simp [Piece.startsComment, hhash, hdash]

theorem isWordChar_of_isWordStart {c : Char} (h : isWordStart c = true) : isWordChar c = true := by
  simp only [isWordStart, isWordChar, Char.isAlphanum, Bool.or_eq_true] at h ⊢
  tauto

/-! ### One token -/

/-- The text does not go on with a character of a word. -/
def EndsWord (rest : List Char) : Prop := ∀ c, rest.head? = some c → isWordChar c = false

/-- A run of characters ends before the first character that does not belong to it. -/
theorem span_append {p : Char → Bool} {cs rest : List Char} (hcs : ∀ d ∈ cs, p d = true)
    (hrest : ∀ d, rest.head? = some d → p d = false) :
    (cs ++ rest).takeWhile p = cs ∧ (cs ++ rest).dropWhile p = rest := by
  rw [List.takeWhile_append_of_pos hcs, List.dropWhile_append_of_pos hcs]
  cases rest with
  | nil => exact ⟨List.append_nil _, rfl⟩
  | cons d rest =>
    have hd := hrest d rfl
    exact ⟨by rw [List.takeWhile_cons, hd]; exact List.append_nil _,
      by rw [List.dropWhile_cons, hd]; rfl⟩

theorem first_word {c : Char} {cs rest : List Char} (hc : isWordStart c = true)
    (hcs : ∀ d ∈ cs, isWordChar d = true) (hrest : EndsWord rest) :
    Piece.first c (cs ++ rest) = (.token (.ofWord (.ofList (c :: cs))), rest) := by
  have hchar := isWordChar_of_isWordStart hc
  obtain ⟨htake, hdrop⟩ := span_append hcs hrest
  rw [Piece.first, not_isBlank_of_isWordChar hchar, not_startsComment_of_isWordChar hchar, hc,
    htake, hdrop]
  rfl

theorem first_punct (p : Punct) (rest : List Char) :
    Piece.first p.char rest = (.token (.punct p), rest) := by
  have hblank : isBlank p.char = false := by cases p <;> decide
  have hcomment : Piece.startsComment p.char rest = false := by cases p <;> rfl
  have hword : isWordStart p.char = false := by cases p <;> decide
  rw [Piece.first, hblank, hcomment, hword]
  simp

/-- **A token at the start of a text is found**, unless it is a word that goes on. -/
theorem pieces_token {t : Token} (h : t.isWritable = true) {rest : List Char}
    (hrest : t.isWord = true → EndsWord rest) :
    pieces (t.text.toList ++ rest) = .token t :: pieces rest := by
  cases hword : t.isWord with
  | false =>
    cases t with
    | punct p =>
      have htext : (Token.punct p).text.toList = [p.char] := String.toList_singleton _
      rw [htext, List.singleton_append, pieces, first_punct]
    | _ => cases hword
  | true =>
    obtain ⟨c, cs, htext, hc, hcs⟩ := isWholeWord_iff.mp (Token.isWholeWord_text hword h)
    have htoken : Token.ofWord (.ofList (c :: cs)) = t := by
      rw [← htext, String.ofList_toList, Token.ofWord_text hword h]
    rw [htext, List.cons_append, pieces, first_word hc hcs (hrest hword), htoken]

/-- Texts have no tokens but these. -/
theorem isWritable_of_mem_pieces {s : List Char} {t : Token} (h : .token t ∈ pieces s) :
    t.isWritable = true := by
  fun_induction pieces s with
  | case1 => cases h
  | case2 c rest ih =>
    rcases List.mem_cons.mp h with hfirst | hrest
    · -- only a word and a sign of punctuation are tokens
      unfold Piece.first at hfirst
      split at hfirst
      · cases hfirst
      split at hfirst
      · cases hfirst
      split at hfirst
      · next hc =>
        cases hfirst
        refine Token.isWritable_ofWord (isWholeWord_iff.mpr ⟨c, _, String.toList_ofList, hc, ?_⟩)
        intro d hd
        exact List.mem_takeWhile_imp hd
      split at hfirst
      · cases hfirst
        rfl
      · cases hfirst
    · exact ih hrest

theorem isWritable_of_mem_tokensOf {s : List Char} {t : Token} (h : t ∈ tokensOf (pieces s)) :
    t.isWritable = true := by
  obtain ⟨p, hp, hpt⟩ := List.mem_filterMap.mp h
  rw [Piece.token?_eq_some.mp hpt] at hp
  exact isWritable_of_mem_pieces hp

/-! ### Separators -/

/-- What may stand between tokens: blanks, and comments with the end of their line. -/
inductive Separator : List Char → Prop where
  | nil : Separator []
  | blank {c : Char} {rest : List Char} : isBlank c = true → Separator rest → Separator (c :: rest)
  | comment {mark body rest : List Char} : mark = ['#'] ∨ mark = ['-', '-'] → '\n' ∉ body →
      Separator rest → Separator (mark ++ body ++ '\n' :: rest)

/-- The tokens and stray characters among some pieces, in order. -/
def marks (ps : List Piece) : List Mark := ps.filterMap Piece.mark?

theorem marks_eq_map_token {ps : List Piece} {ts : List Token} :
    marks ps = ts.map .token ↔ Clean ps ∧ tokensOf ps = ts := by
  induction ps generalizing ts with
  | nil => cases ts <;> simp [marks, tokensOf, Clean]
  | cons p ps ih =>
    rw [clean_cons]
    cases p with
    -- blanks and comments leave no mark and are never stray
    | blank run =>
      have hclean : (Piece.blank run).isStray = false := rfl
      rw [and_iff_right hclean]
      exact ih
    | comment text =>
      have hclean : (Piece.comment text).isStray = false := rfl
      rw [and_iff_right hclean]
      exact ih
    -- a stray character is a mark that no token gives
    | stray c =>
      have hmark : marks (.stray c :: ps) = .stray c :: marks ps := rfl
      cases ts <;> simp [hmark, Piece.isStray]
    | token t =>
      have hmark : marks (.token t :: ps) = .token t :: marks ps := rfl
      have htoken : tokensOf (.token t :: ps) = t :: tokensOf ps := rfl
      rw [hmark, htoken]
      cases ts with
      | nil => simp
      | cons u ts =>
        rw [List.map_cons, List.cons.injEq, List.cons.injEq, ih, Mark.token.injEq]
        simp only [Piece.isStray, true_and]
        tauto

theorem marks_blank {c : Char} (h : isBlank c = true) (rest : List Char) :
    marks (pieces (c :: rest)) = marks (pieces rest) := by
  have hfirst : ∀ {d : Char} (_ : isBlank d = true) (ds : List Char),
      marks (pieces (d :: ds)) = marks (pieces (ds.dropWhile isBlank)) := by
    intro d hd ds
    rw [pieces, Piece.first, if_pos hd]
    rfl
  rw [hfirst h]
  cases rest with
  | nil => rfl
  | cons d rest =>
    cases hd : isBlank d with
    | true => rw [hfirst hd, List.dropWhile_cons, if_pos hd]
    | false => rw [List.dropWhile_cons, hd]; rfl

theorem marks_comment {mark body : List Char} (hmark : mark = ['#'] ∨ mark = ['-', '-'])
    (hbody : '\n' ∉ body) (rest : List Char) :
    marks (pieces (mark ++ body ++ '\n' :: rest)) = marks (pieces rest) := by
  -- what a comment leaves over starts with the end of its line
  have hfirst : ∀ (c : Char) (cs : List Char), isBlank c = false →
      Piece.startsComment c (cs ++ '\n' :: rest) = true → '\n' ∉ cs →
      marks (pieces (c :: (cs ++ '\n' :: rest))) = marks (pieces ('\n' :: rest)) := by
    intro c cs hblank hstart hcs
    have hall : ∀ d ∈ cs, (d != '\n') = true := by
      intro d hd
      simpa using fun hdn : d = '\n' => hcs (hdn ▸ hd)
    have hdrop : (cs ++ '\n' :: rest).dropWhile (· != '\n') = '\n' :: rest := by
      rw [List.dropWhile_append_of_pos hall]
      rfl
    rw [pieces, Piece.first, hblank, hstart, hdrop]
    rfl
  rw [← marks_blank (c := '\n') rfl rest]
  rcases hmark with rfl | rfl
  · exact hfirst '#' body rfl rfl hbody
  · refine hfirst '-' ('-' :: body) rfl rfl fun hmem => ?_
    rcases List.mem_cons.mp hmem with hdash | hmem
    · cases hdash
    · exact hbody hmem

/-- **Separators leave no mark.** -/
theorem marks_separator {sep : List Char} (h : Separator sep) (rest : List Char) :
    marks (pieces (sep ++ rest)) = marks (pieces rest) := by
  induction h with
  | nil => rfl
  | blank hc _ ih => rw [List.cons_append, marks_blank hc, ih]
  | comment hmark hbody _ ih =>
    rw [List.append_assoc, List.cons_append, marks_comment hmark hbody, ih]

theorem Separator.endsWord {sep : List Char} (h : Separator sep) (hne : sep ≠ [])
    (rest : List Char) : EndsWord (sep ++ rest) := by
  intro c hc
  cases h with
  | nil => exact absurd rfl hne
  | @blank d _ hd _ =>
    cases hc
    by_contra hword
    rw [not_isBlank_of_isWordChar (by simpa using hword)] at hd
    cases hd
  | comment hmark _ _ =>
    rcases hmark with rfl | rfl
    · cases hc
      decide
    · cases hc
      decide

/-! ### Layouts -/

/-- A text: what stands before the first token, and each token with what follows it. -/
def layout (lead : List Char) (items : List (Token × List Char)) : List Char :=
  lead ++ items.flatMap fun x => x.1.text.toList ++ x.2

/-- Only separators stand between the tokens, and two words are kept apart. -/
structure WellSpaced (lead : List Char) (items : List (Token × List Char)) : Prop where
  lead : Separator lead
  follow : ∀ x ∈ items, Separator x.2
  apart : items.IsChain fun x y => x.1.isWord = true → y.1.isWord = true → x.2 ≠ []

/-- A text that starts with a mark ends the word before it. -/
theorem endsWord_punct (p : Punct) (rest : List Char) :
    EndsWord ((Token.punct p).text.toList ++ rest) := by
  have htext : (Token.punct p).text.toList = [p.char] := String.toList_singleton _
  intro c hc
  rw [htext] at hc
  cases hc
  cases p <;> decide

/-- **Tokens that are well spaced are found again**, and nothing else is. -/
theorem marks_layout {lead : List Char} {items : List (Token × List Char)}
    (h : WellSpaced lead items) (hwritable : ∀ x ∈ items, x.1.isWritable = true) :
    marks (pieces (layout lead items)) = (items.map Prod.fst).map .token := by
  rw [layout, marks_separator h.lead]
  obtain ⟨-, hfollow, hapart⟩ := h
  induction items with
  | nil => rw [List.flatMap_nil, pieces]; rfl
  | cons x items ih =>
    obtain ⟨t, sep⟩ := x
    have hsep : Separator sep := hfollow _ List.mem_cons_self
    -- after a word there is a separator, the end of the text or a mark
    have hends : t.isWord = true →
        EndsWord (sep ++ items.flatMap fun x => x.1.text.toList ++ x.2) := by
      intro hword
      by_cases hne : sep = []
      · subst hne
        cases items with
        | nil => intro c hc; cases hc
        | cons y items =>
          obtain ⟨u, sep'⟩ := y
          cases u with
          | punct p =>
            rw [List.nil_append, List.flatMap_cons, List.append_assoc]
            exact endsWord_punct p _
          | keyword k => exact absurd rfl ((List.isChain_cons_cons.mp hapart).1 hword rfl)
          | ident name => exact absurd rfl ((List.isChain_cons_cons.mp hapart).1 hword rfl)
      · exact hsep.endsWord hne _
    have hmark : ∀ ps, marks (.token t :: ps) = .token t :: marks ps := fun _ => rfl
    rw [List.flatMap_cons, List.append_assoc,
      pieces_token (hwritable _ List.mem_cons_self) hends, hmark, marks_separator hsep,
      ih (fun y hy => hwritable y (List.mem_cons_of_mem _ hy))
        (fun y hy => hfollow y (List.mem_cons_of_mem _ hy)) hapart.tail]
    rfl

end Asdl
