/-
Tokens and the lines that they start on.

The line of a token is one more than the number of line ends before it, whatever these line
ends stand in.  Lines can be counted along the way: from each mark to the next one, only the
line ends between the two have to be looked at.

* `CountedLine` — the line of a lexeme, counted from the beginning of the text;
* `slice?`, `countAlong` — a part of a text between two offsets, and the count that goes from
  mark to mark;
* `countAlong_place` — the count never leaves the text and agrees with `tokenize`;
* `pairwise_line_place` — lines do not descend;
* `tokenize_linesCounted` — the lines of all tokens, and of a stray character.

Design notes: the count stands at the last mark while the pieces behind it are passed.  The
invariant is that the text is made up of what was counted, a gap that was not, and the pieces
that are left.
-/
import Asdl.Proofs.Checks
import Asdl.Proofs.Segmentation

namespace Asdl

/-! ### Lines from the beginning -/

/-- The lexeme stands behind `start` bytes of the text, and `line` is one more than the
number of line ends in them. -/
def CountedLine (source : String) (l : Lexeme) (line : Nat) : Prop :=
  ∃ before behind, source.toList = before ++ l.mark.text.toList ++ behind ∧
    byteSize before = l.start ∧ line = 1 + before.count '\n'

theorem countedLine_of_mem {source : String} {l : Lexeme} (hl : l ∈ lexemes source) :
    CountedLine source l l.line := by
  have hps := segmented_iff.mpr (rfl : pieces source.toList = pieces source.toList)
  obtain ⟨before, p, after, hsplit, hmark, hstart, -, hline⟩ := hps.mem_lexemes.mp hl
  refine ⟨before.flatMap Piece.text, after.flatMap Piece.text, ?_, hstart.symm, hline⟩
  rw [Piece.toList_text_of_mark? hmark]
  exact hps.toList_eq hsplit

/-- Lines do not descend along a text. -/
theorem pairwise_line_place (offset line : Nat) (ps : List Piece) :
    (place offset line ps).Pairwise fun l r => l.line ≤ r.line := by
  induction ps generalizing offset line with
  | nil => exact .nil
  | cons p ps ih =>
    rw [place]
    cases p.mark? with
    | none => exact ih _ _
    | some mark =>
      refine List.pairwise_cons.mpr ⟨?_, ih _ _⟩
      intro r hr
      obtain ⟨before, -, -, -, -, -, -, hline⟩ := mem_place.mp hr
      show line ≤ r.line
      omega

/-! ### Lines along the way -/

/-- The part of a text between two offsets.  There is none unless both lie between
characters, the first one not behind the second. -/
def slice? (source : String) (first last : Nat) : Option String :=
  if h : String.Pos.Raw.IsValid source ⟨first⟩ ∧ String.Pos.Raw.IsValid source ⟨last⟩ ∧
      first ≤ last then
    some (source.extract ⟨⟨first⟩, h.1⟩ ⟨⟨last⟩, h.2.1⟩)
  else none

theorem slice?_eq_some {source : String} {left mid right : List Char}
    (h : source.toList = left ++ mid ++ right) :
    slice? source (byteSize left) (byteSize left + byteSize mid) = some (String.ofList mid) := by
  obtain ⟨⟨⟨_⟩, hfirst⟩, ⟨⟨_⟩, hlast⟩, rfl, rfl, hmid⟩ := exists_slice h
  rw [slice?, dif_pos ⟨hfirst, hlast, Nat.le_add_right _ _⟩, hmid]

/-- Goes from mark to mark with the line so far and the offset up to which line ends are
counted.  Of a lexeme only the mark and its start are looked at; there is no outcome if a
part of the text is asked for that is not there. -/
def countAlong (source : String) (line counted : Nat) :
    List Lexeme → Option (Except ParseError (List Located))
  | [] => some (.ok [])
  | l :: ls =>
    (slice? source counted l.start).bind fun gap =>
      let here := line + gap.toList.count '\n'
      match l.mark with
      | .token t => (countAlong source here l.start ls).map (List.cons ⟨t, here⟩ <$> ·)
      | .stray c => some (.error (.invalidToken (String.singleton c) here))

/-- One step: what lies between the last mark and this one is there, and its line ends lead
to the line of this mark. -/
theorem countAlong_cons {source : String} {counted gap rest : List Char} {line : Nat}
    {l : Lexeme} {ls : List Lexeme} (htext : source.toList = counted ++ gap ++ rest)
    (hstart : l.start = byteSize (counted ++ gap)) (hline : l.line = line + gap.count '\n') :
    countAlong source line (byteSize counted) (l :: ls) =
      match l.mark with
      | .token t => (countAlong source l.line l.start ls).map (List.cons ⟨t, l.line⟩ <$> ·)
      | .stray c => some (.error (.invalidToken (String.singleton c) l.line)) := by
  rw [countAlong, hstart, byteSize_append, slice?_eq_some htext, Option.bind_some,
    String.toList_ofList, ← hline]

/-- **Counting from mark to mark** never leaves the text, and the lines are those that are
counted piece by piece. -/
theorem countAlong_place {source : String} {counted gap : List Char} {line : Nat}
    {ps : List Piece} (htext : source.toList = counted ++ gap ++ ps.flatMap Piece.text) :
    countAlong source line (byteSize counted)
        (place (byteSize (counted ++ gap)) (line + gap.count '\n') ps) =
      some ((place (byteSize (counted ++ gap)) (line + gap.count '\n') ps).mapM
        Lexeme.located) := by
  induction ps generalizing counted gap line with
  | nil => rfl
  | cons p ps ih =>
    rw [List.flatMap_cons] at htext
    rw [place]
    cases hmark : p.mark? with
    | none =>
      -- nothing to count from yet: the piece widens the gap
      have hgap := @ih counted (gap ++ p.text) line
        (by rw [htext]; simp only [List.append_assoc])
      rw [List.count_append, ← Nat.add_assoc, ← List.append_assoc, byteSize_append (counted ++ gap)]
        at hgap
      exact hgap
    | some mark =>
      -- the count catches up, and the mark itself is the next gap
      have hnext := @ih (counted ++ gap) p.text (line + gap.count '\n')
        (by rw [htext]; simp only [List.append_assoc])
      rw [byteSize_append (counted ++ gap)] at hnext
      simp only
      rw [countAlong_cons htext rfl rfl, List.mapM_cons]
      cases mark with
      | stray c => rfl
      | token t =>
        simp only
        rw [hnext]
        rfl

/-! ### The lines of a text -/

/-- What is said about the lines of a text. -/
structure LinesCounted (source : String) : Prop where
  /-- Tokens are the lexemes of the text, each with its line. -/
  tokens : ∀ ts, tokenize source = .ok ts →
    List.Forall₂ (fun l t => CountedLine source l t.line ∧ l.mark = .token t.token)
      (lexemes source) ts
  ascending : ∀ ts, tokenize source = .ok ts → ts.Pairwise fun t u => t.line ≤ u.line
  /-- The only error is a stray character, the first one, with its line. -/
  stray : ∀ e, tokenize source = .error e →
    ∃ before l behind c line, lexemes source = before ++ l :: behind ∧
      (∀ b ∈ before, ∃ t, b.mark = .token t) ∧ l.mark = .stray c ∧
      e = .invalidToken (String.singleton c) line ∧ CountedLine source l line
  /-- Counting from mark to mark comes to the same, and never leaves the text. -/
  along : countAlong source 1 0 (lexemes source) = some (tokenize source)

theorem located_eq_ok {l : Lexeme} {t : Located} :
    l.located = .ok t ↔ l.mark = .token t.token ∧ l.line = t.line := by
  obtain ⟨mark, start, stop, line⟩ := l
  cases mark with
  | token u =>
    simp only [Lexeme.located, Except.ok.injEq, Mark.token.injEq]
    constructor
    · rintro rfl
      exact ⟨rfl, rfl⟩
    · rintro ⟨rfl, rfl⟩
      rfl
  | stray c => simp [Lexeme.located]

/-- Before the first stray character there are tokens only. -/
theorem exists_stray_lexeme {source : String} (h : ¬ Clean (pieces source.toList)) :
    ∃ before l behind c, lexemes source = before ++ l :: behind ∧
      (∀ b ∈ before, ∃ t, b.mark = .token t) ∧ l.mark = .stray c ∧
      tokenize source = .error (.invalidToken (String.singleton c) l.line) := by
  obtain ⟨before, c, after, hpieces, hclean⟩ := exists_first_stray h
  have hlexemes : lexemes source = place 0 1 before ++
      place (0 + bytes before) (1 + newlines before) (.stray c :: after) := by
    rw [lexemes, hpieces, place_append]
  have htokens : ∀ b ∈ place 0 1 before, ∃ t, b.mark = .token t := by
    intro b hb
    obtain ⟨left, p, right, rfl, hmark, -⟩ := mem_place.mp hb
    have hp := hclean p (by simp)
    cases p with
    | token t => exact ⟨t, (Option.some.inj hmark).symm⟩
    | stray d => cases hp
    | blank run => cases hmark
    | comment text => cases hmark
  exact ⟨_, _, _, c, hlexemes, htokens, rfl, tokenize_of_stray hpieces hclean⟩

/-- **Every line is counted from the beginning of the text.**  A token and a stray character
are reported with one more than the number of line ends before them, lines do not descend,
and a count that goes from mark to mark finds the same lines without leaving the text. -/
theorem tokenize_linesCounted (source : String) : LinesCounted source := by
  -- tokens are the lexemes, one by one and with the same lines
  have hlocated : ∀ ts, tokenize source = .ok ts →
      List.Forall₂ (fun l t => l.mark = .token t.token ∧ l.line = t.line) (lexemes source) ts :=
    fun ts hts => (mapM_eq_ok.mp hts).imp fun l t hlt => located_eq_ok.mp hlt
  refine ⟨fun ts hts => ?_, fun ts hts => ?_, fun e he => ?_, ?_⟩
  · have hcounted := (List.forall₂_and_left _ _).mpr
      ⟨fun l hl => @countedLine_of_mem source l hl, hlocated ts hts⟩
    refine hcounted.imp fun l t => ?_
    rintro ⟨hline, hmark, heq⟩
    exact ⟨heq ▸ hline, hmark⟩
  · have hlines := map_eq_map (fun _ _ hlt => hlt.2.symm) (hlocated ts hts)
    have hpairwise : ((lexemes source).map Lexeme.line).Pairwise (· ≤ ·) :=
      List.pairwise_map.mpr (pairwise_line_place 0 1 _)
    rw [← hlines] at hpairwise
    exact List.pairwise_map.mp hpairwise
  · have hstray : ¬ Clean (pieces source.toList) := by
      intro hclean
      rw [tokenize_of_clean hclean] at he
      cases he
    obtain ⟨before, l, behind, c, hsplit, hbefore, hmark, herror⟩ := exists_stray_lexeme hstray
    rw [herror] at he
    cases he
    exact ⟨before, l, behind, c, _, hsplit, hbefore, hmark, rfl,
      countedLine_of_mem (by rw [hsplit]; simp)⟩
  · exact @countAlong_place source [] [] 1 _ (flatMap_text_pieces _).symm

/-- A line that ends in two characters, a comment with a letter of two bytes, a blank line,
and a mark on the fourth line. -/
def unevenText : String := "a\r\n-- é\n\n ("

/-- Carriage returns and the bytes of letters are no lines, in a text that can be read and in
one with a stray character. -/
theorem unevenText_linesCounted :
    tokenize unevenText = .ok [⟨.ident "a", 1⟩, ⟨.punct .lparen, 4⟩] ∧ LinesCounted unevenText ∧
      tokenize (unevenText ++ "\r;\n") = .error (.invalidToken ";" 4) ∧
      LinesCounted (unevenText ++ "\r;\n") := by
  refine ⟨?_, tokenize_linesCounted _, ?_, tokenize_linesCounted _⟩
  · decide +kernel
  · decide +kernel

end Asdl
