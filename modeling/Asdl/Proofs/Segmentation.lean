/-
A text has one segmentation.

What a piece of a text looks like, and what may follow it, is said here without
saying how pieces are found.  Exactly one list of pieces makes up a text in this
way, and the lexemes of the text are the marks on it:

* `Piece.Fits` — what a piece looks like and what may follow it;
* `Segmented` — pieces that make up a text, each fitting what follows it;
* `segmented_iff` — the segmentation of a text is `pieces`, and there is no other;
* `Piece.startsNone_iff` — the characters at which no piece can start;
* `mem_place`, `pairwise_place` — where lexemes stand;
* `lexemes_segmented` — the lexemes of a text in terms of its segmentation.

Design notes: blanks and words are taken to be as long as they can be, since two
runs of blanks side by side would be a second segmentation.  Offsets count bytes,
and `String.Pos` holds those offsets at which a character starts.
-/
import Asdl.Proofs.Lexing

namespace Asdl

/-! ### Pieces that fit -/

namespace Piece

/-- A character at which nothing can start: it is no blank, no mark and no start of
a word, and it starts no comment. -/
structure StartsNone (c : Char) (rest : List Char) : Prop where
  blank : isBlank c = false
  hash : c ≠ '#'
  /-- A dash has no second dash after it. -/
  dashes : c = '-' → rest.head? ≠ some '-'
  word : isWordStart c = false
  punct : ∀ p : Punct, p.char ≠ c

/-- What a piece looks like, and which texts may follow it. -/
def Fits (rest : List Char) : Piece → Prop
  | blank run => run ≠ [] ∧ (∀ c ∈ run, isBlank c = true) ∧
      ∀ c, rest.head? = some c → isBlank c = false
  | comment cs => (∃ body, cs = '#' :: body ∨ cs = '-' :: '-' :: body) ∧ '\n' ∉ cs ∧
      ∀ c, rest.head? = some c → c = '\n'
  | token t => t.isWritable = true ∧ (t.isWord = true → EndsWord rest)
  | stray c => StartsNone c rest

theorem startsComment_iff {c : Char} {rest : List Char} :
    startsComment c rest = true ↔ c = '#' ∨ c = '-' ∧ rest.head? = some '-' := by
  simp [startsComment]

theorem ofChar?_eq_none {c : Char} : Punct.ofChar? c = none ↔ ∀ p : Punct, p.char ≠ c := by
  constructor
  · rintro h p rfl
    rw [Punct.ofChar?_char] at h
    cases h
  · intro h
    cases hp : Punct.ofChar? c with
    | none => rfl
    | some p => exact absurd (Punct.char_of_ofChar? hp) (h p)

/-- What is left over after a run does not go on with it. -/
theorem stop_of_dropWhile {p : Char → Bool} {rest : List Char} {c : Char}
    (h : (rest.dropWhile p).head? = some c) : p c = false := by
  have hhead := List.head?_dropWhile_not p rest
  rwa [h] at hhead

/-- **The first piece of a text fits what follows it.** -/
theorem fits_first (c : Char) (rest : List Char) :
    (first c rest).1.Fits (first c rest).2 := by
  unfold first
  -- the tests of `first` in order: blanks, a comment, a word, a sign, a stray character;
  -- a later test is reached only when the earlier ones have failed, which `Fits` asks for
  split
  · next hblank =>
    refine ⟨by simp, fun d hd => ?_, fun d hd => stop_of_dropWhile hd⟩
    rcases List.mem_cons.mp hd with rfl | hd
    · exact hblank
    · exact List.mem_takeWhile_imp hd
  · next hblank =>
    split
    · next hcomment =>
      refine ⟨?_, fun hmem => ?_, fun d hd => by simpa using stop_of_dropWhile hd⟩
      · rcases startsComment_iff.mp hcomment with rfl | ⟨rfl, hdash⟩
        · exact ⟨_, .inl rfl⟩
        · cases rest with
          | nil => cases hdash
          | cons d rest =>
            cases hdash
            exact ⟨_, .inr rfl⟩
      · rcases List.mem_cons.mp hmem with rfl | hmem
        · exact hblank rfl
        · simpa using List.mem_takeWhile_imp hmem
    · next hcomment =>
      split
      · next hword =>
        refine ⟨Token.isWritable_ofWord (isWholeWord_iff.mpr ⟨c, _, String.toList_ofList, hword,
          fun d hd => List.mem_takeWhile_imp hd⟩), fun _ d hd => stop_of_dropWhile hd⟩
      · next hword =>
        split
        · exact ⟨rfl, fun hpunct => by cases hpunct⟩
        · next hpunct =>
          rw [startsComment_iff, not_or, not_and] at hcomment
          exact ⟨by simpa using hblank, hcomment.1, hcomment.2, by simpa using hword,
            ofChar?_eq_none.mp hpunct⟩

/-- **A piece that fits is found**, whatever else the text holds. -/
theorem pieces_of_fits {p : Piece} {rest : List Char} (h : p.Fits rest) :
    pieces (p.text ++ rest) = p :: pieces rest := by
  cases p with
  | token t => exact pieces_token h.1 h.2
  | blank run =>
    obtain ⟨hne, hrun, hrest⟩ := h
    cases run with
    | nil => exact absurd rfl hne
    | cons c cs =>
      obtain ⟨hc, hcs⟩ := List.forall_mem_cons.mp hrun
      obtain ⟨htake, hdrop⟩ := span_append hcs hrest
      show pieces (c :: (cs ++ rest)) = _
      rw [pieces, first, if_pos hc, htake, hdrop]
  | comment cs =>
    obtain ⟨⟨body, hbody⟩, hnl, hrest⟩ := h
    -- both kinds of comment consist of a first character and the rest of the line
    have hfirst : ∀ c ds, isBlank c = false → startsComment c (ds ++ rest) = true → '\n' ∉ ds →
        pieces (c :: (ds ++ rest)) = .comment (c :: ds) :: pieces rest := by
      intro c ds hblank hstart hds
      have hall : ∀ d ∈ ds, (d != '\n') = true := by
        intro d hd
        simpa using fun hdn : d = '\n' => hds (hdn ▸ hd)
      obtain ⟨htake, hdrop⟩ := span_append hall fun d hd => by simpa using hrest d hd
      rw [pieces, first, hblank, hstart, htake, hdrop]
      rfl
    rcases hbody with rfl | rfl
    · exact hfirst '#' body rfl rfl fun hmem => hnl (List.mem_cons_of_mem _ hmem)
    · exact hfirst '-' ('-' :: body) rfl rfl fun hmem => hnl (List.mem_cons_of_mem _ hmem)
  | stray c =>
    have hcomment : startsComment c rest = false := by
      rw [← Bool.not_eq_true, startsComment_iff, not_or, not_and]
      exact ⟨h.hash, h.dashes⟩
    show pieces (c :: rest) = _
    rw [pieces, first, h.blank, hcomment, h.word, ofChar?_eq_none.mpr h.punct]
    rfl

end Piece

/-! ### Segmentations -/

/-- Pieces that make up a text, each of them fitting what follows it. -/
structure Segmented (text : List Char) (ps : List Piece) : Prop where
  whole : ps.flatMap Piece.text = text
  fits : ∀ before p after, ps = before ++ p :: after → p.Fits (after.flatMap Piece.text)

theorem segmented_cons {text : List Char} {p : Piece} {ps : List Piece} :
    Segmented text (p :: ps) ↔
      ∃ rest, text = p.text ++ rest ∧ p.Fits rest ∧ Segmented rest ps := by
  constructor
  · rintro ⟨rfl, hfits⟩
    refine ⟨ps.flatMap Piece.text, List.flatMap_cons, hfits [] p ps rfl, rfl, ?_⟩
    intro before q after hq
    exact hfits (p :: before) q after (congrArg (p :: ·) hq)
  · rintro ⟨rest, rfl, hp, rfl, hfits⟩
    refine ⟨List.flatMap_cons, ?_⟩
    intro before q after hq
    -- the first piece fits by assumption, the others in the rest of the text
    cases before with
    | nil =>
      cases hq
      exact hp
    | cons r before =>
      cases hq
      exact hfits before q after rfl

/-- **The segmentation of a text** is the list of its pieces, and there is no other. -/
theorem segmented_iff {text : List Char} {ps : List Piece} :
    Segmented text ps ↔ ps = pieces text := by
  constructor
  · intro h
    induction ps generalizing text with
    | nil => rw [← h.whole, List.flatMap_nil, pieces]
    | cons p ps ih =>
      obtain ⟨rest, rfl, hp, hrest⟩ := segmented_cons.mp h
      rw [Piece.pieces_of_fits hp, ← ih hrest]
  · rintro rfl
    fun_induction pieces text with
    | case1 => exact ⟨rfl, fun before p after h => by cases before <;> cases h⟩
    | case2 c rest ih =>
      exact segmented_cons.mpr
        ⟨_, (Piece.text_append_first c rest).symm, Piece.fits_first c rest, ih⟩

theorem Piece.text_ne_nil {p : Piece} {rest : List Char} (h : p.Fits rest) : p.text ≠ [] := by
  intro hnil
  have hp := pieces_of_fits h
  have hlength := congrArg List.length hp
  rw [hnil, List.nil_append, List.length_cons] at hlength
  omega

/-- **No piece can start at a character** exactly if it is none of the characters
that pieces start with. -/
theorem Piece.startsNone_iff {c : Char} {rest : List Char} :
    StartsNone c rest ↔
      ∀ (q : Piece) (tail : List Char), q.isStray = false → q.text ++ tail = c :: rest →
        ¬ q.Fits tail := by
  -- both sides say that the text is cut at a stray character
  have hstray : StartsNone c rest ↔ (first c rest).1 = .stray c := by
    constructor
    · intro h
      have hp := pieces_of_fits (p := .stray c) h
      have htext : (Piece.stray c).text ++ rest = c :: rest := rfl
      rw [htext, pieces] at hp
      exact (List.cons.inj hp).1
    · intro h
      have hfits := fits_first c rest
      have htext := text_append_first c rest
      rw [h] at hfits htext
      have hrest : (first c rest).2 = rest := (List.cons.inj htext).2
      rwa [hrest] at hfits
  rw [hstray]
  constructor
  · intro h q tail hq htext hfits
    have hp := pieces_of_fits hfits
    rw [htext, pieces, h] at hp
    rw [← (List.cons.inj hp).1] at hq
    cases hq
  · intro h
    -- the first piece fits, so by assumption it is stray
    have hfirst : (first c rest).1.isStray ≠ false :=
      fun hp => h _ _ hp (text_append_first c rest) (fits_first c rest)
    have htext := text_append_first c rest
    revert hfirst htext
    cases (first c rest).1 with
    | stray d => exact fun _ htext => congrArg Piece.stray (List.cons.inj htext).1
    | _ => exact fun hfirst _ => absurd rfl hfirst

/-! ### Places -/

theorem byteSize_append (cs ds : List Char) : byteSize (cs ++ ds) = byteSize cs + byteSize ds := by
  induction cs with
  | nil => exact (Nat.zero_add _).symm
  | cons c cs ih =>
    show c.utf8Size + byteSize (cs ++ ds) = c.utf8Size + byteSize cs + byteSize ds
    omega

theorem byteSize_eq (cs : List Char) : byteSize cs = (String.ofList cs).utf8ByteSize := by
  induction cs with
  | nil => rfl
  | cons c cs ih =>
    show c.utf8Size + byteSize cs = _
    have hcons : String.ofList (c :: cs) = String.singleton c ++ String.ofList cs := by
      simp
    rw [hcons, ih, String.utf8ByteSize_append, String.utf8ByteSize_singleton]

theorem byteSize_pos {cs : List Char} (h : cs ≠ []) : 0 < byteSize cs := by
  cases cs with
  | nil => exact absurd rfl h
  | cons c cs =>
    have hc := c.utf8Size_pos
    show 0 < c.utf8Size + byteSize cs
    omega

/-- The bytes of some pieces. -/
def bytes (ps : List Piece) : Nat := byteSize (ps.flatMap Piece.text)

theorem bytes_cons (p : Piece) (ps : List Piece) :
    bytes (p :: ps) = byteSize p.text + bytes ps := by
  rw [bytes, List.flatMap_cons, byteSize_append, bytes]

theorem bytes_concat (ps : List Piece) (p : Piece) :
    bytes (ps ++ [p]) = bytes ps + byteSize p.text := by
  rw [bytes, List.flatMap_append, List.flatMap_singleton, byteSize_append, bytes]

theorem Piece.toList_text_of_mark? {p : Piece} {mark : Mark} (h : p.mark? = some mark) :
    mark.text.toList = p.text := by
  cases p with
  | token t =>
    cases h
    rfl
  | stray c =>
    cases h
    exact String.toList_singleton c
  | blank run => cases h
  | comment cs => cases h

theorem place_append (offset line : Nat) (ps qs : List Piece) :
    place offset line (ps ++ qs) =
      place offset line ps ++ place (offset + bytes ps) (line + newlines ps) qs := by
  induction ps generalizing offset line with
  | nil => rfl
  | cons p ps ih =>
    rw [List.cons_append, place, place, ih, bytes_cons, newlines_cons, ← Nat.add_assoc,
      ← Nat.add_assoc]
    cases p.mark? with
    | none => rfl
    | some mark => rfl

/-- **Lexemes stand where their pieces do**: after the bytes and the line ends of the
pieces before. -/
theorem mem_place {offset line : Nat} {ps : List Piece} {l : Lexeme} :
    l ∈ place offset line ps ↔
      ∃ before p after, ps = before ++ p :: after ∧ p.mark? = some l.mark ∧
        l.start = offset + bytes before ∧ l.stop = offset + bytes (before ++ [p]) ∧
        l.line = line + newlines before := by
  constructor
  · intro h
    induction ps generalizing offset line with
    | nil => cases h
    | cons p ps ih =>
      -- what stands behind the first piece is moved by the bytes and line ends of that piece
      have hbehind : l ∈ place (offset + byteSize p.text) (line + p.text.count '\n') ps →
          ∃ before q after, p :: ps = before ++ q :: after ∧ q.mark? = some l.mark ∧
            l.start = offset + bytes before ∧ l.stop = offset + bytes (before ++ [q]) ∧
            l.line = line + newlines before := by
        intro hl
        obtain ⟨before, q, after, rfl, hmark, hstart, hstop, hline⟩ := ih hl
        refine ⟨p :: before, q, after, rfl, hmark, ?_, ?_, ?_⟩
        · rw [bytes_cons, hstart, Nat.add_assoc]
        · rw [List.cons_append, bytes_cons, hstop, Nat.add_assoc]
        · rw [newlines_cons, hline, Nat.add_assoc]
      rw [place] at h
      cases hmark : p.mark? with
      | none =>
        rw [hmark] at h
        exact hbehind h
      | some mark =>
        rw [hmark] at h
        rcases List.mem_cons.mp h with rfl | h
        · refine ⟨[], p, ps, rfl, hmark, rfl, ?_, rfl⟩
          rw [bytes_concat]
          exact congrArg (offset + ·) (Nat.zero_add _).symm
        · exact hbehind h
  · rintro ⟨before, p, after, rfl, hmark, hstart, hstop, hline⟩
    rw [bytes_concat, ← Nat.add_assoc] at hstop
    -- the position is determined, so the lexeme is the one that `place` puts there
    have hl : l = ⟨l.mark, offset + bytes before, offset + bytes before + byteSize p.text,
        line + newlines before⟩ := by
      rw [← hstop, ← hstart, ← hline]
    rw [place_append, place, hmark, hl]
    exact List.mem_append_right _ List.mem_cons_self

theorem map_mark_place (offset line : Nat) (ps : List Piece) :
    (place offset line ps).map Lexeme.mark = marks ps := by
  induction ps generalizing offset line with
  | nil => rfl
  | cons p ps ih =>
    rw [place, marks, List.filterMap_cons]
    cases p.mark? with
    | none => exact ih _ _
    | some mark => exact congrArg (mark :: ·) (ih _ _)

/-- **Lexemes do not overlap** and come in the order of the text. -/
theorem pairwise_place (offset line : Nat) (ps : List Piece) :
    (place offset line ps).Pairwise fun l r => l.stop ≤ r.start := by
  induction ps generalizing offset line with
  | nil => exact .nil
  | cons p ps ih =>
    rw [place]
    cases p.mark? with
    | none => exact ih _ _
    | some mark =>
      refine List.pairwise_cons.mpr ⟨?_, ih _ _⟩
      intro r hr
      obtain ⟨before, -, -, -, -, hstart, -⟩ := mem_place.mp hr
      show offset + byteSize p.text ≤ r.start
      omega

/-! ### Slices -/

/-- A part of a text is the slice between the offsets of its ends. -/
theorem exists_slice {source : String} {left mid right : List Char}
    (h : source.toList = left ++ mid ++ right) :
    ∃ first last : source.Pos, first.offset.byteIdx = byteSize left ∧
      last.offset.byteIdx = byteSize left + byteSize mid ∧
      source.extract first last = String.ofList mid := by
  obtain rfl : String.ofList left ++ (String.ofList mid ++ String.ofList right) = source := by
    rw [← String.ofList_append, ← String.ofList_append, ← List.append_assoc, ← h,
      String.ofList_toList]
  rw [byteSize_eq, byteSize_eq]
  -- both ends are ends of a part of the text, so characters start there
  have hfirst := String.Pos.Raw.isValid_iff_exists_append.mpr
    ⟨String.ofList left, String.ofList mid ++ String.ofList right, rfl, rfl⟩
  have hlast := String.Pos.Raw.isValid_iff_exists_append.mpr
    ⟨String.ofList left ++ String.ofList mid, String.ofList right, rfl, rfl⟩
  rw [String.append_assoc] at hlast
  refine ⟨⟨_, hfirst⟩, ⟨_, hlast⟩, rfl, String.utf8ByteSize_append, ?_⟩
  rw [← String.toByteArray_inj, String.toByteArray_extract, String.toByteArray_append,
    String.toByteArray_append]
  show ByteArray.extract _ ((String.ofList left).utf8ByteSize + 0)
    (String.ofList left ++ String.ofList mid).utf8ByteSize = _
  rw [String.utf8ByteSize_append,
    ByteArray.extract_append_size_add' String.size_toByteArray.symm,
    ByteArray.extract_append_eq_left String.size_toByteArray.symm]

/-! ### Lexemes -/

/-- What the lexemes of a text are, given its segmentation. -/
structure LexedAs (source : String) (ps : List Piece) : Prop where
  /-- They are the tokens and stray characters among the pieces, in order. -/
  marks : (lexemes source).map Lexeme.mark = marks ps
  /-- Each stands where its piece does. -/
  placed : ∀ l, l ∈ lexemes source ↔
    ∃ before p after, ps = before ++ p :: after ∧ p.mark? = some l.mark ∧
      l.start = bytes before ∧ l.stop = bytes (before ++ [p]) ∧ l.line = 1 + newlines before
  /-- Its ends lie between characters, and its text is the slice between them. -/
  sliced : ∀ l ∈ lexemes source, ∃ first last : source.Pos,
    first.offset.byteIdx = l.start ∧ last.offset.byteIdx = l.stop ∧
      source.extract first last = l.mark.text
  nonempty : ∀ l ∈ lexemes source, l.start < l.stop
  apart : (lexemes source).Pairwise fun l r => l.stop ≤ r.start
  /-- A word does not go on after its end, and it is reserved or not as a whole. -/
  words : ∀ before t after, ps = before ++ .token t :: after → t.isWord = true →
    isWholeWord t.text = true ∧ EndsWord (after.flatMap Piece.text) ∧
      ((∃ k, t = .keyword k) ↔ t.text = "module" ∨ t.text = "attributes" ∨ t.text = "use")
  /-- A character is stray exactly if no piece can start with it. -/
  strays : ∀ before p after c rest, ps = before ++ p :: after →
    p.text ++ after.flatMap Piece.text = c :: rest →
      (p = .stray c ↔ ∀ (q : Piece) (tail : List Char), q.isStray = false →
        q.text ++ tail = c :: rest → ¬ q.Fits tail)

theorem Token.keyword_iff {t : Token} (hword : t.isWord = true) (h : t.isWritable = true) :
    (∃ k, t = .keyword k) ↔ t.text = "module" ∨ t.text = "attributes" ∨ t.text = "use" := by
  cases t with
  | punct p => cases hword
  | keyword k => cases k <;> simp [text, Keyword.spelling]
  | ident name =>
    have hnot := Keyword.ofWord?_eq_none.mp (isIdentifier_iff.mp h).2
    simpa [text] using hnot

variable {source : String} {ps : List Piece}

theorem Segmented.toList_eq (h : Segmented source.toList ps) {before after : List Piece} {p : Piece}
    (hps : ps = before ++ p :: after) :
    source.toList = before.flatMap Piece.text ++ p.text ++ after.flatMap Piece.text := by
  rw [← h.whole, hps, List.flatMap_append, List.flatMap_cons, List.append_assoc]

theorem Segmented.mem_lexemes (h : Segmented source.toList ps) {l : Lexeme} :
    l ∈ lexemes source ↔
      ∃ before p after, ps = before ++ p :: after ∧ p.mark? = some l.mark ∧
        l.start = bytes before ∧ l.stop = bytes (before ++ [p]) ∧ l.line = 1 + newlines before := by
  rw [lexemes, ← segmented_iff.mp h, mem_place]
  simp only [Nat.zero_add]

theorem Segmented.lexedAs (h : Segmented source.toList ps) : LexedAs source ps where
  marks := by rw [lexemes, ← segmented_iff.mp h, map_mark_place]
  placed := fun l => h.mem_lexemes
  sliced := by
    intro l hl
    obtain ⟨before, p, after, hps, hmark, hstart, hstop, -⟩ := h.mem_lexemes.mp hl
    rw [hstart, hstop, bytes_concat, ← String.ofList_toList (s := l.mark.text),
      Piece.toList_text_of_mark? hmark]
    exact exists_slice (h.toList_eq hps)
  nonempty := by
    intro l hl
    obtain ⟨before, p, after, hps, -, hstart, hstop, -⟩ := h.mem_lexemes.mp hl
    have hpos := byteSize_pos (Piece.text_ne_nil (h.fits before p after hps))
    rw [bytes_concat] at hstop
    omega
  apart := pairwise_place 0 1 _
  words := by
    intro before t after hps hword
    obtain ⟨hwritable, hends⟩ := h.fits before _ after hps
    exact ⟨Token.isWholeWord_text hword hwritable, hends hword, Token.keyword_iff hword hwritable⟩
  strays := by
    intro before p after c rest hps htext
    rw [← Piece.startsNone_iff]
    have hfits := h.fits before p after hps
    constructor
    · rintro rfl
      rw [← (List.cons.inj htext).2]
      exact hfits
    · intro hnone
      -- the same text starts with the piece `p` and with a stray character
      have hp := Piece.pieces_of_fits hfits
      have hc := Piece.pieces_of_fits (p := .stray c) hnone
      rw [htext] at hp
      exact (List.cons.inj (hp.symm.trans hc)).1

/-- **Lexing is segmentation.**  Every text is made up of pieces that fit, in exactly
one way, and its lexemes are the tokens and stray characters among them, each with the
offsets of its slice. -/
theorem lexemes_segmented (source : String) :
    ∃ ps, Segmented source.toList ps ∧ (∀ qs, Segmented source.toList qs → qs = ps) ∧
      LexedAs source ps := by
  have hps := segmented_iff.mpr (rfl : pieces source.toList = pieces source.toList)
  exact ⟨_, hps, fun qs hqs => segmented_iff.mp hqs, hps.lexedAs⟩

/-- A reserved word that goes on, a lone dash, a letter of two bytes, a comment that
holds a mark and the start of another comment, and a reserved word at the end. -/
def crowdedText : String := "use1-é--(#\nuse"

def crowdedPieces : List Piece :=
  [.token (.ident "use1"), .stray '-', .stray 'é', .comment ['-', '-', '(', '#'], .blank ['\n'],
    .token (.keyword .use)]

/-- The letter takes up two bytes, and what the comment holds is no lexeme. -/
theorem crowdedText_segmented :
    Segmented crowdedText.toList crowdedPieces ∧
      (∀ qs, Segmented crowdedText.toList qs → qs = crowdedPieces) ∧
      LexedAs crowdedText crowdedPieces ∧
      (lexemes crowdedText).map (fun l => (l.mark.text, l.start, l.stop)) =
        [("use1", 0, 4), ("-", 4, 5), ("é", 5, 7), ("use", 12, 15)] := by
  have hpieces : crowdedPieces = pieces crowdedText.toList := by decide +kernel
  obtain ⟨ps, hps, hunique, hlexed⟩ := lexemes_segmented crowdedText
  obtain rfl := hunique crowdedPieces (segmented_iff.mpr hpieces)
  refine ⟨hps, hunique, hlexed, ?_⟩
  rw [lexemes, ← hpieces]
  decide +kernel

end Asdl
