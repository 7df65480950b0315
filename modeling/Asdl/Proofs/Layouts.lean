/-
The layout of a schema text does not matter.

The same tokens can be written with any blanks and comments between them.  All these
texts have the same lexemes, and reading them has the same outcome, but for the line
that an error names:

* `ParseError.atLine`, `SameButNumber` — an error on another line, and texts that
  differ in one number;
* `SameButLine` — outcomes of reading that differ in one line number at most;
* `Reader.sameButLine_read` — the lines of tokens matter to nothing but errors;
* `Schema.parse_anyLayout` — any two layouts of some tokens are read alike.

Design notes: that tokens are found again in every layout is `marks_layout`; what is
left is that the reader looks at tokens only.
-/
import Asdl.Proofs.Segmentation
import Asdl.Proofs.Writing

namespace Asdl

/-! ### Errors on other lines -/

/-- The same error on another line, if it names one. -/
def ParseError.atLine (line : Nat) : ParseError → ParseError
  | invalidToken text _ => invalidToken text line
  | unexpectedToken expected found _ => unexpectedToken expected found line
  | unexpectedEnd expected => unexpectedEnd expected
  | trailingInput found _ => trailingInput found line

/-- Texts that are equal, or differ in a number at one place. -/
inductive SameButNumber : String → String → Prop where
  | equal (text : String) : SameButNumber text text
  | number (front back : String) (m n : Nat) :
      SameButNumber (front ++ m.repr ++ back) (front ++ n.repr ++ back)

theorem sameButNumber_message (e : ParseError) (line : Nat) :
    SameButNumber e.message (e.atLine line).message := by
  cases e with
  | unexpectedEnd expected => exact .equal _
  | trailingInput found l => exact .number _ _ l line
  | invalidToken text l =>
    have h := SameButNumber.number ("invalid token '" ++ text ++ "' at line ") "" l line
    rwa [String.append_empty, String.append_empty] at h
  | unexpectedToken expected found l =>
    have h := SameButNumber.number
      ("expected " ++ expected ++ ", found '" ++ found ++ "' at line ") "" l line
    rwa [String.append_empty, String.append_empty] at h

/-- Outcomes of reading that are the same schema, or errors of one kind and one text
apart from a line number. -/
inductive SameButLine : Except ParseError Schema → Except ParseError Schema → Prop where
  | schema (s : Schema) : SameButLine (.ok s) (.ok s)
  | error {e e' : ParseError} : (∃ line, e' = e.atLine line) →
      SameButNumber e.message e'.message → SameButLine (.error e) (.error e')

theorem sameButLine_atLine (e : ParseError) (line : Nat) :
    SameButLine (.error e) (.error (e.atLine line)) :=
  .error ⟨line, rfl⟩ (sameButNumber_message e line)

/-! ### Readers and lines -/

namespace Reader

theorem sameButLine_finish (st : State) : SameButLine st.finish st.finish := by
  cases st with
  | complete s => exact .schema s
  | _ => exact sameButLine_atLine (.unexpectedEnd _) 0

/-- The token decides about the error, the line goes into it. -/
theorem refusal_atLine (st : State) (t : Token) (line line' : Nat) :
    st.refusal ⟨t, line'⟩ = (st.refusal ⟨t, line⟩).atLine line' := by
  cases st <;> rfl

/-- **Reading looks at tokens only**: with other lines the outcome differs in a line
number at most. -/
theorem sameButLine_read {st : State} {ts us : List Located}
    (h : ts.map Located.token = us.map Located.token) : SameButLine (st.read ts) (st.read us) := by
  induction ts generalizing st us with
  | nil =>
    obtain rfl := List.map_eq_nil_iff.mp h.symm
    exact sameButLine_finish st
  | cons t ts ih =>
    obtain ⟨u, us, rfl, htoken, hrest⟩ := List.map_eq_cons_iff.mp h.symm
    obtain ⟨token, line⟩ := t
    obtain ⟨token', line'⟩ := u
    obtain rfl : token' = token := htoken
    rw [State.read, State.read]
    -- a step depends on the token alone; the line counts only when it is refused
    cases hstep : st.step token' with
    | some next => exact ih hrest.symm
    | none =>
      show SameButLine (.error (st.refusal ⟨token', line⟩)) (.error (st.refusal ⟨token', line'⟩))
      rw [refusal_atLine st token' line line']
      exact sameButLine_atLine _ _

end Reader

/-! ### Layouts -/

namespace Schema

variable {lead lead' : List Char} {items items' : List (Token × List Char)}

/-- A layout of tokens is read by its tokens alone. -/
theorem exists_parse_layout (h : WellSpaced lead items)
    (hwritable : ∀ x ∈ items, x.1.isWritable = true) :
    ∃ ts, Schema.parse (.ofList (layout lead items)) = (Reader.State.start []).read ts ∧
      ts.map Located.token = items.map Prod.fst := by
  obtain ⟨hclean, htokens⟩ := marks_eq_map_token.mp (marks_layout h hwritable)
  rw [← String.toList_ofList (l := layout lead items)] at hclean htokens
  exact ⟨_, parse_of_clean hclean, by rw [map_token_locate, htokens]⟩

/-- **The layout of a text does not matter.**  Tokens that are laid out in any way are
the lexemes of the text, and any two layouts of the same tokens are read as the same
schema, or refused with the same error but for the line it names. -/
theorem parse_anyLayout :
    (∀ (lead : List Char) (items : List (Token × List Char)), WellSpaced lead items →
      (∀ x ∈ items, x.1.isWritable = true) →
        (lexemes (.ofList (layout lead items))).map Lexeme.mark =
          items.map fun x => .token x.1) ∧
    ∀ (lead lead' : List Char) (items items' : List (Token × List Char)),
      WellSpaced lead items → WellSpaced lead' items' → (∀ x ∈ items, x.1.isWritable = true) →
      items.map Prod.fst = items'.map Prod.fst →
        SameButLine (Schema.parse (.ofList (layout lead items)))
          (Schema.parse (.ofList (layout lead' items'))) := by
  constructor
  · intro lead items hspaced hwritable
    rw [lexemes, map_mark_place, String.toList_ofList, marks_layout hspaced hwritable, List.map_map]
    rfl
  · intro lead lead' items items' hspaced hspaced' hwritable hsame
    have hwritable' : ∀ x ∈ items', x.1.isWritable = true := by
      intro x hx
      have hmem : x.1 ∈ items.map Prod.fst := hsame ▸ List.mem_map_of_mem hx
      obtain ⟨y, hy, hxy⟩ := List.mem_map.mp hmem
      rw [← hxy]
      exact hwritable y hy
    -- both texts are read from the same tokens, which differ in their lines only
    obtain ⟨ts, hread, hts⟩ := exists_parse_layout hspaced hwritable
    obtain ⟨us, hread', hus⟩ := exists_parse_layout hspaced' hwritable'
    rw [hread, hread']
    exact Reader.sameButLine_read (by rw [hts, hus, hsame])

/-- A module that is closed twice, on one line. -/
def crammedItems : List (Token × List Char) :=
  [(.keyword .module, [' ']), (.ident "m", []), (.punct .lbrace, []), (.punct .rbrace, []),
    (.punct .rbrace, [])]

/-- The same tokens on several lines, with comments that hold a mark, dashes and a
carriage return. -/
def sprawlingItems : List (Token × List Char) :=
  [(.keyword .module, ['-', '-', '#', '\n']), (.ident "m", ['\n']), (.punct .lbrace, ['\t']),
    (.punct .rbrace, ['#', '\r', '-', '-', '\n', ' ']), (.punct .rbrace, [])]

/-- Both are refused because of the second brace, which stands on different lines. -/
theorem sprawlingItems_sameButLine :
    WellSpaced [] crammedItems ∧ WellSpaced ['#', '\x7d', '\n'] sprawlingItems ∧
      (lexemes (.ofList (layout ['#', '\x7d', '\n'] sprawlingItems))).map Lexeme.mark =
        sprawlingItems.map (fun x => .token x.1) ∧
      SameButLine (Schema.parse (.ofList (layout [] crammedItems)))
        (Schema.parse (.ofList (layout ['#', '\x7d', '\n'] sprawlingItems))) ∧
      Schema.parse (.ofList (layout [] crammedItems)) = .error (.trailingInput "\x7d" 1) ∧
      Schema.parse (.ofList (layout ['#', '\x7d', '\n'] sprawlingItems)) =
        .error (.trailingInput "\x7d" 5) := by
  obtain ⟨hlexed, halike⟩ := parse_anyLayout
  have hblank : ∀ c, isBlank c = true → Separator [c] := fun c hc => .blank hc .nil
  have hcrammed : WellSpaced [] crammedItems := by
    refine ⟨.nil, ?_, by decide⟩
    intro x hx
    simp only [crammedItems, List.mem_cons, List.not_mem_nil, or_false] at hx
    rcases hx with rfl | rfl | rfl | rfl | rfl
    · exact hblank ' ' rfl
    all_goals exact .nil
  have hsprawling : WellSpaced ['#', '\x7d', '\n'] sprawlingItems := by
    refine ⟨@Separator.comment ['#'] ['\x7d'] [] (.inl rfl) (by decide) .nil, ?_, by decide⟩
    intro x hx
    simp only [sprawlingItems, List.mem_cons, List.not_mem_nil, or_false] at hx
    rcases hx with rfl | rfl | rfl | rfl | rfl
    · exact @Separator.comment ['-', '-'] ['#'] [] (.inr rfl) (by decide) .nil
    · exact hblank '\n' rfl
    · exact hblank '\t' rfl
    · exact @Separator.comment ['#'] ['\r', '-', '-'] [' '] (.inl rfl) (by decide) (hblank ' ' rfl)
    · exact .nil
  have hwritable : ∀ x ∈ sprawlingItems, x.1.isWritable = true := by decide +kernel
  refine ⟨hcrammed, hsprawling, hlexed _ _ hsprawling hwritable, ?_, ?_, ?_⟩
  · exact halike _ _ _ _ hcrammed hsprawling (by decide +kernel) rfl
  · decide +kernel
  · decide +kernel

end Schema

end Asdl
