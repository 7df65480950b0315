/-
Errors are reported at the first possible place.

A list of tokens is viable if some schema begins with it.  The reader takes exactly
the viable lists, so the token that it refuses is the first one after which no schema
can follow:

* `Grammar.Viable`, `Grammar.SpoiledAt` — beginnings of schemas, and the token that
  makes a list one no longer;
* `Reader.State.ending`, `Reader.exists_spells_ending` — how the text may go on from
  each state;
* `Reader.viable_iff_run` — the reader takes exactly the viable lists;
* `Reader.read_eq_unexpected`, `read_eq_trailing`, `read_eq_ended` — each kind of
  error in terms of the grammar;
* `Schema.parse_reportsEarliest` — the same for texts, with the stray characters.

Design notes: what a state has read so far does not matter for how it can go on, so
every state has an ending, reachable or not.  Only the open maps of a type have to be
closed one by one.
-/
import Asdl.Proofs.Writing

namespace Asdl

/-! ### Beginnings of schemas -/

namespace Grammar

/-- Some schema begins with these tokens. -/
def Viable (ts : List Token) : Prop := ∃ more s, IsSchema (ts ++ more) s

/-- The first `k` tokens are viable, and with one more they are not. -/
def SpoiledAt (ts : List Token) (k : Nat) : Prop := Viable (ts.take k) ∧ ¬ Viable (ts.take (k + 1))

theorem Viable.of_isPrefix {ts us : List Token} (h : Viable us) (hts : ts <+: us) : Viable ts := by
  obtain ⟨vs, rfl⟩ := hts
  obtain ⟨more, s, hs⟩ := h
  exact ⟨vs ++ more, s, by rwa [← List.append_assoc]⟩

/-- A list is spoiled at one place only. -/
theorem SpoiledAt.unique {ts : List Token} {k l : Nat} (hk : SpoiledAt ts k)
    (hl : SpoiledAt ts l) : k = l := by
  have hle : ∀ {i j : Nat}, SpoiledAt ts i → SpoiledAt ts j → ¬ i < j := by
    intro i j hi hj hij
    exact hi.2 (hj.1.of_isPrefix (List.take_prefix_take_left (by omega)))
  have hkl := hle hk hl
  have hlk := hle hl hk
  omega

end Grammar

namespace Reader

open Grammar

/-! ### Runs -/

/-- The state after some tokens, unless one of them is refused. -/
def State.run (st : State) (ts : List Token) : Option State := ts.foldlM State.step st

theorem run_append {st : State} (ts us : List Token) :
    st.run (ts ++ us) = (st.run ts).bind fun next => next.run us := List.foldlM_append

theorem spells_append {st : State} {s : Schema} {ts us : List Token} :
    st.Spells s (ts ++ us) ↔ ∃ next, st.run ts = some next ∧ next.Spells s us := by
  induction ts generalizing st with
  | nil => simp [State.run]
  | cons t ts ih =>
    rw [List.cons_append, spells_cons]
    cases hstep : st.step t with
    | none => simp [State.run, hstep]
    | some next => simpa [State.run, hstep] using ih

theorem isSchema_iff_run {ts : List Token} {s : Schema} :
    IsSchema ts s ↔ (State.start []).run ts = some (.complete s) := by
  rw [← spells_iff_isSchema]
  have h := @spells_append (.start []) s ts []
  simpa using h

/-! ### Endings -/

/-- A name that any name could stand for. -/
def anyName : Token := .ident "x"

/-- What closes the maps that wait for a type. -/
def closeHoles : List Hole → List Token
  | [] => []
  | .key :: holes => .punct .comma :: anyName :: .punct .rbracket :: closeHoles holes
  | .value _ :: holes => .punct .rbracket :: closeHoles holes

/-- How the text may go on from a place inside the module. -/
def Place.ending : Place → List Token
  | .definition => [.punct .rbrace]
  | .equals _ => [.punct .equal, anyName, .punct .rbrace]
  | .rightSide _ => [anyName, .punct .rbrace]
  | .variant _ => [anyName, .punct .rbrace]
  | .sharedName _ _ => [anyName, .punct .rbrace]
  | .variantName _ _ => [.punct .rbrace]
  | .variantEnd _ => [.punct .rbrace]
  | .productEnd _ _ => [.punct .rbrace]
  | .fieldsOpen _ => [.punct .lparen, .punct .rparen, .punct .rbrace]
  | .fieldsFirst _ => [.punct .rparen, .punct .rbrace]
  | .type _ _ holes => anyName :: (closeHoles holes ++ [anyName, .punct .rparen, .punct .rbrace])
  | .typeName _ _ holes _ => closeHoles holes ++ [anyName, .punct .rparen, .punct .rbrace]
  | .typeEnd _ _ holes _ => closeHoles holes ++ [anyName, .punct .rparen, .punct .rbrace]
  | .fieldEnd _ _ => [.punct .rparen, .punct .rbrace]

/-- The tokens of a module without definitions. -/
def emptyModule : List Token := [.keyword .module, anyName, .punct .lbrace, .punct .rbrace]

/-- How the text may go on from a state. -/
def State.ending : State → List Token
  | .start _ => emptyModule
  | .segment _ _ => [anyName, .punct .lbrace, anyName, .punct .rbrace] ++ emptyModule
  | .segmentEnd _ _ => [.punct .lbrace, anyName, .punct .rbrace] ++ emptyModule
  | .imported _ _ _ => [anyName, .punct .rbrace] ++ emptyModule
  | .importedEnd _ _ _ => .punct .rbrace :: emptyModule
  | .title _ => [anyName, .punct .lbrace, .punct .rbrace]
  | .opening _ _ => [.punct .lbrace, .punct .rbrace]
  | .body _ place => place.ending
  | .complete _ => []

section Endings

variable (d : Draft)

/-- Wherever a list of fields belongs, the module may end after it. -/
theorem exists_spells_closeFields (fields : List Field) (owner : Owner) :
    ∃ s, (closeFields d fields owner).Spells s [.punct .rbrace] := by
  cases owner <;> exact ⟨_, _, rfl, rfl⟩

/-- A complete type may be followed by what closes the maps around it and the name of
the field. -/
theorem exists_completes_endType (owner : Owner) (fields : List Field) (holes : List Hole)
    (type : TypeExpr) :
    ∃ s, Completes (endType d owner fields holes type) s
      (closeHoles holes ++ [anyName, .punct .rparen, .punct .rbrace]) := by
  -- the innermost map is closed first, and the type at hand grows by it
  induction holes generalizing type with
  | nil =>
    obtain ⟨s, hs⟩ := exists_spells_closeFields d ((⟨"x", type⟩ :: fields).reverse) owner
    exact ⟨s, _, rfl, _, rfl, hs⟩
  | cons hole holes ih =>
    cases hole with
    | key =>
      obtain ⟨s, hs⟩ := ih (.map type (.named "x" .scalar))
      rw [← spells_typeEnd] at hs
      exact ⟨s, _, rfl, _, rfl, _, rfl, hs⟩
    | value key =>
      obtain ⟨s, hs⟩ := ih (.map key type)
      rw [← spells_typeEnd] at hs
      exact ⟨s, _, rfl, hs⟩

theorem exists_spells_place (p : Place) : ∃ s, (State.body d p).Spells s p.ending := by
  -- every place has an ending that starts from it; inside of fields and types it first has
  -- to close what is open there
  cases p with
  | definition => exact ⟨_, _, rfl, rfl⟩
  | equals name => exact ⟨_, _, rfl, _, rfl, _, rfl, rfl⟩
  | rightSide name => exact ⟨_, _, rfl, _, rfl, rfl⟩
  | variant sum => exact ⟨_, _, rfl, _, rfl, rfl⟩
  | sharedName sum own => exact ⟨_, _, rfl, _, rfl, rfl⟩
  | variantName sum own => exact ⟨_, _, rfl, rfl⟩
  | variantEnd sum => exact ⟨_, _, rfl, rfl⟩
  | productEnd name fields => exact ⟨_, _, rfl, rfl⟩
  | fieldsOpen owner =>
    obtain ⟨s, hs⟩ := exists_spells_closeFields d [] owner
    exact ⟨s, _, rfl, _, rfl, hs⟩
  | fieldsFirst owner =>
    obtain ⟨s, hs⟩ := exists_spells_closeFields d [] owner
    exact ⟨s, _, rfl, hs⟩
  | type owner fields holes =>
    obtain ⟨s, hs⟩ := exists_completes_endType d owner fields holes (.named "x" .scalar)
    exact ⟨s, _, rfl, spells_typeName.mpr (.inl hs)⟩
  | typeName owner fields holes name =>
    obtain ⟨s, hs⟩ := exists_completes_endType d owner fields holes (.named name .scalar)
    exact ⟨s, spells_typeName.mpr (.inl hs)⟩
  | typeEnd owner fields holes full =>
    obtain ⟨s, hs⟩ := exists_completes_endType d owner fields holes full
    exact ⟨s, by rwa [spells_typeEnd]⟩
  | fieldEnd owner fields =>
    obtain ⟨s, hs⟩ := exists_spells_closeFields d fields.reverse owner
    exact ⟨s, _, rfl, hs⟩

end Endings

/-- **From every state the text can go on to a schema.** -/
theorem exists_spells_ending (st : State) : ∃ s, st.Spells s st.ending := by
  cases st with
  | start uses => exact ⟨_, _, rfl, _, rfl, _, rfl, _, rfl, rfl⟩
  | segment uses path =>
    exact ⟨_, _, rfl, _, rfl, _, rfl, _, rfl, _, rfl, _, rfl, _, rfl, _, rfl, rfl⟩
  | segmentEnd uses path => exact ⟨_, _, rfl, _, rfl, _, rfl, _, rfl, _, rfl, _, rfl, _, rfl, rfl⟩
  | imported uses path names => exact ⟨_, _, rfl, _, rfl, _, rfl, _, rfl, _, rfl, _, rfl, rfl⟩
  | importedEnd uses path names => exact ⟨_, _, rfl, _, rfl, _, rfl, _, rfl, _, rfl, rfl⟩
  | title uses => exact ⟨_, _, rfl, _, rfl, _, rfl, rfl⟩
  | opening uses name => exact ⟨_, _, rfl, _, rfl, rfl⟩
  | body d p => exact exists_spells_place d p
  | complete s => exact ⟨s, rfl⟩

theorem all_isWritable_closeHoles (holes : List Hole) :
    (closeHoles holes).all Token.isWritable = true := by
  induction holes with
  | nil => rfl
  | cons hole holes ih =>
    -- what closes one map is writable by computation
    cases hole <;> exact ih

/-- Endings can stand in a text. -/
theorem all_isWritable_ending (st : State) : st.ending.all Token.isWritable = true := by
  have hfield : ∀ holes, (closeHoles holes ++ [anyName, .punct .rparen, .punct .rbrace]).all
      Token.isWritable = true := by
    intro holes
    rw [List.all_append, all_isWritable_closeHoles]
    rfl
  cases st with
  | body d p =>
    cases p with
    | type owner fields holes => exact hfield holes
    | typeName owner fields holes name => exact hfield holes
    | typeEnd owner fields holes full => exact hfield holes
    | _ => rfl
  | _ => rfl

/-- **The reader takes exactly the viable lists.** -/
theorem viable_iff_run {ts : List Token} : Viable ts ↔ ∃ st, (State.start []).run ts = some st := by
  constructor
  · rintro ⟨more, s, hs⟩
    obtain ⟨st, hst, -⟩ := spells_append.mp (spells_iff_isSchema.mpr hs)
    exact ⟨st, hst⟩
  · rintro ⟨st, hst⟩
    obtain ⟨s, hs⟩ := exists_spells_ending st
    exact ⟨st.ending, s, spells_iff_isSchema.mp (spells_append.mpr ⟨st, hst, hs⟩)⟩

/-! ### Errors -/

/-- Reading fails at the end or at a token that the state there refuses. -/
theorem read_eq_error {st : State} {ts : List Located} {e : ParseError} :
    st.read ts = .error e ↔
      (∃ last, st.run (ts.map Located.token) = some last ∧ last.finish = .error e) ∨
      ∃ k t last, ts[k]? = some t ∧ st.run ((ts.map Located.token).take k) = some last ∧
        last.step t.token = none ∧ last.refusal t = e := by
  induction ts generalizing st with
  | nil => simp [State.read, State.run]
  | cons u ts ih =>
    rw [State.read]
    cases hstep : st.step u.token with
    | none =>
      -- no later token can be the refused one
      constructor
      · intro h
        exact .inr ⟨0, u, st, rfl, rfl, hstep, Except.error.inj h⟩
      · rintro (⟨last, hrun, -⟩ | ⟨k, t, last, ht, hrun, -, he⟩)
        · simp [State.run, hstep] at hrun
        · cases k with
          | zero =>
            cases ht
            cases hrun
            rw [he]
          | succ k => simp [State.run, hstep] at hrun
    | some next =>
      have hrun : ∀ us, st.run (u.token :: us) = next.run us := by
        intro us
        simp [State.run, hstep]
      simp only [List.map_cons, hrun]
      rw [ih]
      refine or_congr .rfl ⟨?_, ?_⟩
      · rintro ⟨k, t, last, ht, hk, hrest⟩
        exact ⟨k + 1, t, last, ht, by rwa [List.take_succ_cons, hrun], hrest⟩
      · rintro ⟨k, t, last, ht, hk, hnone, he⟩
        cases k with
        | zero =>
          cases ht
          cases hk
          rw [hstep] at hnone
          cases hnone
        | succ k =>
          rw [List.take_succ_cons, hrun] at hk
          exact ⟨k, t, last, ht, hk, hnone, he⟩

theorem refusal_eq_unexpected {st : State} {t : Located} {expected found : String} {line : Nat} :
    st.refusal t = .unexpectedToken expected found line ↔
      (∀ r, st ≠ .complete r) ∧ st.wanted false = expected ∧ t.token.text = found ∧
        t.line = line := by
  cases st <;> simp [State.refusal]

theorem refusal_eq_trailing {st : State} {t : Located} {found : String} {line : Nat} :
    st.refusal t = .trailingInput found line ↔
      (∃ r, st = .complete r) ∧ t.token.text = found ∧ t.line = line := by
  cases st <;> simp [State.refusal]

theorem finish_eq_error {st : State} {e : ParseError} :
    st.finish = .error e ↔ (∀ r, st ≠ .complete r) ∧ e = .unexpectedEnd (st.wanted true) := by
  cases st <;> simp [State.finish, eq_comm]

theorem refusal_ne_ended {st : State} {t : Located} {expected : String} :
    st.refusal t ≠ .unexpectedEnd expected := by
  cases st <;> simp [State.refusal]

section Errors

variable {ts : List Located} {found : String} {line : Nat}

/-- A token is refused after the first `k` tokens iff it spoils them. -/
theorem refused_iff_spoiledAt {k : Nat} {t : Located} (ht : ts[k]? = some t) :
    (∃ last, (State.start []).run ((ts.map Located.token).take k) = some last ∧
        last.step t.token = none) ↔
      SpoiledAt (ts.map Located.token) k := by
  -- one token more is one more step of the run
  have htake : (ts.map Located.token).take (k + 1) =
      (ts.map Located.token).take k ++ [t.token] := by
    rw [List.take_add_one, List.getElem?_map, ht]
    rfl
  rw [SpoiledAt, viable_iff_run, viable_iff_run, htake]
  constructor
  · rintro ⟨last, hrun, hnone⟩
    refine ⟨⟨last, hrun⟩, ?_⟩
    rintro ⟨next, hnext⟩
    rw [run_append, hrun] at hnext
    simp [State.run, hnone] at hnext
  · rintro ⟨⟨last, hrun⟩, hspoiled⟩
    refine ⟨last, hrun, ?_⟩
    cases hstep : last.step t.token with
    | none => rfl
    | some next =>
      refine absurd ⟨next, ?_⟩ hspoiled
      rw [run_append, hrun]
      simp [State.run, hstep]

/-- The state after some tokens is complete iff they are a schema. -/
theorem complete_iff_isSchema {us : List Token} {last : State}
    (h : (State.start []).run us = some last) :
    (∃ r, last = .complete r) ↔ ∃ s, IsSchema us s := by
  simp only [isSchema_iff_run, h, Option.some.injEq]

/-- **An unexpected token is the one that spoils the tokens before it**, unless these
are a schema. -/
theorem read_eq_unexpected :
    (∃ expected, (State.start []).read ts = .error (.unexpectedToken expected found line)) ↔
      ∃ k t, ts[k]? = some t ∧ t.token.text = found ∧ t.line = line ∧
        SpoiledAt (ts.map Located.token) k ∧
        ¬ ∃ s, IsSchema ((ts.map Located.token).take k) s := by
  simp only [read_eq_error, finish_eq_error, refusal_eq_unexpected]
  constructor
  · rintro ⟨expected, ⟨last, -, -, he⟩ | ⟨k, t, last, ht, hrun, hnone, hopen, -, hfound, hline⟩⟩
    · cases he
    · refine ⟨k, t, ht, hfound, hline, (refused_iff_spoiledAt ht).mp ⟨last, hrun, hnone⟩, ?_⟩
      -- a refused token is unexpected, and not trailing, if nothing was complete before it
      rw [← complete_iff_isSchema hrun]
      rintro ⟨r, hr⟩
      exact hopen r hr
  · rintro ⟨k, t, ht, hfound, hline, hspoiled, hopen⟩
    obtain ⟨last, hrun, hnone⟩ := (refused_iff_spoiledAt ht).mpr hspoiled
    rw [← complete_iff_isSchema hrun] at hopen
    exact ⟨_, .inr ⟨k, t, last, ht, hrun, hnone, fun r hr => hopen ⟨r, hr⟩, rfl, hfound, hline⟩⟩

/-- **Trailing input is the token after a schema.** -/
theorem read_eq_trailing :
    (State.start []).read ts = .error (.trailingInput found line) ↔
      ∃ k t, ts[k]? = some t ∧ t.token.text = found ∧ t.line = line ∧
        SpoiledAt (ts.map Located.token) k ∧ ∃ s, IsSchema ((ts.map Located.token).take k) s := by
  simp only [read_eq_error, finish_eq_error, refusal_eq_trailing]
  constructor
  · rintro (⟨last, -, -, he⟩ | ⟨k, t, last, ht, hrun, hnone, hdone, hfound, hline⟩)
    · cases he
    · exact ⟨k, t, ht, hfound, hline, (refused_iff_spoiledAt ht).mp ⟨last, hrun, hnone⟩,
        (complete_iff_isSchema hrun).mp hdone⟩
  · rintro ⟨k, t, ht, hfound, hline, hspoiled, hdone⟩
    obtain ⟨last, hrun, hnone⟩ := (refused_iff_spoiledAt ht).mpr hspoiled
    exact .inr ⟨k, t, last, ht, hrun, hnone, (complete_iff_isSchema hrun).mpr hdone, hfound, hline⟩

/-- **The text ends too early** iff its tokens are viable but not a schema. -/
theorem read_eq_ended :
    (∃ expected, (State.start []).read ts = .error (.unexpectedEnd expected)) ↔
      (¬ ∃ s, IsSchema (ts.map Located.token) s) ∧ Viable (ts.map Located.token) := by
  simp only [read_eq_error, finish_eq_error, refusal_ne_ended, viable_iff_run]
  constructor
  · rintro ⟨expected, ⟨last, hrun, hopen, -⟩ | ⟨k, t, last, -, -, -, hfalse⟩⟩
    · refine ⟨?_, last, hrun⟩
      rw [← complete_iff_isSchema hrun]
      rintro ⟨r, hr⟩
      exact hopen r hr
    · exact hfalse.elim
  · rintro ⟨hopen, last, hrun⟩
    rw [← complete_iff_isSchema hrun] at hopen
    exact ⟨_, .inl ⟨last, hrun, fun r hr => hopen ⟨r, hr⟩, rfl⟩⟩

end Errors

end Reader

/-! ### Texts -/

namespace Schema

open Grammar

/-- The tokens of a text. -/
def tokensIn (source : String) : List Token := tokensOf (pieces source.toList)

/-- The token at place `k` of a text, counted from zero, and the line it starts on. -/
def TokenAt (source : String) (k : Nat) (t : Token) (line : Nat) : Prop :=
  ∃ before after, pieces source.toList = before ++ .token t :: after ∧
    (tokensOf before).length = k ∧ line = 1 + newlines before

/-- Which error is reported for a text. -/
structure ReportsEarliest (source : String) : Prop where
  /-- The first stray character comes before everything else. -/
  invalid : ¬ Clean (pieces source.toList) →
    ∃ before c after, pieces source.toList = before ++ .stray c :: after ∧ Clean before ∧
      Schema.parse source = .error (.invalidToken (String.singleton c) (1 + newlines before))
  /-- A token that spoils the tokens before it. -/
  unexpected : Clean (pieces source.toList) → ∀ found line,
    (∃ expected, Schema.parse source = .error (.unexpectedToken expected found line)) ↔
      ∃ k t, TokenAt source k t line ∧ t.text = found ∧ SpoiledAt (tokensIn source) k ∧
        ¬ ∃ s, IsSchema ((tokensIn source).take k) s
  /-- A token after a schema. -/
  trailing : Clean (pieces source.toList) → ∀ found line,
    Schema.parse source = .error (.trailingInput found line) ↔
      ∃ k t, TokenAt source k t line ∧ t.text = found ∧ SpoiledAt (tokensIn source) k ∧
        ∃ s, IsSchema ((tokensIn source).take k) s
  /-- The end of a text that could go on. -/
  ended : Clean (pieces source.toList) →
    ((∃ expected, Schema.parse source = .error (.unexpectedEnd expected)) ↔
      (¬ ∃ s, IsSchema (tokensIn source) s) ∧ Viable (tokensIn source))
  /-- At most one token spoils the tokens before it. -/
  once : ∀ k l, SpoiledAt (tokensIn source) k → SpoiledAt (tokensIn source) l → k = l
  /-- Viable tokens can be completed by a text. -/
  completed : ∀ ts, Viable ts →
    ∃ more s, Clean (pieces more.toList) ∧ IsSchema (ts ++ tokensIn more) s

theorem exists_located {source : String} {found : String} {line : Nat} {P : Nat → Prop} :
    (∃ k t, (locate 1 (pieces source.toList))[k]? = some t ∧ t.token.text = found ∧
        t.line = line ∧ P k) ↔
      ∃ k t, TokenAt source k t line ∧ t.text = found ∧ P k := by
  simp only [getElem?_locate]
  constructor
  · rintro ⟨k, ⟨t, _⟩, ht, hfound, rfl, hk⟩
    exact ⟨k, t, ht, hfound, hk⟩
  · rintro ⟨k, t, ht, hfound, hk⟩
    exact ⟨k, ⟨t, line⟩, ht, hfound, rfl, hk⟩

theorem exists_completion {ts : List Token} (h : Viable ts) :
    ∃ more s, Clean (pieces more.toList) ∧ IsSchema (ts ++ tokensIn more) s := by
  obtain ⟨st, hst⟩ := Reader.viable_iff_run.mp h
  obtain ⟨s, hs⟩ := Reader.exists_spells_ending st
  have hwritable := List.all_eq_true.mp (Reader.all_isWritable_ending st)
  obtain ⟨hclean, htokens⟩ := tokensOf_spaced hwritable
  refine ⟨spaced st.ending, s, hclean, ?_⟩
  rw [tokensIn, htokens]
  exact Reader.spells_iff_isSchema.mp (Reader.spells_append.mpr ⟨st, hst, hs⟩)

/-- **Errors are reported at the first possible place**: a stray character before
anything else, then the first token after which no schema can follow, then the end. -/
theorem parse_reportsEarliest (source : String) : ReportsEarliest source where
  invalid := by
    intro hstray
    obtain ⟨before, c, after, hpieces, hbefore⟩ := exists_first_stray hstray
    exact ⟨before, c, after, hpieces, hbefore, parse_of_stray hpieces hbefore⟩
  unexpected := by
    intro hclean found line
    rw [parse_of_clean hclean, Reader.read_eq_unexpected, map_token_locate]
    exact exists_located
  trailing := by
    intro hclean found line
    rw [parse_of_clean hclean, Reader.read_eq_trailing, map_token_locate]
    exact exists_located
  ended := by
    intro hclean
    rw [parse_of_clean hclean, Reader.read_eq_ended, map_token_locate]
    rfl
  once := fun _ _ hk hl => hk.unique hl
  completed := fun _ => exists_completion

/-- A module that is closed twice. -/
def closedTwice : String := "module m \x7b \x7d\n\x7d"

/-- The second brace, on line 2, spoils what was a schema before it. -/
theorem closedTwice_trailing :
    Schema.parse closedTwice = .error (.trailingInput "\x7d" 2) ∧
      ∃ k t, TokenAt closedTwice k t 2 ∧ t.text = "\x7d" ∧ SpoiledAt (tokensIn closedTwice) k ∧
        ∃ s, IsSchema ((tokensIn closedTwice).take k) s := by
  have hpieces : pieces closedTwice.toList =
      [.token (.keyword .module), .blank [' '], .token (.ident "m"), .blank [' '],
        .token (.punct .lbrace), .blank [' '], .token (.punct .rbrace), .blank ['\n'],
        .token (.punct .rbrace)] := by decide +kernel
  have hclean : Clean (pieces closedTwice.toList) := by
    rw [hpieces]
    decide
  have hparse : Schema.parse closedTwice = .error (.trailingInput "\x7d" 2) := by
    rw [parse_of_clean hclean, hpieces]
    rfl
  exact ⟨hparse, ((parse_reportsEarliest closedTwice).trailing hclean _ _).mp hparse⟩

end Schema

end Asdl
