/-
Writing a schema and reading it back.

* `Schema.isWritable` and the tests before it — the schemas that texts can spell;
* `Schema.tokens`, `Schema.text` — a schema written out;
* `Grammar.all_isWritable_of_isSchema` — a spelling consists of tokens that can stand
  in a text iff its schema is writable;
* `Grammar.isSchema_tokens` — a writable schema is spelled by its tokens;
* `Schema.parse_eq_ok` — reading a text, in terms of its tokens;
* `Schema.parse_inverts_writing` — which schemas are read from texts, and that a
  schema is read back from every text that spells it.

Design notes: a spelling is compared with its schema production by production, as an
equation between Booleans.  The factors of each test stand in the order of the
tokens, so most of these equations hold factor by factor.
-/
import Asdl.Proofs.Lexing
import Asdl.Proofs.Reading

namespace Asdl

/-! ### Schemas that can be written -/

def TypeExpr.isWritable : TypeExpr → Bool
  | named name multiplicity => isIdentifier name && multiplicity != .map
  | map key value => key.isWritable && value.isWritable

def Field.isWritable (f : Field) : Bool := f.type.isWritable && isIdentifier f.name

/-- A variant that shares a product has no fields. -/
def Variant.isWritable (v : Variant) : Bool :=
  isIdentifier v.name && v.fields.all Field.isWritable &&
    match v.shared with
    | some product => isIdentifier product && v.fields.isEmpty
    | none => true

/-- A sum has variants. -/
def Definition.isWritable : Definition → Bool
  | sum s => isIdentifier s.name && (!s.variants.isEmpty && s.variants.all Variant.isWritable) &&
      s.attributes.all Field.isWritable
  | product p => isIdentifier p.name && p.fields.all Field.isWritable &&
      p.attributes.all Field.isWritable

/-- An import has a path and names something. -/
def Use.isWritable (u : Use) : Bool :=
  (!u.path.isEmpty && u.path.all isIdentifier) && (!u.names.isEmpty && u.names.all isIdentifier)

def Schema.isWritable (s : Schema) : Bool :=
  s.uses.all Use.isWritable && isIdentifier s.name && s.definitions.all Definition.isWritable

/-! ### Schemas as tokens -/

/-- Lists of tokens with a mark between them. -/
def joined (mark : Punct) : List (List Token) → List Token
  | [] => []
  | [ts] => ts
  | ts :: rest => ts ++ .punct mark :: joined mark rest

def Multiplicity.tokens : Multiplicity → List Token
  | optional => [.punct .question]
  | repeated => [.punct .star]
  | scalar => []
  | map => [] -- has no spelling

def TypeExpr.tokens : TypeExpr → List Token
  | named name multiplicity => .ident name :: multiplicity.tokens
  | map key value =>
    [.ident "map", .punct .lbracket] ++ key.tokens ++ [.punct .comma] ++ value.tokens ++
      [.punct .rbracket]

def Field.tokens (f : Field) : List Token := f.type.tokens ++ [.ident f.name]

/-- Fields in their parentheses. -/
def fieldTokens (fields : List Field) : List Token :=
  [.punct .lparen] ++ joined .comma (fields.map Field.tokens) ++ [.punct .rparen]

/-- The attributes at the end of a definition, if there are any. -/
def attributeTokens (attributes : List Field) : List Token :=
  if attributes.isEmpty then [] else .keyword .attributes :: fieldTokens attributes

def Variant.tokens (v : Variant) : List Token :=
  match v.shared with
  | some product => [.ident v.name, .punct .percent, .ident product]
  | none => .ident v.name :: if v.fields.isEmpty then [] else fieldTokens v.fields

def Definition.tokens : Definition → List Token
  | sum s => [.ident s.name, .punct .equal] ++ joined .pipe (s.variants.map Variant.tokens) ++
      attributeTokens s.attributes
  | product p => [.ident p.name, .punct .equal] ++ fieldTokens p.fields ++
      attributeTokens p.attributes

def Use.tokens (u : Use) : List Token :=
  [.keyword .use] ++ joined .dot (u.path.map fun n => [.ident n]) ++ [.punct .lbrace] ++
    joined .comma (u.names.map fun n => [.ident n]) ++ [.punct .rbrace]

def Schema.tokens (s : Schema) : List Token :=
  s.uses.flatMap Use.tokens ++ [.keyword .module, .ident s.name, .punct .lbrace] ++
    s.definitions.flatMap Definition.tokens ++ [.punct .rbrace]

/-- The text of some tokens, with a blank after each. -/
def spaced (ts : List Token) : String := .ofList (layout [] (ts.map (·, [' '])))

/-- The schema written out. -/
def Schema.text (s : Schema) : String := spaced s.tokens

namespace Grammar

/-! ### Spellings of writable values -/

section Lists

variable {α : Type} {mark : Punct} {item : Phrase α} {writable : α → Bool}

theorem isEmpty_of_separated {ts : List Token} {as : List α} (h : Separated mark item ts as) :
    as.isEmpty = false := by
  cases h <;> rfl

/-- The tokens of items with marks between them, if this is known of single items. -/
theorem all_isWritable_of_separated
    (hitem : ∀ ts a, item ts a → ts.all Token.isWritable = writable a) {ts : List Token}
    {as : List α} (h : Separated mark item ts as) : ts.all Token.isWritable = as.all writable := by
  induction h with
  | one ha => rw [hitem _ _ ha, List.all_cons, List.all_nil, Bool.and_true]
  | more ha _ ih =>
    have hmark : (Token.punct mark).isWritable = true := rfl
    rw [List.all_append, List.all_cons, hmark, hitem _ _ ha, ih, List.all_cons, Bool.true_and]

theorem all_isWritable_of_repeated
    (hitem : ∀ ts a, item ts a → ts.all Token.isWritable = writable a) {ts : List Token}
    {as : List α} (h : Repeated item ts as) : ts.all Token.isWritable = as.all writable := by
  induction h with
  | nil => rfl
  | cons ha _ ih => rw [List.all_append, List.all_cons, hitem _ _ ha, ih]

theorem separated_joined {f : α → List Token} {as : List α} (hne : as ≠ [])
    (hitem : ∀ a ∈ as, item (f a) a) : Separated mark item (joined mark (as.map f)) as := by
  induction as with
  | nil => exact absurd rfl hne
  | cons a as ih =>
    have ha := hitem a List.mem_cons_self
    cases as with
    | nil => exact .one ha
    | cons b as =>
      exact .more ha (ih (by simp) fun c hc => hitem c (List.mem_cons_of_mem _ hc))

theorem repeated_flatMap {f : α → List Token} {as : List α} (hitem : ∀ a ∈ as, item (f a) a) :
    Repeated item (as.flatMap f) as := by
  induction as with
  | nil => exact .nil
  | cons a as ih =>
    rw [List.flatMap_cons]
    exact .cons (hitem a List.mem_cons_self) (ih fun b hb => hitem b (List.mem_cons_of_mem _ hb))

end Lists

variable {ts : List Token}

theorem all_isWritable_of_isType {type : TypeExpr} (h : IsType ts type) :
    ts.all Token.isWritable = type.isWritable := by
  induction h with
  | scalar name => rfl
  | optional name => rfl
  | repeated name => rfl
  | map _ _ ihkey ihvalue =>
    have hmap : (Token.ident "map").isWritable = true := by rfl
    simp only [List.all_append, List.all_cons, List.all_nil, ihkey, ihvalue, hmap,
      TypeExpr.isWritable]
    simp [Token.isWritable]

theorem all_isWritable_of_isField {f : Field} (h : IsField ts f) :
    ts.all Token.isWritable = f.isWritable := by
  obtain ⟨name, htype⟩ := h
  rw [List.all_append, all_isWritable_of_isType htype, Field.isWritable, List.all_cons,
    List.all_nil, Bool.and_true]
  rfl

theorem all_isWritable_of_isFields {fields : List Field} (h : IsFields ts fields) :
    ts.all Token.isWritable = fields.all Field.isWritable := by
  cases h with
  | none => rfl
  | some hsep =>
    have hfields := all_isWritable_of_separated (fun _ _ h => all_isWritable_of_isField h) hsep
    simp [Token.isWritable, hfields]

theorem all_isWritable_of_isAttributes {attributes : List Field} (h : IsAttributes ts attributes) :
    ts.all Token.isWritable = attributes.all Field.isWritable := by
  cases h with
  | none => rfl
  | some hfields =>
    rw [List.all_cons, all_isWritable_of_isFields hfields]
    rfl

theorem all_isWritable_of_isConstructor {v : Variant} (h : IsConstructor ts v) :
    ts.all Token.isWritable = v.isWritable := by
  cases h with
  | bare name => simp [Variant.isWritable, Token.isWritable]
  | fields name hfields =>
    simp [Variant.isWritable, Token.isWritable, all_isWritable_of_isFields hfields]
  | shared name product => simp [Variant.isWritable, Token.isWritable]
  | nameless product => simp [Variant.isWritable, Token.isWritable]

theorem all_isWritable_of_isDefinition {d : Definition} (h : IsDefinition ts d) :
    ts.all Token.isWritable = d.isWritable := by
  cases h with
  | product name hfields hattributes =>
    simp [Definition.isWritable, Token.isWritable, all_isWritable_of_isFields hfields,
      all_isWritable_of_isAttributes hattributes, Bool.and_assoc]
  | sum name hvariants hattributes =>
    have hne := isEmpty_of_separated hvariants
    have hall := all_isWritable_of_separated
      (fun _ _ h => all_isWritable_of_isConstructor h) hvariants
    simp [Definition.isWritable, Token.isWritable, hne, hall,
      all_isWritable_of_isAttributes hattributes, Bool.and_assoc]

theorem all_isWritable_of_isName {name : String} (h : IsName ts name) :
    ts.all Token.isWritable = isIdentifier name := by
  obtain ⟨name⟩ := h
  exact Bool.and_true _

theorem all_isWritable_of_isUse {u : Use} (h : IsUse ts u) :
    ts.all Token.isWritable = u.isWritable := by
  obtain ⟨hpath, hnames⟩ := h
  have hpathWords := all_isWritable_of_separated (fun _ _ h => all_isWritable_of_isName h) hpath
  have hnameWords := all_isWritable_of_separated (fun _ _ h => all_isWritable_of_isName h) hnames
  simp [Use.isWritable, Token.isWritable, isEmpty_of_separated hpath, isEmpty_of_separated hnames,
    hpathWords, hnameWords]

/-- **A spelling can stand in a text iff its schema is writable.** -/
theorem all_isWritable_of_isSchema {s : Schema} (h : IsSchema ts s) :
    ts.all Token.isWritable = s.isWritable := by
  obtain ⟨name, huses, hdefinitions⟩ := h
  have hall := all_isWritable_of_repeated (fun _ _ h => all_isWritable_of_isUse h) huses
  have hbodies :=
    all_isWritable_of_repeated (fun _ _ h => all_isWritable_of_isDefinition h) hdefinitions
  simp [Schema.isWritable, Token.isWritable, hall, hbodies, Bool.and_assoc]

/-! ### The spelling by tokens -/

theorem isType_tokens {type : TypeExpr} (h : type.isWritable = true) : IsType type.tokens type := by
  induction type with
  | named name multiplicity =>
    cases multiplicity with
    | scalar => exact .scalar name
    | optional => exact .optional name
    | repeated => exact .repeated name
    | map => simp [TypeExpr.isWritable] at h
  | map key value ihkey ihvalue =>
    rw [TypeExpr.isWritable, Bool.and_eq_true] at h
    exact .map (ihkey h.1) (ihvalue h.2)

theorem isField_tokens {f : Field} (h : f.isWritable = true) : IsField f.tokens f := by
  rw [Field.isWritable, Bool.and_eq_true] at h
  exact .mk f.name (isType_tokens h.1)

theorem isFields_tokens {fields : List Field} (h : fields.all Field.isWritable = true) :
    IsFields (fieldTokens fields) fields := by
  by_cases hne : fields = []
  · subst hne
    exact .none
  · rw [List.all_eq_true] at h
    exact .some (separated_joined hne fun f hf => isField_tokens (h f hf))

theorem isAttributes_tokens {attributes : List Field}
    (h : attributes.all Field.isWritable = true) :
    IsAttributes (attributeTokens attributes) attributes := by
  rw [attributeTokens]
  by_cases hne : attributes = []
  · subst hne
    exact .none
  · rw [if_neg (by simpa using hne)]
    exact .some (isFields_tokens h)

theorem isConstructor_tokens {v : Variant} (h : v.isWritable = true) :
    IsConstructor v.tokens v := by
  obtain ⟨name, fields, shared⟩ := v
  simp only [Variant.isWritable, Bool.and_eq_true] at h
  obtain ⟨⟨-, hfields⟩, hshared⟩ := h
  cases shared with
  | some product =>
    simp only [Bool.and_eq_true, List.isEmpty_iff] at hshared
    obtain ⟨-, rfl⟩ := hshared
    exact .shared name product
  | none =>
    cases fields with
    | nil => exact .bare name
    | cons f fields => exact .fields name (isFields_tokens hfields)

theorem isDefinition_tokens {d : Definition} (h : d.isWritable = true) :
    IsDefinition d.tokens d := by
  cases d with
  | sum s =>
    simp only [Definition.isWritable, Bool.and_eq_true, Bool.not_eq_true', List.all_eq_true] at h
    obtain ⟨⟨-, hne, hvariants⟩, hattributes⟩ := h
    refine .sum s.name (separated_joined (by simpa using hne) fun v hv => ?_)
      (isAttributes_tokens (List.all_eq_true.mpr hattributes))
    exact isConstructor_tokens (hvariants v hv)
  | product p =>
    simp only [Definition.isWritable, Bool.and_eq_true] at h
    exact .product p.name (isFields_tokens h.1.2) (isAttributes_tokens h.2)

theorem isUse_tokens {u : Use} (h : u.isWritable = true) : IsUse u.tokens u := by
  simp only [Use.isWritable, Bool.and_eq_true, Bool.not_eq_true', List.isEmpty_eq_false_iff] at h
  exact .mk (separated_joined h.1.1 fun n _ => .mk n) (separated_joined h.2.1 fun n _ => .mk n)

/-- **A writable schema is spelled by its tokens.** -/
theorem isSchema_tokens {s : Schema} (h : s.isWritable = true) : IsSchema s.tokens s := by
  simp only [Schema.isWritable, Bool.and_eq_true, List.all_eq_true] at h
  obtain ⟨⟨huses, -⟩, hdefinitions⟩ := h
  exact .mk s.name (repeated_flatMap fun u hu => isUse_tokens (huses u hu))
    (repeated_flatMap fun d hd => isDefinition_tokens (hdefinitions d hd))

end Grammar

/-! ### Texts -/

/-- Tokens are well spaced if each is followed by the same separator. -/
theorem wellSpaced_map {sep : List Char} (h : Separator sep) (hne : sep ≠ []) (ts : List Token) :
    WellSpaced [] (ts.map (·, sep)) where
  lead := .nil
  follow := by
    intro x hx
    obtain ⟨t, -, rfl⟩ := List.mem_map.mp hx
    exact h
  apart := by
    rw [List.isChain_map, List.isChain_iff_getElem]
    intro i _ _ _
    exact hne

/-- Tokens are found again in their text. -/
theorem tokensOf_spaced {ts : List Token} (h : ∀ t ∈ ts, t.isWritable = true) :
    Clean (pieces (spaced ts).toList) ∧ tokensOf (pieces (spaced ts).toList) = ts := by
  have hfst : (ts.map (·, [' '])).map Prod.fst = ts := by simp [Function.comp_def]
  have hwritable : ∀ x ∈ ts.map (·, [' ']), x.1.isWritable = true := by simpa using h
  have hspaced := wellSpaced_map (.blank rfl .nil) (by simp : [' '] ≠ []) ts
  have hmarks := marks_eq_map_token.mp (marks_layout hspaced hwritable)
  rw [spaced, String.toList_ofList]
  rwa [hfst] at hmarks

namespace Schema

open Grammar

theorem parse_of_clean {source : String} (h : Clean (pieces source.toList)) :
    Schema.parse source = (Reader.State.start []).read (locate 1 (pieces source.toList)) := by
  rw [Schema.parse, tokenize_of_clean h]
  rfl

theorem parse_of_stray {source : String} {before after : List Piece} {c : Char}
    (hpieces : pieces source.toList = before ++ .stray c :: after) (h : Clean before) :
    Schema.parse source = .error (.invalidToken (String.singleton c) (1 + newlines before)) := by
  rw [Schema.parse, tokenize_of_stray hpieces h]
  rfl

/-- **A text is read as a schema** iff all of it is tokens, blanks and comments, and
the tokens spell the schema. -/
theorem parse_eq_ok {source : String} {s : Schema} :
    Schema.parse source = .ok s ↔
      Clean (pieces source.toList) ∧ IsSchema (tokensOf (pieces source.toList)) s := by
  by_cases hclean : Clean (pieces source.toList)
  · rw [parse_of_clean hclean, Reader.read_eq_ok, map_token_locate, Reader.spells_iff_isSchema]
    exact (and_iff_right hclean).symm
  · obtain ⟨before, c, after, hpieces, hbefore⟩ := exists_first_stray hclean
    rw [parse_of_stray hpieces hbefore]
    constructor
    · intro h
      cases h
    · rintro ⟨h, -⟩
      exact absurd h hclean

/-- Every spelling of a schema, in any layout, is read as the schema. -/
theorem parse_layout {s : Schema} {lead : List Char} {items : List (Token × List Char)}
    (hwritable : s.isWritable = true) (hspelling : IsSchema (items.map Prod.fst) s)
    (hspaced : WellSpaced lead items) : Schema.parse (.ofList (layout lead items)) = .ok s := by
  have hitems : ∀ x ∈ items, x.1.isWritable = true := by
    intro x hx
    rw [← all_isWritable_of_isSchema hspelling, List.all_eq_true] at hwritable
    exact hwritable x.1 (List.mem_map_of_mem hx)
  obtain ⟨hclean, htokens⟩ := marks_eq_map_token.mp (marks_layout hspaced hitems)
  rw [parse_eq_ok, String.toList_ofList, htokens]
  exact ⟨hclean, hspelling⟩

/-- **Reading inverts writing.**  The schemas that texts are read as are the writable
ones; a writable schema is read back from its own text, and from every other text
that spells it, however its tokens are laid out. -/
theorem parse_inverts_writing :
    (∀ s : Schema, (∃ source, Schema.parse source = .ok s) ↔ s.isWritable = true) ∧
    (∀ s : Schema, s.isWritable = true → Schema.parse s.text = .ok s) ∧
    ∀ (s : Schema) (lead : List Char) (items : List (Token × List Char)),
      s.isWritable = true → IsSchema (items.map Prod.fst) s → WellSpaced lead items →
        Schema.parse (.ofList (layout lead items)) = .ok s := by
  have htext : ∀ s : Schema, s.isWritable = true → Schema.parse s.text = .ok s := by
    intro s hs
    have hspelling := isSchema_tokens hs
    have htokens : s.tokens.all Token.isWritable = true :=
      (all_isWritable_of_isSchema hspelling).trans hs
    obtain ⟨hclean, htokens⟩ := tokensOf_spaced (List.all_eq_true.mp htokens)
    exact parse_eq_ok.mpr ⟨hclean, htokens.symm ▸ hspelling⟩
  refine ⟨fun s => ⟨?_, fun hs => ⟨s.text, htext s hs⟩⟩, htext, fun _ _ _ => parse_layout⟩
  -- the tokens of a text can stand in a text
  rintro ⟨source, hsource⟩
  rw [← all_isWritable_of_isSchema (parse_eq_ok.mp hsource).2, List.all_eq_true]
  exact fun t ht => isWritable_of_mem_tokensOf ht

/-- A module with a map inside a map, a type and a field that are called `map`, a
name that is defined twice, and a shared variant under a name of its own. -/
def wordyModule : Schema where
  name := "m"
  uses := [⟨["a", "_b1"], ["Id"]⟩]
  definitions := [
    .product ⟨"T", [⟨"map", .map (.named "int" .scalar) (.map (.named "map" .optional)
      (.named "Id" .repeated))⟩, ⟨"other", .named "map" .scalar⟩], []⟩,
    .sum ⟨"E", [⟨"A", [], none⟩, ⟨"C", [], some "T"⟩], [⟨"at", .named "Id" .optional⟩]⟩,
    .sum ⟨"E", [⟨"map", [], some "map"⟩], []⟩]

/-- It is read back from its own text and from one with a comment after each token. -/
theorem wordyModule_readBack :
    (∃ source, Schema.parse source = .ok wordyModule) ∧
    Schema.parse wordyModule.text = .ok wordyModule ∧
    Schema.parse (.ofList (layout [] (wordyModule.tokens.map (·, ['#', '!', '\n'])))) =
      .ok wordyModule := by
  obtain ⟨himage, htext, hlayout⟩ := parse_inverts_writing
  have hwritable : wordyModule.isWritable = true := by rfl
  have hcomment : Separator ['#', '!', '\n'] :=
    @Separator.comment ['#'] ['!'] [] (.inl rfl) (by decide) .nil
  refine ⟨(himage _).mpr hwritable, htext _ hwritable, ?_⟩
  refine hlayout _ _ _ hwritable ?_ (wellSpaced_map hcomment (by simp) _)
  exact isSchema_tokens hwritable

end Schema

end Asdl
