/-
The reader accepts exactly the schemas of the grammar.

* `Reader.State.Spells` — the tokens that are left lead from a state to a schema;
* `Reader.spells_start`, `completes_startVariant` and so on — what one token does,
  for each place of the reader;
* `Reader.begins_type`, `begins_fieldList`, `begins_constructors` and so on — what
  the reader takes at each place is a phrase of the grammar;
* `Reader.read_eq_ok_iff_isSchema` — reading and the grammar say the same.

Design notes: a definition, a constructor and a type without a mark end only when
the next token arrives, and the reader is then in the middle of something longer
that could have come.  Places are therefore compared by what they do with the next
token (`Completes`): after a phrase the reader does at least what `endType`,
`endVariant` or `startDefinition` does, and what it does beyond that is the start
of another phrase.
-/
import Asdl.Schema.Reader
import Asdl.Proofs.Grammar

namespace Asdl

namespace Reader

open Grammar

/-- The tokens lead from the state to the schema. -/
def State.Spells (st : State) (s : Schema) : List Token → Prop
  | [] => st = .complete s
  | t :: ts => ∃ next, st.step t = some next ∧ next.Spells s ts

/-- The tokens lead to the schema if `step` takes the first of them. -/
def Completes (step : Token → Option State) (s : Schema) : List Token → Prop
  | [] => False
  | t :: ts => ∃ next, step t = some next ∧ next.Spells s ts

@[simp] theorem spells_nil {st : State} {s : Schema} : st.Spells s [] ↔ st = .complete s := .rfl

@[simp] theorem spells_cons {st : State} {s : Schema} {t : Token} {ts : List Token} :
    st.Spells s (t :: ts) ↔ ∃ next, st.step t = some next ∧ next.Spells s ts := .rfl

@[simp] theorem completes_nil {step : Token → Option State} {s : Schema} :
    ¬ Completes step s [] := id

@[simp] theorem completes_cons {step : Token → Option State} {s : Schema} {t : Token}
    {ts : List Token} :
    Completes step s (t :: ts) ↔ ∃ next, step t = some next ∧ next.Spells s ts := .rfl

/-- Reading succeeds iff the tokens lead to the schema, whatever their lines. -/
theorem read_eq_ok {st : State} {ts : List Located} {s : Schema} :
    st.read ts = .ok s ↔ st.Spells s (ts.map Located.token) := by
  induction ts generalizing st with
  | nil => cases st <;> simp [State.read, State.finish]
  | cons t ts ih =>
    rw [State.read, List.map_cons, State.Spells]
    cases hstep : st.step t.token with
    | none => simp
    | some next => simp [ih]

variable {s : Schema} {d : Draft} {ts : List Token}

theorem spells_iff_completes {st : State} (h : ∀ r, st ≠ .complete r) :
    st.Spells s ts ↔ Completes st.step s ts := by
  cases ts with
  | nil => simp [State.Spells, Completes, h]
  | cons t ts => rfl

theorem spells_body (p : Place) :
    (State.body d p).Spells s = Completes (fun t => p.step d t) s :=
  funext fun _ => propext (spells_iff_completes (by simp))

/-- A step that takes identifiers only. -/
theorem completes_name {step : Token → Option State} {next : String → State}
    (hkeyword : ∀ k, step (.keyword k) = none) (hpunct : ∀ p, step (.punct p) = none)
    (hident : ∀ name, step (.ident name) = some (next name)) :
    Completes step s ts ↔ NextName (fun name => (next name).Spells s) ts := by
  rcases ts with _ | ⟨k | p | name, ts⟩
  · simp
  · simp [hkeyword]
  · simp [hpunct]
  · simp [hident]

@[simp] theorem spells_complete {r : Schema} :
    (State.complete r).Spells s ts ↔ ts = [] ∧ s = r := by
  cases ts with
  | nil => simp [State.Spells, eq_comm]
  | cons t ts => simp [State.step]

/-! ### Places that start or end a phrase -/

section Ends

variable {owner : Owner} {fields : List Field} {holes : List Hole}

@[simp] theorem spells_definition :
    (State.body d .definition).Spells s = Completes (startDefinition d) s :=
  spells_body _

@[simp] theorem spells_variant {sum : SumDraft} :
    (State.body d (.variant sum)).Spells s = Completes (startVariant d sum) s :=
  spells_body _

@[simp] theorem spells_variantEnd {sum : SumDraft} :
    (State.body d (.variantEnd sum)).Spells s = Completes (endVariant d sum) s :=
  spells_body _

@[simp] theorem spells_type :
    (State.body d (.type owner fields holes)).Spells s =
      Completes (startType d owner fields holes) s :=
  spells_body _

@[simp] theorem spells_typeEnd {type : TypeExpr} :
    (State.body d (.typeEnd owner fields holes type)).Spells s =
      Completes (endType d owner fields holes type) s :=
  spells_body _

end Ends

/-! ### One token outside the module -/

theorem spells_start {uses : List Use} :
    (State.start uses).Spells s ts ↔
      Next (.keyword .use) ((State.segment uses []).Spells s) ts ∨
        Next (.keyword .module) ((State.title uses).Spells s) ts := by
  rcases ts with _ | ⟨k | p | name, ts⟩
  · simp
  · cases k <;> simp [State.step]
  · simp [State.step]
  · simp [State.step]

theorem spells_segment {uses : List Use} {path : List String} :
    (State.segment uses path).Spells s ts ↔
      NextName (fun name => (State.segmentEnd uses (name :: path)).Spells s) ts := by
  rw [spells_iff_completes (by simp)]
  exact completes_name (fun _ => rfl) (fun _ => rfl) fun _ => rfl

theorem spells_segmentEnd {uses : List Use} {path : List String} :
    (State.segmentEnd uses path).Spells s ts ↔
      Next (.punct .dot) ((State.segment uses path).Spells s) ts ∨
        Next (.punct .lbrace) ((State.imported uses path []).Spells s) ts := by
  rcases ts with _ | ⟨k | p | name, ts⟩
  · simp
  · simp [State.step]
  · cases p <;> simp [State.step]
  · simp [State.step]

theorem spells_imported {uses : List Use} {path names : List String} :
    (State.imported uses path names).Spells s ts ↔
      NextName (fun name => (State.importedEnd uses path (name :: names)).Spells s) ts := by
  rw [spells_iff_completes (by simp)]
  exact completes_name (fun _ => rfl) (fun _ => rfl) fun _ => rfl

theorem spells_importedEnd {uses : List Use} {path names : List String} :
    (State.importedEnd uses path names).Spells s ts ↔
      Next (.punct .comma) ((State.imported uses path names).Spells s) ts ∨
        Next (.punct .rbrace)
          ((State.start (uses ++ [⟨path.reverse, names.reverse⟩])).Spells s) ts := by
  rcases ts with _ | ⟨k | p | name, ts⟩
  · simp
  · simp [State.step]
  · cases p <;> simp [State.step]
  · simp [State.step]

theorem spells_title {uses : List Use} :
    (State.title uses).Spells s ts ↔
      NextName (fun name => (State.opening uses name).Spells s) ts := by
  rw [spells_iff_completes (by simp)]
  exact completes_name (fun _ => rfl) (fun _ => rfl) fun _ => rfl

theorem spells_opening {uses : List Use} {name : String} :
    (State.opening uses name).Spells s ts ↔
      Next (.punct .lbrace) (Completes (startDefinition ⟨name, uses, []⟩) s) ts := by
  rcases ts with _ | ⟨k | p | name, ts⟩
  · simp
  · simp [State.step]
  · cases p <;> simp [State.step]
  · simp [State.step]

/-! ### One token inside the module -/

theorem completes_startDefinition :
    Completes (startDefinition d) s ts ↔
      NextName (fun name => (State.body d (.equals name)).Spells s) ts ∨
        Next (.punct .rbrace) (fun rest => rest = [] ∧ s = d.close) ts := by
  rcases ts with _ | ⟨k | p | name, ts⟩
  · simp
  · simp [startDefinition]
  · cases p <;> simp [startDefinition]
  · simp [startDefinition]

theorem spells_equals {name : String} :
    (State.body d (.equals name)).Spells s ts ↔
      Next (.punct .equal) ((State.body d (.rightSide name)).Spells s) ts := by
  rw [spells_body]
  rcases ts with _ | ⟨k | p | name, ts⟩
  · simp
  · simp [Place.step]
  · cases p <;> simp [Place.step]
  · simp [Place.step]

theorem spells_rightSide {name : String} :
    (State.body d (.rightSide name)).Spells s ts ↔
      Next (.punct .lparen) ((State.body d (.fieldsFirst (.product name))).Spells s) ts ∨
        Completes (startVariant d ⟨name, []⟩) s ts := by
  rw [spells_body]
  rcases ts with _ | ⟨k | p | name, ts⟩
  · simp
  · simp [Place.step]
  · cases p <;> simp [Place.step, startVariant]
  · simp [Place.step]

theorem completes_startVariant {sum : SumDraft} :
    Completes (startVariant d sum) s ts ↔
      NextName (fun name => (State.body d (.variantName sum name)).Spells s) ts ∨
        Next (.punct .percent) ((State.body d (.sharedName sum none)).Spells s) ts := by
  rcases ts with _ | ⟨k | p | name, ts⟩
  · simp
  · simp [startVariant]
  · cases p <;> simp [startVariant]
  · simp [startVariant]

theorem spells_sharedName {sum : SumDraft} {own : Option String} :
    (State.body d (.sharedName sum own)).Spells s ts ↔
      NextName (fun product =>
        Completes (endVariant d (sum.add ⟨own.getD product, [], some product⟩)) s) ts := by
  simp only [← spells_variantEnd]
  rw [spells_body]
  exact completes_name (fun _ => rfl) (fun _ => rfl) fun _ => rfl

theorem spells_variantName {sum : SumDraft} {own : String} :
    (State.body d (.variantName sum own)).Spells s ts ↔
      Completes (endVariant d (sum.add ⟨own, [], none⟩)) s ts ∨
        Next (.punct .lparen) ((State.body d (.fieldsFirst (.variant sum own))).Spells s) ts ∨
        Next (.punct .percent) ((State.body d (.sharedName sum (some own))).Spells s) ts := by
  rw [spells_body]
  rcases ts with _ | ⟨k | p | name, ts⟩
  · simp
  · simp [Place.step]
  · cases p <;> simp [Place.step, endVariant, startDefinition]
  · simp [Place.step]

theorem completes_endVariant {sum : SumDraft} :
    Completes (endVariant d sum) s ts ↔
      Next (.punct .pipe) (Completes (startVariant d sum) s) ts ∨
        Completes (startDefinition (d.add (sum.close []))) s ts ∨
        Next (.keyword .attributes)
          ((State.body d (.fieldsOpen (.sumAttributes sum))).Spells s) ts := by
  rcases ts with _ | ⟨k | p | name, ts⟩
  · simp
  · cases k <;> simp [endVariant, startDefinition]
  · cases p <;> simp [endVariant, startDefinition]
  · simp [endVariant]

theorem spells_productEnd {name : String} {fields : List Field} :
    (State.body d (.productEnd name fields)).Spells s ts ↔
      Completes (startDefinition (d.add (.product ⟨name, fields, []⟩))) s ts ∨
        Next (.keyword .attributes)
          ((State.body d (.fieldsOpen (.productAttributes name fields))).Spells s) ts := by
  rw [spells_body]
  rcases ts with _ | ⟨k | p | name, ts⟩
  · simp
  · cases k <;> simp [Place.step, startDefinition]
  · simp [Place.step]
  · simp [Place.step]

theorem spells_fieldsOpen {owner : Owner} :
    (State.body d (.fieldsOpen owner)).Spells s ts ↔
      Next (.punct .lparen) ((State.body d (.fieldsFirst owner)).Spells s) ts := by
  rw [spells_body]
  rcases ts with _ | ⟨k | p | name, ts⟩
  · simp
  · simp [Place.step]
  · cases p <;> simp [Place.step]
  · simp [Place.step]

theorem spells_fieldsFirst {owner : Owner} :
    (State.body d (.fieldsFirst owner)).Spells s ts ↔
      Next (.punct .rparen) ((closeFields d [] owner).Spells s) ts ∨
        Completes (startType d owner [] []) s ts := by
  rw [spells_body]
  rcases ts with _ | ⟨k | p | name, ts⟩
  · simp
  · simp [Place.step]
  · cases p <;> simp [Place.step, startType]
  · simp [Place.step]

theorem spells_fieldEnd {owner : Owner} {fields : List Field} :
    (State.body d (.fieldEnd owner fields)).Spells s ts ↔
      Next (.punct .comma) (Completes (startType d owner fields []) s) ts ∨
        Next (.punct .rparen) ((closeFields d fields.reverse owner).Spells s) ts := by
  rw [spells_body]
  rcases ts with _ | ⟨k | p | name, ts⟩
  · simp
  · simp [Place.step]
  · cases p <;> simp [Place.step]
  · simp [Place.step]

/-! ### Types -/

section Types

variable {owner : Owner} {fields : List Field} {holes : List Hole} {type : TypeExpr}

theorem completes_startType :
    Completes (startType d owner fields holes) s ts ↔
      NextName (fun name => (State.body d (.typeName owner fields holes name)).Spells s) ts :=
  completes_name (fun _ => rfl) (fun _ => rfl) fun _ => rfl

/-- A type outside all maps is followed by the name of its field. -/
theorem completes_endType_field :
    Completes (endType d owner fields [] type) s ts ↔
      NextName (fun name => (State.body d (.fieldEnd owner (⟨name, type⟩ :: fields))).Spells s)
        ts :=
  completes_name (fun _ => rfl) (fun _ => rfl) fun _ => rfl

theorem completes_endType_key :
    Completes (endType d owner fields (.key :: holes) type) s ts ↔
      Next (.punct .comma) (Completes (startType d owner fields (.value type :: holes)) s) ts := by
  rcases ts with _ | ⟨k | p | name, ts⟩
  · simp
  · simp [endType]
  · cases p <;> simp [endType]
  · simp [endType]

theorem completes_endType_value {key : TypeExpr} :
    Completes (endType d owner fields (.value key :: holes) type) s ts ↔
      Next (.punct .rbracket) (Completes (endType d owner fields holes (.map key type)) s) ts := by
  rcases ts with _ | ⟨k | p | name, ts⟩
  · simp
  · simp [endType]
  · cases p <;> simp [endType]
  · simp [endType]

/-- After the name of a type come a mark, the parts of a map, or what follows a type. -/
theorem spells_typeName {name : String} :
    (State.body d (.typeName owner fields holes name)).Spells s ts ↔
      Completes (endType d owner fields holes (.named name .scalar)) s ts ∨
        Next (.punct .question)
          (Completes (endType d owner fields holes (.named name .optional)) s) ts ∨
        Next (.punct .star)
          (Completes (endType d owner fields holes (.named name .repeated)) s) ts ∨
        (name = "map" ∧
          Next (.punct .lbracket) (Completes (startType d owner fields (.key :: holes)) s) ts) := by
  -- what follows a type is none of the three marks
  have hmark : ∀ (type : TypeExpr) (p : Punct), p = .question ∨ p = .star ∨ p = .lbracket →
      endType d owner fields holes type (.punct p) = none := by
    rintro type p (rfl | rfl | rfl) <;> rcases holes with _ | ⟨_ | _, _⟩ <;> rfl
  rw [spells_body]
  rcases ts with _ | ⟨k | p | other, ts⟩
  · simp
  · simp [Place.step]
  · by_cases hname : name = "map" <;> cases p <;>
      simp [Place.step, hmark, hname]
  · simp [Place.step]

/-- **Where a type may start, the reader takes a type**, and then does what
`endType` does. -/
theorem begins_type :
    Completes (startType d owner fields holes) s ts ↔
      Begins IsType (fun type => Completes (endType d owner fields holes type) s) ts := by
  constructor
  · -- by length, since the parts of a map are types of their own
    intro h
    induction hn : ts.length using Nat.strongRecOn generalizing ts holes with
    | ind n ih =>
      obtain ⟨name, rest, rfl, hrest⟩ := completes_startType.mp h
      rcases spells_typeName.mp hrest with
        hend | ⟨rest, rfl, hend⟩ | ⟨rest, rfl, hend⟩ | ⟨rfl, rest, rfl, hkey⟩
      · exact ⟨_, _, rest, rfl, .scalar name, hend⟩
      · exact ⟨_, _, rest, rfl, .optional name, hend⟩
      · exact ⟨_, _, rest, rfl, .repeated name, hend⟩
      · have hlt : rest.length < n := by
          rw [← hn, List.length_cons, List.length_cons]
          omega
        obtain ⟨ks, key, rest, rfl, hks, hcomma⟩ := ih _ hlt hkey rfl
        obtain ⟨rest, rfl, hvalue⟩ := completes_endType_key.mp hcomma
        rw [List.length_append, List.length_cons] at hlt
        obtain ⟨vs, value, rest, rfl, hvs, hbracket⟩ := ih _ (by omega) hvalue rfl
        obtain ⟨rest, rfl, hend⟩ := completes_endType_value.mp hbracket
        exact ⟨_, _, rest, by simp, .map hks hvs, hend⟩
  · rintro ⟨us, type, rest, rfl, htype, h⟩
    -- the converse is by the type itself: its parts are read before what ends it
    induction htype generalizing holes rest with
    | scalar name => exact completes_startType.mpr ⟨name, rest, rfl, spells_typeName.mpr (.inl h)⟩
    | optional name =>
      exact completes_startType.mpr
        ⟨name, _, rfl, spells_typeName.mpr (.inr (.inl ⟨rest, rfl, h⟩))⟩
    | repeated name =>
      exact completes_startType.mpr
        ⟨name, _, rfl, spells_typeName.mpr (.inr (.inr (.inl ⟨rest, rfl, h⟩)))⟩
    | @map ks vs key value _ _ ihkey ihvalue =>
      have hbracket := completes_endType_value.mpr ⟨rest, rfl, h⟩
      have hcomma := completes_endType_key.mpr ⟨_, rfl, ihvalue _ hbracket⟩
      have hkey := ihkey _ hcomma
      have hname := spells_typeName.mpr (.inr (.inr (.inr ⟨rfl, _, rfl, hkey⟩)))
      have hmap := completes_startType.mpr ⟨"map", _, rfl, hname⟩
      simpa only [List.append_assoc, List.cons_append, List.nil_append] using hmap

end Types

/-! ### Fields -/

/-- Where fields go on, the reader takes fields up to the closing parenthesis. -/
theorem begins_fieldList {owner : Owner} :
    Completes (startType d owner [] []) s ts ↔
      Begins (Separated .comma IsField)
        (fun fields => Next (.punct .rparen) ((closeFields d fields owner).Spells s)) ts := by
  refine @begins_separated _ _ _
    (fun acc => Completes (startType d owner acc.reverse []) s)
    (fun acc => (State.body d (.fieldEnd owner acc.reverse)).Spells s)
    (fun acc => Next (.punct .rparen) ((closeFields d acc owner).Spells s)) ?_ ?_ [] ts
  · intro acc ts
    rw [begins_type, begins_field]
    refine begins_congr fun type rest => ?_
    rw [completes_endType_field]
    simp
  · intro acc ts
    rw [spells_fieldEnd, List.reverse_reverse]

/-- After an opening parenthesis the reader takes the rest of some fields. -/
theorem begins_fieldsFirst {owner : Owner} :
    Next (.punct .lparen) ((State.body d (.fieldsFirst owner)).Spells s) ts ↔
      Begins IsFields (fun fields => (closeFields d fields owner).Spells s) ts := by
  rw [begins_fields]
  simp only [Next, spells_fieldsFirst, begins_fieldList]

/-- The end of a definition: attributes if there are any, and the definition is
closed with them. -/
theorem begins_attributesOf {owner : Owner} {close : List Field → Definition}
    (hclose : ∀ attributes, closeFields d attributes owner =
      .body (d.add (close attributes)) .definition) :
    (Completes (startDefinition (d.add (close []))) s ts ∨
        Next (.keyword .attributes) ((State.body d (.fieldsOpen owner)).Spells s) ts) ↔
      Begins IsAttributes
        (fun attributes => Completes (startDefinition (d.add (close attributes))) s) ts := by
  rw [begins_attributes]
  refine or_congr .rfl (next_congr fun rest => ?_)
  rw [spells_fieldsOpen, begins_fieldsFirst]
  simp only [hclose, spells_definition]

/-! ### Definitions -/

/-- Where a variant may start, the reader takes a constructor, and then does what
`endVariant` does. -/
theorem begins_variant {sum : SumDraft} :
    Completes (startVariant d sum) s ts ↔
      Begins IsConstructor (fun v => Completes (endVariant d (sum.add v)) s) ts := by
  rw [completes_startVariant, begins_constructor]
  refine or_congr (nextName_congr fun name rest => ?_) (next_congr fun rest => ?_)
  · rw [spells_variantName, begins_fieldsFirst]
    refine or_congr .rfl (or_congr (begins_congr fun fields rest => ?_) (next_congr fun rest => ?_))
    · rw [closeFields, spells_variantEnd]
    · rw [spells_sharedName]
      rfl
  · rw [spells_sharedName]
    rfl

/-- Where a sum may start, the reader takes constructors and attributes. -/
theorem begins_constructors {name : String} :
    Completes (startVariant d ⟨name, []⟩) s ts ↔
      Begins (Separated .pipe IsConstructor) (fun variants => Begins IsAttributes fun attributes =>
        Completes (startDefinition (d.add (.sum ⟨name, variants, attributes⟩))) s) ts := by
  refine @begins_separated _ _ _
    (fun acc => Completes (startVariant d ⟨name, acc.reverse⟩) s)
    (fun acc => Completes (endVariant d ⟨name, acc.reverse⟩) s)
    (fun acc => Begins IsAttributes fun attributes =>
      Completes (startDefinition (d.add (.sum ⟨name, acc, attributes⟩))) s) ?_ ?_ [] ts
  · intro acc ts
    rw [begins_variant]
    refine begins_congr fun v rest => ?_
    rw [List.reverse_append]
    rfl
  · intro acc ts
    have hclose : ∀ attributes, SumDraft.close ⟨name, acc.reverse⟩ attributes =
        .sum ⟨name, acc, attributes⟩ := by simp [SumDraft.close]
    rw [completes_endVariant, begins_attributesOf fun _ => rfl]
    simp only [hclose]

/-- **Where a definition may start, the reader takes one or ends the module.** -/
theorem begins_oneDefinition :
    Completes (startDefinition d) s ts ↔
      Begins IsDefinition (fun definition => Completes (startDefinition (d.add definition)) s) ts ∨
        Next (.punct .rbrace) (fun rest => rest = [] ∧ s = d.close) ts := by
  rw [completes_startDefinition, begins_definition]
  refine or_congr (nextName_congr fun name rest => ?_) .rfl
  rw [spells_equals]
  refine next_congr fun rest => ?_
  rw [spells_rightSide, begins_fieldsFirst, begins_constructors]
  refine or_congr (begins_congr fun fields rest => ?_) .rfl
  rw [closeFields, spells_productEnd]
  have hclose : ∀ attributes, closeFields d attributes (.productAttributes name fields) =
      .body (d.add (.product ⟨name, fields, attributes⟩)) .definition := fun _ => rfl
  exact begins_attributesOf hclose

theorem begins_definitions {name : String} {uses : List Use} :
    Completes (startDefinition ⟨name, uses, []⟩) s ts ↔
      Begins (Repeated IsDefinition) (fun definitions => Next (.punct .rbrace) fun rest =>
        rest = [] ∧ s = ⟨name, uses, definitions⟩) ts := by
  refine @begins_repeated _ _ (fun acc => Completes (startDefinition ⟨name, uses, acc.reverse⟩) s)
    (fun acc => Next (.punct .rbrace) fun rest => rest = [] ∧ s = ⟨name, uses, acc⟩)
    (fun _ _ => ne_nil_of_isDefinition) ?_ [] ts
  intro acc ts
  rw [begins_oneDefinition, Draft.close, List.reverse_reverse]
  refine or_congr (begins_congr fun definition rest => ?_) .rfl
  rw [List.reverse_append]
  rfl

/-! ### Imports -/

theorem begins_path {uses : List Use} :
    (State.segment uses []).Spells s ts ↔
      Begins (Separated .dot IsName) (fun path =>
        Next (.punct .lbrace) ((State.imported uses path.reverse []).Spells s)) ts := by
  refine @begins_separated _ _ _
    (fun acc => (State.segment uses acc.reverse).Spells s)
    (fun acc => (State.segmentEnd uses acc.reverse).Spells s)
    (fun acc => Next (.punct .lbrace) ((State.imported uses acc.reverse []).Spells s))
    ?_ (fun _ _ => spells_segmentEnd) [] ts
  intro acc ts
  rw [spells_segment, begins_name]
  simp

theorem begins_imported {uses : List Use} {path : List String} :
    (State.imported uses path []).Spells s ts ↔
      Begins (Separated .comma IsName) (fun names =>
        Next (.punct .rbrace) ((State.start (uses ++ [⟨path.reverse, names⟩])).Spells s)) ts := by
  refine @begins_separated _ _ _
    (fun acc => (State.imported uses path acc.reverse).Spells s)
    (fun acc => (State.importedEnd uses path acc.reverse).Spells s)
    (fun acc => Next (.punct .rbrace) ((State.start (uses ++ [⟨path.reverse, acc⟩])).Spells s))
    ?_ ?_ [] ts
  · intro acc ts
    rw [spells_imported, begins_name]
    simp
  · intro acc ts
    rw [spells_importedEnd, List.reverse_reverse]

theorem begins_uses :
    (State.start []).Spells s ts ↔
      Begins (Repeated IsUse) (fun uses =>
        Next (.keyword .module) ((State.title uses).Spells s)) ts := by
  refine @begins_repeated _ _ (fun acc => (State.start acc).Spells s)
    (fun acc => Next (.keyword .module) ((State.title acc).Spells s))
    (fun _ _ => ne_nil_of_isUse) ?_ [] ts
  intro acc ts
  rw [spells_start, begins_use]
  refine or_congr (next_congr fun rest => ?_) .rfl
  rw [begins_path]
  refine begins_congr fun path rest => next_congr fun rest => ?_
  rw [begins_imported, List.reverse_reverse]

/-! ### Schemas -/

/-- **The tokens that lead from the start to a schema are those that spell it.** -/
theorem spells_iff_isSchema : (State.start []).Spells s ts ↔ IsSchema ts s := by
  rw [begins_uses, isSchema_iff]
  refine begins_congr fun uses rest => next_congr fun rest => ?_
  rw [spells_title]
  refine nextName_congr fun name rest => ?_
  rw [spells_opening]
  exact next_congr fun rest => begins_definitions

/-- **The reader accepts exactly the token lists of the grammar**, with the schema
that they spell; so no token list spells two schemas. -/
theorem read_eq_ok_iff_isSchema :
    (∀ (ts : List Located) (s : Schema),
      (State.start []).read ts = .ok s ↔ IsSchema (ts.map Located.token) s) ∧
    ∀ (ts : List Token) (s s' : Schema), IsSchema ts s → IsSchema ts s' → s = s' := by
  have hread : ∀ (ts : List Located) (s : Schema),
      (State.start []).read ts = .ok s ↔ IsSchema (ts.map Located.token) s :=
    fun ts s => read_eq_ok.trans spells_iff_isSchema
  refine ⟨hread, fun ts s s' hs hs' => ?_⟩
  -- the lines do not matter, and the reader has one outcome
  have htokens : (ts.map fun t => (⟨t, 1⟩ : Located)).map Located.token = ts := by
    simp [Function.comp_def]
  rw [← htokens, ← hread] at hs hs'
  rw [hs] at hs'
  exact Except.ok.inj hs'

/-- A module with a map inside a map, a type that is called `map`, and all forms of
constructors. -/
def mapModule : List Token :=
  [.keyword .use, .ident "a", .punct .dot, .ident "b", .punct .lbrace, .ident "Id", .punct .rbrace,
    .keyword .module, .ident "m", .punct .lbrace,
    .ident "T", .punct .equal, .punct .lparen,
    .ident "map", .punct .lbracket, .ident "int", .punct .comma,
    .ident "map", .punct .lbracket, .ident "int", .punct .comma, .ident "Id", .punct .star,
    .punct .rbracket, .punct .rbracket, .ident "table", .punct .comma,
    .ident "map", .ident "other", .punct .rparen,
    .ident "E", .punct .equal, .ident "A", .punct .pipe, .ident "B", .punct .lparen, .punct .rparen,
    .punct .pipe, .ident "C", .punct .percent, .ident "T", .punct .pipe, .punct .percent,
    .ident "T", .keyword .attributes, .punct .lparen, .ident "Id", .punct .question, .ident "at",
    .punct .rparen, .punct .rbrace]

theorem mapModule_isSchema :
    ∃ s, IsSchema mapModule s ∧ (∀ s', IsSchema mapModule s' → s' = s) ∧ s.definitions =
      [.product ⟨"T", [⟨"table", .map (.named "int" .scalar)
          (.map (.named "int" .scalar) (.named "Id" .repeated))⟩,
          ⟨"other", .named "map" .scalar⟩], []⟩,
        .sum ⟨"E", [⟨"A", [], none⟩, ⟨"B", [], none⟩, ⟨"C", [], some "T"⟩, ⟨"T", [], some "T"⟩],
          [⟨"at", .named "Id" .optional⟩]⟩] := by
  obtain ⟨hread, hunique⟩ := read_eq_ok_iff_isSchema
  have hs := (hread (mapModule.map fun t => ⟨t, 1⟩) _).mp rfl
  exact ⟨_, hs, fun s' hs' => hunique _ _ _ hs' hs, rfl⟩

end Reader

end Asdl
