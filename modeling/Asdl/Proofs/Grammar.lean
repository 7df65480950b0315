/-
The grammar of schemas.

A production says which tokens spell which part of a schema:

  schema      := use* module
  use         := 'use' ident ('.' ident)* '{' ident (',' ident)* '}'
  module      := 'module' ident '{' definition* '}'
  definition  := ident '=' (fields ['attributes' fields]
                           | constructor ('|' constructor)* ['attributes' fields])
  constructor := ident [fields] | ident '%' ident | '%' ident
  fields      := '(' [field (',' field)*] ')'
  field       := type ident
  type        := 'map' '[' type ',' type ']' | ident ['?' | '*']

* `Grammar.IsSchema` and the relations before it — the productions;
* `Grammar.Begins` — a text that begins with a phrase and goes on somehow;
* `Grammar.begins_field`, `begins_fields` and so on — the productions, seen from
  the left;
* `Grammar.begins_separated`, `begins_repeated` — a loop that reads one item after
  the other reads a list.

Design notes: a reader knows how a text begins and has to say what follows, so
everything about productions is said in terms of `Begins`, whose last argument is
what holds of the rest.
-/
import Asdl.Schema
import Asdl.Token

namespace Asdl

namespace Grammar

/-! ### Productions -/

/-- Which tokens spell which value. -/
abbrev Phrase (α : Type) := List Token → α → Prop

variable {α : Type}

/-- One or more items with a mark between them. -/
inductive Separated (mark : Punct) (item : Phrase α) : Phrase (List α) where
  | one {ts : List Token} {a : α} : item ts a → Separated mark item ts [a]
  | more {ts us : List Token} {a : α} {as : List α} : item ts a → Separated mark item us as →
      Separated mark item (ts ++ .punct mark :: us) (a :: as)

/-- Any number of items. -/
inductive Repeated (item : Phrase α) : Phrase (List α) where
  | nil : Repeated item [] []
  | cons {ts us : List Token} {a : α} {as : List α} : item ts a → Repeated item us as →
      Repeated item (ts ++ us) (a :: as)

inductive IsName : Phrase String where
  | mk (name : String) : IsName [.ident name] name

inductive IsType : Phrase TypeExpr where
  | scalar (name : String) : IsType [.ident name] (.named name .scalar)
  | optional (name : String) : IsType [.ident name, .punct .question] (.named name .optional)
  | repeated (name : String) : IsType [.ident name, .punct .star] (.named name .repeated)
  | map {ks vs : List Token} {key value : TypeExpr} : IsType ks key → IsType vs value →
      IsType ([.ident "map", .punct .lbracket] ++ ks ++ [.punct .comma] ++ vs ++ [.punct .rbracket])
        (.map key value)

inductive IsField : Phrase Field where
  | mk {ts : List Token} {type : TypeExpr} (name : String) : IsType ts type →
      IsField (ts ++ [.ident name]) ⟨name, type⟩

inductive IsFields : Phrase (List Field) where
  | none : IsFields [.punct .lparen, .punct .rparen] []
  | some {ts : List Token} {fields : List Field} : Separated .comma IsField ts fields →
      IsFields ([.punct .lparen] ++ ts ++ [.punct .rparen]) fields

/-- The optional attributes at the end of a definition. -/
inductive IsAttributes : Phrase (List Field) where
  | none : IsAttributes [] []
  | some {ts : List Token} {fields : List Field} : IsFields ts fields →
      IsAttributes (.keyword .attributes :: ts) fields

inductive IsConstructor : Phrase Variant where
  | bare (name : String) : IsConstructor [.ident name] ⟨name, [], none⟩
  | fields {ts : List Token} {fields : List Field} (name : String) : IsFields ts fields →
      IsConstructor (.ident name :: ts) ⟨name, fields, none⟩
  | shared (name product : String) :
      IsConstructor [.ident name, .punct .percent, .ident product] ⟨name, [], some product⟩
  | nameless (product : String) :
      IsConstructor [.punct .percent, .ident product] ⟨product, [], some product⟩

inductive IsDefinition : Phrase Definition where
  | product {ts us : List Token} {fields attributes : List Field} (name : String) :
      IsFields ts fields → IsAttributes us attributes →
      IsDefinition ([.ident name, .punct .equal] ++ ts ++ us) (.product ⟨name, fields, attributes⟩)
  | sum {ts us : List Token} {variants : List Variant} {attributes : List Field} (name : String) :
      Separated .pipe IsConstructor ts variants → IsAttributes us attributes →
      IsDefinition ([.ident name, .punct .equal] ++ ts ++ us) (.sum ⟨name, variants, attributes⟩)

inductive IsUse : Phrase Use where
  | mk {ts us : List Token} {path names : List String} :
      Separated .dot IsName ts path → Separated .comma IsName us names →
      IsUse ([.keyword .use] ++ ts ++ [.punct .lbrace] ++ us ++ [.punct .rbrace]) ⟨path, names⟩

/-- A schema: imports, then the module. -/
inductive IsSchema : Phrase Schema where
  | mk {ts us : List Token} {uses : List Use} {definitions : List Definition} (name : String) :
      Repeated IsUse ts uses → Repeated IsDefinition us definitions →
      IsSchema (ts ++ [.keyword .module, .ident name, .punct .lbrace] ++ us ++ [.punct .rbrace])
        ⟨name, uses, definitions⟩

/-! ### How a text begins -/

/-- The text begins with the given token, and `after` holds of the rest. -/
def Next (t : Token) (after : List Token → Prop) (ts : List Token) : Prop :=
  ∃ rest, ts = t :: rest ∧ after rest

/-- The text begins with an identifier, and `after` holds of it and the rest. -/
def NextName (after : String → List Token → Prop) (ts : List Token) : Prop :=
  ∃ name, Next (.ident name) (after name) ts

/-- The text begins with a phrase, and `after` holds of its value and the rest. -/
def Begins (item : Phrase α) (after : α → List Token → Prop) (ts : List Token) : Prop :=
  ∃ us a rest, ts = us ++ rest ∧ item us a ∧ after a rest

@[simp] theorem next_nil (t : Token) (after : List Token → Prop) : ¬ Next t after [] := by
  rintro ⟨_, ⟨⟩, -⟩

@[simp] theorem next_cons {t u : Token} {after : List Token → Prop} {ts : List Token} :
    Next t after (u :: ts) ↔ u = t ∧ after ts := by
  constructor
  · rintro ⟨rest, ⟨⟩, h⟩
    exact ⟨rfl, h⟩
  · rintro ⟨rfl, h⟩
    exact ⟨ts, rfl, h⟩

@[simp] theorem nextName_nil (after : String → List Token → Prop) : ¬ NextName after [] := by
  rintro ⟨name, h⟩
  exact next_nil _ _ h

@[simp] theorem nextName_cons {u : Token} {after : String → List Token → Prop} {ts : List Token} :
    NextName after (u :: ts) ↔ ∃ name, u = .ident name ∧ after name ts := by
  simp only [NextName, next_cons]

/-! What follows may be said in other words. -/

theorem next_congr {t : Token} {after after' : List Token → Prop}
    (h : ∀ rest, after rest ↔ after' rest) {ts : List Token} :
    Next t after ts ↔ Next t after' ts := by
  simp only [Next, h]

theorem nextName_congr {after after' : String → List Token → Prop}
    (h : ∀ name rest, after name rest ↔ after' name rest) {ts : List Token} :
    NextName after ts ↔ NextName after' ts := by
  simp only [NextName, Next, h]

theorem begins_congr {item : Phrase α} {after after' : α → List Token → Prop}
    (h : ∀ a rest, after a rest ↔ after' a rest) {ts : List Token} :
    Begins item after ts ↔ Begins item after' ts := by
  simp only [Begins, h]

/-! ### Productions from the left -/

section Productions

variable {ts : List Token}

theorem begins_name {after : String → List Token → Prop} :
    Begins IsName after ts ↔ NextName after ts := by
  constructor
  · rintro ⟨_, name, rest, rfl, ⟨⟩, h⟩
    exact ⟨name, rest, rfl, h⟩
  · rintro ⟨name, rest, rfl, h⟩
    exact ⟨_, _, rest, rfl, .mk name, h⟩

theorem begins_field {after : Field → List Token → Prop} :
    Begins IsField after ts ↔
      Begins IsType (fun type => NextName fun name => after ⟨name, type⟩) ts := by
  constructor
  · rintro ⟨_, _, rest, rfl, ⟨name, htype⟩, h⟩
    exact ⟨_, _, _, List.append_assoc _ _ _, htype, name, rest, rfl, h⟩
  · rintro ⟨us, type, _, rfl, htype, name, rest, rfl, h⟩
    exact ⟨_, _, rest, by simp, .mk name htype, h⟩

theorem begins_fields {after : List Field → List Token → Prop} :
    Begins IsFields after ts ↔
      Next (.punct .lparen) (fun ts => Next (.punct .rparen) (after []) ts ∨
        Begins (Separated .comma IsField) (fun fields => Next (.punct .rparen) (after fields)) ts)
        ts := by
  constructor
  · rintro ⟨_, fields, rest, rfl, _ | hsep, h⟩
    · exact ⟨_, rfl, .inl ⟨rest, rfl, h⟩⟩
    · exact ⟨_, rfl, .inr ⟨_, fields, _, by simp, hsep, rest, rfl, h⟩⟩
  · rintro ⟨_, rfl, ⟨rest, rfl, h⟩ | ⟨us, fields, _, rfl, hsep, rest, rfl, h⟩⟩
    · exact ⟨_, _, rest, rfl, .none, h⟩
    · exact ⟨_, _, rest, by simp, .some hsep, h⟩

theorem begins_attributes {after : List Field → List Token → Prop} :
    Begins IsAttributes after ts ↔
      after [] ts ∨ Next (.keyword .attributes) (Begins IsFields after) ts := by
  constructor
  · rintro ⟨_, fields, rest, rfl, _ | hfields, h⟩
    · exact .inl h
    · exact .inr ⟨_, rfl, _, fields, rest, rfl, hfields, h⟩
  · rintro (h | ⟨_, rfl, us, fields, rest, rfl, hfields, h⟩)
    · exact ⟨_, _, ts, rfl, .none, h⟩
    · exact ⟨_, _, rest, rfl, .some hfields, h⟩

theorem begins_constructor {after : Variant → List Token → Prop} :
    Begins IsConstructor after ts ↔
      NextName (fun name ts =>
        after ⟨name, [], none⟩ ts ∨ Begins IsFields (fun fields => after ⟨name, fields, none⟩) ts ∨
          Next (.punct .percent) (NextName fun product => after ⟨name, [], some product⟩) ts) ts ∨
      Next (.punct .percent) (NextName fun product => after ⟨product, [], some product⟩) ts := by
  constructor
  · rintro ⟨_, _, rest, rfl, name | ⟨name, hfields⟩ | ⟨name, product⟩ | product, h⟩
    · exact .inl ⟨name, _, rfl, .inl h⟩
    · exact .inl ⟨name, _, rfl, .inr (.inl ⟨_, _, rest, rfl, hfields, h⟩)⟩
    · exact .inl ⟨name, _, rfl, .inr (.inr ⟨_, rfl, product, rest, rfl, h⟩)⟩
    · exact .inr ⟨_, rfl, product, rest, rfl, h⟩
  · rintro (⟨name, _, rfl, h | ⟨us, fields, rest, rfl, hfields, h⟩ |
      ⟨_, rfl, product, rest, rfl, h⟩⟩ | ⟨_, rfl, product, rest, rfl, h⟩)
    · exact ⟨_, _, _, rfl, .bare name, h⟩
    · exact ⟨_, _, rest, rfl, .fields name hfields, h⟩
    · exact ⟨_, _, rest, rfl, .shared name product, h⟩
    · exact ⟨_, _, rest, rfl, .nameless product, h⟩

theorem begins_definition {after : Definition → List Token → Prop} :
    Begins IsDefinition after ts ↔
      NextName (fun name => Next (.punct .equal) fun ts =>
        Begins IsFields (fun fields => Begins IsAttributes fun attributes =>
          after (.product ⟨name, fields, attributes⟩)) ts ∨
        Begins (Separated .pipe IsConstructor) (fun variants =>
          Begins IsAttributes fun attributes =>
            after (.sum ⟨name, variants, attributes⟩)) ts) ts := by
  constructor
  · rintro ⟨_, _, rest, rfl, ⟨name, hfields, hattributes⟩ | ⟨name, hvariants, hattributes⟩, h⟩
    · exact ⟨name, _, rfl, _, rfl,
        .inl ⟨_, _, _, List.append_assoc _ _ _, hfields, _, _, rest, rfl, hattributes, h⟩⟩
    · exact ⟨name, _, rfl, _, rfl,
        .inr ⟨_, _, _, List.append_assoc _ _ _, hvariants, _, _, rest, rfl, hattributes, h⟩⟩
  · rintro ⟨name, _, rfl, _, rfl, ⟨us, fields, _, rfl, hfields, vs, attributes, rest, rfl, has, h⟩ |
      ⟨us, variants, _, rfl, hvariants, vs, attributes, rest, rfl, has, h⟩⟩
    · exact ⟨_, _, rest, by simp, .product name hfields has, h⟩
    · exact ⟨_, _, rest, by simp, .sum name hvariants has, h⟩

theorem begins_use {after : Use → List Token → Prop} :
    Begins IsUse after ts ↔
      Next (.keyword .use) (Begins (Separated .dot IsName) fun path =>
        Next (.punct .lbrace) (Begins (Separated .comma IsName) fun names =>
          Next (.punct .rbrace) (after ⟨path, names⟩))) ts := by
  constructor
  · rintro ⟨_, _, rest, rfl, ⟨hpath, hnames⟩, h⟩
    exact ⟨_, rfl, _, _, _, by simp, hpath, _, rfl, _, _, _, rfl, hnames, rest, rfl, h⟩
  · rintro ⟨_, rfl, us, path, _, rfl, hpath, _, rfl, vs, names, _, rfl, hnames, rest, rfl, h⟩
    exact ⟨_, _, rest, by simp, .mk hpath hnames, h⟩

theorem isSchema_iff {s : Schema} :
    IsSchema ts s ↔
      Begins (Repeated IsUse) (fun uses => Next (.keyword .module) (NextName fun name =>
        Next (.punct .lbrace) (Begins (Repeated IsDefinition) fun definitions =>
          Next (.punct .rbrace) fun rest => rest = [] ∧ s = ⟨name, uses, definitions⟩))) ts := by
  constructor
  · rintro ⟨name, huses, hdefinitions⟩
    exact ⟨_, _, _, by simp, huses, _, rfl, name, _, rfl, _, rfl, _, _, _, rfl, hdefinitions,
      [], rfl, rfl, rfl⟩
  · rintro ⟨us, uses, _, rfl, huses, _, rfl, name, _, rfl, _, rfl, vs, definitions, _, rfl,
      hdefinitions, _, rfl, rfl, rfl⟩
    have h := IsSchema.mk name huses hdefinitions
    simpa using h

end Productions

/-! ### Loops -/

section Loops

variable {item : Phrase α} {mark : Punct} {before after done : List α → List Token → Prop}

/-- **A loop over items with a mark between them.**  Before an item `before` holds
of the items so far, after it `after` does; a mark leads back to the start. -/
theorem begins_separated
    (hbefore : ∀ acc ts, before acc ts ↔ Begins item (fun a => after (acc ++ [a])) ts)
    (hafter : ∀ acc ts, after acc ts ↔ Next (.punct mark) (before acc) ts ∨ done acc ts)
    (acc : List α) (ts : List Token) :
    before acc ts ↔ Begins (Separated mark item) (fun as => done (acc ++ as)) ts := by
  constructor
  · intro h
    -- by length: after the mark the same loop goes on with a shorter text
    induction hn : ts.length using Nat.strongRecOn generalizing acc ts with
    | ind n ih =>
      obtain ⟨us, a, rest, rfl, ha, hrest⟩ := (hbefore acc ts).mp h
      rcases (hafter _ _).mp hrest with ⟨rest, rfl, hnext⟩ | hdone
      · have hlt : rest.length < n := by
          rw [← hn, List.length_append, List.length_cons]
          omega
        obtain ⟨vs, as, rest, rfl, has, hdone⟩ := ih _ hlt _ _ hnext rfl
        exact ⟨_, a :: as, rest, by simp, .more ha has, by simpa using hdone⟩
      · exact ⟨us, [a], rest, rfl, .one ha, hdone⟩
  · rintro ⟨us, as, rest, rfl, has, h⟩
    induction has generalizing acc with
    | one ha => exact (hbefore _ _).mpr ⟨_, _, rest, rfl, ha, (hafter _ _).mpr (.inr h)⟩
    | more ha _ ih =>
      refine (hbefore _ _).mpr ⟨_, _, _, List.append_assoc _ _ _, ha, ?_⟩
      refine (hafter _ _).mpr (.inl ⟨_, rfl, ?_⟩)
      exact ih _ (by simpa using h)

/-- **A loop over items that follow each other.** -/
theorem begins_repeated (hitem : ∀ us a, item us a → us ≠ [])
    (hbefore : ∀ acc ts, before acc ts ↔
      Begins item (fun a => before (acc ++ [a])) ts ∨ done acc ts)
    (acc : List α) (ts : List Token) :
    before acc ts ↔ Begins (Repeated item) (fun as => done (acc ++ as)) ts := by
  constructor
  · intro h
    -- by length; this is where items must not be empty
    induction hn : ts.length using Nat.strongRecOn generalizing acc ts with
    | ind n ih =>
      rcases (hbefore acc ts).mp h with ⟨us, a, rest, rfl, ha, hnext⟩ | hdone
      · have hlt : rest.length < n := by
          have hpos := List.length_pos_iff.mpr (hitem us a ha)
          rw [← hn, List.length_append]
          omega
        obtain ⟨vs, as, rest, rfl, has, hdone⟩ := ih _ hlt _ _ hnext rfl
        exact ⟨_, a :: as, rest, by simp, .cons ha has, by simpa using hdone⟩
      · exact ⟨[], [], ts, rfl, .nil, by simpa using hdone⟩
  · rintro ⟨us, as, rest, rfl, has, h⟩
    induction has generalizing acc with
    | nil => exact (hbefore _ _).mpr (.inr (by simpa using h))
    | cons ha _ ih =>
      refine (hbefore _ _).mpr (.inl ⟨_, _, _, List.append_assoc _ _ _, ha, ?_⟩)
      exact ih _ (by simpa using h)

end Loops

theorem ne_nil_of_isUse {us : List Token} {u : Use} (h : IsUse us u) : us ≠ [] := by
  cases h
  simp

theorem ne_nil_of_isDefinition {us : List Token} {d : Definition} (h : IsDefinition us d) :
    us ≠ [] := by
  cases h <;> simp

end Grammar

end Asdl
