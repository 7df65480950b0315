/-
Reading a schema, one token at a time.

The reader is a machine: `State` says what has been read and what may come next,
`State.step` takes one token, and `State.read` runs over a list of tokens.  A
token that a state refuses ends the reading at once, so an error never depends
on what follows it, and what a state would have accepted is said by
`State.wanted`.

* `State.step` — the state after a token, or nothing if the token is refused;
* `State.read` — the schema that a list of tokens spells, or the first error;
* `Schema.parse` — the same for a text.

Design notes: lists under construction hold the latest part first and are turned
around when they are closed.  A definition has no closing mark; it is closed by
the token that starts the next one or ends the module.  The word `map` is a type
like any other unless a bracket follows it.
-/
import Asdl.Schema
import Asdl.Token.Lexer

namespace Asdl

namespace Reader

/-! ### Parts under construction -/

/-- A module under construction. -/
structure Draft where
  name : String
  uses : List Use
  /-- The definitions so far, latest first. -/
  definitions : List Definition
  deriving DecidableEq, Repr

/-- The module without the definitions that are still to come. -/
def Draft.close (d : Draft) : Schema := ⟨d.name, d.uses, d.definitions.reverse⟩

def Draft.add (d : Draft) (definition : Definition) : Draft :=
  { d with definitions := definition :: d.definitions }

/-- A sum under construction. -/
structure SumDraft where
  name : String
  /-- The variants so far, latest first. -/
  variants : List Variant
  deriving DecidableEq, Repr

def SumDraft.add (s : SumDraft) (v : Variant) : SumDraft := { s with variants := v :: s.variants }

def SumDraft.close (s : SumDraft) (attributes : List Field) : Definition :=
  .sum ⟨s.name, s.variants.reverse, attributes⟩

/-- What a list of fields belongs to. -/
inductive Owner where
  | product (name : String)
  | productAttributes (name : String) (fields : List Field)
  | variant (sum : SumDraft) (name : String)
  | sumAttributes (sum : SumDraft)
  deriving DecidableEq, Repr

/-- The part of a map type that is being read; the map itself waits for it. -/
inductive Hole where
  | key
  | value (key : TypeExpr)
  deriving DecidableEq, Repr

/-! ### States -/

/-- A place inside the braces of the module. -/
inductive Place where
  /-- Before a definition or the closing brace. -/
  | definition
  /-- After the name of a definition. -/
  | equals (name : String)
  /-- After the equals sign. -/
  | rightSide (name : String)
  /-- Before a variant. -/
  | variant (sum : SumDraft)
  /-- After a percent sign, with the variant's own name if it has one. -/
  | sharedName (sum : SumDraft) (own : Option String)
  /-- After the name of a variant. -/
  | variantName (sum : SumDraft) (own : String)
  /-- After a complete variant. -/
  | variantEnd (sum : SumDraft)
  /-- After the fields of a product. -/
  | productEnd (name : String) (fields : List Field)
  /-- Before the opening parenthesis of attributes. -/
  | fieldsOpen (owner : Owner)
  /-- After an opening parenthesis. -/
  | fieldsFirst (owner : Owner)
  /-- Before a type, inside the maps that wait for it, innermost first. -/
  | type (owner : Owner) (fields : List Field) (holes : List Hole)
  /-- After the name of a type. -/
  | typeName (owner : Owner) (fields : List Field) (holes : List Hole) (name : String)
  /-- After a complete type. -/
  | typeEnd (owner : Owner) (fields : List Field) (holes : List Hole) (full : TypeExpr)
  /-- After a complete field. -/
  | fieldEnd (owner : Owner) (fields : List Field)
  deriving DecidableEq, Repr

/-- What has been read, and where the reader stands. -/
inductive State where
  /-- Before `use` or `module`. -/
  | start (uses : List Use)
  /-- Before a segment of an import path; segments so far, latest first. -/
  | segment (uses : List Use) (path : List String)
  /-- After a segment of an import path. -/
  | segmentEnd (uses : List Use) (path : List String)
  /-- Before an imported name; names so far, latest first. -/
  | imported (uses : List Use) (path names : List String)
  /-- After an imported name. -/
  | importedEnd (uses : List Use) (path names : List String)
  /-- Before the name of the module. -/
  | title (uses : List Use)
  /-- Before the opening brace of the module. -/
  | opening (uses : List Use) (name : String)
  /-- Inside the module. -/
  | body (draft : Draft) (place : Place)
  /-- After the closing brace of the module. -/
  | complete (schema : Schema)
  deriving DecidableEq, Repr

/-! ### Steps -/

/-- A definition starts with its name; a closing brace ends the module. -/
def startDefinition (d : Draft) : Token → Option State
  | .punct .rbrace => some (.complete d.close)
  | .ident name => some (.body d (.equals name))
  | _ => none

/-- A variant starts with its name, or with a percent sign. -/
def startVariant (d : Draft) (sum : SumDraft) : Token → Option State
  | .punct .percent => some (.body d (.sharedName sum none))
  | .ident name => some (.body d (.variantName sum name))
  | _ => none

/-- After a variant come another one, the attributes of the sum, or the next
definition. -/
def endVariant (d : Draft) (sum : SumDraft) : Token → Option State
  | .punct .pipe => some (.body d (.variant sum))
  | .keyword .attributes => some (.body d (.fieldsOpen (.sumAttributes sum)))
  | t => startDefinition (d.add (sum.close [])) t

/-- A type starts with a name. -/
def startType (d : Draft) (owner : Owner) (fields : List Field) (holes : List Hole) :
    Token → Option State
  | .ident name => some (.body d (.typeName owner fields holes name))
  | _ => none

/-- A complete type is followed by the name of its field, or goes into the map
that waits for it. -/
def endType (d : Draft) (owner : Owner) (fields : List Field) (holes : List Hole)
    (type : TypeExpr) (t : Token) : Option State :=
  match holes, t with
  | [], .ident name => some (.body d (.fieldEnd owner (⟨name, type⟩ :: fields)))
  | .key :: rest, .punct .comma => some (.body d (.type owner fields (.value type :: rest)))
  | .value key :: rest, .punct .rbracket =>
    some (.body d (.typeEnd owner fields rest (.map key type)))
  | _, _ => none

/-- Hands a closed list of fields to its owner. -/
def closeFields (d : Draft) (fields : List Field) : Owner → State
  | .product name => .body d (.productEnd name fields)
  | .productAttributes name own => .body (d.add (.product ⟨name, own, fields⟩)) .definition
  | .variant sum name => .body d (.variantEnd (sum.add ⟨name, fields, none⟩))
  | .sumAttributes sum => .body (d.add (sum.close fields)) .definition

/-- One token inside the module. -/
def Place.step (d : Draft) (t : Token) : Place → Option State
  | .definition => startDefinition d t
  | .equals name =>
    match t with
    | .punct .equal => some (.body d (.rightSide name))
    | _ => none
  | .rightSide name =>
    match t with
    | .punct .lparen => some (.body d (.fieldsFirst (.product name)))
    | _ => startVariant d ⟨name, []⟩ t
  | .variant sum => startVariant d sum t
  | .sharedName sum own =>
    match t with
    | .ident shared =>
      some (.body d (.variantEnd (sum.add ⟨own.getD shared, [], some shared⟩)))
    | _ => none
  | .variantName sum own =>
    match t with
    | .punct .percent => some (.body d (.sharedName sum (some own)))
    | .punct .lparen => some (.body d (.fieldsFirst (.variant sum own)))
    | _ => endVariant d (sum.add ⟨own, [], none⟩) t
  | .variantEnd sum => endVariant d sum t
  | .productEnd name fields =>
    match t with
    | .keyword .attributes => some (.body d (.fieldsOpen (.productAttributes name fields)))
    | _ => startDefinition (d.add (.product ⟨name, fields, []⟩)) t
  | .fieldsOpen owner =>
    match t with
    | .punct .lparen => some (.body d (.fieldsFirst owner))
    | _ => none
  | .fieldsFirst owner =>
    match t with
    | .punct .rparen => some (closeFields d [] owner)
    | _ => startType d owner [] [] t
  | .type owner fields holes => startType d owner fields holes t
  | .typeName owner fields holes name =>
    match t with
    | .punct .question => some (.body d (.typeEnd owner fields holes (.named name .optional)))
    | .punct .star => some (.body d (.typeEnd owner fields holes (.named name .repeated)))
    | .punct .lbracket =>
      if name = "map" then some (.body d (.type owner fields (.key :: holes))) else none
    | _ => endType d owner fields holes (.named name .scalar) t
  | .typeEnd owner fields holes full => endType d owner fields holes full t
  | .fieldEnd owner fields =>
    match t with
    | .punct .comma => some (.body d (.type owner fields []))
    | .punct .rparen => some (closeFields d fields.reverse owner)
    | _ => none

namespace State

/-- The state after one more token, unless the token is refused. -/
def step (st : State) (t : Token) : Option State :=
  match st, t with
  | .start uses, .keyword .use => some (.segment uses [])
  | .start uses, .keyword .module => some (.title uses)
  | .segment uses path, .ident name => some (.segmentEnd uses (name :: path))
  | .segmentEnd uses path, .punct .dot => some (.segment uses path)
  | .segmentEnd uses path, .punct .lbrace => some (.imported uses path [])
  | .imported uses path names, .ident name => some (.importedEnd uses path (name :: names))
  | .importedEnd uses path names, .punct .comma => some (.imported uses path names)
  | .importedEnd uses path names, .punct .rbrace =>
    some (.start (uses ++ [⟨path.reverse, names.reverse⟩]))
  | .title uses, .ident name => some (.opening uses name)
  | .opening uses name, .punct .lbrace => some (.body ⟨name, uses, []⟩ .definition)
  | .body draft place, t => place.step draft t
  | _, _ => none

end State

/-! ### Expectations -/

/-- A token as an error message quotes it. -/
def quoted (t : Token) : String := "'" ++ t.text ++ "'"

/-- What may follow a complete type. -/
def wantedAfterType : List Hole → String
  | [] => "field name"
  | .key :: _ => quoted (.punct .comma)
  | .value _ :: _ => quoted (.punct .rbracket)

/-- What is asked for where the next definition may start. -/
def wantedDefinition (atEnd : Bool) : String :=
  if atEnd then "definition or '\x7d'" else "type name"

/-- What may come next inside the module, for the end of the text or a token. -/
def Place.wanted (atEnd : Bool) : Place → String
  | .definition => wantedDefinition atEnd
  | .equals _ => quoted (.punct .equal)
  | .rightSide _ => "variant name"
  | .variant _ => "variant name"
  | .sharedName _ _ => "shared product name"
  | .variantName _ _ => wantedDefinition atEnd
  | .variantEnd _ => wantedDefinition atEnd
  | .productEnd _ _ => wantedDefinition atEnd
  | .fieldsOpen _ => quoted (.punct .lparen)
  | .fieldsFirst _ => "type name"
  | .type _ _ _ => "type name"
  | .typeName _ _ holes _ => wantedAfterType holes
  | .typeEnd _ _ holes _ => wantedAfterType holes
  | .fieldEnd _ _ => quoted (.punct .rparen)

namespace State

/-- What may come next, for the end of the text or a token. -/
def wanted (atEnd : Bool) : State → String
  | .start _ => quoted (.keyword .module)
  | .segment _ [] => "module path"
  | .segment _ (_ :: _) => "module path segment"
  | .segmentEnd _ _ => quoted (.punct .lbrace)
  | .imported _ _ _ => "imported type name"
  | .importedEnd _ _ _ => quoted (.punct .rbrace)
  | .title _ => "module name"
  | .opening _ _ => quoted (.punct .lbrace)
  | .body _ place => place.wanted atEnd
  | .complete _ => "end of input"

/-- The error for a token that the state refuses. -/
def refusal (st : State) (t : Located) : ParseError :=
  match st with
  | .complete _ => .trailingInput t.token.text t.line
  | _ => .unexpectedToken (st.wanted false) t.token.text t.line

/-- The outcome if the text ends in this state. -/
def finish : State → Except ParseError Schema
  | .complete schema => .ok schema
  | st => .error (.unexpectedEnd (st.wanted true))

/-! ### Reading -/

/-- Reads the tokens that are left: a schema, or the first error. -/
def read : State → List Located → Except ParseError Schema
  | st, [] => st.finish
  | st, t :: ts =>
    match st.step t.token with
    | some next => next.read ts
    | none => .error (st.refusal t)

end State

end Reader

/-- The schema that a text spells.  A character that is no token is reported
before anything else. -/
def Schema.parse (source : String) : Except ParseError Schema := do
  let tokens ← tokenize source
  (Reader.State.start []).read tokens

end Asdl
