/-
Sections of a header, as machines.

A section is written while the definitions of a model are visited one after the
other, and may have more to write at the end.  Both can fail; what was written
before a failure stays written.

* `Emission` — what is written and reported, and whether it went well;
* `Section` — what is written for a definition and at the end, with a state;
* `Section.walk` — all definitions of a model in order, then the end.
-/
import Asdl.Error
import Asdl.Header.Item
import Asdl.Log

namespace Asdl

namespace Header

/-! ### Emissions -/

/-- What is written and reported, and whether it went well. -/
structure Emission where
  items : List Placed := []
  events : List Event := []
  outcome : Except Violation Unit := .ok ()

namespace Emission

/-- Items at one depth. -/
def ofItems (depth : Nat) (items : List Item) : Emission :=
  { items := items.map (⟨depth, ·⟩) }

/-- Nothing but a failure. -/
def failure (v : Violation) : Emission := { outcome := .error v }

/-- One emission after another, unless the first one fails. -/
def andThen (e next : Emission) : Emission :=
  match e.outcome with
  | .ok () => ⟨e.items ++ next.items, e.events ++ next.events, next.outcome⟩
  | .error _ => e

/-- The emissions of a list in order, up to the first failure. -/
def each {α : Type} (f : α → Emission) : List α → Emission
  | [] => {}
  | a :: rest => (f a).andThen (each f rest)

/-- What is written. -/
def text (e : Emission) : String := renderItems e.items

end Emission

/-! ### Sections -/

/-- A state, and what was written on the way to it. -/
structure Step (σ : Type) where
  state : σ
  emission : Emission := {}

/-- What a section writes for a definition at some depth, and at the end. -/
structure Section (σ : Type) where
  visit : σ → Model.Definition → Nat → Step σ
  finish : σ → Step σ

namespace Section

variable {σ : Type}

/-- Visits definitions in order at depth zero, then comes to the end.  A failure
ends the walk at once. -/
def walkFrom (s : Section σ) (state : σ) : List Model.Definition → Step σ
  | [] => s.finish state
  | d :: rest =>
    let step := s.visit state d 0
    match step.emission.outcome with
    | .error _ => step
    | .ok () =>
      let after := s.walkFrom step.state rest
      ⟨after.state, step.emission.andThen after.emission⟩

/-- Visits all definitions of a model, then comes to the end. -/
def walk (s : Section σ) (state : σ) (m : Model) : Step σ := s.walkFrom state m.definitions

end Section

end Header

end Asdl
