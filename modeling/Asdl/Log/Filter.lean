/-
Which events are shown.

A filter is a list of directives.  For each event one of them counts.

* `Filter.shows` — whether an event is shown;
* `Filter.ofText?` — a filter as users write it: directives separated by commas;
* `Filter.ofSetting` — the filter of a setting that may be missing or wrong.
-/
import Asdl.Log.Directive

namespace Asdl

/-- Which events are shown. -/
structure Filter where
  directives : List Directive
  deriving DecidableEq, Repr

namespace Filter

/-- All events up to a level. -/
def upTo (level : Level) : Filter := ⟨[.upTo level]⟩

/-- The directive that counts for an event: of those about the event the one that
says most of it, and of equal ones the last. -/
def directive? (f : Filter) (e : Event) : Option Directive :=
  (f.directives.filter (·.covers e)).foldl (fun best d =>
    match best with
    | none => some d
    | some b => if b.givesWay d then some d else some b) none

/-- Whether an event is shown. -/
def shows (f : Filter) (e : Event) : Bool := (f.directive? e).any (·.admits e)

/-- A filter as users write it.  Without directives only errors are shown. -/
def ofText? (text : String) : Option Filter :=
  match (text.splitOn ",").filter (· != "") with
  | [] => some (upTo .error)
  | parts => (parts.mapM Directive.ofText?).map (⟨·⟩)

/-- The filter of a setting.  If it is missing or wrong, warnings are shown. -/
def ofSetting (setting : Option String) : Filter := (setting.bind ofText?).getD (upTo .warn)

end Filter

end Asdl
