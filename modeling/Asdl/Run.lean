/-
Results together with what was reported on the way to them.

* `Run` — a result or a failure, and the events before it;
* `Run.andThen` — one run after another, unless the first one fails.

What was reported before a failure stays reported.
-/
import Asdl.Log

namespace Asdl

/-- A result or a failure, and what was reported on the way to it. -/
structure Run (ε α : Type) where
  events : List Event
  result : Except ε α

namespace Run

variable {ε δ α β : Type}

/-- A result or a failure without reports. -/
def ofExcept (result : Except ε α) : Run ε α := ⟨[], result⟩

/-- Nothing but reports. -/
def report (events : List Event) : Run ε Unit := ⟨events, .ok ()⟩

/-- Goes on with a result, if there is one. -/
def andThen (r : Run ε α) (next : α → Run ε β) : Run ε β :=
  match r.result with
  | .ok a => let s := next a; ⟨r.events ++ s.events, s.result⟩
  | .error e => ⟨r.events, .error e⟩

/-- The same run with another word for its failure. -/
def mapError (f : ε → δ) (r : Run ε α) : Run δ α := ⟨r.events, r.result.mapError f⟩

instance : Monad (Run ε) where
  pure a := ofExcept (.ok a)
  bind := andThen

end Run

end Asdl
