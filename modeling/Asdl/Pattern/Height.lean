/-
How deep a pattern is nested.

Groups, repetitions and classes are one higher than what they hold.  So are things
that stand side by side, if there are at least two.

* `Pile` — the number and the greatest height of things side by side;
* `Pile.height` — the height of all of them;
* `heightLimit` — the height that no pattern exceeds.
-/

namespace Asdl

namespace Pattern

/-- Things side by side. -/
structure Pile where
  count : Nat := 0
  highest : Nat := 0
  deriving DecidableEq, Repr

namespace Pile

/-- One more thing of some height. -/
def push (p : Pile) (height : Nat) : Pile := ⟨p.count + 1, max p.highest height⟩

/-- The height of all of them.  One thing alone is not made higher. -/
def height (p : Pile) : Nat := if p.count ≤ 1 then p.highest else p.highest + 1

end Pile

/-- The height that no pattern exceeds. -/
def heightLimit : Nat := 250

end Pattern

end Asdl
