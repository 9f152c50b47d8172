/-!
# Text — CodePoint

Sets of code points.  A property of characters is given by the code points at which having it and
not having it take turns: the first bound starts the property, the second ends it, and so on.
-/

namespace GitShell

/-- The code point lies between a bound that starts the property and the next one, which ends it. -/
def inTurns : List Nat → Nat → Bool
  | start :: stop :: rest, n => if n < start then false else n < stop || inTurns rest n
  | _, _ => false

example : inTurns [0x41, 0x5B] 0x41 ∧ ¬ inTurns [0x41, 0x5B] 0x5B := by decide

end GitShell
