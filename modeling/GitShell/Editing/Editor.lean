import GitShell.Editing.Completion
import GitShell.Editing.Highlight
import GitShell.Editing.Hint

/-!
# Editing — Editor

What a line editor shows for a line and a cursor in it.  The editor counts bytes; a position is
between two characters of the line.
-/

namespace GitShell

/-- The choices of an editor. -/
structure Editor (m : Type → Type) where
  metadata : Metadata m
  color : Bool
  limit : Nat

namespace Editor

variable {m : Type → Type} [Monad m]

/-- The candidates for the text before the byte position `position`, and the byte position they
replace it from: without a completion, none at the end of that text. -/
def complete (e : Editor m) (line : Text) (position : Nat) : m (Nat × List Text) :=
  let typed := ((line.splitAtByte position).map (·.1)).getD line
  do
    match ← completeAt e.metadata typed e.limit with
    | some c => return (Text.byteLength (typed.take c.start), c.candidates)
    | none => return (typed.byteLength, [])

/-- A hint is shown only at the end of the line. -/
def hint (e : Editor m) (line : Text) (position : Nat) : m (Option Text) :=
  if position < line.byteLength then pure none else GitShell.hint e.metadata line

def highlight (e : Editor m) (line : Text) : m Text := GitShell.highlight e.metadata line e.color

/-- How a hint is shown. -/
def paintHint (e : Editor m) (suffix : Text) : Text := GitShell.paintHint suffix e.color

/-- Every key may change how earlier tokens are painted. -/
def repaints (e : Editor m) : Bool := e.color

end Editor

end GitShell
