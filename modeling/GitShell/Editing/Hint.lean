import GitShell.Editing.Metadata
import GitShell.Line.Cursor
import GitShell.Line.Scan
import GitShell.Text.Paint

/-!
# Editing — Hint

A hint shows, after the option being typed, what its documentation says may follow it.
-/

namespace GitShell

/-- The command and the option that end a line, if an option ends it. -/
def typedOption (line : Text) : Option (Text × Text) :=
  if line.endsInWord then
    let c := (Cursor.ofTokens (tokenize line)).last
    if c.isOption && c.optionsAllowed then
      (c.findLast Cursor.isCommand).map fun d => (d.content, c.content)
    else none
  else none

variable {m : Type → Type} [Monad m]

/-- The suffix of the option that ends a line. -/
def hint (M : Metadata m) (line : Text) : m (Option Text) :=
  match typedOption line with
  | none => pure none
  | some (command, option) => do
    return (← M.optionSuffix command option).filter fun suffix => !suffix.isEmpty

/-- A hint is gray. -/
def paintHint (suffix : Text) (color : Bool) : Text := if color then tint .gray suffix else suffix

end GitShell
