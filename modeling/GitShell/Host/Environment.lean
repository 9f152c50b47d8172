import GitShell.Text.Dictionary

/-!
# Host — Environment

The variables that a program is started with, each a text under a name.
-/

namespace GitShell

/-- The variables by name. -/
abbrev Environment := Dictionary Text

namespace Environment

/-- The value of a variable, empty if it is not set. -/
def valueOf (e : Environment) (key : Text) : Text := (e.find? key).getD []

/-- The variable is set to a value that is not empty. -/
def isFilled (e : Environment) (key : Text) : Bool := !(e.valueOf key).isEmpty

/-- The variable switches something on: its value is neither empty nor `0`. -/
def switchesOn (e : Environment) (key : Text) : Bool := e.isFilled key && e.valueOf key != ['0']

end Environment

end GitShell
