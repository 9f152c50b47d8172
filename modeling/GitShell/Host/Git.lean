import GitShell.Text.Basic

/-!
# Host — Git

Git as a shell sees it: a program that is started with arguments, prints, and ends.
-/

namespace GitShell

/-- How a program ended. -/
inductive Ending where
  | exited (code : Int)
  | killed (signal : Nat)
deriving DecidableEq

/-- What a program printed and how it ended. -/
structure Reply where
  out : Text
  err : Text
  ending : Ending
deriving DecidableEq

/-- How git behaves: its reply to the arguments it is started with.  The reply may depend on the
calls made before, the latest first. -/
abbrev Git := (calls : List (List Text)) → (arguments : List Text) → Reply

/-- What a query to git gave. -/
structure Answer where
  /-- Git was there and succeeded. -/
  ok : Bool
  out : Text
deriving DecidableEq

namespace Answer

/-- The answer of a git that cannot be started. -/
def failed : Answer := ⟨false, []⟩

/-- The answer in a reply. -/
def ofReply (r : Reply) : Answer := ⟨r.ending == .exited 0, r.out⟩

/-- The trimmed lines that are not empty then; none if git failed. -/
def lines (a : Answer) : List Text :=
  if a.ok then (a.out.lines.map Text.trim).filter fun l => !l.isEmpty else []

end Answer

end GitShell
