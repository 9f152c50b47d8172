import GitShell.Chain.Parse

/-!
# Chain — Execute

Running the groups of a line from left to right.  `&&` after a failure skips its own group; `||`
after a success skips every group up to the next `;`.  What runs a group is a parameter: it takes
the arguments, may change a state, and says how the command ended.
-/

namespace GitShell

/-- How a command ended. -/
inductive RunStatus where
  | exited (code : Int)
  /-- The user interrupted it. -/
  | interrupted
deriving DecidableEq

/-- The exit codes with a meaning of their own. -/
def successCode : Int := 0

def failureCode : Int := 1

/-- Nothing could be run. -/
def notFoundCode : Int := 127

/-- How a line ended. -/
inductive Outcome where
  /-- It ran; the code is that of the last command that ran. -/
  | success (code : Int)
  /-- It was rejected before anything ran. -/
  | failure (code : Int)
  /-- The user asked to leave, or interrupted a command. -/
  | exit
deriving DecidableEq

def Outcome.exitCode : Outcome → Int
  | .success code | .failure code => code
  | .exit => successCode

/-- The names that end the session in command position. -/
def exitNames : List Text := [":exit".toList, "exit".toList, "quit".toList]

/-- The group asks to leave. -/
def Group.leaves (g : Group) : Bool := g.name?.any exitNames.contains

variable {σ : Type}

/-- Whether a group is skipped, and whether the groups after it are skipped up to the next `;`,
from the last exit code and whether they are being skipped now. -/
def skips (code : Int) (skipping : Bool) : Join → Bool × Bool
  | .and => (code != successCode || skipping, skipping)
  | .or => (code == successCode || skipping, code == successCode || skipping)
  | .next => (false, false)

/-- Runs the groups that are not skipped. -/
def executeFrom (run : List Text → StateM σ RunStatus) (code : Int) (skipping : Bool) :
    List Group → StateM σ Outcome
  | [] => return .success code
  | g :: gs => do
    let (skipped, skipping) := skips code skipping g.join
    if skipped then
      executeFrom run code skipping gs
    else if g.leaves then
      return .exit
    else
      match ← run g.arguments with
      | .exited code => executeFrom run code skipping gs
      | .interrupted => return .exit

/-- Runs the groups of a line. -/
def executeGroups (run : List Text → StateM σ RunStatus) (gs : List Group) : StateM σ Outcome :=
  executeFrom run successCode false gs

/-- Runs a line, or reports why it cannot be run.  The text is the report. -/
def executeLine (run : List Text → StateM σ RunStatus) (color : Bool) (line : Text) :
    StateM σ (Outcome × Text) :=
  match parse line with
  | .ok gs => do return (← executeGroups run gs, [])
  | .error e => return (.failure notFoundCode, e.report line color)

end GitShell
