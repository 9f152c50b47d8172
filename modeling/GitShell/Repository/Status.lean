import GitShell.Repository.Query
import GitShell.Text.Paint

/-!
# Repository — Status

The state of the repository in short, and the prompt that shows it: the branch, how many entries are
staged and how many are changed in the work tree, and the last exit code if it is not that of success.
-/

namespace GitShell

/-- The branch of a repository and its counts of changes. -/
structure RepositoryStatus where
  branch : Text
  staged : Nat
  unstaged : Nat
deriving DecidableEq

namespace RepositoryStatus

/-- The lines with an upper-case letter in a column. -/
def countColumn (n : Nat) (lines : List Text) : Nat :=
  lines.countP fun l => l[n]?.any Char.isUpper

/-- The status from the lines that git gives: the first column is the index, the second the work
tree. -/
def ofLines (branch : Text) (lines : List Text) : RepositoryStatus :=
  ⟨branch, countColumn 0 lines, countColumn 1 lines⟩

/-- Asks git; there is no status outside of a repository or without a branch. -/
def query : OnHost (Option RepositoryStatus) := do
  if ← Repository.isRepository then
    match ← Repository.currentBranch with
    | none => return none
    | some branch => return some (ofLines branch (← Repository.statusLines))
  else
    return none

/-- The part of the prompt between the parentheses. -/
def render (s : RepositoryStatus) (color : Bool) : Text :=
  paintIf color .slateBlue s.branch ++ '|' ::
    ((if s.staged = 0 ∧ s.unstaged = 0 then paintIf color .green "✔".toList else [])
      ++ (if 0 < s.staged then paintIf color .yellowGreen ('●' :: Text.ofNat s.staged) else [])
      ++ (if 0 < s.unstaged then paintIf color .blue ('+' :: Text.ofNat s.unstaged) else []))

end RepositoryStatus

/-- The prompt. -/
def prompt (status : Option RepositoryStatus) (exitCode : Int) (color : Bool) : Text :=
  paintIf color .aqua "gitline".toList
    ++ (match status with
      | none => []
      | some s => '(' :: s.render color ++ [')'])
    ++ (if exitCode = 0 then []
      else paintIf color .crimson ('[' :: Text.ofInt exitCode ++ [']']))
    ++ "> ".toList

example : prompt (some ⟨"main".toList, 2, 0⟩) 1 false = "gitline(main|●2)[1]> ".toList := by decide

end GitShell
