import GitShell.Text.Basic

/-!
# Editing — Metadata

What the line editor asks about the repository.  An answer may have effects of its own, such as
starting git and remembering what it said, so the questions are posed in a monad; where the answers
are known in advance it is `Id`.

The typed text and the limit that come with a question are hints: the editor filters and cuts the
answer itself.
-/

namespace GitShell

/-- The questions of the line editor. -/
structure Metadata (m : Type → Type) where
  /-- Git commands, aliases and internal commands. -/
  commandNames : m (List Text)
  isCommand (name : Text) : m Bool
  /-- The options of a command, such as `--stat` or `-p`. -/
  optionPrefixes (command : Text) : m (List Text)
  /-- What follows an option in its documentation, such as `=<when>`. -/
  optionSuffix (command option : Text) : m (Option Text)
  branchNames (typed : Text) (limit : Nat) : m (List Text)
  stagedFiles (typed : Text) (limit : Nat) : m (List Text)
  unstagedFiles (typed : Text) (limit : Nat) : m (List Text)
  /-- The entries of the directory that a typed path is in; directories end with `/`. -/
  filePaths (typed : Text) (limit : Nat) : m (List Text)

/-- Answers known in advance. -/
structure Snapshot where
  commands : List Text
  /-- The options of each command, each with its suffix. -/
  options : List (Text × List (Text × Text))
  branches : List Text
  staged : List Text
  unstaged : List Text
  files : List Text

/-- The options of one command. -/
def Snapshot.optionsOf (s : Snapshot) (command : Text) : List (Text × Text) :=
  (s.options.lookup command).getD []

/-- Answers every question with the whole list. -/
def Snapshot.metadata {m : Type → Type} [Monad m] (s : Snapshot) : Metadata m where
  commandNames := pure s.commands
  isCommand name := pure (s.commands.contains name)
  optionPrefixes command := pure ((s.optionsOf command).map (·.1))
  optionSuffix command option := pure ((s.optionsOf command).lookup option)
  branchNames _ _ := pure s.branches
  stagedFiles _ _ := pure s.staged
  unstagedFiles _ _ := pure s.unstaged
  filePaths _ _ := pure s.files

end GitShell
