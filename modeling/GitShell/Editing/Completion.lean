import GitShell.Editing.Metadata
import GitShell.Editing.Narrow
import GitShell.Line.Cursor
import GitShell.Line.Scan

/-!
# Editing — Completion

Only the word at the end of a line is completed.  The line alone decides where its candidates come
from (`Plan.ofLine`): a command name, an option of the governing command, a path, or an argument
that depends on the command.  The metadata then gives the candidates.
-/

namespace GitShell

/-- Where the candidates for a word come from. -/
inductive Source where
  | commands
  | options (command : Text)
  | files
  | branches
  | staged
  | unstaged
deriving DecidableEq

/-- The word at the end of a line and where its candidates come from. -/
structure Plan where
  /-- The position of the word. -/
  start : Nat
  /-- The characters of the word. -/
  typed : Text
  source : Source
deriving DecidableEq

/-! ### From the line to the source -/

/-- One of the flags stands among the tokens after the command and before the end of `left`, the
tokens to the left of the word, nearest first. -/
def flagBefore (flags : List Text) (left : List Token) (commandIndex : Nat) : Bool :=
  (left.take (left.length - (commandIndex + 1))).any fun t => flags.contains t.content

/-- Where the arguments of a command come from; `seen` tells whether a flag was given. -/
def argumentSource (command : Text) (seen : List Text → Bool) : Option Source :=
  if command = "add".toList then some .unstaged
  else if ["checkout".toList, "switch".toList, "merge".toList, "rebase".toList, "branch".toList,
      "cherry-pick".toList].contains command then some .branches
  else if command = "diff".toList ∨ command = "restore".toList then
    if seen ["--staged".toList, "--cached".toList] then some .staged else some .unstaged
  else if command = "reset".toList then some .staged
  else if command = "rm".toList ∧ seen ["--cached".toList] then some .staged
  else none

/-- Where the candidates for the token `t` at the end of a line come from. -/
def Source.ofToken (left : List Token) (t : Token) : Option Source :=
  let c := Cursor.on left t []
  if !t.kind.isArgument then none
  else if c.isCommand then some .commands
  else if c.isOption && c.optionsAllowed then
    (c.findLast Cursor.isCommand).map fun d => .options d.content
  else if "./".toList.isPrefixOf t.raw then some .files
  else
    match c.currentCommand with
    | some (.on before command _) =>
      argumentSource command.content fun flags => flagBefore flags left before.length
    | _ => none

/-- What to complete at the end of a line, if anything. -/
def Plan.ofLine (line : Text) : Option Plan :=
  if line.endsInWord then
    match (Cursor.ofTokens (tokenize line)).last with
    | .on left t _ => (Source.ofToken left t).map fun s => ⟨t.start, t.raw, s⟩
    | _ => none
  else none

/-! ### From the source to the candidates -/

variable {m : Type → Type} [Monad m]

/-- The candidates a source has; none for a command name that is complete, and none where a command
has no options. -/
def Source.candidates (M : Metadata m) (typed : Text) (limit : Nat) :
    Source → m (Option (List Text))
  | .commands => do
    if ← M.isCommand typed then return none
    return some (← M.commandNames)
  | .options command => do
    let options ← M.optionPrefixes command
    return if options.isEmpty then none else some options
  | .files => some <$> M.filePaths typed limit
  | .branches => some <$> M.branchNames typed limit
  | .staged => some <$> M.stagedFiles typed limit
  | .unstaged => some <$> M.unstagedFiles typed limit

/-- What the end of a line can be completed to. -/
structure Completion where
  /-- The candidates replace the line from this position on. -/
  start : Nat
  candidates : List Text
deriving DecidableEq

/-- The most candidates that are offered at once. -/
def maxCandidates : Nat := 250

/-- The candidates for the end of a line, at most `limit` of them. -/
def completeAt (M : Metadata m) (line : Text) (limit : Nat) : m (Option Completion) :=
  match Plan.ofLine line with
  | none => pure none
  | some p => do
    return (← p.source.candidates M p.typed limit).map fun found =>
      ⟨p.start, narrow found p.typed limit⟩

/-- The candidates for the end of a line. -/
def complete (M : Metadata m) (line : Text) : m (Option (List Text)) := do
  return (← completeAt M line maxCandidates).map (·.candidates)

end GitShell
