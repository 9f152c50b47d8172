import GitShell.Chain.Execute
import GitShell.Editing.Highlight
import GitShell.Internal.Alias
import GitShell.Internal.Catalog
import GitShell.Session.Shell

/-!
# Session — Command

What the arguments of a group mean.  Six recognizers are asked in order: the four commands of the
shell by their names, the name of one of them without its colon where nothing else has that name, and
git.  The first that recognizes the arguments makes the command.
-/

namespace GitShell

/-- What a command of the shell takes. -/
def Internal.usage : Internal → Usage
  | .alias => aliasUsage
  | .history =>
    ⟨":history".toList, "Browse your gitline shell history from newest to oldest.".toList, [], none⟩
  | i => ⟨i.name, i.description, [], none⟩

/-- A command, ready to run. -/
inductive Command where
  | alias (request : Request)
  | commands
  | exit
  | history
  /-- Tells why the arguments of a command of the shell were refused. -/
  | explain (i : Internal) (refusal : Refusal)
  | misspelled (name : Text)
  | git (program : Text) (arguments : List Text)

/-- A git that was found but cannot be started. -/
structure StartError where
  program : Text
  cause : StartFault
deriving DecidableEq

def StartError.message (e : StartError) : Text :=
  "failed to run ".toList ++ e.program ++ ": ".toList ++ e.cause.message

/-- What a command of the shell printed, and how it ended. -/
structure Report where
  printed : Text
  status : RunStatus
deriving DecidableEq

/-! ### Recognizing -/

/-- What may recognize arguments. -/
inductive Recognizer where
  | internal (i : Internal)
  | misspelled
  | git
deriving DecidableEq

namespace Recognizer

/-- All of them, in the order in which they are asked. -/
def all : List Recognizer := Internal.all.map internal ++ [misspelled, git]

/-- The command that a request to a command of the shell makes. -/
def commandOf : Internal → Request → Command
  | .alias, r => .alias r
  | .commands, _ => .commands
  | .exit, _ => .exit
  | .history, _ => .history

/-- The command that a name and the arguments after it make, if they are recognized. -/
def recognize (M : Metadata InShell) (r : Recognizer) (name : Text) (arguments : List Text) :
    InShell (Option Command) :=
  match r with
  | .internal i =>
    if name = i.name then
      match i.usage.read arguments with
      | .ok request => pure (some (commandOf i request))
      | .error refusal => pure (some (.explain i refusal))
    else pure none
  | .misspelled =>
    if isInternal (':' :: name) then do
      return if ← M.isCommand name then none else some (.misspelled name)
    else pure none
  | .git => do
    return (← get).host.findProgram.map fun program => .git program (name :: arguments)

/-- The command of the first recognizer that makes one. -/
def first (M : Metadata InShell) (name : Text) (arguments : List Text) :
    List Recognizer → InShell (Option Command)
  | [] => pure none
  | r :: rs => do
    match ← r.recognize M name arguments with
    | some command => return some command
    | none => first M name arguments rs

end Recognizer

/-! ### Running -/

/-- The internal commands with what they do. -/
def internalList : Text :=
  Text.line "gitline internal commands".toList
    ++ Internal.all.flatMap fun i =>
      Text.line ("   ".toList ++ i.name ++ List.replicate (24 - i.name.length) ' ' ++ i.description)

/-- The answer to an internal command without its colon. -/
def misspelledMessage (name : Text) : Text :=
  "gitline: '".toList ++ name ++ "' is not a gitline command. See ':commands'.\n\n".toList
    ++ "The most similar command is\n        :".toList ++ Text.line name

/-- How a command ended whose program did: a program that the user interrupted is killed by signal
2, and any other signal counts as a code. -/
def RunStatus.ofEnding : Ending → RunStatus
  | .exited code => .exited code
  | .killed signal => if signal = 2 then .interrupted else .exited (128 + signal)

/-- The history, each line painted. -/
def showHistory (M : Metadata InShell) (color : Bool) : List Text → InShell Text
  | [] => pure []
  | line :: lines => do
    let painted ← highlight M line color
    return Text.line ("> ".toList ++ painted) ++ (← showHistory M color lines)

/-- Runs a command.  What git prints goes to the host, what the shell prints is returned. -/
def Command.run (M : Metadata InShell) (color : Bool) :
    Command → InShell (Except StartError Report)
  | .alias request => do
    let (printed, code) ← onHost (runAlias request)
    return .ok ⟨printed, .exited code⟩
  | .commands => do
    let external ← onHost Repository.commandDescriptions
    let more := if external.isEmpty then [] else Text.line [] ++ Text.line external
    return .ok ⟨internalList ++ more, .exited successCode⟩
  | .exit => return .ok ⟨[], .exited successCode⟩
  | .history => do
    let printed ← showHistory M color (← get).history.entries
    return .ok ⟨printed, .exited successCode⟩
  | .explain i refusal =>
    let code := if refusal.isError then failureCode else successCode
    return .ok ⟨Text.line (i.usage.explain refusal).trimEnd, .exited code⟩
  | .misspelled name => do
    onHost (Host.printError (misspelledMessage name))
    return .ok ⟨[], .exited failureCode⟩
  | .git program arguments => do
    match (← get).host.checkStart program arguments with
    | .error cause => return .error ⟨program, cause⟩
    | .ok () => return .ok ⟨[], .ofEnding (← onHost (Host.startOpenly arguments))⟩

end GitShell
