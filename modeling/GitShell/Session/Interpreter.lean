import GitShell.Session.Command
import GitShell.Session.Trace

/-!
# Session — Interpreter

Running a line in a shell: its groups go to the first recognizer that knows them, and what is
remembered about the repository is forgotten afterwards, since the line may have changed it.
-/

namespace GitShell.Shell

/-- What is run for the arguments of a group: `help` with just the name of a command of the shell
asks that command for its description. -/
def resolveHelp : List Text → List Text
  | [help, name] =>
    if help = "help".toList ∧ isInternal name then [name, "--help".toList] else [help, name]
  | arguments => arguments

/-- Runs a name with arguments; what cannot be run is told. -/
def runNamed (M : Metadata InShell) (color : Bool) (name : Text) (arguments : List Text) :
    InShell RunStatus := do
  match ← Recognizer.first M name arguments Recognizer.all with
  | none =>
    onHost (Host.complain (name ++ ": command not found".toList))
    return .exited notFoundCode
  | some command =>
    match ← command.run M color with
    | .ok report =>
      onHost (Host.print report.printed)
      return report.status
    | .error e =>
      onHost (Host.complain e.message)
      return .exited notFoundCode

/-- Runs the arguments of a group; no arguments succeed. -/
def dispatch (s : Settings) (arguments : List Text) : InShell RunStatus :=
  match resolveHelp arguments with
  | [] => return .exited successCode
  | name :: rest => runNamed (metadata s.verbosity) s.color name rest

/-- Runs the arguments of a group, with traces. -/
def run (s : Settings) (arguments : List Text) : InShell RunStatus := do
  onHost (Host.trace s.verbosity ("run: ".toList ++ Trace.ofArguments arguments))
  let status ← dispatch s arguments
  onHost (Host.trace s.verbosity ("status: ".toList ++ Trace.ofStatus status))
  return status

/-- Runs a line. -/
def runLine (s : Settings) (line : Text) : InShell Outcome := do
  onHost (Host.trace s.verbosity
    ("tokens: ".toList ++ Trace.list ((tokenize line).map Trace.ofToken)))
  onHost (Host.trace s.verbosity ("groups: ".toList ++ Trace.ofParse (parse line)))
  let (outcome, report) ← executeLine (run s) s.color line
  onHost (Host.printError report)
  onHost (Host.trace s.verbosity ("outcome: ".toList ++ Trace.ofOutcome outcome))
  forget s.verbosity
  return outcome

end GitShell.Shell
