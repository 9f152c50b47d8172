import GitShell.Internal.Usage
import GitShell.Session.Loop
import GitShell.Text.Backspace

/-!
# Session — CommandLine

The program as it is started: its flags choose the settings, and either run one line or a session
over the standard input.
-/

namespace GitShell.CommandLine

/-- What the program takes. -/
def usage : Usage where
  name := "gitline".toList
  summary := "Interactive git shell. Type git subcommands without the `git` prefix and ".toList
    ++ "chain them with `&&`, `||` and `;`.".toList
  flags :=
    [⟨"--debug".toList, none, none, "print tokens, parsed groups and exit codes to stderr".toList⟩,
     ⟨"--quiet".toList, some "-q".toList, none, "hide warnings about history and metadata".toList⟩,
     ⟨"--no-color".toList, none, none, "disable colored prompt and highlighting".toList⟩,
     ⟨"--command".toList, some "-c".toList, some "command".toList,
       "run a single line and exit with its status".toList⟩]
  operand := none

/-- The flags of a request. -/
def flagsOf (r : Request) : Flags :=
  ⟨r.has "--no-color".toList, r.has "--debug".toList, r.has "--quiet".toList⟩

/-- The program reads its standard input when it runs a session. -/
def readsInput (arguments : List Text) : Bool :=
  match usage.read arguments with
  | .ok request => (request.value? "--command".toList).isNone
  | .error _ => false

/-- The settings of a program started with a request. -/
def settingsOf (e : Environment) (r : Request) : Settings :=
  .ofEnvironment e ((e.find? "HOME".toList).filter (!·.isEmpty)) (e.valueOf "XDG_DATA_HOME".toList)
    (flagsOf r)

/-- The terminals that cannot edit lines; on them the prompt is printed. -/
def plainTerminals : List Text := ["dumb".toList, "cons25".toList, "emacs".toList]

/-- The prompt is printed when lines do not come from a terminal. -/
def showsPrompt (e : Environment) : Bool :=
  plainTerminals.contains ((e.valueOf "TERM".toList).map Char.toLower)

/-- The lines of the standard input as they are read, with their corrections made. -/
def linesOf (input : Text) : List Text := input.lines.map Text.applyBackspaces

/-- What the program tells when its arguments are refused, and its exit code. -/
def refuse (r : Refusal) : OnHost Int := do
  if r.isError then
    Host.printError (Text.line (usage.explain r)
      ++ Text.line "Run gitline --help for more information.".toList)
    return 1
  else
    Host.print (Text.line (usage.explain r))
    return 0

/-- Runs the program on arguments and the text of the standard input. -/
def run (arguments : List Text) (input : Text) : InShell Int := do
  match usage.read arguments with
  | .error refusal => onHost (refuse refusal)
  | .ok request =>
    let e := (← get).host.environment
    let s := settingsOf e request
    match request.value? "--command".toList with
    | some line => return (← Shell.runLine s line).exitCode
    | none =>
      Shell.session s (showsPrompt e) (linesOf input)
      return 0

/-- The exit code as the system reports it. -/
def reported (code : Int) : Nat := (code % 256).toNat

end GitShell.CommandLine
