import GitShell.Editing.Completion
import GitShell.Host.Basic

/-!
# Session — Settings

The choices of a session, fixed when it starts from the environment and the flags of the command
line.
-/

namespace GitShell

/-- How much a session tells about itself. -/
inductive Verbosity where
  /-- Errors only. -/
  | quiet
  /-- Errors and warnings. -/
  | normal
  /-- Also what it reads, runs and asks git. -/
  | debug
deriving DecidableEq

/-- To be quiet goes before tracing. -/
def Verbosity.ofFlags (quiet debug : Bool) : Verbosity :=
  if quiet then .quiet else if debug then .debug else .normal

/-- The flags of the command line. -/
structure Flags where
  noColor : Bool
  debug : Bool
  quiet : Bool
deriving DecidableEq

/-- The choices of a session. -/
structure Settings where
  color : Bool
  verbosity : Verbosity
  /-- Where the history is kept; without it, only the session remembers. -/
  historyPath : Option Text
  completionLimit : Nat

namespace Settings

/-- The directory for the data of programs: the one set for it, if absolute, else a fixed one in the
home directory. -/
def dataDirectory (home : Option Text) (dataHome : Text) : Option Text :=
  if Path.isAbsolute dataHome then some dataHome
  else home.map fun directory => Path.child directory ".local/share".toList

/-- The settings from the environment, with the home directory, if there is one, and the directory
set for data. -/
def ofEnvironment (e : Environment) (home : Option Text) (dataHome : Text) (flags : Flags) :
    Settings where
  color := !flags.noColor && !e.isFilled "NO_COLOR".toList
  verbosity := .ofFlags flags.quiet (flags.debug || e.switchesOn "GITLINE_DEBUG".toList)
  historyPath :=
    if e.isFilled "GITLINE_HISTORY".toList then some (e.valueOf "GITLINE_HISTORY".toList)
    else
      (dataDirectory home dataHome).map fun directory =>
        Path.child (Path.child directory "gitline".toList) "history".toList
  completionLimit := maxCandidates

end Settings

/-! ### Diagnostics -/

namespace Host

/-- A line of a trace. -/
def trace (v : Verbosity) (message : Text) : OnHost Unit :=
  if v = .debug then printError (Text.line ("[debug] ".toList ++ message)) else pure ()

def warn (v : Verbosity) (message : Text) : OnHost Unit :=
  if v = .quiet then pure () else printError (Text.line ("gitline: warning: ".toList ++ message))

/-- An error is told in any case. -/
def complain (message : Text) : OnHost Unit :=
  printError (Text.line ("gitline: ".toList ++ message))

end Host

end GitShell
