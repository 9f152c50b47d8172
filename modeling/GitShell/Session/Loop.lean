import GitShell.Repository.Status
import GitShell.Session.Interpreter

/-!
# Session — Loop

A session reads lines until they end or one of them leaves.  Before each line the prompt is made,
which asks git.  Blank lines do nothing; every other line is run and enters the history, and a line
that ran is kept in the history file as well.
-/

namespace GitShell

/-- What a session carries from line to line. -/
structure Progress where
  file : HistoryFile
  /-- The code of the last line that was run. -/
  exitCode : Int
deriving DecidableEq

namespace Shell

/-- The prompt before a line; a terminal that edits lines shows it itself. -/
def showPrompt (s : Settings) (shown : Bool) (exitCode : Int) : InShell Unit := do
  let status ← onHost RepositoryStatus.query
  if shown then
    onHost (Host.print (prompt status exitCode s.color))

/-- Keeps a line that ran; a history file that cannot be written does not stop the session. -/
def keep (s : Settings) (file : HistoryFile) (line : Text) : InShell HistoryFile := do
  match ← onHost (file.append line) with
  | .ok file => return file
  | .error e =>
    onHost (Host.warn s.verbosity e.message)
    return file

/-- Runs a line that is not blank; nothing is carried on from a line that leaves. -/
def step (s : Settings) (p : Progress) (line : Text) : InShell (Option Progress) := do
  let outcome ← runLine s line
  modify fun sh => { sh with history := sh.history.push line }
  match outcome with
  | .exit => return none
  | .success code => return some ⟨← keep s p.file line, code⟩
  | .failure code => return some { p with exitCode := code }

/-- Reads lines until they end or one leaves. -/
def readLines (s : Settings) (shown : Bool) (p : Progress) : List Text → InShell Unit
  | [] => showPrompt s shown p.exitCode
  | line :: lines => do
    showPrompt s shown p.exitCode
    if line.allBlank then
      readLines s shown p lines
    else
      match ← step s p line with
      | none => return ()
      | some p => readLines s shown p lines

/-- Loads the history file if there is one.  The editor loads it first, and what it cannot read it
tells with its cause. -/
def loadHistory (s : Settings) : InShell Unit := do
  let sh ← get
  match s.historyPath with
  | none => return ()
  | some path =>
    if sh.host.files.reaches sh.host.directory path then
      match sh.history.load path sh.host with
      | (.ok (), history) => set { sh with history := history }
      | (.error e, _) =>
        onHost (Host.warn s.verbosity ("can't load history from ".toList ++ path ++ ": ".toList
          ++ e.cause.message ++ ": ".toList ++ e.cause.message))

/-- A whole session over the lines that are read. -/
def session (s : Settings) (shown : Bool) (lines : List Text) : InShell Unit := do
  loadHistory s
  readLines s shown ⟨.ofPath s.historyPath, successCode⟩ lines
  onHost (Host.print (Text.line "Have a nice day!".toList))

end Shell

end GitShell
