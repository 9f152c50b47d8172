import GitShell.Session.CommandLine

/-!
# Main

The program on a real system.  The variables it reads and the history file are taken from the system
before the run and what was printed, and the history file, are given to the system after it.  No git
is found from here: a git comes with the host that a session is run on.
-/

namespace GitShell.Program

/-- The variables that a session reads. -/
def keys : List String :=
  ["HOME", "XDG_DATA_HOME", "TERM", "NO_COLOR", "GITLINE_DEBUG", "GITLINE_HISTORY"]

/-- The variables among them that are set. -/
def readEnvironment : List String → IO Environment
  | [] => return []
  | key :: rest => do
    let e ← readEnvironment rest
    match ← IO.getEnv key with
    | some value => return Dictionary.insert e key.toList value.toList
    | none => return e

/-- The lines of the standard input, with their line ends. -/
partial def readInput (stream : IO.FS.Stream) : IO String := do
  let line ← stream.getLine
  if line.isEmpty then return ""
  return line ++ (← readInput stream)

/-- A host with an environment, and the history file if it can be read. -/
def hostWith (e : Environment) : IO Host := do
  let host : Host := ⟨fun _ _ => ⟨[], [], .exited 1⟩, ⟨[]⟩, ⟨[], ['.']⟩, e, [], [], []⟩
  match (CommandLine.settingsOf e .empty).historyPath with
  | none => return host
  | some path =>
    try
      let content ← IO.FS.readFile (String.ofList path)
      let files := (host.files.makeDirectories [] ((Path.parent? path).getD [])).2
      match files.openFile [] path with
      | .error _ => return host
      | .ok (place, files) =>
        return { host with files := files.put place (.file content.toList false) }
    catch _ => return host

/-- Writes the history file if the run changed it. -/
def keepHistory (before after : Host) : IO Unit := do
  match (CommandLine.settingsOf before.environment .empty).historyPath with
  | none => return ()
  | some path =>
    match before.files.read [] path, after.files.read [] path with
    | old, .ok new =>
      if old.toOption != some new then
        if let some directory := Path.parent? path then
          if !directory.isEmpty then
            IO.FS.createDirAll (String.ofList directory)
        IO.FS.writeFile (String.ofList path) (String.ofList new)
    | _, .error _ => return ()

end GitShell.Program

open GitShell in
def main (arguments : List String) : IO UInt32 := do
  let host ← Program.hostWith (← Program.readEnvironment Program.keys)
  let arguments := arguments.map String.toList
  let input ←
    if CommandLine.readsInput arguments then Program.readInput (← IO.getStdin) else pure ""
  let (code, shell) := (CommandLine.run arguments input.toList).run (.start host)
  (← IO.getStdout).putStr (String.ofList shell.host.stdout)
  (← IO.getStderr).putStr (String.ofList shell.host.stderr)
  Program.keepHistory host shell.host
  return (CommandLine.reported code).toUInt32
