import GitShell.Host.Basic

/-!
# Session — History

The lines entered so far, and the file that keeps the lines that ran.  The file holds one line each;
a line equal to the one written just before, by the same session, is not written again.
-/

namespace GitShell

/-- Why the history file cannot be used. -/
inductive HistoryError where
  | cannotRead (path : Text) (cause : FileError)
  | cannotMake (directory : Text) (cause : FileError)
  | cannotOpen (path : Text) (cause : FileError)
  | cannotWrite (path : Text) (cause : FileError)
deriving DecidableEq

def HistoryError.message : HistoryError → Text
  | .cannotRead path cause =>
    "can't read history file ".toList ++ path ++ ": ".toList ++ cause.message
  | .cannotMake directory cause =>
    "can't create ".toList ++ directory ++ ": ".toList ++ cause.message
  | .cannotOpen path cause =>
    "can't open history file ".toList ++ path ++ ": ".toList ++ cause.message
  | .cannotWrite path cause =>
    "can't write history file ".toList ++ path ++ ": ".toList ++ cause.message

/-- What the system said. -/
def HistoryError.cause : HistoryError → FileError
  | .cannotRead _ cause | .cannotMake _ cause | .cannotOpen _ cause | .cannotWrite _ cause => cause

/-- The lines of a session, the newest first. -/
structure History where
  entries : List Text
deriving DecidableEq

namespace History

def empty : History := ⟨[]⟩

/-- Adds a line unless it repeats the newest one. -/
def push (h : History) (line : Text) : History :=
  if h.entries.head? = some line then h else ⟨line :: h.entries⟩

/-- The lines of a file in place of those before; without the file, no change. -/
def load (h : History) (path : Text) (host : Host) : Except HistoryError Unit × History :=
  match host.files.read host.directory path with
  | .ok content => (.ok (), ⟨content.lines.reverse⟩)
  | .error cause => (.error (.cannotRead path cause), h)

end History

/-- The file that keeps the history. -/
structure HistoryFile where
  path : Option Text
  /-- The line written last. -/
  last : Option Text
deriving DecidableEq

namespace HistoryFile

/-- The file at a path, before anything is written. -/
def ofPath (path : Option Text) : HistoryFile := ⟨path, none⟩

/-- Makes the directory that holds the file. -/
def makeParent (path : Text) : OnHost (Except HistoryError Unit) := do
  let h ← get
  match Path.parent? path with
  | none => return .ok ()
  | some directory =>
    let (made, files) := h.files.makeDirectories h.directory directory
    set { h with files := files }
    match made with
    | .ok () => return .ok ()
    | .error cause => return .error (.cannotMake directory cause)

/-- Opens the file at a path, which is made if it is not there. -/
def openFile (path : Text) : OnHost (Except HistoryError Place) := do
  let h ← get
  match h.files.openFile h.directory path with
  | .ok (place, files) => set { h with files := files }; return .ok place
  | .error cause => return .error (.cannotOpen path cause)

/-- Writes a line to the file that was opened, as far as the disk takes it. -/
def writeLine (path : Text) (place : Place) (line : Text) : OnHost (Except HistoryError Unit) := do
  let h ← get
  let (written, files) := h.files.writeLine place line h.disk.nextWrite
  set { h with files := files, disk := h.disk.afterWrite }
  match written with
  | .ok () => return .ok ()
  | .error cause => return .error (.cannotWrite path cause)

/-- Adds a line unless it was written just before. -/
def append (f : HistoryFile) (line : Text) : OnHost (Except HistoryError HistoryFile) := do
  match f.path with
  | none => return .ok f
  | some path =>
    if f.last = some line then
      return .ok f
    match ← makeParent path with
    | .error e => return .error e
    | .ok () =>
      match ← openFile path with
      | .error e => return .error e
      | .ok place =>
        match ← writeLine path place line with
        | .error e => return .error e
        | .ok () => return .ok { f with last := some line }

end HistoryFile

end GitShell
