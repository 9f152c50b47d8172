import GitShell.Host.Path

/-!
# Host — Files

The files that a shell sees: a tree of directories, held as the entries by their path from the root.
A path in text is walked name by name from the working directory: `.` and an empty name stay, `..`
goes up, any other name has to be there, and to be a directory when more follows.

A path is refused as a whole if it holds a NUL or is too long; a name is refused for its length only
when the walk comes to look for it.

What is written to a file need not get there as a whole: the disk may fail after some bytes, and these
stay at the end of the file (`Write`, `Disk`).
-/

namespace GitShell

/-- What may be wrong with a path or a file. -/
inductive FileError where
  | notFound
  | deviceFailed
  | denied
  | alreadyExists
  | notDirectory
  | isDirectory
  /-- The file does not take what is written to it. -/
  | invalid
  | noSpace
  /-- The path, or a name in it. -/
  | nameTooLong
  /-- The path holds a NUL. -/
  | nulInPath
  /-- The bytes of the file are no text. -/
  | noText
deriving DecidableEq

/-- What went wrong; the messages of the operating system have its number. -/
def FileError.message : FileError → Text
  | .notFound      => "No such file or directory (os error 2)".toList
  | .deviceFailed  => "Input/output error (os error 5)".toList
  | .denied        => "Permission denied (os error 13)".toList
  | .alreadyExists => "File exists (os error 17)".toList
  | .notDirectory  => "Not a directory (os error 20)".toList
  | .isDirectory   => "Is a directory (os error 21)".toList
  | .invalid       => "Invalid argument (os error 22)".toList
  | .noSpace       => "No space left on device (os error 28)".toList
  | .nameTooLong   => "File name too long (os error 36)".toList
  | .nulInPath     => "file name contained an unexpected NUL byte".toList
  | .noText        => "stream did not contain valid UTF-8".toList

/-- What stands at a path. -/
inductive Entry where
  | file (content : Text) (executable : Bool)
  /-- A file whose bytes are no text, whatever is written after them. -/
  | garbled (executable : Bool)
  /-- A number that the system keeps, such as those of a process.  A number written to it takes its
  place if it is not above the greatest. -/
  | setting (greatest number : Nat)
  | directory
  /-- A device that is empty and drops what is written to it. -/
  | sink
deriving DecidableEq

/-- What becomes of a line that is written to a file. -/
inductive Write where
  | whole
  /-- The system takes some bytes and then fails. -/
  | cut (bytes : Nat) (cause : FileError)
deriving DecidableEq

/-- What becomes of the lines that are written to files, one after the other; those after them are
written whole.  A class, so that a host that does not say it takes all that is written. -/
class Disk where
  writes : List Write

instance : Disk := ⟨[]⟩

namespace Disk

/-- What becomes of the next line. -/
def nextWrite (d : Disk) : Write := d.writes.head?.getD .whole

/-- The disk after the next line. -/
abbrev afterWrite (d : Disk) : Disk := ⟨d.writes.tail⟩

end Disk

namespace Entry

def isDirectory : Entry → Bool
  | .directory => true
  | _ => false

/-- A regular file, as the system tells them from directories and devices. -/
def isFile : Entry → Bool
  | .file .. | .garbled _ | .setting .. => true
  | .directory | .sink => false

/-- What is read of it. -/
def read : Entry → Except FileError Text
  | .file content _ => .ok content
  | .garbled _ => .error .noText
  | .setting _ number => .ok (Text.line (Text.ofNat number))
  | .directory => .error .isDirectory
  | .sink => .ok []

/-- The file with a text at its end. -/
def add (addition : Text) : Entry → Entry
  | .file content executable => .file (content ++ addition) executable
  | e => e

/-- The file when its bytes are no text any more. -/
def garble : Entry → Entry
  | .file _ executable => .garbled executable
  | e => e

/-- The file with a part of a text at its end.  Without one, these are bytes that end within a
character. -/
def addPart (piece : Option Text) (e : Entry) : Entry :=
  match piece with
  | some piece => e.add piece
  | none => e.garble

/-- Adds a text at the end of a file: whether that fails, and the file after it. -/
def write (addition : Text) (e : Entry) : Write → Except FileError Unit × Entry
  | .whole => (.ok (), e.add addition)
  | .cut bytes cause =>
    if bytes < addition.byteLength then
      (.error cause, e.addPart ((addition.splitAtByte bytes).map (·.1)))
    else (.ok (), e.add addition)

/-- Writes a line with its end to the end of a file.  A setting takes the line for a number, and then
its end is no number. -/
def writeLine (line : Text) (w : Write) : Entry → Except FileError Unit × Entry
  | .directory => (.error .isDirectory, .directory)
  | .sink => (.ok (), .sink)
  | .setting greatest number =>
    (.error .invalid, .setting greatest ((line.toNat?.filter (· ≤ greatest)).getD number))
  | .file content executable => (Entry.file content executable).write (Text.line line) w
  | .garbled executable => (Entry.garbled executable).write (Text.line line) w

end Entry

/-- A place in the tree: the names from the root to it. -/
abbrev Place := List Text

/-- A tree of files. -/
structure FileTree where
  entries : List (Place × Entry)

namespace FileTree

/-- What stands at a place; the root is a directory. -/
def find? (t : FileTree) (p : Place) : Option Entry :=
  if p.isEmpty then some .directory else t.entries.lookup p

/-- Puts an entry at a place. -/
def put (t : FileTree) (p : Place) (e : Entry) : FileTree :=
  ⟨(p, e) :: t.entries.filter fun q => q.1 != p⟩

/-- The names in a directory, each with whether it is a directory itself. -/
def list (t : FileTree) (p : Place) : List (Text × Bool) :=
  t.entries.filterMap fun (q, e) =>
    match q.getLast? with
    | some name => if q.dropLast = p then some (name, e.isDirectory) else none
    | none => none

/-! ### Walking -/

/-- The last name of a place is longer than a name can be. -/
def isNamedTooLong (p : Place) : Bool :=
  p.getLast?.any fun name => Path.nameLimit < Text.byteLength name

/-- Why nothing is found at a place where nothing stands. -/
def absent (p : Place) : FileError := if isNamedTooLong p then .nameTooLong else .notFound

/-- The place that `names` lead to from the directory `here`.  The last name need not be there. -/
def walk (t : FileTree) (here : Place) : List Text → Except FileError Place
  | [] => .ok here
  | name :: rest =>
    if name = [] ∨ name = ['.'] then walk t here rest
    else if name = ['.', '.'] then walk t here.dropLast rest
    else if rest.isEmpty then .ok (here ++ [name])
    else
      match t.find? (here ++ [name]) with
      | none => .error (absent (here ++ [name]))
      | some .directory => walk t (here ++ [name]) rest
      | some _ => .error .notDirectory

/-- A path that can be walked: it holds no NUL, is not empty and not too long. -/
def checkPath (path : Text) : Except FileError Unit :=
  if path.contains Path.nul then .error .nulInPath
  else if path.isEmpty then .error .notFound
  else if Path.pathLimit ≤ path.byteLength then .error .nameTooLong
  else .ok ()

/-- The place a path leads to from a working directory. -/
def resolve (t : FileTree) (here : Place) (path : Text) : Except FileError Place := do
  checkPath path
  walk t (if Path.isAbsolute path then [] else here) (Path.names path)

/-- What a path names. -/
def at? (t : FileTree) (here : Place) (path : Text) : Except FileError Entry := do
  let p ← t.resolve here path
  match t.find? p with
  | some e => return e
  | none => throw (absent p)

def isFile (t : FileTree) (here : Place) (path : Text) : Bool :=
  match t.at? here path with
  | .ok e => e.isFile
  | .error _ => false

def isDirectory (t : FileTree) (here : Place) (path : Text) : Bool :=
  match t.at? here path with
  | .ok .directory => true
  | _ => false

/-- Something is there. -/
def reaches (t : FileTree) (here : Place) (path : Text) : Bool := (t.at? here path).isOk

/-- A program can be started from this path. -/
def checkProgram (t : FileTree) (here : Place) (path : Text) : Except FileError Unit := do
  match ← t.at? here path with
  | .file _ true | .garbled true => return ()
  | _ => throw .denied

/-- The names in the directory at a path. -/
def listAt (t : FileTree) (here : Place) (path : Text) : Except FileError (List (Text × Bool)) := do
  let p ← t.resolve here path
  match t.find? p with
  | some .directory => return t.list p
  | some _ => throw .notDirectory
  | none => throw (absent p)

/-! ### Reading and writing -/

/-- The content of the file at a path. -/
def read (t : FileTree) (here : Place) (path : Text) : Except FileError Text := do
  (← t.at? here path).read

/-- Makes the directory at a path; what it is in has to be there.  The path may end in slashes. -/
def makeDirectory (t : FileTree) (here : Place) (path : Text) : Except FileError FileTree := do
  checkPath path
  let p ← t.resolve here (Path.withoutSlashes path)
  match t.find? p with
  | some _ => throw .alreadyExists
  | none => if isNamedTooLong p then throw .nameTooLong else return t.put p .directory

/-- Makes the directory at a path, and before it those it is in as far as they are not there.  What
was made stays when one of them cannot be made; the empty path needs none. -/
def makeDirectories (t : FileTree) (here : Place) (path : Text) :
    Except FileError Unit × FileTree :=
  if path.isEmpty then (.ok (), t)
  else
    match t.makeDirectory here path with
    | .ok t => (.ok (), t)
    | .error .notFound =>
      match _h : Path.parent? path with
      | none => (.error .notFound, t)
      | some parent =>
        match makeDirectories t here parent with
        | (.ok (), t) => settle t (t.makeDirectory here path)
        | failed => failed
    | .error e => settle t (.error e)
termination_by path.length
decreasing_by exact Path.length_parent?_lt _h
where
  /-- A directory that is there need not be made. -/
  settle (t : FileTree) : Except FileError FileTree → Except FileError Unit × FileTree
    | .ok t => (.ok (), t)
    | .error e => if t.isDirectory here path then (.ok (), t) else (.error e, t)

/-- Opens the file at a path to add to it: its place, and the tree with the file, which is made if it
is not there.  A path that ends in a slash is no file. -/
def openFile (t : FileTree) (here : Place) (path : Text) : Except FileError (Place × FileTree) := do
  checkPath path
  let p ← t.resolve here (Path.withoutSlashes path)
  if path.getLast? = some '/' then
    throw .isDirectory
  match t.find? p with
  | some .directory => throw .isDirectory
  | some _ => return (p, t)
  | none => if isNamedTooLong p then throw .nameTooLong else return (p, t.put p (.file [] false))

/-- Writes a line with its end to the file at a place. -/
def writeLine (t : FileTree) (p : Place) (line : Text) (w : Write) :
    Except FileError Unit × FileTree :=
  match t.find? p with
  | none => (.error .notFound, t)
  | some e => ((e.writeLine line w).1, t.put p (e.writeLine line w).2)

end FileTree

end GitShell
