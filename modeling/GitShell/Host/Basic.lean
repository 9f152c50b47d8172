import GitShell.Host.Environment
import GitShell.Host.Files
import GitShell.Host.Git

/-!
# Host — Basic

What a shell runs on: git, the files, the environment, and what was printed so far.
Git is found through `PATH`.  A query looks for an executable program; a command typed by the user
goes to the first file of the name, and fails to start if that file is not executable.  No program
starts with a NUL in what it is handed over, nor with a text that is too long, nor where the path of
the working directory leads to none.
-/

namespace GitShell

/-- Why a program cannot be started. -/
inductive StartFault where
  /-- It is not there or not to be started, or the directory is not there. -/
  | file (cause : FileError)
  /-- An argument or a variable holds a NUL. -/
  | nulInData
  /-- An argument or a variable is too long. -/
  | tooLong
deriving DecidableEq

/-- What went wrong; the messages of the operating system have its number. -/
def StartFault.message : StartFault → Text
  | .file cause => cause.message
  | .nulInData => "nul byte found in provided data".toList
  | .tooLong => "Argument list too long (os error 7)".toList

/-- The working directory. -/
structure WorkingDirectory where
  /-- Where relative paths start. -/
  place : Place
  /-- The path that the environment has for it.  Git is started in it, and typed paths are joined to
  it. -/
  path : Text

/-- A place alone is where the program itself is. -/
instance : Coe Place WorkingDirectory := ⟨fun place => ⟨place, ['.']⟩⟩

/-- What a shell runs on. -/
structure Host where
  git : Git
  files : FileTree
  workingDirectory : WorkingDirectory
  environment : Environment
  /-- The arguments git was started with, the latest first. -/
  calls : List (List Text)
  stdout : Text
  stderr : Text
  [disk : Disk]

/-- An action on the host. -/
abbrev OnHost := StateM Host

namespace Host

/-- Where relative paths start. -/
abbrev directory (h : Host) : Place := h.workingDirectory.place

/-- A typed path as it is handed to the system. -/
def joined (h : Host) (path : Text) : Text := Path.join h.workingDirectory.path path

/-! ### Printing -/

def print (t : Text) : OnHost Unit := modify fun h => { h with stdout := h.stdout ++ t }

def printError (t : Text) : OnHost Unit := modify fun h => { h with stderr := h.stderr ++ t }

/-! ### Finding git -/

/-- The name of the program. -/
def programName : Text := "git".toList

/-- The directories of `PATH`, in order; none without the variable. -/
def pathEntries (h : Host) : List Text :=
  match h.environment.find? "PATH".toList with
  | none => []
  | some path => split path
where
  split : Text → List Text
    | [] => [[]]
    | c :: r =>
      if c = ':' then [] :: split r
      else
        match split r with
        | [] => [[c]]
        | d :: ds => (c :: d) :: ds

/-- The first regular file of the name in a directory of `PATH`. -/
def findProgram (h : Host) : Option Text :=
  (h.pathEntries.map fun directory => Path.child directory programName).find?
    (h.files.isFile h.directory)

/-- The places where the system looks for a program by its name.  The empty entry is the working
directory.  So is an entry that is too long for a path, unless it is the last one, which is left
out. -/
def searchPlaces : List Text → List Text
  | [] => []
  | [directory] => if isOverlong directory then [] else [placeIn directory]
  | directory :: rest =>
    (if isOverlong directory then programName else placeIn directory) :: searchPlaces rest
where
  isOverlong (directory : Text) : Bool := Path.pathLimit ≤ directory.byteLength
  placeIn (directory : Text) : Text :=
    if directory.isEmpty then programName else directory ++ '/' :: programName

/-- Looks for a program that can be started.  The search goes on where there is none; without one, a
place where starting it was denied counts more than the others, and else the last place. -/
def searchFrom (h : Host) (here : Place) (denied : Bool) (error : FileError) :
    List Text → Except FileError Unit
  | [] => .error (if denied then .denied else error)
  | path :: paths =>
    match h.files.checkProgram here path with
    | .ok () => .ok ()
    | .error .denied => searchFrom h here true .denied paths
    | .error .notFound => searchFrom h here denied .notFound paths
    | .error .notDirectory => searchFrom h here denied .notDirectory paths
    | .error e => .error e

/-- The directory that programs are started in. -/
def startPlace (h : Host) : Except FileError Place := do
  let place ← h.files.resolve h.directory h.workingDirectory.path
  match h.files.find? place with
  | some .directory => return place
  | some _ => throw .notDirectory
  | none => throw (FileTree.absent place)

/-- The program at a path can be started from a directory.  A name without a slash is looked for. -/
def checkProgram (h : Host) (here : Place) (program : Text) : Except FileError Unit :=
  if program.contains '/' then h.files.checkProgram here program
  else h.searchFrom here false .notFound (searchPlaces h.pathEntries)

/-- The texts that a program is started with: its arguments, and the variables as `name=value`. -/
def handedOver (h : Host) (arguments : List Text) : List Text :=
  arguments ++ h.environment.map fun (name, value) => name ++ '=' :: value

/-- The most bytes of a text that a program is started with, with the one that ends it. -/
def handedOverLimit : Nat := 131072

/-- A program can be started with arguments. -/
def checkStart (h : Host) (program : Text) (arguments : List Text) : Except StartFault Unit :=
  if (h.workingDirectory.path :: h.handedOver arguments).any (·.contains Path.nul) then
    .error .nulInData
  else
    match do h.checkProgram (← h.startPlace) program with
    | .error e => .error (.file e)
    | .ok () =>
      if (h.handedOver arguments).any fun t => handedOverLimit ≤ t.byteLength then .error .tooLong
      else .ok ()

/-! ### Starting git -/

/-- Starts git and waits for it. -/
def start (arguments : List Text) : OnHost Reply := do
  let h ← get
  set { h with calls := arguments :: h.calls }
  return h.git h.calls arguments

/-- Starts git and keeps what it prints; a git that cannot be started fails. -/
def query (arguments : List Text) : OnHost Answer := do
  match (← get).checkStart programName arguments with
  | .error _ => return .failed
  | .ok () => return .ofReply (← start arguments)

/-- Starts git and lets it print. -/
def startOpenly (arguments : List Text) : OnHost Ending := do
  let r ← start arguments
  print r.out
  printError r.err
  return r.ending

end Host

end GitShell
