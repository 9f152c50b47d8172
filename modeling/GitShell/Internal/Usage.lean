import GitShell.Text.Basic

/-!
# Internal — Usage

The flags and the operand that a command takes: how they are read from its arguments, and the text
that describes them.

* A flag is a switch or takes the argument after it, whatever that is; a switch may be repeated.
* `--help` or `help` asks for the description, unless `--` came before it.  An argument that is wrong
  goes before the description.
-/

namespace GitShell

/-- A flag, with its names and what it is for. -/
structure Flag where
  long : Text
  short : Option Text
  /-- The name of the value it takes; a switch takes none. -/
  value : Option Text
  description : Text

/-- What a command takes. -/
structure Usage where
  name : Text
  summary : Text
  flags : List Flag
  /-- The name of the operand and what it is for. -/
  operand : Option (Text × Text)

/-- The arguments of a command, by the long names of its flags. -/
structure Request where
  switches : List Text
  values : List (Text × Text)
  operand : Option Text
deriving DecidableEq

namespace Request

def empty : Request := ⟨[], [], none⟩

def has (r : Request) (long : Text) : Bool := r.switches.contains long

def value? (r : Request) (long : Text) : Option Text := r.values.lookup long

end Request

/-- Why arguments make no request. -/
inductive Refusal where
  /-- The description was asked for. -/
  | help
  | noValue (flag : Text)
  | repeated (flag value : Text)
  | unknown (argument : Text)
  /-- A flag after the description was asked for. -/
  | afterHelp
deriving DecidableEq

/-- Asking for the description is no error. -/
def Refusal.isError (r : Refusal) : Bool := r != .help

namespace Usage

/-! ### Reading -/

/-- The flag of a name, long or short. -/
def flag? (u : Usage) (name : Text) : Option Flag :=
  u.flags.find? fun f => f.long == name || f.short == some name

/-- The two ways to ask for the description. -/
def helpNames : List Text := ["--help".toList, "help".toList]

/-- Reads arguments; `help` says that the description was asked for, `ended` that flags have ended. -/
def readFrom (u : Usage) (help ended : Bool) (r : Request) : List Text → Except Refusal Request
  | [] => if help then .error .help else .ok r
  | a :: rest =>
    if !ended && helpNames.contains a then readFrom u true ended r rest
    else if !ended && a.head? == some '-' then
      if a = "--".toList then readFrom u help true r rest
      else if help then .error .afterHelp
      else
        match u.flag? a with
        | none => .error (.unknown a)
        | some f =>
          if f.value.isNone then
            readFrom u help ended { r with switches := f.long :: r.switches } rest
          else
            match rest with
            | [] => .error (.noValue a)
            | v :: rest =>
              if (r.value? f.long).isSome then .error (.repeated a v)
              else readFrom u help ended { r with values := (f.long, v) :: r.values } rest
    else if u.operand.isSome && r.operand.isNone then
      readFrom u help ended { r with operand := some a } rest
    else .error (.unknown a)

/-- Reads the arguments of a command. -/
def read (u : Usage) (arguments : List Text) : Except Refusal Request :=
  readFrom u false false .empty arguments

/-! ### Describing -/

/-- A flag in the first line of the description, by its short name if it has one. -/
def synopsisOf (f : Flag) : Text :=
  let name := f.short.getD f.long
  match f.value with
  | none => " [".toList ++ name ++ "]".toList
  | some value => " [".toList ++ name ++ " <".toList ++ value ++ ">]".toList

/-- A name in the left column and what it is for in the right one. -/
def row (name description : Text) : Text :=
  Text.line ("  ".toList ++ name ++ List.replicate (18 - name.length) ' ' ++ description)

/-- The names of a flag. -/
def namesOf (f : Flag) : Text :=
  match f.short with
  | none => f.long
  | some short => short ++ ", ".toList ++ f.long

/-- The description of a command. -/
def describe (u : Usage) : Text :=
  Text.line ("Usage: ".toList ++ u.name ++ u.flags.flatMap synopsisOf
      ++ (match u.operand with
        | none => []
        | some (name, _) => " [--] [<".toList ++ name ++ ">]".toList))
    ++ Text.line []
    ++ Text.line u.summary
    ++ Text.line []
    ++ (match u.operand with
      | none => []
      | some (name, description) =>
        Text.line "Positional Arguments:".toList ++ row name description ++ Text.line [])
    ++ Text.line "Options:".toList
    ++ u.flags.flatMap (fun f => row (namesOf f) f.description)
    ++ row "--help, help".toList "display usage information".toList

/-- What to tell the user. -/
def explain (u : Usage) : Refusal → Text
  | .help => u.describe
  | .noValue flag => Text.line ("No value provided for option '".toList ++ flag ++ "'.".toList)
  | .repeated flag value =>
    Text.line ("Error parsing option '".toList ++ flag ++ "' with value '".toList ++ value
      ++ "': duplicate values provided".toList)
  | .unknown argument => Text.line ("Unrecognized argument: ".toList ++ argument)
  | .afterHelp => "Trailing arguments are not allowed after `help`.".toList

end Usage

end GitShell
