import GitShell.Text.Basic

/-!
# Internal — Catalog

The commands that the shell runs itself.  Their names start with a colon, which no git command does.
-/

namespace GitShell

/-- The commands of the shell. -/
inductive Internal where
  | alias
  | commands
  | exit
  | history
deriving DecidableEq

namespace Internal

/-- All of them, in the order of their names. -/
def all : List Internal := [.alias, .commands, .exit, .history]

def name : Internal → Text
  | .alias    => ":alias".toList
  | .commands => ":commands".toList
  | .exit     => ":exit".toList
  | .history  => ":history".toList

/-- What the command does. -/
def description : Internal → Text
  | .alias => "Create local and global git aliases for common command combinations.".toList
  | .commands => "List all internal and external commands along with descriptions.".toList
  | .exit => "Gracefully exit the program. This is equivalent to ctrl-c or ctrl-d.".toList
  | .history => "Browse your gitline shell history with syntax highlighting.".toList

/-- The options that are offered, each with its suffix. -/
def options : Internal → List (Text × Text)
  | .alias =>
    [("--global".toList, " <name> [<command>]".toList), ("--list".toList, []),
     ("--local".toList, " <name> [<command>]".toList)]
  | _ => []

/-- The command of a name. -/
def ofName? (name : Text) : Option Internal := all.find? fun i => i.name == name

theorem ofName?_name (i : Internal) : ofName? i.name = some i := by cases i <;> decide

theorem name_injective {i j : Internal} (h : i.name = j.name) : i = j := by
  have hsome : some i = some j := by rw [← ofName?_name i, ← ofName?_name j, h]
  exact Option.some.inj hsome

end Internal

/-- A command of the shell has this name. -/
def isInternal (name : Text) : Bool := (Internal.ofName? name).isSome

theorem isInternal_iff {name : Text} : isInternal name = true ↔ ∃ i : Internal, name = i.name := by
  constructor
  · intro h
    obtain ⟨i, hi⟩ := Option.isSome_iff_exists.mp h
    have hname := List.find?_some (p := fun i : Internal => i.name == name) hi
    exact ⟨i, (beq_iff_eq.mp hname).symm⟩
  · rintro ⟨i, rfl⟩
    rw [isInternal, Internal.ofName?_name]
    rfl

end GitShell
