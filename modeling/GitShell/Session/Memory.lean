import GitShell.Help.Page
import GitShell.Internal.Catalog
import GitShell.Repository.Query

/-!
# Session — Memory

What git said is remembered, so that the editor can ask at every key.  Five lists are kept until they
are forgotten, which happens after each line that was run; the options of a command, read from its
manual page, are kept for good.
-/

namespace GitShell

/-- The lists that are remembered. -/
inductive Topic where
  /-- Git commands, aliases and internal commands. -/
  | commands
  | gitCommands
  | branches
  | stagedFiles
  | unstagedFiles
deriving DecidableEq

namespace Topic

/-- How a trace names the list. -/
def label : Topic → Text
  | .commands      => "command names".toList
  | .gitCommands   => "git commands".toList
  | .branches      => "branches".toList
  | .stagedFiles   => "staged files".toList
  | .unstagedFiles => "unstaged files".toList

/-- Asks git for the list. -/
def ask : Topic → OnHost (List Text)
  | .commands => do
    let names ← Repository.commandNames
    let aliases ← Repository.aliases
    return names ++ aliases.names ++ Internal.all.map Internal.name
  | .gitCommands   => Repository.commandNames
  | .branches      => Repository.branchNames
  | .stagedFiles   => Repository.stagedFiles
  | .unstagedFiles => Repository.unstagedFiles

end Topic

/-- What is remembered. -/
structure Memory where
  known : Topic → Option (List Text)
  /-- The manual pages by command. -/
  pages : Dictionary Help.Page

namespace Memory

def empty : Memory := ⟨fun _ => none, []⟩

/-- Remembers a list. -/
def learn (m : Memory) (topic : Topic) (values : List Text) : Memory :=
  { m with known := fun t => if t = topic then some values else m.known t }

theorem known_learn (m : Memory) (topic : Topic) (values : List Text) (t : Topic) :
    (m.learn topic values).known t = if t = topic then some values else m.known t := rfl

/-- Drops the lists and keeps the pages. -/
def forget (m : Memory) : Memory := { m with known := fun _ => none }

end Memory

end GitShell
