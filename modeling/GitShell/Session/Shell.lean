import GitShell.Editing.Metadata
import GitShell.Editing.Narrow
import GitShell.Session.History
import GitShell.Session.Memory
import GitShell.Session.Settings

/-!
# Session — Shell

A shell at work, and how it answers the questions of the editor: from memory where it can, else by
asking git and remembering the answer.

* `Shell.consult`: a list is asked of git only when it is not known.
* `Shell.metadata`: the questions of the editor.
-/

namespace GitShell

/-- A shell at work: what it runs on, what it remembers, and the lines entered so far. -/
structure Shell where
  host : Host
  memory : Memory
  history : History

/-- An action of the shell. -/
abbrev InShell := StateM Shell

/-- An action on the host is an action of the shell. -/
def onHost {α : Type} (action : OnHost α) : InShell α := fun s =>
  let (a, h) := action.run s.host
  (a, { s with host := h })

namespace Shell

/-- A shell that remembers nothing yet. -/
def start (h : Host) : Shell := ⟨h, .empty, .empty⟩

/-- Drops the remembered lists. -/
def forget (v : Verbosity) : InShell Unit := do
  onHost (Host.trace v "clearing git metadata".toList)
  modify fun s => { s with memory := s.memory.forget }

/-- A list, from memory if it is known. -/
def consult (v : Verbosity) (topic : Topic) : InShell (List Text) := do
  match (← get).memory.known topic with
  | some values => return values
  | none =>
    onHost (Host.trace v ("loading ".toList ++ topic.label))
    let values ← onHost topic.ask
    modify fun s => { s with memory := s.memory.learn topic values }
    return values

/-- The manual page of a git command, from memory if it is known. -/
def consultPage (v : Verbosity) (command : Text) : InShell (Option Help.Page) := do
  if !(← consult v .gitCommands).contains command then
    return none
  match (← get).memory.pages.find? command with
  | some page => return some page
  | none =>
    onHost (Host.trace v ("loading help page for ".toList ++ command))
    let text ← onHost (Repository.helpPage command)
    let page := (text.map Help.Page.ofText).getD .empty
    modify fun s =>
      { s with memory := { s.memory with pages := s.memory.pages.insert command page } }
    return some page

/-- The options of a command. -/
def optionFlags (v : Verbosity) (command : Text) : InShell (List Text) := do
  match Internal.ofName? command with
  | some i => return i.options.map (·.1)
  | none => return ((← consultPage v command).map (·.flags)).getD []

/-- The suffix of an option of a command, if it has one. -/
def optionSuffix (v : Verbosity) (command option : Text) : InShell (Option Text) := do
  match Internal.ofName? command with
  | some i => return (i.options.find? fun o => o.1 == option && !o.2.isEmpty).map (·.2)
  | none => return (← consultPage v command).bind fun page => page.suffix? option

/-- The questions of the editor. -/
def metadata (v : Verbosity) : Metadata InShell where
  commandNames := consult v .commands
  isCommand name := do return (← consult v .commands).contains name
  optionPrefixes := optionFlags v
  optionSuffix := optionSuffix v
  branchNames typed limit := do return narrow (← consult v .branches) typed limit
  stagedFiles typed limit := do return narrow (← consult v .stagedFiles) typed limit
  unstagedFiles typed limit := do return narrow (← consult v .unstagedFiles) typed limit
  filePaths typed limit := do
    return narrow (← onHost (Repository.filePaths typed)) typed limit

end Shell

end GitShell
