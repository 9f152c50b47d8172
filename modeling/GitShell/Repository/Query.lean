import GitShell.Host.Basic
import GitShell.Repository.Alias

/-!
# Repository — Query

What git is asked about the repository, and what its answers mean.  A git that is not there or that
fails gives the empty answer.  Writing an alias is the one request that changes something; git
reports its own errors then.
-/

namespace GitShell.Repository

open Host (query)

/-- The arguments of a call. -/
def words (ws : List String) : List Text := ws.map String.toList

def isRepository : OnHost Bool := do
  let a ← query (words ["rev-parse", "--is-inside-work-tree"])
  return a.out.trim == "true".toList

/-- The name of the branch, if git succeeds and names one. -/
def currentBranch : OnHost (Option Text) := do
  let a ← query (words ["rev-parse", "--abbrev-ref", "HEAD"])
  return if a.ok && !a.out.trim.isEmpty then some a.out.trim else none

/-- The lines of the status.  Their first columns matter, so they are not trimmed. -/
def statusLines : OnHost (List Text) := do
  let a ← query (words ["status", "--porcelain"])
  return if a.ok then a.out.lines.filter fun l => !l.isEmpty else []

/-- The commands of git. -/
def commandNames : OnHost (List Text) :=
  Answer.lines <$> query (words ["--list-cmds=main,nohelpers"])

/-- Git's own list of commands with descriptions. -/
def commandDescriptions : OnHost Text := do
  return (← query (words ["help", "--all"])).out.trim

/-- The manual page of a command, if there is one with text. -/
def helpPage (command : Text) : OnHost (Option Text) := do
  let a ← query (words ["help", "--man"] ++ [command])
  return if a.ok && !a.out.trim.isEmpty then some a.out.trim else none

def branchNames : OnHost (List Text) :=
  Answer.lines <$> query (words ["branch", "--format=%(refname:short)"])

def stagedFiles : OnHost (List Text) :=
  Answer.lines <$> query (words ["diff", "--name-only", "--cached"])

def unstagedFiles : OnHost (List Text) :=
  Answer.lines <$> query (words ["ls-files", "--modified", "--others", "--exclude-standard"])

/-- The entries of the directory that a typed path is in, each with that directory before it. -/
def filePaths (typed : Text) : OnHost (List Text) := do
  let h ← get
  match Path.directoryPart typed with
  | none => return []
  | some directory =>
    match h.files.listAt h.directory (h.joined directory) with
    | .error _ => return []
    | .ok names => return names.map fun (name, isDirectory) =>
        directory ++ name ++ if isDirectory then ['/'] else []

/-! ### Aliases -/

/-- The aliases that git lists. -/
def aliases : OnHost Aliases := do
  let a ← query (words ["config", "--show-scope", "--get-regexp", "^alias\\."])
  return if a.ok then .ofText a.out else .empty

/-- Why an alias is not written. -/
inductive AliasError where
  | badName
  | missing (scope : Scope) (name : Text)
  /-- Git cannot be started for the key of the alias. -/
  | noGit (key : Text) (cause : StartFault)
deriving DecidableEq

namespace AliasError

/-- What went wrong. -/
def message : AliasError → Text
  | .badName => "alias name must not be empty or include whitespace".toList
  | .missing scope name =>
    "can't delete nonexistent ".toList ++ scope.flag ++ " alias: ".toList ++ name
  | .noGit key _ => "failed to run git config for ".toList ++ key

/-- What went wrong, with its cause. -/
def fullMessage (e : AliasError) : Text :=
  match e with
  | .noGit _ cause => e.message ++ ": ".toList ++ cause.message
  | _ => e.message

end AliasError

/-- An alias can have this name. -/
def isAliasName (name : Text) : Bool := !name.isEmpty && !name.any isBlank

theorem isAliasName_iff {name : Text} :
    isAliasName name = true ↔ name ≠ [] ∧ ∀ c ∈ name, isBlank c = false := by
  simp [isAliasName]

/-- Such a name is on one line. -/
theorem not_mem_of_isAliasName {name : Text} (h : isAliasName name = true) : '\n' ∉ name :=
  fun hm => absurd ((isAliasName_iff.mp h).2 _ hm) (by decide)

/-- Asks git to change its configuration, and lets it print. -/
def configure (key : Text) (arguments : List Text) : OnHost (Except AliasError Int) := do
  let arguments := "config".toList :: arguments
  match (← get).checkStart Host.programName arguments with
  | .error cause => return .error (.noGit key cause)
  | .ok () =>
    match ← Host.startOpenly arguments with
    | .exited code => return .ok code
    | .killed _ => return .ok 1

/-- Sets an alias, or without a command removes one that is there.  The result is git's exit
code. -/
def setAlias (scope : Scope) (name : Text) (command : Option Text) :
    OnHost (Except AliasError Int) := do
  let key := AliasEntry.keyStart ++ name
  if !isAliasName name then
    return .error .badName
  match command with
  | some command => configure key [scope.flag, key, command]
  | none =>
    if ((← aliases).inScope scope).find? name |>.isNone then
      return .error (.missing scope name)
    configure key [scope.flag, "--unset".toList, key]

end GitShell.Repository
