import GitShell.Internal.Usage
import GitShell.Repository.Query

/-!
# Internal — Alias

The command that lists, sets and removes git aliases.  It works on one scope at a time, so exactly
one of its three flags is given; with a scope, the operand is the command of the alias, and without an
operand the alias is removed.
-/

namespace GitShell

/-- What the alias command takes. -/
def aliasUsage : Usage where
  name := ":alias".toList
  summary := "Create local and global git aliases for common command combinations. ".toList
    ++ "Aliases are stored with git config, so they work outside of gitline too.".toList
  flags :=
    [⟨"--list".toList, none, none, "list all local and global aliases.".toList⟩,
     ⟨"--local".toList, none, some "local".toList,
       "set or unset a local alias for the current repo.".toList⟩,
     ⟨"--global".toList, none, some "global".toList,
       "set or unset a global alias for the current user.".toList⟩]
  operand := some ("command".toList, "the aliased command; the alias is removed when omitted.".toList)

/-- What the alias command is to do. -/
inductive AliasTask where
  | list
  /-- Without a command, the alias is removed. -/
  | write (scope : Scope) (name : Text) (command : Option Text)
deriving DecidableEq

/-- Why the alias command does nothing. -/
inductive AliasRefusal where
  | listTakesNothing
  | notOneFlag
deriving DecidableEq

def AliasRefusal.message : AliasRefusal → Text
  | .listTakesNothing => "--list takes no arguments".toList
  | .notOneFlag => "expected exactly one of --list, --local or --global".toList

namespace AliasTask

/-- The task that a request sets. -/
def ofRequest (r : Request) : Except AliasRefusal AliasTask :=
  match r.has "--list".toList, r.value? "--local".toList, r.value? "--global".toList with
  | true, none, none => if r.operand.isSome then .error .listTakesNothing else .ok .list
  | false, some name, none => .ok (.write .repository name r.operand)
  | false, none, some name => .ok (.write .user name r.operand)
  | _, _, _ => .error .notOneFlag

end AliasTask

/-- One scope of the list, with an empty line after it. -/
def listScope (title : Text) (aliases : Dictionary Text) : Text :=
  Text.line title
    ++ aliases.flatMap (fun (name, command) => Text.line (name ++ "  =>  ".toList ++ command))
    ++ Text.line []

/-- The aliases of both scopes. -/
def Aliases.list (a : Aliases) : Text :=
  listScope "---Local---".toList a.repository ++ listScope "---Global---".toList a.user

/-- What an error of an internal command looks like. -/
def errorLine (message : Text) : Text := Text.line ("error: ".toList ++ message)

/-- Does what a request to the alias command asks: what it prints, and its exit code. -/
def runAlias (r : Request) : OnHost (Text × Int) := do
  match AliasTask.ofRequest r with
  | .error refusal => return (errorLine refusal.message, 1)
  | .ok .list => return ((← Repository.aliases).list, 0)
  | .ok (.write scope name command) =>
    match ← Repository.setAlias scope name command with
    | .ok code => return ([], code)
    | .error e => return (errorLine e.message, 1)

end GitShell
