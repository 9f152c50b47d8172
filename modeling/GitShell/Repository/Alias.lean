import GitShell.Text.Dictionary

/-!
# Repository — Alias

Git aliases by the scope of the configuration they are in.  Git lists them one a line: the scope,
`alias.` and the name, the command, with blanks between them.  A later line for a name and scope
replaces an earlier one.
-/

namespace GitShell

/-- Which configuration an alias is in. -/
inductive Scope where
  /-- Of the repository. -/
  | repository
  /-- Of the user. -/
  | user
deriving DecidableEq

namespace Scope

/-- How git names the scope. -/
def name : Scope → Text
  | .repository => "local".toList
  | .user       => "global".toList

/-- The flag that chooses the scope. -/
def flag (s : Scope) : Text := "--".toList ++ s.name

end Scope

/-- One line of git's list. -/
structure AliasEntry where
  scope : Scope
  name : Text
  command : Text
deriving DecidableEq

namespace AliasEntry

/-- What follows `word` and at least one blank, without those blanks. -/
def afterWord (word t : Text) : Option Text :=
  if word.isPrefixOf t then
    let r := t.drop word.length
    if r.head?.any isBlank then some (Text.trimStart r) else none
  else none

/-- The key of every alias starts with this. -/
def keyStart : Text := "alias.".toList

/-- Reads the name and the command; there are at least two characters after the name, the first of
them a blank. -/
def readKey (scope : Scope) (t : Text) : Option AliasEntry :=
  if keyStart.isPrefixOf t then
    let r := t.drop keyStart.length
    let name := r.takeWhile (!isBlank ·)
    let rest := r.dropWhile (!isBlank ·)
    if !name.isEmpty && 2 ≤ rest.length then some ⟨scope, name, Text.trim rest⟩ else none
  else none

/-- Reads a line; other scopes and other lines give nothing. -/
def ofLine (line : Text) : Option AliasEntry :=
  match afterWord Scope.repository.name line with
  | some r => readKey .repository r
  | none => (afterWord Scope.user.name line).bind (readKey .user)

end AliasEntry

/-- The aliases of both scopes. -/
structure Aliases where
  repository : Dictionary Text
  user : Dictionary Text

namespace Aliases

def empty : Aliases := ⟨[], []⟩

/-- The aliases of a scope. -/
def inScope (a : Aliases) : Scope → Dictionary Text
  | .repository => a.repository
  | .user => a.user

/-- Adds an entry, or replaces the one of its name and scope. -/
def add (a : Aliases) (e : AliasEntry) : Aliases :=
  match e.scope with
  | .repository => { a with repository := a.repository.insert e.name e.command }
  | .user => { a with user := a.user.insert e.name e.command }

/-- Reads git's list. -/
def ofText (t : Text) : Aliases := (t.lines.filterMap AliasEntry.ofLine).foldl add empty

/-- All names, sorted, each once. -/
def names (a : Aliases) : List Text := Text.sortedSet Text.le (a.repository.keys ++ a.user.keys)

end Aliases

end GitShell
