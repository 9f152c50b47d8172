import GitShell.Text.Basic

/-!
# Host — Path

Paths are names with slashes between them.  Several slashes count as one, and a slash or `/.` at the
end adds nothing to what the path names.
-/

namespace GitShell.Path

/-- The parts of a text between the slashes. -/
def names : Text → List Text
  | [] => [[]]
  | c :: r =>
    if c = '/' then [] :: names r
    else
      match names r with
      | [] => [[c]]
      | n :: ns => (c :: n) :: ns

example : names "a//b/".toList = ["a".toList, [], "b".toList, []] := by decide

theorem names_ne_nil (t : Text) : names t ≠ [] := by
  fun_cases names t <;> simp

def isAbsolute : Text → Bool
  | '/' :: _ => true
  | _ => false

/-- The character that no path and no argument of a program can hold. -/
def nul : Char := '\x00'

/-- The most bytes of a name. -/
def nameLimit : Nat := 255

/-- The most bytes of a path, with the one that ends it. -/
def pathLimit : Nat := 4096

/-- A name in a directory. -/
def child (directory name : Text) : Text :=
  match directory.getLast? with
  | none => name
  | some '/' => directory ++ name
  | some _ => directory ++ '/' :: name

/-- A path that starts in a directory, unless it is absolute. -/
def join (directory path : Text) : Text := if isAbsolute path then path else child directory path

/-- The path without the slashes at its end, unless it is the root. -/
def withoutSlashes (path : Text) : Text :=
  let stem := (path.reverse.dropWhile (· = '/')).reverse
  if stem.isEmpty then path else stem

/-- Drops slashes and `/.` from the front of a reversed path, up to the root. -/
def dropTrailing : Text → Text
  | '/' :: c :: r => dropTrailing (c :: r)
  | '.' :: '/' :: r => dropTrailing ('/' :: r)
  | r => r
termination_by r => r.length

theorem length_dropTrailing_le (t : Text) : (dropTrailing t).length ≤ t.length := by
  fun_induction dropTrailing t <;> simp_all <;> omega

/-- A slash stays in front only if it is the root. -/
theorem dropTrailing_eq_slash {t u : Text} (h : dropTrailing t = '/' :: u) : u = [] := by
  fun_induction dropTrailing t with
  | case1 c r ih => exact ih h
  | case2 r ih => exact ih h
  | case3 r h₁ h₂ =>
    cases u with
    | nil => rfl
    | cons c v => exact absurd h (h₁ c v)

/-- The path of the directory that holds what the path names; the root and the empty path have
none. -/
def parent? (path : Text) : Option Text :=
  match dropTrailing path.reverse with
  | [] => none
  | ['/'] => none
  | r => some (dropTrailing (r.dropWhile (· ≠ '/'))).reverse

theorem length_parent?_lt {path parent : Text} (h : parent? path = some parent) :
    parent.length < path.length := by
  have hle := length_dropTrailing_le path.reverse
  unfold parent? at h
  split at h
  · simp at h
  · simp at h
  · next h₀ h₁ =>
    simp only [Option.some.injEq] at h
    subst h
    cases hd : dropTrailing path.reverse with
    | nil => exact absurd hd h₀
    | cons c r =>
      have hc : c ≠ '/' := fun e => by
        subst e
        have := dropTrailing_eq_slash hd
        subst this
        exact h₁ hd
      have h₂ := length_dropTrailing_le (r.dropWhile (· ≠ '/'))
      have h₃ := (List.dropWhile_sublist (l := r) (fun x => decide (x ≠ '/'))).length_le
      rw [hd] at hle
      simp [hc] at hle ⊢
      simp at h₂ h₃
      omega

/-- The path up to its last slash, that slash included; none without a slash. -/
def directoryPart (path : Text) : Option Text :=
  match path.reverse.dropWhile (· ≠ '/') with
  | [] => none
  | r => some r.reverse

end GitShell.Path
