import GitShell.Text.Basic
import GitShell.Text.Cluster

/-!
# Text — Backspace

A line that is read may have been typed with corrections: a backspace takes the cluster before it
back.  A backspace with nothing before it does nothing.

* `applyBackspaces_of_not_mem`: a line without backspaces stays as it is.
-/

namespace GitShell

/-- The backspace. -/
def backspace : Char := '\x08'

/-- A line as far as it is typed. -/
structure TypedLine where
  /-- Its characters, the last one first. -/
  reversed : Text
  /-- The sizes of its clusters, the last one first. -/
  sizes : List Nat
deriving DecidableEq

namespace TypedLine

def empty : TypedLine := ⟨[], []⟩

/-- The text without the characters at its front that make up `n` bytes. -/
def dropBytes : Nat → Text → Text
  | 0, t => t
  | _ + 1, [] => []
  | n + 1, c :: r => dropBytes (n + 1 - c.utf8Size) r

/-- The size of a cluster, a number of bytes that is kept in one byte itself. -/
def sizeOf (cluster : Text) : Nat := cluster.byteLength % 256

/-- Types one more cluster. -/
def type (l : TypedLine) (cluster : Text) : TypedLine :=
  if cluster = [backspace] then
    match l.sizes with
    | [] => l
    | n :: sizes => ⟨dropBytes n l.reversed, sizes⟩
  else ⟨cluster.reverse ++ l.reversed, sizeOf cluster :: l.sizes⟩

theorem reversed_foldl_type {clusters : List Text} (h : [backspace] ∉ clusters) (l : TypedLine) :
    (clusters.foldl type l).reversed = clusters.flatten.reverse ++ l.reversed := by
  induction clusters generalizing l with
  | nil => rfl
  | cons g gs ih =>
    simp only [List.mem_cons, not_or] at h
    simp [ih h.2, type, Ne.symm h.1]

end TypedLine

namespace Text

/-- The line that is left when its backspaces have had their effect. -/
def applyBackspaces (t : Text) : Text :=
  (t.clusters.foldl TypedLine.type .empty).reversed.reverse

theorem applyBackspaces_of_not_mem {t : Text} (h : backspace ∉ t) : t.applyBackspaces = t := by
  have hc : [backspace] ∉ t.clusters := fun hm =>
    h (by rw [← flatten_clusters t]; exact List.mem_flatten_of_mem hm (List.mem_singleton_self _))
  simp [applyBackspaces, TypedLine.reversed_foldl_type hc, TypedLine.empty, flatten_clusters]

example : applyBackspaces "ba\x08bd\x08\x08".toList = ['b'] := by decide

end Text

end GitShell
