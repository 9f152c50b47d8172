import GitShell.Text.Order

/-!
# Editing — Narrow

Which candidates are offered for a typed text: those that start with it, the shortest first and
texts of one length in their order, each once, and not more than a limit.
-/

namespace GitShell

/-- The text is shorter, or as long and not later. -/
def shorterFirst (t u : Text) : Bool :=
  t.length < u.length || (t.length == u.length && Text.le t u)

/-- The first candidates that start with what is typed. -/
def narrow (candidates : List Text) (typed : Text) (limit : Nat) : List Text :=
  (Text.sortedSet shorterFirst (candidates.filter typed.isPrefixOf)).take limit

/-- Only given candidates that continue what is typed are offered. -/
theorem mem_of_mem_narrow {candidates : List Text} {typed t : Text} {limit : Nat}
    (h : t ∈ narrow candidates typed limit) : t ∈ candidates ∧ typed <+: t := by
  have := Text.mem_sortedSet.mp (List.mem_of_mem_take h)
  simpa [List.mem_filter] using this

theorem length_narrow_le (candidates : List Text) (typed : Text) (limit : Nat) :
    (narrow candidates typed limit).length ≤ limit := by
  exact List.length_take_le ..

end GitShell
