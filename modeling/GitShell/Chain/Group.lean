import GitShell.Line.Token

/-!
# Chain — Group

A group is one command of a line: its arguments and how it follows the group before it.  The groups
of a line are the blocks of tokens between its joins.  Within a block, words with no blank between
them are one argument.
-/

namespace GitShell

/-- One command of a line. -/
structure Group where
  join : Join
  arguments : List Text
deriving DecidableEq

/-- The first argument. -/
def Group.name? (g : Group) : Option Text := g.arguments.head?

/-- The arguments that the tokens of a block write. -/
def argumentsOf : List Token → List Text
  | [] => []
  | [t] => [t.content]
  | t :: u :: ts =>
    if t.gapTo u = 0 then
      match argumentsOf (u :: ts) with
      | [] => [t.content]
      | a :: as => (t.content ++ a) :: as
    else t.content :: argumentsOf (u :: ts)

/-- The tokens before the first join, then each join with the tokens after it.  A `;` at the very
end joins nothing. -/
def blocks : List Token → List Token × List (Join × List Token)
  | [] => ([], [])
  | t :: ts =>
    let (b, bs) := blocks ts
    match t.kind with
    | .join j => if j = .next ∧ ts = [] then ([], []) else ([], (j, b) :: bs)
    | _ => (t :: b, bs)

/-- The groups of a line.  The first one follows nothing, as after `;`. -/
def Group.ofTokens (ts : List Token) : List Group :=
  if ts.isEmpty then []
  else ((.next, (blocks ts).1) :: (blocks ts).2).map fun (j, b) => ⟨j, argumentsOf b⟩

end GitShell
