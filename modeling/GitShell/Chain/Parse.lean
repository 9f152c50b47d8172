import GitShell.Line.Scan
import GitShell.Chain.Group
import GitShell.Chain.LineError

/-!
# Chain — Parse

A line is checked as a whole before it is grouped.  The first token, from the left, that cannot stay
where it is makes the error; a line without such a token has its groups.
-/

namespace GitShell

/-- What is wrong with a token, given the token before it and whether it ends the line. -/
def faultOf (previous : Option Token) (t : Token) (isLast : Bool) : Option Reason :=
  match t.kind with
  | .word | .endOfOptions => none
  | .unterminated => some .unterminated
  | .halfJoin => some (.halfJoin (t.raw ++ t.raw) t.raw)
  | .join j =>
    match previous with
    | none => some (.leadingJoin t.raw)
    | some p =>
      if isLast && j != .next then some (.trailingJoin t.raw)
      else if p.kind.isArgument then none
      else some (.missingWord p.raw t.raw)

/-- The first error among the tokens that follow `previous`. -/
def firstError (previous : Option Token) : List Token → Option LineError
  | [] => none
  | t :: ts =>
    match faultOf previous t ts.isEmpty with
    | some reason => some ⟨t.span, reason⟩
    | none => firstError (some t) ts

/-- The groups of the tokens of a line, or their first error. -/
def parseTokens (ts : List Token) : Except LineError (List Group) :=
  match firstError none ts with
  | some e => .error e
  | none => .ok (Group.ofTokens ts)

/-- The groups of a line, or its first error.  A blank line has no groups. -/
def parse (line : Text) : Except LineError (List Group) := parseTokens (tokenize line)

end GitShell
