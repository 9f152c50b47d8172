import GitShell.Line.Token
import GitShell.Text.Paint

/-!
# Chain — LineError

Why a line cannot be run, where, and the report of it: the message, the line, and carets below the
characters that are wrong.
-/

namespace GitShell

/-- What is wrong with a token of a line. -/
inductive Reason where
  | unterminated
  /-- One half of a join, with the join that was meant. -/
  | halfJoin (expected got : Text)
  | leadingJoin (join : Text)
  | trailingJoin (join : Text)
  /-- A join directly after another one. -/
  | missingWord (previous join : Text)
deriving DecidableEq

namespace Reason

/-- The token itself is malformed; otherwise it is only out of place. -/
def isMalformed : Reason → Bool
  | .unterminated | .halfJoin _ _ => true
  | _ => false

/-- What kind of error this is. -/
def stage (r : Reason) : Text := if r.isMalformed then "syntax".toList else "parse".toList

def message : Reason → Text
  | .unterminated => "unterminated string".toList
  | .halfJoin expected got =>
    "expected '".toList ++ expected ++ "' but got '".toList ++ got ++ "' instead".toList
  | .leadingJoin join => "unexpected '".toList ++ join ++ "' to start the line".toList
  | .trailingJoin join => "unexpected '".toList ++ join ++ "' to end the line".toList
  | .missingWord previous join =>
    "expected a string after '".toList ++ previous ++ "' but got '".toList ++ join
      ++ "' instead".toList

end Reason

/-- A token that cannot be run, by its span. -/
structure LineError where
  span : Span
  reason : Reason
deriving DecidableEq

namespace LineError

/-- The error in one line. -/
def summary (e : LineError) : Text :=
  e.reason.stage ++ " error at ".toList ++ Text.ofNat e.span.start ++ "..".toList
    ++ Text.ofNat e.span.stop ++ ": ".toList ++ e.reason.message

/-- One bar, then a text. -/
def bar (t : Text) : Text := Text.line ('|' :: t)

/-- A caret below each character of the span, at least one. -/
def carets (s : Span) : Text :=
  List.replicate s.start ' ' ++ List.replicate (max s.length 1) '^'

/-- The report: the message, an empty bar, the line, and the carets below it. -/
def report (e : LineError) (source : Text) (color : Bool) : Text :=
  bar (' ' :: paintIf color .blue "error>".toList ++ ' ' :: e.reason.message)
    ++ bar []
    ++ bar (' ' :: source)
    ++ bar (' ' :: carets e.span)

example : (report ⟨⟨4, 6⟩, .unterminated⟩ "add 'x".toList false) =
    "| error> unterminated string\n|\n| add 'x\n|     ^^\n".toList := by decide

end LineError

end GitShell
