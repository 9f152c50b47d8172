import GitShell.Editing.Metadata
import GitShell.Line.Basic
import GitShell.Line.Cursor
import GitShell.Text.Paint

/-!
# Editing — Highlight

A line is painted token by token: each has a category, and each category a hue.  The blanks between
the tokens stay as they are.
-/

namespace GitShell

/-- What a part of a line is painted as. -/
inductive Category where
  | join
  | halfJoin
  /-- The quote that opens a string the line does not close. -/
  | unterminatedQuote
  /-- What follows that quote. -/
  | unterminatedContent
  | knownCommand
  | unknownCommand
  | quotedWord
  | option
  | argument
deriving DecidableEq

def Category.hue : Category → Hue
  | .join                => .springGreen
  | .halfJoin            => .orange
  | .unterminatedQuote   => .crimson
  | .unterminatedContent => .green
  | .knownCommand        => .aqua
  | .unknownCommand      => .crimson
  | .quotedWord          => .yellowGreen
  | .option              => .blue
  | .argument            => .slateBlue

variable {m : Type → Type} [Monad m]

/-- The category of a token after `left` that is not unterminated. -/
def categorize (M : Metadata m) (left : List Token) (t : Token) (right : List Token) : m Category :=
  let c := Cursor.on left t right
  if c.isJoin then pure .join
  else if t.kind = .halfJoin then pure .halfJoin
  else if c.isCommand then do
    return if ← M.isCommand t.content then .knownCommand else .unknownCommand
  else if c.isOption && c.optionsAllowed then pure .option
  else if t.quoted then pure .quotedWord
  else pure .argument

/-- The categories of a token: two for an unterminated string with more than its quote. -/
def annotateToken (M : Metadata m) (left : List Token) (t : Token) (right : List Token) :
    m (List (Span × Category)) :=
  if t.kind = .unterminated then
    pure ((⟨t.start, t.start + 1⟩, .unterminatedQuote) ::
      if t.raw.length ≤ 1 then [] else [(⟨t.start + 1, t.stop⟩, .unterminatedContent)])
  else do return [(t.span, ← categorize M left t right)]

/-- The categories of the tokens that follow `left`. -/
def annotateFrom (M : Metadata m) (left : List Token) : List Token → m (List (Span × Category))
  | [] => pure []
  | t :: right => do
    let spans ← annotateToken M left t right
    return spans ++ (← annotateFrom M (t :: left) right)

/-- The parts of a line and what each is painted as, in order. -/
def annotate (M : Metadata m) (line : Text) : m (List (Span × Category)) :=
  annotateFrom M [] (tokenize line)

/-- Paints the parts of a line from the position `n` on. -/
def paintSpans (line : Line) (n : Nat) : List (Span × Category) → Text
  | [] => line.slice ⟨n, line.length⟩
  | (s, category) :: spans =>
    line.slice ⟨n, s.start⟩ ++ paint category.hue (line.slice s) ++ paintSpans line s.stop spans

/-- The line in color, or as it is. -/
def highlight (M : Metadata m) (line : Text) (color : Bool) : m Text :=
  if color then do return paintSpans (Line.ofText line) 0 (← annotate M line)
  else pure line

end GitShell
