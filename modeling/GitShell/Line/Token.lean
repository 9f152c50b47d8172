import GitShell.Text.Basic

/-!
# Line — Token

A line is made of blanks and lexemes.  A lexeme keeps the text it was scanned from (`raw`) and the
text it stands for (`content`); a token is a lexeme at its place in a line.
-/

namespace GitShell

/-- A half-open range of character positions. -/
structure Span where
  start : Nat
  stop : Nat
deriving DecidableEq

namespace Span

def length (s : Span) : Nat := s.stop - s.start

def isEmpty (s : Span) : Bool := s.start == s.stop

/-- The span `n` characters further on. -/
def shift (n : Nat) (s : Span) : Span := ⟨s.start + n, s.stop + n⟩

end Span

/-- How a command follows the one before it. -/
inductive Join where
  /-- `&&`: only after success. -/
  | and
  /-- `||`: only after failure. -/
  | or
  /-- `;`: always. -/
  | next
deriving DecidableEq

/-- The text of a join. -/
def Join.text : Join → Text
  | .and  => ['&', '&']
  | .or   => ['|', '|']
  | .next => [';']

/-- What a lexeme is. -/
inductive Kind where
  /-- A word, quoted or not. -/
  | word
  | join (j : Join)
  /-- One `&` or `|` on its own. -/
  | halfJoin
  /-- A quote that the line does not close. -/
  | unterminated
  /-- `--` before a blank: the words after it are no options. -/
  | endOfOptions
deriving DecidableEq

namespace Kind

/-- The kinds that make up arguments. -/
def isArgument : Kind → Bool
  | .word | .endOfOptions => true
  | _ => false

def isJoin : Kind → Bool
  | .join _ => true
  | _ => false

end Kind

/-- A piece of a line that means something. -/
structure Lexeme where
  kind : Kind
  /-- The characters of the line. -/
  raw : Text
  /-- The text without quotes and escapes. -/
  content : Text
  quoted : Bool
deriving DecidableEq

/-- A lexeme that stands for its own characters. -/
def Lexeme.literal (kind : Kind) (raw : Text) : Lexeme := ⟨kind, raw, raw, false⟩

/-- A lexeme at a character position of its line. -/
structure Token extends Lexeme where
  start : Nat
deriving DecidableEq

namespace Token

def stop (t : Token) : Nat := t.start + t.raw.length

def span (t : Token) : Span := ⟨t.start, t.stop⟩

/-- The number of characters from the end of `t` to the start of `u`. -/
def gapTo (t u : Token) : Nat := u.start - t.stop

/-- The token `n` characters further on. -/
def shift (n : Nat) (t : Token) : Token := { t with start := t.start + n }

theorem span_shift (n : Nat) (t : Token) : (t.shift n).span = t.span.shift n := by
  simp [span, shift, stop, Span.shift, Nat.add_right_comm]

end Token

end GitShell
