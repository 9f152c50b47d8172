import GitShell.Text.Basic
import GitShell.Text.Hidden

/-!
# Text — Literal

Text between double quotes, as traces show it.  Quotes, backslashes and the usual controls have a
backslash before them; every other character that does not show is written by its code point.
-/

namespace GitShell.Text

/-- A code point in hexadecimal. -/
def hex (n : Nat) : Text := Nat.toDigits 16 n

/-- A character between double quotes. -/
def literalChar (c : Char) : Text :=
  match c with
  | '\x00' => ['\\', '0']
  | '\t' => ['\\', 't']
  | '\r' => ['\\', 'r']
  | '\n' => ['\\', 'n']
  | '"' => ['\\', '"']
  | '\\' => ['\\', '\\']
  | c => if isHidden c then "\\u\x7b".toList ++ hex c.toNat ++ ['}'] else [c]

/-- A text between double quotes. -/
def literal (t : Text) : Text := '"' :: t.flatMap literalChar ++ ['"']

example : literal "a\"é\x1b\n".toList = "\"a\\\"é\\u\x7b1b\x7d\\n\"".toList := by decide +kernel

end GitShell.Text
