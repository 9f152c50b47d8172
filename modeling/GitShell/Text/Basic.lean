/-!
# Text — Basic

Text is a list of characters, so a position in it counts characters and not bytes.  Blank
characters are the white space of Unicode: they separate the words of a line, and are trimmed
from what git prints.

* `Text.lines`: a line ends at a line feed, and a carriage return right before that line feed
  belongs to the line end.
* `Text.splitAtByte`: a byte position of the UTF-8 encoding cuts a text only between two
  characters.
-/

namespace GitShell

/-- A text, as its characters in order. -/
abbrev Text := List Char

/-! ### Blank characters -/

/-- The code points of Unicode's `White_Space`. -/
def blankRanges : List (Nat × Nat) :=
  [(0x09, 0x0D), (0x20, 0x20), (0x85, 0x85), (0xA0, 0xA0), (0x1680, 0x1680), (0x2000, 0x200A),
   (0x2028, 0x2029), (0x202F, 0x202F), (0x205F, 0x205F), (0x3000, 0x3000)]

/-- A character that separates words. -/
def isBlank (c : Char) : Bool :=
  blankRanges.any fun r => r.1 ≤ c.toNat && c.toNat ≤ r.2

example : isBlank ' ' ∧ isBlank '\n' ∧ isBlank '\u00a0' ∧ ¬ isBlank '\u200b' := by decide

namespace Text

/-- A text of blank characters only. -/
def allBlank (t : Text) : Bool := t.all isBlank

def trimStart (t : Text) : Text := t.dropWhile isBlank

def trimEnd (t : Text) : Text := (t.reverse.dropWhile isBlank).reverse

/-- The text without the blank characters at its two ends. -/
def trim (t : Text) : Text := trimEnd (trimStart t)

/-- The last character is there and is no blank: a word is being typed. -/
def endsInWord (t : Text) : Bool :=
  match t.getLast? with
  | none => false
  | some c => !isBlank c

/-! ### Lines -/

/-- The lines of a text; a final line need not be ended. -/
def lines : Text → List Text
  | [] => []
  | '\n' :: r => [] :: lines r
  | '\r' :: '\n' :: r => [] :: lines r
  | c :: r =>
    match lines r with
    | [] => [[c]]
    | l :: ls => (c :: l) :: ls

example : lines "a\r\n\nb\r".toList = ["a".toList, [], "b\r".toList] := by decide

/-- The text with a line end. -/
def line (t : Text) : Text := t ++ ['\n']

/-- Texts with `sep` between each two. -/
def join (sep : Text) : List Text → Text
  | [] => []
  | [t] => t
  | t :: u :: ts => t ++ sep ++ join sep (u :: ts)

/-! ### Bytes -/

/-- The length of the UTF-8 encoding. -/
def byteLength : Text → Nat
  | [] => 0
  | c :: r => c.utf8Size + byteLength r

/-- The text before and after a byte position, if that position is between characters. -/
def splitAtByte : Nat → Text → Option (Text × Text)
  | 0, t => some ([], t)
  | _ + 1, [] => none
  | n + 1, c :: r =>
    if c.utf8Size ≤ n + 1 then
      (splitAtByte (n + 1 - c.utf8Size) r).map fun (a, b) => (c :: a, b)
    else none

theorem byteLength_append (t u : Text) : byteLength (t ++ u) = byteLength t + byteLength u := by
  induction t with
  | nil => simp [byteLength]
  | cons c r ih => simp [byteLength, ih, Nat.add_assoc]

theorem splitAtByte_append (t u : Text) : splitAtByte (byteLength t) (t ++ u) = some (t, u) := by
  induction t with
  | nil => cases u <;> rfl
  | cons c r ih =>
    have hc : 0 < c.utf8Size := c.utf8Size_pos
    obtain ⟨n, hn⟩ : ∃ n, c.utf8Size + byteLength r = n + 1 :=
      ⟨c.utf8Size + byteLength r - 1, by omega⟩
    have h : n + 1 - c.utf8Size = byteLength r := by omega
    simp [byteLength, splitAtByte, hn, h, ih, show c.utf8Size ≤ n + 1 by omega]

/-- A position between two characters is the length of what is before it. -/
theorem eq_of_splitAtByte {n : Nat} {t a b : Text} (h : splitAtByte n t = some (a, b)) :
    t = a ++ b ∧ n = byteLength a := by
  induction t generalizing n a with
  | nil =>
    cases n with
    | zero => cases h; exact ⟨rfl, rfl⟩
    | succ n => cases h
  | cons c t ih =>
    cases n with
    | zero => cases h; exact ⟨rfl, rfl⟩
    | succ n =>
      rw [splitAtByte] at h
      split at h
      next hle =>
        obtain ⟨⟨a', b'⟩, hs, hab⟩ := Option.map_eq_some_iff.mp h
        cases hab
        obtain ⟨rfl, hn⟩ := ih hs
        refine ⟨rfl, ?_⟩
        rw [byteLength]
        omega
      next => cases h

/-- A position that is not between two characters is within one of several bytes. -/
theorem exists_wide_of_splitAtByte {n : Nat} {t : Text} (hn : n < byteLength t)
    (h : splitAtByte n t = none) : ∃ c ∈ t, 1 < c.utf8Size := by
  induction t generalizing n with
  | nil => exact absurd hn (Nat.not_lt_zero n)
  | cons c r ih =>
    by_cases hc : 1 < c.utf8Size
    · exact ⟨c, .head r, hc⟩
    · have hone : c.utf8Size = 1 := Nat.le_antisymm (Nat.not_lt.mp hc) c.utf8Size_pos
      cases n with
      | zero => cases h
      | succ n =>
        rw [byteLength, hone] at hn
        rw [splitAtByte, hone, if_pos (Nat.le_add_left 1 n), Option.map_eq_none_iff] at h
        obtain ⟨d, hd, hwide⟩ := ih (by omega) h
        exact ⟨d, .tail c hd, hwide⟩

/-! ### Numbers -/

/-- Decimal digits. -/
def ofNat (n : Nat) : Text := Nat.toDigits 10 n

/-- The number that decimal digits stand for; none of another text. -/
def toNat? (t : Text) : Option Nat :=
  if t.isEmpty || !t.all Char.isDigit then none
  else some (t.foldl (fun n c => 10 * n + (c.toNat - '0'.toNat)) 0)

/-- Decimal digits, after a minus sign for a negative number. -/
def ofInt : Int → Text
  | .ofNat n => ofNat n
  | .negSucc n => '-' :: ofNat (n + 1)

end Text

end GitShell
