import GitShell.Text.Basic

/-!
# Text — Paint

Colored text for a terminal: a sequence that starts at the escape character and ends at `m` sets the
hue, another one ends it.

* `strip_paint`, `strip_tint`: taking the sequences out of a painted text without escape
  characters gives the text back.
-/

namespace GitShell

/-- The hues in use. -/
inductive Hue where
  | aqua | blue | crimson | gray | green | orange | slateBlue | springGreen | yellowGreen
deriving DecidableEq

/-- The number of the hue in the palette of 256 colors. -/
def Hue.code : Hue → Nat
  | .aqua        => 51
  | .blue        => 33
  | .crimson     => 161
  | .gray        => 245
  | .green       => 40
  | .orange      => 208
  | .slateBlue   => 99
  | .springGreen => 48
  | .yellowGreen => 148

/-- The escape character. -/
def escape : Char := '\x1b'

/-- Ends every hue. -/
def plainSequence : Text := "\x1b[0m".toList

/-- Starts a hue: escape character, `weight`, number of the hue. -/
def sequence (weight : Text) (hue : Hue) : Text :=
  escape :: (weight ++ Text.ofNat hue.code ++ ['m'])

/-- Bold text in a hue. -/
def paint (hue : Hue) (t : Text) : Text := sequence "[1;38;5;".toList hue ++ t ++ plainSequence

/-- Text of regular weight in a hue. -/
def tint (hue : Hue) (t : Text) : Text := sequence "[38;5;".toList hue ++ t ++ plainSequence

/-- Paints where color is wanted. -/
def paintIf (color : Bool) (hue : Hue) (t : Text) : Text := if color then paint hue t else t

/-- Drops the sequences; `inside` says that the text starts within one. -/
def stripFrom : (inside : Bool) → Text → Text
  | _, [] => []
  | true, c :: r => stripFrom (c != 'm') r
  | false, c :: r => if c = escape then stripFrom true r else c :: stripFrom false r

/-- The text without the sequences that start at an escape character and end at `m`. -/
def strip (t : Text) : Text := stripFrom false t

theorem strip_append {t : Text} (h : escape ∉ t) (u : Text) : strip (t ++ u) = t ++ strip u := by
  induction t with
  | nil => rfl
  | cons c r ih =>
    simp only [List.mem_cons, not_or] at h
    simpa [strip, stripFrom, Ne.symm h.1] using ih h.2

theorem strip_of_not_mem {t : Text} (h : escape ∉ t) : strip t = t := by
  simpa [strip, stripFrom] using strip_append h []

theorem stripFrom_sequence {b : Text} (h : 'm' ∉ b) (u : Text) :
    stripFrom true (b ++ 'm' :: u) = strip u := by
  induction b with
  | nil => rfl
  | cons c r ih =>
    simp only [List.mem_cons, not_or] at h
    have hc : (c != 'm') = true := by simpa using Ne.symm h.1
    simpa [stripFrom, hc] using ih h.2

theorem strip_sequence {weight : Text} {hue : Hue} (h : 'm' ∉ weight ++ Text.ofNat hue.code)
    (u : Text) : strip (sequence weight hue ++ u) = strip u := by
  have := stripFrom_sequence h u
  simpa [strip, sequence, stripFrom] using this

theorem strip_plainSequence (u : Text) : strip (plainSequence ++ u) = strip u :=
  stripFrom_sequence (b := "[0".toList) (by decide) u

/-- A painted text loses its two sequences and no more. -/
theorem strip_paint_append (hue : Hue) {t : Text} (h : escape ∉ t) (u : Text) :
    strip (paint hue t ++ u) = t ++ strip u := by
  rw [paint, List.append_assoc, List.append_assoc, strip_sequence (by cases hue <;> decide),
    strip_append h, strip_plainSequence]

theorem strip_paint (hue : Hue) {t : Text} (h : escape ∉ t) : strip (paint hue t) = t := by
  simpa [strip, stripFrom] using strip_paint_append hue h []

theorem strip_tint (hue : Hue) {t : Text} (h : escape ∉ t) : strip (tint hue t) = t := by
  have := strip_plainSequence []
  rw [List.append_nil] at this
  rw [tint, List.append_assoc, strip_sequence (by cases hue <;> decide), strip_append h, this]
  simp [strip, stripFrom]

end GitShell
