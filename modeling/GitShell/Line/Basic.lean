import GitShell.Line.Scan

/-!
# Line — Basic

A line with its tokens, and the passage between positions that count characters and positions that
count bytes.  Positions past the end stand for the end.
-/

namespace GitShell

/-- The byte position of each character of a text that starts at byte `n`, and of its end. -/
def byteTable (n : Nat) : Text → List Nat
  | [] => [n]
  | c :: r => n :: byteTable (n + c.utf8Size) r

theorem getElem?_byteTable (n : Nat) (t : Text) (i : Nat) (h : i ≤ t.length) :
    (byteTable n t)[i]? = some (n + Text.byteLength (t.take i)) := by
  induction t generalizing n i with
  | nil => simp_all [byteTable, Text.byteLength]
  | cons c r ih =>
    cases i with
    | zero => simp [byteTable, Text.byteLength]
    | succ i =>
      simpa [byteTable, Text.byteLength, Nat.add_assoc]
        using ih (n + c.utf8Size) i (Nat.le_of_succ_le_succ h)

/-- A scanned line. -/
structure Line where
  source : Text
  /-- The byte position of each character position. -/
  offsets : List Nat
  tokens : List Token

namespace Line

/-- Scans a line. -/
def ofText (t : Text) : Line := ⟨t, byteTable 0 t, tokenize t⟩

/-- The number of characters. -/
def length (l : Line) : Nat := l.source.length

/-- The byte position of the character position `i`. -/
def byteOffset (l : Line) (i : Nat) : Nat := l.offsets.getD (min i l.length) 0

/-- A byte position is the length of the encoding of what is before it. -/
theorem byteOffset_ofText (t : Text) (i : Nat) :
    (ofText t).byteOffset i = Text.byteLength (t.take i) := by
  have h := getElem?_byteTable 0 t (min i t.length) (Nat.min_le_right ..)
  simp [ofText, byteOffset, length, List.getD_eq_getElem?_getD, h, ← List.take_eq_take_min]

/-- The characters in a span. -/
def slice (l : Line) (s : Span) : Text := (l.source.take s.stop).drop s.start

end Line

end GitShell
