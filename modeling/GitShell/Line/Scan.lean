import GitShell.Line.Token

/-!
# Line — Scan

Scanning cuts a line into pieces, blanks and lexemes, from left to right.  It never fails: a quote
that is not closed and a lone `&` are lexemes too, so that a report can point at them.

* `Piece.texts_pieces`: the texts of the pieces, in order, are the line.
* `tokenize`: the lexemes, each at its position.
-/

namespace GitShell

/-- A blank character or a lexeme. -/
inductive Piece where
  | blank (c : Char)
  | lexeme (l : Lexeme)
deriving DecidableEq

/-! ### Words -/

def isQuote (c : Char) : Bool := c == '\'' || c == '"'

/-- The characters that end an unquoted word, unless escaped. -/
def endsWord (c : Char) : Bool := isBlank c || c == '&' || c == '|' || c == ';' || isQuote c

/-- The longest unquoted word at the start of a text, and the text after it.  A backslash takes the
next character into the word, whatever it is. -/
def splitWord : Text → Text × Text
  | [] => ([], [])
  | ['\\'] => (['\\'], [])
  | '\\' :: e :: r => let (w, rest) := splitWord r; ('\\' :: e :: w, rest)
  | c :: r =>
    if endsWord c then ([], c :: r)
    else let (w, rest) := splitWord r; (c :: w, rest)

theorem splitWord_append (t : Text) : (splitWord t).1 ++ (splitWord t).2 = t := by
  fun_induction splitWord t <;> simp_all

/-! ### Quoted words -/

/-- The text after an opening quote: up to its closing quote if there is one, else all of it. -/
structure QuotedTail where
  /-- The characters taken, the closing quote among them. -/
  raw : Text
  content : Text
  closed : Bool
  rest : Text
deriving DecidableEq

namespace QuotedTail

/-- The tail with `raw` and `content` in front. -/
def push (raw content : Text) (q : QuotedTail) : QuotedTail :=
  { q with raw := raw ++ q.raw, content := content ++ q.content }

/-- Reads on to the first unescaped `delimiter`.  A backslash escapes the delimiter and itself, and
stands for itself before any other character. -/
def read (delimiter : Char) : Text → QuotedTail
  | [] => ⟨[], [], false, []⟩
  | [c] =>
    if c = delimiter then ⟨[c], [], true, []⟩ else ⟨[c], [c], false, []⟩
  | c :: e :: r =>
    if c = delimiter then ⟨[c], [], true, e :: r⟩
    else if c = '\\' then
      push [c, e] (if e = delimiter ∨ e = '\\' then [e] else [c, e]) (read delimiter r)
    else push [c] [c] (read delimiter (e :: r))

theorem raw_append_rest (d : Char) (t : Text) : (read d t).raw ++ (read d t).rest = t := by
  fun_induction read d t <;> simp_all [push]

end QuotedTail

/-! ### Pieces -/

/-- `--` directly before a blank. -/
def opensOperands : Text → Bool
  | '-' :: '-' :: c :: _ => isBlank c
  | _ => false

namespace Piece

/-- The characters of a piece. -/
def text : Piece → Text
  | .blank c => [c]
  | .lexeme l => l.raw

/-- A doubled `c` is the join, a single one half of it. -/
def joinOf (j : Join) (c : Char) : Text → Piece × Text
  | [] => (.lexeme (.literal .halfJoin [c]), [])
  | d :: r =>
    if d = c then (.lexeme (.literal (.join j) [c, d]), r)
    else (.lexeme (.literal .halfJoin [c]), d :: r)

/-- The quoted word that `c` opens. -/
def quotedOf (c : Char) (r : Text) : Piece × Text :=
  let q := QuotedTail.read c r
  (.lexeme ⟨if q.closed then .word else .unterminated, c :: q.raw, q.content, true⟩, q.rest)

/-- The first piece of the text `c :: r`, and the text after it. -/
def next (c : Char) (r : Text) : Piece × Text :=
  if isBlank c then (.blank c, r)
  else if c = '&' then joinOf .and c r
  else if c = '|' then joinOf .or c r
  else if c = ';' then (.lexeme (.literal (.join .next) [c]), r)
  else if isQuote c then quotedOf c r
  else if opensOperands (c :: r) then
    (.lexeme (.literal .endOfOptions ((c :: r).take 2)), (c :: r).drop 2)
  else
    let (w, rest) := splitWord (c :: r)
    (.lexeme (.literal .word w), rest)

theorem joinOf_text (j : Join) (c : Char) (r : Text) :
    (joinOf j c r).1.text ++ (joinOf j c r).2 = c :: r := by
  cases r with
  | nil => rfl
  | cons d r => by_cases h : d = c <;> simp [joinOf, h, text, Lexeme.literal]

/-- A piece takes its characters off the front of the text. -/
theorem next_text (c : Char) (r : Text) : (next c r).1.text ++ (next c r).2 = c :: r := by
  unfold next
  split
  · rfl
  split
  · exact joinOf_text ..
  split
  · exact joinOf_text ..
  split
  · rfl
  split
  · simpa [quotedOf, text] using QuotedTail.raw_append_rest c r
  split
  · exact List.take_append_drop 2 (c :: r)
  · simpa [text, Lexeme.literal] using splitWord_append (c :: r)

/-- A word takes in its first character. -/
theorem splitWord_ne_nil (c : Char) (r : Text) (h : endsWord c = false) :
    (splitWord (c :: r)).1 ≠ [] := by
  unfold splitWord
  split <;> simp_all

/-- No piece is empty. -/
theorem next_text_ne_nil (c : Char) (r : Text) : (next c r).1.text ≠ [] := by
  unfold next
  split
  · simp [text]
  next hb =>
  split
  · cases r <;> simp only [joinOf] <;> (try split) <;> simp [text, Lexeme.literal]
  next ha =>
  split
  · cases r <;> simp only [joinOf] <;> (try split) <;> simp [text, Lexeme.literal]
  next ho =>
  split
  · simp [text, Lexeme.literal]
  next hn =>
  split
  · simp [quotedOf, text]
  next hq =>
  split
  · simp [text, Lexeme.literal]
  · exact splitWord_ne_nil c r (by simp [endsWord, hb, ha, ho, hn, hq])

theorem next_length (c : Char) (r : Text) : (next c r).2.length < (c :: r).length := by
  have h := congrArg List.length (next_text c r)
  have h' := List.length_pos_iff.mpr (next_text_ne_nil c r)
  simp only [List.length_append] at h
  omega

/-- The pieces of a text, in order. -/
def pieces : Text → List Piece
  | [] => []
  | c :: r =>
    (next c r).1 :: pieces (next c r).2
termination_by t => t.length
decreasing_by exact next_length c r

/-- Nothing of the text is lost. -/
theorem texts_pieces (t : Text) : (pieces t).flatMap text = t := by
  fun_induction pieces t with
  | case1 => rfl
  | case2 c r ih => simp [ih, next_text]

/-- The lexemes among the pieces of a text, each at its position; the text starts at position `n`. -/
def place (n : Nat) : List Piece → List Token
  | [] => []
  | .blank _ :: ps => place (n + 1) ps
  | .lexeme l :: ps => { l with start := n } :: place (n + l.raw.length) ps

theorem place_shift (n k : Nat) (ps : List Piece) :
    place (n + k) ps = (place n ps).map (Token.shift k) := by
  induction ps generalizing n with
  | nil => rfl
  | cons p ps ih =>
    cases p with
    | blank c => simpa [place, Nat.add_right_comm] using ih (n + 1)
    | lexeme l => simpa [place, Token.shift, Nat.add_right_comm] using ih (n + l.raw.length)

end Piece

/-- The tokens of a line.  A blank line has none. -/
def tokenize (t : Text) : List Token := Piece.place 0 (Piece.pieces t)

end GitShell
