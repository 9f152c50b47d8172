import GitShell.Proofs.Line.Shape

/-!
# Line — Writing

The ways to write an argument: parts with nothing between them, each in quotes of either kind with
the quote and the backslash escaped, or bare (`WrittenWord`).

* `Quote.unescape_escape`: what is read between quotes is what was escaped.
* `WrittenWord.exists_run`: a written argument is scanned as tokens with no gap between them, and
  their contents in order are the argument.

A part need not be a token: bare parts side by side are one word, and a bare `--` before a blank is
no word.  The scan is therefore followed from within a word, with the bare text already read.
-/

namespace GitShell

/-! ### Parts -/

/-- A kind of quotes. -/
inductive Quote where
  | single
  | double
deriving DecidableEq

namespace Quote

def char : Quote → Char
  | single => '\''
  | double => '"'

/-- The text to put between quotes for `t`. -/
def escape (q : Quote) (t : Text) : Text :=
  t.flatMap fun c => if c = q.char ∨ c = '\\' then ['\\', c] else [c]

end Quote

/-- A character that stands for itself outside quotes. -/
def isBare (c : Char) : Bool := !endsWord c && c != '\\'

/-- A stretch of an argument, as it is written. -/
inductive Part where
  | quoted (q : Quote) (t : Text)
  | bare (t : Text) (hne : t ≠ []) (hb : ∀ c ∈ t, isBare c = true)

namespace Part

def text : Part → Text
  | quoted q t => q.char :: q.escape t ++ [q.char]
  | bare t _ _ => t

/-- The text that is meant. -/
def content : Part → Text
  | quoted _ t => t
  | bare t _ _ => t

end Part

/-- An argument, as it is written: parts with nothing between them. -/
structure WrittenWord where
  parts : List Part
  ne : parts ≠ []

namespace WrittenWord

def text (w : WrittenWord) : Text := w.parts.flatMap Part.text

def content (w : WrittenWord) : Text := w.parts.flatMap Part.content

/-- An argument written as one part in single quotes. -/
def ofText (t : Text) : WrittenWord := ⟨[.quoted .single t], List.cons_ne_nil _ _⟩

theorem content_ofText (t : Text) : (ofText t).content = t := by
  simp [ofText, content, Part.content]

end WrittenWord

/-! ### Between quotes -/

namespace Quote

variable {q : Quote} {c : Char}

theorem isQuote_char (q : Quote) : isQuote q.char = true := by
  cases q <;> rfl

theorem escape_cons_escaped (h : c = q.char ∨ c = '\\') (t : Text) :
    q.escape (c :: t) = '\\' :: c :: q.escape t := by
  simp [escape, h]

theorem escape_cons_plain (h : ¬ (c = q.char ∨ c = '\\')) (t : Text) :
    q.escape (c :: t) = c :: q.escape t := by
  simp [escape, h]

/-- No quote shows in an escaped text, and no escape is left open. -/
theorem onlyEscaped_escape (q : Quote) (t : Text) :
    OnlyEscaped (· == q.char) (q.escape t) ∧ EndsUnescaped (q.escape t) := by
  have hb : ('\\' == q.char) = false := by cases q <;> rfl
  induction t with
  | nil => exact ⟨onlyEscaped_nil, endsUnescaped_nil⟩
  | cons c t ih =>
      by_cases h : c = q.char ∨ c = '\\'
      · rw [escape_cons_escaped h]
        exact ⟨(onlyEscaped_escaped hb).mpr ih.1, endsUnescaped_escaped.mpr ih.2⟩
      · rw [escape_cons_plain h]
        obtain ⟨hq, hc⟩ := not_or.mp h
        have hcq : (c == q.char) = false := by simpa using hq
        exact ⟨(onlyEscaped_plain hc).mpr ⟨hcq, ih.1⟩, (endsUnescaped_plain hc).mpr ih.2⟩

/-- Unescaping undoes escaping. -/
theorem unescape_escape (q : Quote) (t : Text) : unescape q.char (q.escape t) = t := by
  induction t with
  | nil => rfl
  | cons c t ih =>
      by_cases h : c = q.char ∨ c = '\\'
      · rw [escape_cons_escaped h, unescape, if_pos h, ih]
      · have hc : c ≠ '\\' := (not_or.mp h).2
        rw [escape_cons_plain h, unescape, ih]
        intro e r he
        exact absurd he hc

end Quote

/-- A part in quotes has the shape of a quoted word, whatever follows it. -/
theorem shape_quoted (q : Quote) (t rest : Text) :
    Lexeme.Shape ⟨.word, (Part.quoted q t).text, t, true⟩ rest := by
  obtain ⟨hi, hu⟩ := q.onlyEscaped_escape t
  have h : Lexeme.Shape ⟨.word, _, unescape q.char (q.escape t), true⟩ rest :=
    .quoted q.isQuote_char hi hu rest
  rwa [q.unescape_escape] at h

/-! ### Outside quotes -/

/-- A word may stop before `rest`, if nothing is escaped there. -/
def StopsAt (rest : Text) : Prop := ∀ c ∈ rest.head?, endsWord c = true

theorem onlyEscaped_bare {w : Text} (hw : ∀ c ∈ w, isBare c = true) :
    OnlyEscaped endsWord w ∧ EndsUnescaped w := by
  induction w with
  | nil => exact ⟨onlyEscaped_nil, endsUnescaped_nil⟩
  | cons c w ih =>
      obtain ⟨hc, hw⟩ := List.forall_mem_cons.mp hw
      obtain ⟨he, hb⟩ : endsWord c = false ∧ c ≠ '\\' := by simpa [isBare] using hc
      exact ⟨(onlyEscaped_plain hb).mpr ⟨he, (ih hw).1⟩, (endsUnescaped_plain hb).mpr (ih hw).2⟩

/-- A bare text is one lexeme, a word or `--` before a blank. -/
theorem exists_shape_bare {w rest : Text} (hne : w ≠ []) (hw : ∀ c ∈ w, isBare c = true)
    (hr : StopsAt rest) : ∃ k : Kind, k.isArgument = true ∧ (Lexeme.literal k w).Shape rest := by
  obtain ⟨ho, hu⟩ := onlyEscaped_bare hw
  by_cases h : w = ['-', '-'] ∧ ∃ b ∈ rest.head?, isBlank b = true
  · obtain ⟨rfl, b, hb, hb'⟩ := h
    obtain ⟨r, rfl⟩ := List.head?_eq_some_iff.mp hb
    exact ⟨.endOfOptions, rfl, .endOfOptions hb' r⟩
  · refine ⟨.word, rfl, .word hne ho (fun c hc => ⟨hr c hc, hu⟩) fun hd b hb => ?_⟩
    exact Bool.eq_false_iff.mpr fun hb' => h ⟨hd, b, hb, hb'⟩

/-! ### The tokens of a word -/

/-- Tokens that can be arguments, from position `n` to position `m` with nothing between them. -/
inductive Run : Nat → List Token → Nat → Prop where
  | nil (n : Nat) : Run n [] n
  | cons {n m : Nat} {t : Token} {ts : List Token} (hn : t.start = n)
      (ht : t.kind.isArgument = true) (h : Run t.stop ts m) : Run n (t :: ts) m

namespace Run

variable {n m k : Nat} {b c : List Token}

theorem append (h : Run n b m) (hc : Run m c k) : Run n (b ++ c) k := by
  induction h with
  | nil => exact hc
  | cons hn ht _ ih => exact .cons hn ht (ih hc)

theorem isArgument (h : Run n b m) : ∀ t ∈ b, t.kind.isArgument = true := by
  induction h with
  | nil => simp
  | cons _ ht _ ih => exact List.forall_mem_cons.mpr ⟨ht, ih⟩

theorem start_head (h : Run n b m) : ∀ t ∈ b.head?, t.start = n := by
  cases h with
  | nil => simp
  | cons hn => simpa using hn

theorem stop_getLast (h : Run n b m) : ∀ t ∈ b.getLast?, t.stop = m := by
  induction h with
  | nil => simp
  | @cons n m t ts _ _ h ih =>
      cases h with
      | nil => simp
      | cons => simpa using ih

end Run

namespace Piece

/-- A lexeme that can be an argument is a run by itself. -/
theorem exists_run_lexeme {l : Lexeme} {rest : Text} (hk : l.kind.isArgument = true)
    (hl : l.Shape rest) (n : Nat) : ∃ t : Token, t.toLexeme = l ∧ Run n [t] t.stop ∧
      place n (pieces (l.raw ++ rest)) = t :: place t.stop (pieces rest) := by
  refine ⟨{ l with start := n }, rfl, .cons rfl hk (.nil _), ?_⟩
  rw [pieces_lexeme hl, place]
  rfl

/-- A bare text is a run, of no tokens if it is empty. -/
theorem exists_run_bare {w rest : Text} (hw : ∀ c ∈ w, isBare c = true) (hr : StopsAt rest)
    (n : Nat) : ∃ b m, place n (pieces (w ++ rest)) = b ++ place m (pieces rest) ∧ Run n b m ∧
      b.flatMap (·.content) = w ∧ (b = [] → w = []) := by
  cases w with
  | nil => exact ⟨[], n, rfl, .nil n, rfl, fun _ => rfl⟩
  | cons c w =>
      obtain ⟨k, hk, hs⟩ := exists_shape_bare (List.cons_ne_nil c w) hw hr
      obtain ⟨t, ht, hrun, hp⟩ := exists_run_lexeme hk hs n
      refine ⟨[t], t.stop, hp, hrun, ?_, fun h => by cases h⟩
      rw [List.flatMap_singleton, ht]
      rfl

/-- Parts are a run; `w` is the bare text before them. -/
theorem exists_run_parts (parts : List Part) {w rest : Text} (hw : ∀ c ∈ w, isBare c = true)
    (hr : StopsAt rest) (n : Nat) : ∃ b m,
      place n (pieces (w ++ (parts.flatMap Part.text ++ rest))) = b ++ place m (pieces rest) ∧
        Run n b m ∧ b.flatMap (·.content) = w ++ parts.flatMap Part.content ∧
        (b = [] → w = [] ∧ parts = []) := by
  induction parts generalizing w n with
  | nil =>
      obtain ⟨b, m, hp, hrun, hc, hb⟩ := exists_run_bare hw hr n
      exact ⟨b, m, hp, hrun, by simpa using hc, fun h => ⟨hb h, rfl⟩⟩
  | cons p parts ih =>
      cases p with
      | quoted q t =>
          -- the quote ends the bare text, and nothing is read of a word after it
          generalize hrest : parts.flatMap Part.text ++ rest = rest' at ih
          have hq : StopsAt ((Part.quoted q t).text ++ rest') := by
            intro c hc
            obtain rfl : q.char = c := by simpa [Part.text] using hc
            simp [endsWord, q.isQuote_char]
          obtain ⟨b, m, hp, hrun, hc, -⟩ := exists_run_bare hw hq n
          obtain ⟨u, hu, hrun', hp'⟩ := exists_run_lexeme (by rfl) (shape_quoted q t rest') m
          obtain ⟨b', m', hp'', hrun'', hc', -⟩ := ih (w := []) (by simp) u.stop
          refine ⟨b ++ u :: b', m', ?_, hrun.append (hrun'.append hrun''), ?_, by simp⟩
          · rw [List.flatMap_cons, List.append_assoc, hrest, hp, hp', ← List.nil_append rest', hp'']
            simp
          · have huc : u.content = t := congrArg Lexeme.content hu
            simp [hc, hc', huc, Part.content]
      | bare t hne hb =>
          -- one word goes on from `w` into `t`
          have hwt : ∀ c ∈ w ++ t, isBare c = true := List.forall_mem_append.mpr ⟨hw, hb⟩
          obtain ⟨b, m, hp, hrun, hc, hnil⟩ := ih hwt n
          refine ⟨b, m, ?_, hrun, ?_, fun h => ?_⟩
          · simpa [Part.text] using hp
          · simpa [Part.content] using hc
          · exact absurd (List.append_eq_nil_iff.mp (hnil h).1).2 hne

end Piece

/-- **A written argument is scanned as a run** whose contents are the argument. -/
theorem WrittenWord.exists_run (w : WrittenWord) {rest : Text} (hr : StopsAt rest) (n : Nat) :
    ∃ b m, Piece.place n (Piece.pieces (w.text ++ rest)) = b ++ Piece.place m (Piece.pieces rest) ∧
      Run n b m ∧ b ≠ [] ∧ b.flatMap (·.content) = w.content := by
  obtain ⟨b, m, hp, hrun, hc, hb⟩ :=
    @Piece.exists_run_parts w.parts [] rest (by simp) hr n
  exact ⟨b, m, hp, hrun, fun h => w.ne (hb h).2, hc⟩

end GitShell
