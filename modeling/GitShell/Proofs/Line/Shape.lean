import GitShell.Proofs.Line.Escape

/-!
# Line — Shape

What a lexeme of each kind looks like, said of its own characters and of the text after it
(`Lexeme.Shape`), without the scanner.

* `Piece.next_eq_lexeme_iff`: the scanner takes a lexeme off a text exactly if the text is that
  lexeme, in the shape of its kind, and the rest.
* `Piece.exists_next`: it takes one off wherever no blank stands first.

So a text has at most one well-shaped lexeme at its start, and a claim about the scanner can be
read off the shapes.
-/

namespace GitShell

/-- A lexeme has the shape of its kind before the text `rest`. -/
inductive Lexeme.Shape : Lexeme → Text → Prop where
  /-- `&&`, `||` or `;`. -/
  | join (j : Join) (rest : Text) : Shape (.literal (.join j) j.text) rest
  /-- One `&` or `|` that the same character does not follow. -/
  | halfJoin {c : Char} {rest : Text} (hc : c = '&' ∨ c = '|') (hr : rest.head? ≠ some c) :
      Shape (.literal .halfJoin [c]) rest
  /-- `--` directly before a blank. -/
  | endOfOptions {b : Char} (hb : isBlank b = true) (r : Text) :
      Shape (.literal .endOfOptions ['-', '-']) (b :: r)
  /-- Characters none of which ends a word unescaped, up to one that does or the end of the line;
  `--` is a word only where no blank follows. -/
  | word {w rest : Text} (hne : w ≠ []) (hw : OnlyEscaped endsWord w) (hs : StopsBefore w rest)
      (ho : w = ['-', '-'] → ∀ b ∈ rest.head?, isBlank b = false) : Shape (.literal .word w) rest
  /-- From a quote to the first unescaped quote of that kind. -/
  | quoted {d : Char} {inside : Text} (hd : isQuote d = true) (hi : OnlyEscaped (· == d) inside)
      (hu : EndsUnescaped inside) (rest : Text) :
      Shape ⟨.word, d :: inside ++ [d], unescape d inside, true⟩ rest
  /-- From a quote to the end of the line, with every quote of that kind escaped. -/
  | unterminated {d : Char} {inside : Text} (hd : isQuote d = true)
      (hi : OnlyEscaped (· == d) inside) :
      Shape ⟨.unterminated, d :: inside, unescape d inside, true⟩ []

theorem ne_backslash_of_isQuote {d : Char} (h : isQuote d = true) : d ≠ '\\' := by
  rintro rfl
  revert h
  decide

theorem Lexeme.Shape.raw_ne_nil {l : Lexeme} {rest : Text} (h : l.Shape rest) : l.raw ≠ [] := by
  cases h with
  | join j => cases j <;> simp [Lexeme.literal, Join.text]
  | word hne => exact hne
  | halfJoin | endOfOptions | quoted | unterminated => simp [Lexeme.literal]

/-- What ends the options is `--`. -/
theorem Lexeme.Shape.content_of_endOfOptions {l : Lexeme} {rest : Text} (h : l.Shape rest)
    (hl : l.kind = .endOfOptions) : l.content = "--".toList := by
  cases h with
  | endOfOptions => rfl
  | join | halfJoin | word | quoted | unterminated => cases hl

theorem not_endsWord_iff {c : Char} : endsWord c = false ↔
    isBlank c = false ∧ c ≠ '&' ∧ c ≠ '|' ∧ c ≠ ';' ∧ isQuote c = false := by
  simp [endsWord, and_assoc]

/-- A text that escapes all characters of a class starts with none of them. -/
theorem OnlyEscaped.head {p : Char → Bool} {c : Char} {t : Text} (h : OnlyEscaped p (c :: t)) :
    p c = false :=
  Bool.eq_false_iff.mpr fun hc => absurd (h 0 c rfl hc) (by simp [escapedAt])

theorem opensOperands_iff {t : Text} :
    opensOperands t = true ↔ ∃ b r, t = '-' :: '-' :: b :: r ∧ isBlank b = true := by
  constructor
  · intro h
    unfold opensOperands at h
    split at h
    · exact ⟨_, _, rfl, h⟩
    · cases h
  · rintro ⟨b, r, rfl, hb⟩
    exact hb

/-- A word starts a text with `--` and a blank only if it is `--` and the blank follows it. -/
theorem opensOperands_append {w rest : Text} (hne : w ≠ []) (hw : OnlyEscaped endsWord w)
    (hs : StopsBefore w rest) (h : opensOperands (w ++ rest) = true) :
    w = ['-', '-'] ∧ ∃ b ∈ rest.head?, isBlank b = true := by
  obtain ⟨b, r, heq, hb⟩ := opensOperands_iff.mp h
  match w, hne with
  | [c], _ =>
      -- the second dash would have to end the word
      simp only [List.cons_append, List.nil_append, List.cons.injEq] at heq
      have he : endsWord '-' = true := (hs '-' (by simp [heq.2])).1
      exact absurd he (by decide)
  | [c, e], _ =>
      simp only [List.cons_append, List.nil_append, List.cons.injEq] at heq
      obtain ⟨rfl, rfl, rfl⟩ := heq
      exact ⟨rfl, b, rfl, hb⟩
  | c :: e :: x :: w, _ =>
      -- the blank would stand in the word unescaped
      simp only [List.cons_append, List.cons.injEq] at heq
      obtain ⟨rfl, rfl, rfl, -⟩ := heq
      have hx : endsWord x = true := by simp [endsWord, hb]
      exact absurd (hw 2 x rfl hx) (by simp [escapedAt])

namespace Piece

/-! ### The next piece, by the first character -/

theorem next_blank {c : Char} (hc : isBlank c = true) (r : Text) : next c r = (.blank c, r) := by
  simp [next, hc]

theorem next_ampersand (r : Text) : next '&' r = joinOf .and '&' r := by
  simp [next, isBlank, blankRanges]

theorem next_bar (r : Text) : next '|' r = joinOf .or '|' r := by
  simp [next, isBlank, blankRanges]

theorem next_semicolon (r : Text) : next ';' r = (.lexeme (.literal (.join .next) [';']), r) := by
  simp [next, isBlank, blankRanges]

theorem next_quote {c : Char} (hc : isQuote c = true) (r : Text) : next c r = quotedOf c r := by
  have h : c = '\'' ∨ c = '"' := by simpa [isQuote] using hc
  rcases h with rfl | rfl <;> simp [next, isBlank, blankRanges, isQuote]

theorem next_operands {b : Char} (hb : isBlank b = true) (r : Text) :
    next '-' ('-' :: b :: r) = (.lexeme (.literal .endOfOptions ['-', '-']), b :: r) := by
  have ho : opensOperands ('-' :: '-' :: b :: r) = true := hb
  have hd : isBlank '-' = false := by decide
  simp [next, hd, isQuote, ho]

theorem next_word {c : Char} {r : Text} (hc : endsWord c = false)
    (ho : opensOperands (c :: r) = false) :
    next c r = (.lexeme (.literal .word (splitWord (c :: r)).1), (splitWord (c :: r)).2) := by
  obtain ⟨hb, ha, hbar, hs, hq⟩ := not_endsWord_iff.mp hc
  simp [next, hb, ha, hbar, hs, hq, ho]

/-! ### The scanner gives well-shaped lexemes -/

theorem exists_joinOf {j : Join} {c : Char} (hc : c = '&' ∨ c = '|') (hj : j.text = [c, c])
    (r : Text) : ∃ l rest, joinOf j c r = (.lexeme l, rest) ∧ l.Shape rest := by
  cases r with
  | nil => exact ⟨_, _, rfl, .halfJoin hc (by simp)⟩
  | cons d r =>
      by_cases hd : d = c
      · refine ⟨.literal (.join j) [c, c], r, by simp only [joinOf, hd, if_true], ?_⟩
        rw [← hj]
        exact .join j r
      · refine ⟨.literal .halfJoin [c], d :: r, by simp only [joinOf, hd, if_false], ?_⟩
        exact .halfJoin hc (by simpa using hd)

theorem exists_quotedOf {c : Char} (hc : isQuote c = true) (r : Text) :
    ∃ l rest, quotedOf c r = (.lexeme l, rest) ∧ l.Shape rest := by
  have hb : c ≠ '\\' := ne_backslash_of_isQuote hc
  rcases exists_first_unescaped (p := (· == c)) (by simpa using hb.symm) r with
    hr | ⟨inside, d, after, rfl, hd, hi, hu⟩
  · rw [quotedOf, QuotedTail.read_open hb hr]
    exact ⟨_, _, rfl, .unterminated hc hr⟩
  · obtain rfl : d = c := by simpa using hd
    rw [quotedOf, QuotedTail.read_closed hb hi hu]
    exact ⟨_, _, rfl, .quoted hc hi hu after⟩

theorem shape_splitWord {c : Char} {r : Text} (hc : endsWord c = false)
    (ho : opensOperands (c :: r) = false) :
    (Lexeme.literal .word (splitWord (c :: r)).1).Shape (splitWord (c :: r)).2 := by
  obtain ⟨w, rest, heq, hw, hs, hsplit⟩ := exists_splitWord (c :: r)
  rw [hsplit]
  refine .word ?_ hw hs ?_
  · rintro rfl
    have hc' : endsWord c = true := (hs c (by rw [← List.nil_append rest, ← heq]; rfl)).1
    rw [hc] at hc'
    cases hc'
  · rintro rfl b hb
    refine Bool.eq_false_iff.mpr fun hb' => ?_
    obtain ⟨r', rfl⟩ : ∃ r', rest = b :: r' := List.head?_eq_some_iff.mp hb
    rw [opensOperands_iff.mpr ⟨b, r', heq, hb'⟩] at ho
    cases ho

/-- Before a character that is no blank the scanner takes off a lexeme, and that lexeme has the
shape of its kind before what is left. -/
theorem exists_next {c : Char} (hb : isBlank c = false) (r : Text) :
    ∃ l rest, next c r = (.lexeme l, rest) ∧ l.Shape rest := by
  cases he : endsWord c with
  | false =>
      cases ho : opensOperands (c :: r) with
      | false => exact ⟨_, _, next_word he ho, shape_splitWord he ho⟩
      | true =>
          obtain ⟨b, r', heq, hb'⟩ := opensOperands_iff.mp ho
          cases heq
          exact ⟨_, _, next_operands hb' r', .endOfOptions hb' r'⟩
  | true =>
      simp only [endsWord, hb, Bool.false_or, Bool.or_eq_true, beq_iff_eq, or_assoc] at he
      rcases he with rfl | rfl | rfl | hq
      · rw [next_ampersand]
        exact exists_joinOf (.inl rfl) rfl r
      · rw [next_bar]
        exact exists_joinOf (.inr rfl) rfl r
      · exact ⟨_, _, next_semicolon r, .join .next r⟩
      · rw [next_quote hq]
        exact exists_quotedOf hq r

/-! ### A well-shaped lexeme is the one the scanner gives -/

/-- The scanner takes a lexeme in the shape of its kind off the front. -/
theorem next_of_shape {l : Lexeme} {rest : Text} (h : l.Shape rest) {c : Char} {r : Text}
    (hr : l.raw ++ rest = c :: r) : next c r = (.lexeme l, rest) := by
  cases h with
  | join j =>
      cases j with
      | and => cases hr; rw [next_ampersand]; rfl
      | or => cases hr; rw [next_bar]; rfl
      | next => cases hr; exact next_semicolon _
  | halfJoin hc hh =>
      cases hr
      have hj : ∀ j, joinOf j c rest = (.lexeme (.literal .halfJoin [c]), rest) := fun j => by
        cases rest with
        | nil => rfl
        | cons d r => simp [joinOf, show d ≠ c by simpa using hh]
      rcases hc with rfl | rfl
      · exact (next_ampersand rest).trans (hj .and)
      · exact (next_bar rest).trans (hj .or)
  | endOfOptions hb =>
      cases hr
      exact next_operands hb _
  | @word w _ hne hw hs ho =>
      have hop : opensOperands (w ++ rest) = false := Bool.eq_false_iff.mpr fun h => by
        obtain ⟨rfl, b, hb, hb'⟩ := opensOperands_append hne hw hs h
        rw [ho rfl b hb] at hb'
        cases hb'
      have hsplit := splitWord_eq hw hs
      obtain ⟨x, w', rfl⟩ := List.exists_cons_of_ne_nil hne
      cases hr
      rw [next_word hw.head hop]
      exact congrArg (fun s => (Piece.lexeme (.literal .word s.1), s.2)) hsplit
  | @quoted d inside hd hi hu =>
      have hr' : d :: (inside ++ d :: rest) = c :: r := by simpa using hr
      cases hr'
      rw [next_quote hd, quotedOf, QuotedTail.read_closed (ne_backslash_of_isQuote hd) hi hu]
      rfl
  | @unterminated d inside hd hi =>
      have hr' : d :: inside = c :: r := by simpa using hr
      cases hr'
      rw [next_quote hd, quotedOf, QuotedTail.read_open (ne_backslash_of_isQuote hd) hi]
      rfl

/-- **The scanner and the shapes agree**: a lexeme comes off the front of a text exactly if the text
is that lexeme, in the shape of its kind, and the rest. -/
theorem next_eq_lexeme_iff {c : Char} {r : Text} {l : Lexeme} {rest : Text} :
    next c r = (.lexeme l, rest) ↔ l.Shape rest ∧ l.raw ++ rest = c :: r := by
  constructor
  · intro h
    have hb : isBlank c = false := Bool.eq_false_iff.mpr fun hb => by
      rw [next_blank hb] at h
      cases h
    obtain ⟨l', rest', h', hs⟩ := exists_next hb r
    rw [h] at h'
    cases h'
    exact ⟨hs, by simpa [h, text] using next_text c r⟩
  · rintro ⟨h, hr⟩
    exact next_of_shape h hr

/-! ### The pieces of a text that starts with a known one -/

theorem pieces_blank {c : Char} (hc : isBlank c = true) (r : Text) :
    pieces (c :: r) = .blank c :: pieces r := by
  rw [pieces, next_blank hc]

/-- Blanks move the position on. -/
theorem place_blanks {t : Text} (ht : t.allBlank = true) (n : Nat) (rest : Text) :
    place n (pieces (t ++ rest)) = place (n + t.length) (pieces rest) := by
  induction t generalizing n with
  | nil => rfl
  | cons c t ih =>
      obtain ⟨hc, ht⟩ : isBlank c = true ∧ Text.allBlank t = true := by
        simpa [Text.allBlank] using ht
      rw [List.cons_append, pieces_blank hc, place, ih ht, List.length_cons]
      congr 1
      omega

theorem pieces_lexeme {l : Lexeme} {rest : Text} (h : l.Shape rest) :
    pieces (l.raw ++ rest) = .lexeme l :: pieces rest := by
  cases hr : l.raw ++ rest with
  | nil =>
      have hne := h.raw_ne_nil
      simp_all
  | cons c r => rw [pieces, next_of_shape h hr]

end Piece

/-- A lexeme that has its shape at the end of a text is the one token of its own characters. -/
theorem Lexeme.Shape.tokenize_raw {l : Lexeme} (h : l.Shape []) : tokenize l.raw = [⟨l, 0⟩] := by
  have hp : Piece.pieces (l.raw ++ []) = .lexeme l :: Piece.pieces [] := Piece.pieces_lexeme h
  rw [List.append_nil] at hp
  have hplace : Piece.place 0 (.lexeme l :: Piece.pieces []) = [⟨l, 0⟩] := by
    rw [Piece.pieces, Piece.place, Piece.place]
  exact (congrArg (Piece.place 0) hp).trans hplace

end GitShell
