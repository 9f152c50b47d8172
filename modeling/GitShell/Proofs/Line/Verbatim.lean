import GitShell.Proofs.Line.Tiling

/-!
# Line — Verbatim

What the words of a text stand for, without the quotes and escapes, the blanks and the joins
(`meant`).  This is the text itself only if the text is one bare word.

* `Lexeme.Shape.meant_eq_or_length_lt`: only a bare word stands for as many characters as it has.
* `meant_eq_self_iff`: a text stands for itself exactly if it escapes all characters that end words.
* `tokenize_of_onlyEscaped`: such a text is one token.
-/

namespace GitShell

/-- The characters that a piece of a line stands for. -/
def Piece.meant : Piece → Text
  | .blank _  => []
  | .lexeme l => if l.kind.isArgument then l.content else []

/-- The characters that the words of a text stand for, in order. -/
def meant (t : Text) : Text := (Piece.pieces t).flatMap Piece.meant

/-- They are the contents of the words among the tokens, wherever these are placed. -/
theorem flatMap_content_place (n : Nat) (ps : List Piece) :
    ((Piece.place n ps).filter (·.kind.isArgument)).flatMap (·.content) =
      ps.flatMap Piece.meant := by
  induction ps generalizing n with
  | nil => rfl
  | cons p ps ih =>
      rw [List.flatMap_cons]
      cases p with
      | blank c =>
          rw [Piece.place, ih]
          rfl
      | lexeme l =>
          rw [Piece.place, List.filter_cons, Piece.meant]
          cases hk : l.kind.isArgument with
          | true => simp [ih]
          | false => simp [ih]

/-! ### One piece -/

theorem length_unescape_le (d : Char) (t : Text) : (unescape d t).length ≤ t.length := by
  fun_induction unescape d t with
  | case1 e r _ ih => rw [List.length_cons, List.length_cons, List.length_cons]; omega
  | case2 e r _ ih => simp only [List.length_cons]; omega
  | case3 c r _ ih => rw [List.length_cons, List.length_cons]; omega
  | case4 => exact Nat.le_refl _

/-- A lexeme stands for itself, and is a bare word up to what ends it; or it stands for fewer
characters than it has. -/
theorem Lexeme.Shape.meant_eq_or_length_lt {l : Lexeme} {rest : Text} (h : l.Shape rest) :
    ((Piece.lexeme l).meant = l.raw ∧ OnlyEscaped endsWord l.raw ∧
        ∀ c ∈ rest.head?, endsWord c = true) ∨
      (Piece.lexeme l).meant.length < l.raw.length := by
  cases h with
  | join j => exact .inr (by cases j <;> simp [Piece.meant, literal, Kind.isArgument, Join.text])
  | halfJoin | unterminated => exact .inr (by simp [Piece.meant, literal, Kind.isArgument])
  | @endOfOptions b hb =>
      refine .inl ⟨rfl, onlyEscaped_dashes, fun c hc => ?_⟩
      obtain rfl : b = c := by simpa using hc
      simp [endsWord, hb]
  | word _ hw hs => exact .inl ⟨rfl, hw, fun c hc => (hs c hc).1⟩
  | @quoted d inside =>
      have hle := length_unescape_le d inside
      refine .inr ?_
      simp only [Piece.meant, Kind.isArgument, if_true, List.length_append, List.length_cons]
      omega

theorem Lexeme.Shape.length_meant_le {l : Lexeme} {rest : Text} (h : l.Shape rest) :
    (Piece.lexeme l).meant.length ≤ l.raw.length := by
  rcases h.meant_eq_or_length_lt with ⟨h, -⟩ | h
  · exact Nat.le_of_eq (congrArg List.length h)
  · exact Nat.le_of_lt h

/-! ### A whole text -/

theorem meant_nil : meant [] = [] := by
  rw [meant, Piece.pieces]
  rfl

theorem meant_blank {c : Char} (hc : isBlank c = true) (r : Text) : meant (c :: r) = meant r := by
  rw [meant, Piece.pieces_blank hc, List.flatMap_cons]
  rfl

theorem meant_lexeme {l : Lexeme} {rest : Text} (h : l.Shape rest) :
    meant (l.raw ++ rest) = (Piece.lexeme l).meant ++ meant rest := by
  rw [meant, Piece.pieces_lexeme h, List.flatMap_cons]
  rfl

/-- A text is empty, or starts with a blank or with a lexeme in the shape of its kind. -/
@[elab_as_elim]
theorem piece_induction {motive : Text → Prop} (nil : motive [])
    (blank : ∀ c r, isBlank c = true → motive r → motive (c :: r))
    (lexeme : ∀ (l : Lexeme) rest, l.Shape rest → motive rest → motive (l.raw ++ rest)) :
    ∀ t, motive t := by
  intro t
  induction t using Piece.pieces.induct with
  | case1 => exact nil
  | case2 c r ih =>
      cases hb : isBlank c with
      | true =>
          rw [Piece.next_blank hb] at ih
          exact blank c r hb ih
      | false =>
          obtain ⟨l, rest, hn, hl⟩ := Piece.exists_next hb r
          rw [hn] at ih
          have hr : l.raw ++ rest = c :: r := (Piece.next_eq_lexeme_iff.mp hn).2
          exact hr ▸ lexeme l rest hl ih

theorem length_meant_le (t : Text) : (meant t).length ≤ t.length := by
  induction t using piece_induction with
  | nil => exact Nat.le_of_eq (congrArg List.length meant_nil)
  | blank c r hb ih =>
      rw [meant_blank hb]
      exact Nat.le_succ_of_le ih
  | lexeme l rest hl ih =>
      rw [meant_lexeme hl, List.length_append, List.length_append]
      exact Nat.add_le_add hl.length_meant_le ih

/-- A text that stands for as many characters as it has escapes those that end words. -/
theorem onlyEscaped_of_length_meant {t : Text} (h : t.length ≤ (meant t).length) :
    OnlyEscaped endsWord t := by
  induction t using piece_induction with
  | nil => exact onlyEscaped_nil
  | blank c r hb _ =>
      have hle := length_meant_le r
      rw [meant_blank hb, List.length_cons] at h
      omega
  | lexeme l rest hl ih =>
      have hle := length_meant_le rest
      rw [meant_lexeme hl, List.length_append, List.length_append] at h
      rcases hl.meant_eq_or_length_lt with ⟨hmeant, hraw, hends⟩ | hlt
      · rw [hmeant] at h
        have hrest : OnlyEscaped endsWord rest := ih (by omega)
        cases rest with
        | nil => rwa [List.append_nil]
        | cons d rest =>
            -- the next character would end the word, but is itself the start of one
            have hd : endsWord d = true := hends d rfl
            rw [hrest.head] at hd
            cases hd
      · omega

/-- A text that escapes all characters that end words is one word. -/
theorem tokenize_of_onlyEscaped {t : Text} (hne : t ≠ []) (h : OnlyEscaped endsWord t) :
    tokenize t = [⟨.literal .word t, 0⟩] := by
  have hs : (Lexeme.literal .word t).Shape [] :=
    .word hne h (by simp [StopsBefore]) (by simp)
  exact hs.tokenize_raw

/-- **A text stands for itself** exactly if it escapes all characters that end words. -/
theorem meant_eq_self_iff (t : Text) : meant t = t ↔ OnlyEscaped endsWord t := by
  constructor
  · intro h
    exact onlyEscaped_of_length_meant (Nat.le_of_eq (congrArg List.length h.symm))
  · intro h
    by_cases ht : t = []
    · rw [ht, meant_nil]
    · have hmeant := flatMap_content_place 0 (Piece.pieces t)
      rw [← tokenize, tokenize_of_onlyEscaped ht h] at hmeant
      rw [meant, ← hmeant]
      simp [Lexeme.literal, Kind.isArgument]

end GitShell
