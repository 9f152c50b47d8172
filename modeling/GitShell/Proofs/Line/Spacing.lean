import GitShell.Proofs.Line.Joining

/-!
# Line — Spacing

A line is spaced anew: its tokens stay, and other blanks stand around them (`IsSpacedAnew`).  Where
two tokens touch they still do, and elsewhere they still do not.

* `Lexeme.Shape.of_blank`: before a blank a lexeme has its shape before any blank.
* `Spaced.place`: so the scanner finds the same lexemes, and the same ones touch.
* `tokenize_spacedAnew`: this holds of the tokens of a line.
-/

namespace GitShell

/-- Of each two tokens in a row, whether they touch. -/
def touching (ts : List Token) : List Bool := ts.zipWith (fun t u => t.gapTo u == 0) ts.tail

theorem touching_cons_cons (t u : Token) (ts : List Token) :
    touching (t :: u :: ts) = (t.gapTo u == 0) :: touching (u :: ts) := rfl

theorem Token.gapTo_eq_zero_iff {t u : Token} (h : t.stop ≤ u.start) :
    t.gapTo u = 0 ↔ t.stop = u.start := by
  rw [gapTo, Nat.sub_eq_zero_iff_le]
  exact ⟨fun hge => Nat.le_antisymm h hge, fun heq => Nat.le_of_eq heq.symm⟩

/-- Where the next token starts; after the last one, where the line ends. -/
def startOf (stop : Nat) : List Token → Nat
  | [] => stop
  | t :: _ => t.start

/-- The text is the tokens `ts` at the end of a line that ends at `stop`, with other blanks after
them.  There are none after a token only where there were none. -/
inductive Spaced (stop : Nat) : List Token → Text → Prop where
  | nil : Spaced stop [] []
  | cons {t : Token} {ts : List Token} {gap rest : Text} (hgap : gap.allBlank = true)
      (hnil : gap = [] ↔ t.stop = startOf stop ts) (h : Spaced stop ts rest) :
      Spaced stop (t :: ts) (t.raw ++ (gap ++ rest))

/-- A line with other blanks before, between and after its tokens.  Before the first one there may be
none, whatever there was. -/
inductive IsSpacedAnew (line : Text) : Text → Prop where
  | mk {lead rest : Text} (hlead : lead.allBlank = true)
      (h : Spaced line.length (tokenize line) rest) : IsSpacedAnew line (lead ++ rest)

/-- A lexeme before a blank has its shape before every blank. -/
theorem Lexeme.Shape.of_blank {l : Lexeme} {b b' : Char} {r : Text} (h : l.Shape (b :: r))
    (hb : isBlank b = true) (hb' : isBlank b' = true) (r' : Text) : l.Shape (b' :: r') := by
  cases h with
  | join j => exact .join j _
  | halfJoin hc =>
      refine .halfJoin hc ?_
      rintro ⟨⟩
      rcases hc with rfl | rfl
      · revert hb'
        decide
      · revert hb'
        decide
  | endOfOptions => exact .endOfOptions hb' r'
  | word hne hw hs ho =>
      refine .word hne hw (fun c hc => ?_) fun hdashes => ?_
      · cases hc
        exact ⟨by simp [endsWord, hb'], (hs b rfl).2⟩
      · -- before a blank `--` was no word
        rw [ho hdashes b rfl] at hb
        cases hb
  | quoted hd hi hu => exact .quoted hd hi hu _

/-! ### What follows a token -/

section
variable {source : Text} {n : Nat} {ts : List Token}

/-- A position that is not the start of the next token holds a blank. -/
theorem Tiles.exists_blank (h : Tiles source n ts) (hle : n ≤ source.length)
    (hn : n ≠ startOf source.length ts) :
    ∃ b r, source.drop n = b :: r ∧ isBlank b = true := by
  have hlt : n < source.length := by
    cases ts with
    | nil => exact Nat.lt_of_le_of_ne hle hn
    | cons t ts =>
        have hafter : n ≤ t.start := h.after t (.head _)
        have hstop := Nat.lt_of_lt_of_le (h.nonempty t (.head _)) (h.inside t (.head _))
        exact Nat.lt_of_le_of_lt hafter hstop
  refine ⟨source[n], _, List.drop_eq_getElem_cons hlt, ?_⟩
  rcases h.head (List.getElem?_eq_getElem hlt) with ⟨t, us, rfl, ht⟩ | ⟨hb, -⟩
  · exact absurd ht.symm hn
  · exact hb

/-- At the start of the next token the line and the line that is spaced anew go on alike. -/
theorem Spaced.head?_eq {rest : Text} (hrest : Spaced source.length ts rest)
    (h : Tiles source n ts) (hn : n = startOf source.length ts) :
    (source.drop n).head? = rest.head? := by
  cases hrest with
  | nil => rw [hn, startOf, List.drop_length]
  | @cons t =>
      have hsplit : Tiles source n ([] ++ t :: _) := h
      obtain ⟨c, r, hraw, -⟩ := (h.shape t (.head _)).not_blank
      rw [hn, startOf, hsplit.drop_start, hraw]
      rfl

/-- A token has its shape before the blanks that stand after it now. -/
theorem Spaced.shape {t : Token} {gap rest : Text} (h : Tiles source n (t :: ts))
    (hgap : gap.allBlank = true) (hnil : gap = [] ↔ t.stop = startOf source.length ts)
    (hrest : Spaced source.length ts rest) : t.toLexeme.Shape (gap ++ rest) := by
  have hshape : t.toLexeme.Shape (source.drop t.stop) := h.shape t (.head _)
  cases gap with
  | nil => exact hshape.of_head_eq (hrest.head?_eq h.tail (hnil.mp rfl))
  | cons b gap =>
      have hapart : t.stop ≠ startOf source.length ts := fun hstop => nomatch hnil.mpr hstop
      obtain ⟨b', r, hdrop, hb'⟩ := h.tail.exists_blank (h.inside t (.head _)) hapart
      rw [hdrop] at hshape
      exact hshape.of_blank hb' (List.all_eq_true.mp hgap b (.head _)) _

end

/-! ### The tokens of a line that is spaced anew -/

/-- **The scanner finds the same lexemes**, and the same ones touch. -/
theorem Spaced.place {source rest : Text} {n : Nat} {ts : List Token}
    (hrest : Spaced source.length ts rest) (h : Tiles source n ts) (k : Nat) :
    (Piece.place k (Piece.pieces rest)).map Token.toLexeme = ts.map Token.toLexeme ∧
      touching (Piece.place k (Piece.pieces rest)) = touching ts ∧
      ∀ u ∈ (Piece.place k (Piece.pieces rest)).head?, u.start = k := by
  induction hrest generalizing n k with
  | nil =>
      rw [Piece.pieces, Piece.place]
      refine ⟨rfl, rfl, ?_⟩
      rintro u ⟨⟩
  | @cons t ts gap rest hgap hnil hrest ih =>
      have hshape := Spaced.shape h hgap hnil hrest
      obtain ⟨hlexemes, htouching, hstart⟩ := ih h.tail (k + t.raw.length + gap.length)
      rw [Piece.pieces_lexeme hshape, Piece.place, Piece.place_blanks hgap]
      generalize Piece.place (k + t.raw.length + gap.length) (Piece.pieces rest) = us at *
      refine ⟨by rw [List.map_cons, List.map_cons, hlexemes], ?_, ?_⟩
      · cases ts with
        | nil =>
            obtain rfl : us = [] := List.map_eq_nil_iff.mp hlexemes
            rfl
        | cons t' ts =>
            cases us with
            | nil => cases hlexemes
            | cons u us =>
                have hle : t.stop ≤ t'.start := h.tail.after t' (.head _)
                have hu : u.start = k + t.raw.length + gap.length := hstart u rfl
                have hgap' : (⟨t.toLexeme, k⟩ : Token).gapTo u = gap.length := by
                  rw [Token.gapTo, Token.stop, hu, Nat.add_sub_cancel_left]
                rw [touching_cons_cons, touching_cons_cons, htouching]
                refine congrArg (· :: _) ?_
                rw [hgap', Bool.eq_iff_iff, beq_iff_eq, beq_iff_eq, List.length_eq_zero_iff,
                  Token.gapTo_eq_zero_iff hle]
                exact hnil
      · rintro u ⟨⟩
        rfl

/-- **A line that is spaced anew** has the same lexemes, and the same ones touch. -/
theorem tokenize_spacedAnew {line line' : Text} (h : IsSpacedAnew line line') :
    (tokenize line').map Token.toLexeme = (tokenize line).map Token.toLexeme ∧
      touching (tokenize line') = touching (tokenize line) := by
  obtain ⟨hlead, hrest⟩ := h
  have htiles : Tiles line 0 (tokenize line) := tiles_place [] line
  rw [tokenize, Piece.place_blanks hlead]
  obtain ⟨hlexemes, htouching, -⟩ := hrest.place htiles _
  exact ⟨hlexemes, htouching⟩

end GitShell
