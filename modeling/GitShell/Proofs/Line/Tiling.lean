import GitShell.Line.Basic
import GitShell.Proofs.Line.Shape

/-!
# Line — Tiling

The tokens of a line tile it: their spans are disjoint and in order, every character outside them
is blank, and each of them has the shape of its kind (`IsTiling`).  Nothing in this mentions the
scanner.

* `isTiling_iff_eq_tokenize`: the tokens of a line are its only tiling.

The proof cuts a line at a position: `Tiles source n` speaks of the tokens from position `n` on, and
one piece of the scanner moves `n` past the blank or the token that stands there.
-/

namespace GitShell

/-- The text of a line from position `n` on, put together from the gaps before and after the tokens
and from what the tokens cover. -/
def Line.rebuild (l : Line) (n : Nat) : List Token → Text
  | [] => l.slice ⟨n, l.length⟩
  | t :: ts => l.slice ⟨n, t.start⟩ ++ l.slice t.span ++ l.rebuild t.stop ts

/-- From position `n` on, a line is the tokens `ts` with blanks between them. -/
structure Tiles (source : Text) (n : Nat) (ts : List Token) : Prop where
  nonempty : ∀ t ∈ ts, t.start < t.stop
  after : ∀ t ∈ ts, n ≤ t.start
  ordered : ts.Pairwise fun t u => t.stop ≤ u.start
  inside : ∀ t ∈ ts, t.stop ≤ source.length
  /-- A character that no token covers is blank. -/
  blank : ∀ i c, n ≤ i → source[i]? = some c → (∀ t ∈ ts, ¬ (t.start ≤ i ∧ i < t.stop)) →
    isBlank c = true
  slice : ∀ t ∈ ts, (Line.ofText source).slice t.span = t.raw
  /-- A token has the shape of its kind before the text after it. -/
  shape : ∀ t ∈ ts, t.toLexeme.Shape (source.drop t.stop)

/-- A line is the tokens `ts` with blanks between them. -/
structure IsTiling (source : Text) (ts : List Token) : Prop extends Tiles source 0 ts where
  /-- Gaps and tokens in order are the line. -/
  rebuilt : (Line.ofText source).rebuild 0 ts = source

/-! ### Slices -/

theorem slice_ofText (source : Text) (s : Span) :
    (Line.ofText source).slice s = (source.take s.stop).drop s.start := rfl

/-- A slice and the text after it. -/
theorem slice_append_drop (source : Text) {a b : Nat} (h : a ≤ b) :
    (Line.ofText source).slice ⟨a, b⟩ ++ source.drop b = source.drop a := by
  have hd : source.drop b = (source.drop a).drop (b - a) := by
    rw [List.drop_drop, Nat.add_sub_cancel' h]
  rw [slice_ofText, List.drop_take, hd, List.take_append_drop]

namespace Tiles

variable {source : Text} {n : Nat} {t : Token} {ts : List Token}

/-- The tokens after the first one tile what is after it. -/
theorem tail (h : Tiles source n (t :: ts)) : Tiles source t.stop ts where
  nonempty u hu := h.nonempty u (.tail _ hu)
  after u hu := (List.pairwise_cons.mp h.ordered).1 u hu
  ordered := (List.pairwise_cons.mp h.ordered).2
  inside u hu := h.inside u (.tail _ hu)
  blank i c hi hc hn := by
    have hs := h.nonempty t (.head _)
    have ha := h.after t (.head _)
    refine h.blank i c (by omega) hc fun u hu => ?_
    rcases List.mem_cons.mp hu with rfl | hu
    · omega
    · exact hn u hu
  slice u hu := h.slice u (.tail _ hu)
  shape u hu := h.shape u (.tail _ hu)

theorem rebuild_eq_drop (h : Tiles source n ts) :
    (Line.ofText source).rebuild n ts = source.drop n := by
  induction ts generalizing n with
  | nil =>
      rw [Line.rebuild, slice_ofText]
      simp [Line.length, Line.ofText]
  | cons t ts ih =>
      have ha : n ≤ t.start := h.after t (.head _)
      have hs : t.start ≤ t.stop := Nat.le_of_lt (h.nonempty t (.head _))
      rw [Line.rebuild, ih h.tail, List.append_assoc, Token.span, slice_append_drop source hs,
        slice_append_drop source ha]

/-! ### One piece -/

theorem nil (source : Text) : Tiles source source.length [] where
  nonempty _ h := by cases h
  after _ h := by cases h
  ordered := .nil
  inside _ h := by cases h
  blank i c hi hc _ := by rw [List.getElem?_eq_none hi] at hc; cases hc
  slice _ h := by cases h
  shape _ h := by cases h

/-- A blank moves the position on by one. -/
theorem skip {c : Char} (hc : isBlank c = true) (hn : source[n]? = some c)
    (h : Tiles source (n + 1) ts) : Tiles source n ts where
  nonempty := h.nonempty
  after t ht := Nat.le_of_succ_le (h.after t ht)
  ordered := h.ordered
  inside := h.inside
  blank i x hi hx hu := by
    rcases Nat.eq_or_lt_of_le hi with rfl | hi
    · rw [hn] at hx
      cases hx
      exact hc
    · exact h.blank i x hi hx hu
  slice := h.slice
  shape := h.shape

/-- A token moves the position on to its end. -/
theorem cons (hn : t.start = n) (ht : t.start < t.stop) (hi : t.stop ≤ source.length)
    (hs : (Line.ofText source).slice t.span = t.raw) (hl : t.toLexeme.Shape (source.drop t.stop))
    (h : Tiles source t.stop ts) : Tiles source n (t :: ts) where
  nonempty := List.forall_mem_cons.mpr ⟨ht, h.nonempty⟩
  after := List.forall_mem_cons.mpr ⟨by omega, fun u hu => by have := h.after u hu; omega⟩
  ordered := List.pairwise_cons.mpr ⟨h.after, h.ordered⟩
  inside := List.forall_mem_cons.mpr ⟨hi, h.inside⟩
  blank i x hni hx hu := by
    have h₁ : ¬ (t.start ≤ i ∧ i < t.stop) := hu t (.head _)
    exact h.blank i x (by omega) hx fun u hmem => hu u (.tail _ hmem)
  slice := List.forall_mem_cons.mpr ⟨hs, h.slice⟩
  shape := List.forall_mem_cons.mpr ⟨hl, h.shape⟩

/-- Where a line has ended there is no token left. -/
theorem eq_nil (h : Tiles source n ts) (hn : source.length ≤ n) : ts = [] := by
  cases ts with
  | nil => rfl
  | cons t ts =>
      have h₁ := h.after t (.head _)
      have h₂ := h.nonempty t (.head _)
      have h₃ := h.inside t (.head _)
      omega

/-- A position is the start of the next token, or holds a blank. -/
theorem head (h : Tiles source n ts) {c : Char} (hc : source[n]? = some c) :
    (∃ t us, ts = t :: us ∧ t.start = n) ∨ (isBlank c = true ∧ Tiles source (n + 1) ts) := by
  by_cases hs : ∃ t us, ts = t :: us ∧ t.start = n
  · exact .inl hs
  · have hlt : ∀ t ∈ ts, n + 1 ≤ t.start := by
      cases ts with
      | nil => intro t ht; cases ht
      | cons u us =>
          have hu : u.start ≠ n := fun e => hs ⟨u, us, rfl, e⟩
          have ha := h.after u (.head _)
          have hne := h.nonempty u (.head _)
          intro t ht
          rcases List.mem_cons.mp ht with rfl | ht
          · omega
          · have := h.tail.after t ht
            omega
    have hb : isBlank c = true := h.blank n c (Nat.le_refl n) hc fun t ht => by
      have := hlt t ht
      omega
    refine .inr ⟨hb, h.nonempty, hlt, h.ordered, h.inside, ?_, h.slice, h.shape⟩
    exact fun i x hi hx hu => h.blank i x (by omega) hx hu

end Tiles

/-! ### The scanner tiles a line -/

/-- From a position on, the tokens that the scanner places tile the line. -/
theorem tiles_place (pre t : Text) :
    Tiles (pre ++ t) pre.length (Piece.place pre.length (Piece.pieces t)) := by
  induction t using Piece.pieces.induct generalizing pre with
  | case1 =>
      rw [Piece.pieces]
      simpa [Piece.place] using Tiles.nil pre
  | case2 c r ih =>
      cases hb : isBlank c with
      | true =>
          rw [Piece.next_blank hb] at ih
          have h := ih (pre ++ [c])
          rw [Piece.pieces_blank hb, Piece.place]
          refine .skip hb (by simp) ?_
          simpa using h
      | false =>
          obtain ⟨l, rest, hn, hl⟩ := Piece.exists_next hb r
          have hr : l.raw ++ rest = c :: r := (Piece.next_eq_lexeme_iff.mp hn).2
          rw [hn] at ih
          have h := ih (pre ++ l.raw)
          rw [← hr, Piece.pieces_lexeme hl, Piece.place]
          have hpos : 0 < l.raw.length := List.length_pos_iff.mpr hl.raw_ne_nil
          refine .cons rfl (by simp [Token.stop]; omega) (by simp [Token.stop]) ?_ ?_ ?_
          · simp [slice_ofText, Token.span, Token.stop, List.take_append]
          · rw [Token.stop, ← List.append_assoc, ← List.length_append, List.drop_left]
            exact hl
          · simpa [Token.stop] using h

/-- From a position on, a line has one tiling, and the scanner places it. -/
theorem eq_place_of_tiles {pre t : Text} {ts : List Token} (h : Tiles (pre ++ t) pre.length ts) :
    ts = Piece.place pre.length (Piece.pieces t) := by
  induction t using Piece.pieces.induct generalizing pre ts with
  | case1 =>
      rw [h.eq_nil (by simp), Piece.pieces, Piece.place]
  | case2 c r ih =>
      rcases h.head (c := c) (by simp) with ⟨u, us, rfl, hu⟩ | ⟨hb, h'⟩
      · -- the token at this position is well-shaped, so the scanner reads it too
        have hs := slice_append_drop (pre ++ c :: r) (Nat.le_of_lt (h.nonempty u (.head _)))
        rw [← Token.span, h.slice u (.head _), hu, List.drop_left] at hs
        have hl := h.shape u (.head _)
        generalize hrest : (pre ++ c :: r).drop u.stop = rest at hs hl
        rw [Piece.next_of_shape hl hs] at ih
        have h' : us = Piece.place (pre ++ u.raw).length (Piece.pieces rest) := by
          refine ih ?_
          rw [List.append_assoc, hs, List.length_append, ← hu]
          exact h.tail
        rw [← hs, Piece.pieces_lexeme hl, Piece.place, h', ← hu, List.length_append, hu, ← hu]
      · rw [Piece.next_blank hb] at ih
        rw [Piece.pieces_blank hb, Piece.place]
        have h'' : ts = Piece.place (pre ++ [c]).length (Piece.pieces r) :=
          ih (by simpa using h')
        simpa using h''

/-- **A line has one tiling, its tokens.** -/
theorem isTiling_iff_eq_tokenize (source : Text) (ts : List Token) :
    IsTiling source ts ↔ ts = tokenize source := by
  constructor
  · intro h
    exact @eq_place_of_tiles [] source ts h.toTiles
  · rintro rfl
    have h : Tiles source 0 (tokenize source) := tiles_place [] source
    exact ⟨h, by simpa using h.rebuild_eq_drop⟩

end GitShell
