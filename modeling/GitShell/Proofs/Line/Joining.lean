import GitShell.Proofs.Line.Tiling

/-!
# Line — Joining

The tokens of a line that is put together from two texts.  Of what follows it a lexeme sees the next
character only (`Lexeme.Shape.of_head_eq`), so no token of the first text can change but one that
touches the second.  A text is closed if no quote and no escape is open at its end (`Closed`).

* `tokenize_append`: two texts side by side have the tokens of both, if the token at the end of the
  first, as it is then, has its shape before the second.
* `tokenize_append_semicolon`: a `;` after a closed text leaves all tokens as they are.
* `tokenize_append_blank`: so does a blank, except that a `--` before it is no word any more.
* `tokenize_take`: a line that is cut before one of its tokens keeps the tokens before it.
* `tokenize_slice`: a token that is cut out of its line is one token.
-/

namespace GitShell

/-! ### Shapes before another text -/

/-- The shape of a lexeme depends on the next character only. -/
theorem Lexeme.Shape.of_head_eq {l : Lexeme} {r r' : Text} (h : l.Shape r)
    (hr : r.head? = r'.head?) : l.Shape r' := by
  cases h with
  | join j => exact .join j r'
  | halfJoin hc hh => exact .halfJoin hc (hr ▸ hh)
  | endOfOptions hb =>
      obtain ⟨r, rfl⟩ := List.head?_eq_some_iff.mp hr.symm
      exact .endOfOptions hb r
  | word hne hw hs ho =>
      exact .word hne hw (fun c hc => hs c (hr ▸ hc)) fun hd b hb => ho hd b (hr ▸ hb)
  | quoted hd hi hu => exact .quoted hd hi hu r'
  | unterminated hd hi =>
      obtain rfl : r' = [] := List.head?_eq_none_iff.mp hr.symm
      exact .unterminated hd hi

/-- Nothing of a lexeme is left open that could take in what follows. -/
structure Lexeme.Closed (l : Lexeme) : Prop where
  quotes : l.kind ≠ .unterminated
  escapes : l.kind = .word → l.quoted = false → EndsUnescaped l.raw

/-- The lexeme as it is before a blank: there `--` is no word. -/
def Lexeme.beforeBlank (l : Lexeme) : Lexeme :=
  if l = .literal .word ['-', '-'] then .literal .endOfOptions ['-', '-'] else l

theorem Lexeme.raw_beforeBlank (l : Lexeme) : l.beforeBlank.raw = l.raw := by
  unfold beforeBlank
  split
  · next h => rw [h]; rfl
  · rfl

/-- A closed lexeme at the end of a text has its shape before a `;`. -/
theorem Lexeme.Shape.before_semicolon {l : Lexeme} (h : l.Shape []) (hl : l.Closed) (r : Text) :
    l.Shape (';' :: r) := by
  cases h with
  | join j => exact .join j _
  | halfJoin hc =>
      refine .halfJoin hc ?_
      rcases hc with rfl | rfl <;> simp
  | word hne hw =>
      refine .word hne hw (fun c hc => ?_) fun _ c hc => ?_
      · obtain rfl : ';' = c := by simpa using hc
        exact ⟨by decide, hl.escapes rfl rfl⟩
      · obtain rfl : ';' = c := by simpa using hc
        decide
  | quoted hd hi hu => exact .quoted hd hi hu _
  | unterminated => exact absurd rfl hl.quotes

/-- A closed lexeme at the end of a text has its shape before a blank, or is `--`. -/
theorem Lexeme.Shape.before_blank {l : Lexeme} (h : l.Shape []) (hl : l.Closed) {b : Char}
    (hb : isBlank b = true) (r : Text) : l.beforeBlank.Shape (b :: r) := by
  by_cases hd : l = .literal .word ['-', '-']
  · rw [beforeBlank, if_pos hd]
    exact .endOfOptions hb r
  · rw [beforeBlank, if_neg hd]
    cases h with
    | join j => exact .join j _
    | halfJoin hc =>
        refine .halfJoin hc ?_
        rcases hc with rfl | rfl
        · rintro ⟨⟩; revert hb; decide
        · rintro ⟨⟩; revert hb; decide
    | word hne hw =>
        refine .word hne hw (fun c hc => ?_) fun h => absurd (congrArg (literal .word) h) hd
        obtain rfl : b = c := by simpa using hc
        exact ⟨by simp [endsWord, hb], hl.escapes rfl rfl⟩
    | quoted hq hi hu => exact .quoted hq hi hu _
    | unterminated => exact absurd rfl hl.quotes

/-- A lexeme that something follows has ended. -/
theorem Lexeme.Shape.closed {l : Lexeme} {c : Char} {r : Text} (h : l.Shape (c :: r)) :
    l.Closed := by
  cases h with
  | join | halfJoin | endOfOptions => exact ⟨by simp [literal], fun h => by simp [literal] at h⟩
  | word _ _ hs => exact ⟨by simp [literal], fun _ _ => (hs c rfl).2⟩
  | quoted => exact ⟨by simp, fun _ h => by simp at h⟩

/-- The lexeme as it is at the end of a text: there `--` is a word. -/
def Lexeme.alone (l : Lexeme) : Lexeme :=
  { l with kind := if l.kind = .endOfOptions then .word else l.kind }

/-- **What follows a lexeme** decides where it ends and whether `--` is a word, and nothing else. -/
theorem Lexeme.Shape.alone {l : Lexeme} {rest : Text} (h : l.Shape rest) : l.alone.Shape [] := by
  cases h with
  | join j => exact .join j []
  | halfJoin hc => exact .halfJoin hc (by simp)
  | endOfOptions =>
      exact .word (w := ['-', '-']) (by simp) onlyEscaped_dashes (by simp [StopsBefore]) (by simp)
  | word hne hw => exact .word hne hw (by simp [StopsBefore]) (by simp)
  | quoted hd hi hu => exact .quoted hd hi hu []
  | unterminated hd hi => exact .unterminated hd hi

/-- A lexeme that no blank follows has its shape at the end of a text too. -/
theorem Lexeme.Shape.at_end {l : Lexeme} {c : Char} {r : Text} (h : l.Shape (c :: r))
    (hc : isBlank c = false) : l.Shape [] := by
  have hk : l.kind ≠ .endOfOptions := fun hk => by
    cases h with
    | endOfOptions hb => rw [hb] at hc; cases hc
    | join | halfJoin | word | quoted => cases hk
  have hl : l.alone = l := by rw [Lexeme.alone, if_neg hk]
  exact hl ▸ h.alone

/-- No lexeme starts with a blank. -/
theorem Lexeme.Shape.not_blank {l : Lexeme} {rest : Text} (h : l.Shape rest) :
    ∃ c r, l.raw = c :: r ∧ isBlank c = false := by
  obtain ⟨c, r, hcr⟩ := List.exists_cons_of_ne_nil h.raw_ne_nil
  refine ⟨c, r, hcr, Bool.eq_false_iff.mpr fun hb => ?_⟩
  have hn := Piece.next_of_shape h (by rw [hcr, List.cons_append])
  rw [Piece.next_blank hb] at hn
  cases hn

/-! ### Tilings side by side -/

/-- A tiling of a text and a tiling of what follows it make one of both.  The tokens of the text
keep their places; those at its end may be of another kind in the longer text. -/
theorem Tiles.append {x rest : Text} {n : Nat} {ts us : List Token} (h : Tiles x n ts)
    (hn : n ≤ x.length) (hu : Tiles (x ++ rest) x.length us) {f : Token → Token}
    (hf : ∀ t, (f t).start = t.start ∧ (f t).raw = t.raw)
    (hi : ∀ t ∈ ts, t.stop < x.length → f t = t)
    (he : ∀ t ∈ ts, t.stop = x.length → (f t).toLexeme.Shape rest) :
    Tiles (x ++ rest) n (ts.map f ++ us) := by
  have hstop : ∀ t, (f t).stop = t.stop := fun t => by rw [Token.stop, (hf t).1, (hf t).2]; rfl
  refine ⟨?_, ?_, ?_, ?_, ?_, ?_, ?_⟩
  · rw [List.forall_mem_append, List.forall_mem_map]
    refine ⟨fun t ht => ?_, hu.nonempty⟩
    rw [(hf t).1, hstop]
    exact h.nonempty t ht
  · rw [List.forall_mem_append, List.forall_mem_map]
    refine ⟨fun t ht => ?_, fun u hm => Nat.le_trans hn (hu.after u hm)⟩
    rw [(hf t).1]
    exact h.after t ht
  · rw [List.pairwise_append, List.pairwise_map, List.forall_mem_map]
    refine ⟨?_, hu.ordered, fun t ht u hm => ?_⟩
    · simpa only [hstop, (hf _).1] using h.ordered
    · rw [hstop]
      exact Nat.le_trans (h.inside t ht) (hu.after u hm)
  · rw [List.forall_mem_append, List.forall_mem_map]
    refine ⟨fun t ht => ?_, hu.inside⟩
    rw [hstop, List.length_append]
    exact Nat.le_add_right_of_le (h.inside t ht)
  · intro i c hni hc hout
    rw [List.forall_mem_append, List.forall_mem_map] at hout
    by_cases hix : i < x.length
    · rw [List.getElem?_append_left hix] at hc
      refine h.blank i c hni hc fun t ht => ?_
      simpa only [hstop, (hf _).1] using hout.1 t ht
    · exact hu.blank i c (Nat.le_of_not_lt hix) hc hout.2
  · rw [List.forall_mem_append, List.forall_mem_map]
    refine ⟨fun t ht => ?_, hu.slice⟩
    rw [(hf t).2, ← h.slice t ht, slice_ofText, slice_ofText, Token.span, Token.span, hstop,
      (hf t).1, List.take_append_of_le_length (h.inside t ht)]
  · rw [List.forall_mem_append, List.forall_mem_map]
    refine ⟨fun t ht => ?_, hu.shape⟩
    rw [hstop, List.drop_append_of_le_length (h.inside t ht)]
    rcases Nat.lt_or_eq_of_le (h.inside t ht) with hlt | heq
    · rw [hi t ht hlt]
      refine (h.shape t ht).of_head_eq ?_
      rw [List.drop_eq_getElem_cons hlt]
      rfl
    · rw [heq, List.drop_length, List.nil_append]
      exact he t ht heq

/-- The tokens of two texts side by side. -/
theorem tokenize_append {x : Text} (rest : Text) {f : Token → Token}
    (hf : ∀ t, (f t).start = t.start ∧ (f t).raw = t.raw)
    (hi : ∀ t ∈ tokenize x, t.stop < x.length → f t = t)
    (he : ∀ t ∈ tokenize x, t.stop = x.length → (f t).toLexeme.Shape rest) :
    tokenize (x ++ rest) = (tokenize x).map f ++ (tokenize rest).map (Token.shift x.length) := by
  have hx : Tiles x 0 (tokenize x) := tiles_place [] x
  have hr : Tiles (x ++ rest) x.length ((tokenize rest).map (Token.shift x.length)) := by
    rw [tokenize, ← Piece.place_shift, Nat.zero_add]
    exact tiles_place x rest
  exact (@eq_place_of_tiles [] (x ++ rest) _ (hx.append (Nat.zero_le _) hr hf hi he)).symm

/-! ### After a closed text -/

/-- No quote is open at the end of a line, and no backslash that would escape what follows. -/
structure Text.Closed (x : Text) : Prop where
  quotes : ∀ t ∈ tokenize x, t.kind ≠ .unterminated
  escapes : ∀ t ∈ tokenize x, t.kind = .word → t.quoted = false → t.stop = x.length →
    EndsUnescaped t.raw

instance (x : Text) : Decidable x.Closed :=
  decidable_of_iff ((∀ t ∈ tokenize x, t.kind ≠ .unterminated) ∧ ∀ t ∈ tokenize x,
      t.kind = .word → t.quoted = false → t.stop = x.length → EndsUnescaped t.raw)
    ⟨fun h => ⟨h.1, h.2⟩, fun h => ⟨h.quotes, h.escapes⟩⟩

theorem Text.Closed.lexeme {x : Text} (h : x.Closed) {t : Token} (ht : t ∈ tokenize x)
    (hs : t.stop = x.length) : t.toLexeme.Shape [] ∧ t.toLexeme.Closed := by
  have hx : Tiles x 0 (tokenize x) := tiles_place [] x
  have hshape := hx.shape t ht
  rw [hs, List.drop_length] at hshape
  exact ⟨hshape, h.quotes t ht, fun hk hq => h.escapes t ht hk hq hs⟩

theorem Token.shift_comp_shift (n m : Nat) : shift n ∘ shift m = shift (n + m) := by
  ext1 t
  simp [shift, Nat.add_comm n, Nat.add_assoc]

/-- **A `;` after a closed text** is a token of its own, and the tokens on both sides of it are
those of the two texts. -/
theorem tokenize_append_semicolon {x : Text} (hx : x.Closed) (y : Text) :
    tokenize (x ++ ';' :: y) = tokenize x ++
      { Lexeme.literal (.join .next) [';'] with start := x.length } ::
        (tokenize y).map (Token.shift (x.length + 1)) := by
  have hs : tokenize (';' :: y) = { Lexeme.literal (.join .next) [';'] with start := 0 } ::
      (tokenize y).map (Token.shift 1) := by
    rw [tokenize, tokenize, ← Piece.place_shift, Piece.pieces, Piece.next_semicolon, Piece.place]
    rfl
  rw [tokenize_append (';' :: y) (f := id) (fun _ => ⟨rfl, rfl⟩) (fun _ _ _ => rfl), hs,
    List.map_id, List.map_cons, List.map_map, Token.shift_comp_shift]
  · simp [Token.shift]
  · intro t ht hstop
    obtain ⟨hshape, hclosed⟩ := hx.lexeme ht hstop
    exact hshape.before_semicolon hclosed y

/-- The token as it is before a blank at position `n`. -/
def Token.beforeBlank (n : Nat) (t : Token) : Token :=
  if t.stop = n then { t.toLexeme.beforeBlank with start := t.start } else t

/-- **A blank after a closed text** leaves the tokens of the text as they are, except that a `--` at
its end is no word any more. -/
theorem tokenize_append_blank {x : Text} (hx : x.Closed) {b : Char} (hb : isBlank b = true)
    (y : Text) : tokenize (x ++ b :: y) =
      (tokenize x).map (Token.beforeBlank x.length) ++
        (tokenize y).map (Token.shift (x.length + 1)) := by
  have hs : tokenize (b :: y) = (tokenize y).map (Token.shift 1) := by
    rw [tokenize, tokenize, ← Piece.place_shift, Piece.pieces_blank hb, Piece.place]
  rw [tokenize_append (b :: y) (f := Token.beforeBlank x.length), hs, List.map_map,
    Token.shift_comp_shift]
  · intro t
    unfold Token.beforeBlank
    split
    · exact ⟨rfl, t.toLexeme.raw_beforeBlank⟩
    · exact ⟨rfl, rfl⟩
  · exact fun t _ hlt => if_neg (Nat.ne_of_lt hlt)
  · intro t ht hstop
    obtain ⟨hshape, hclosed⟩ := hx.lexeme ht hstop
    rw [Token.beforeBlank, if_pos hstop]
    exact hshape.before_blank hclosed hb y

/-! ### Cutting before a token -/

section
variable {source : Text} {n : Nat} {us vs : List Token} {t : Token}

/-- The text from a token on. -/
theorem Tiles.drop_start (h : Tiles source n (us ++ t :: vs)) :
    source.drop t.start = t.raw ++ source.drop t.stop := by
  have ht : t ∈ us ++ t :: vs := by simp
  rw [← h.slice t ht, Token.span, slice_append_drop source (Nat.le_of_lt (h.nonempty t ht))]

/-- The tokens before a token tile the text before it. -/
theorem Tiles.take (h : Tiles source n (us ++ t :: vs)) : Tiles (source.take t.start) n us := by
  have ht : t ∈ us ++ t :: vs := by simp
  have hmem : ∀ u ∈ us, u ∈ us ++ t :: vs := fun u hu => List.mem_append_left _ hu
  obtain ⟨hus, htvs, hbefore⟩ := List.pairwise_append.mp h.ordered
  have hstop : ∀ u ∈ us, u.stop ≤ t.start := fun u hu => hbefore u hu t (.head _)
  have hlen : (source.take t.start).length = t.start := by
    have h₁ := h.nonempty t ht
    have h₂ := h.inside t ht
    rw [List.length_take]
    omega
  refine ⟨fun u hu => h.nonempty u (hmem u hu), fun u hu => h.after u (hmem u hu), hus,
    ?_, ?_, ?_, ?_⟩
  · rw [hlen]
    exact hstop
  · intro i c hni hc hout
    obtain ⟨hi, hc⟩ : i < t.start ∧ source[i]? = some c := by simpa [List.getElem?_take] using hc
    refine h.blank i c hni hc fun u hu => ?_
    rcases List.mem_append.mp hu with hu | hu
    · exact hout u hu
    · -- from the token on, all tokens start after this position
      have hle : t.start ≤ u.start := by
        rcases List.mem_cons.mp hu with rfl | hu
        · exact Nat.le_refl _
        · have h₁ := h.nonempty t ht
          have h₂ := (List.pairwise_cons.mp htvs).1 u hu
          omega
      omega
  · intro u hu
    rw [← h.slice u (hmem u hu), slice_ofText, slice_ofText, List.take_take,
      Nat.min_eq_left (show u.span.stop ≤ t.start from hstop u hu)]
  · intro u hu
    have hshape := h.shape u (hmem u hu)
    rcases Nat.lt_or_eq_of_le (hstop u hu) with hlt | heq
    · refine hshape.of_head_eq ?_
      rw [List.head?_drop, List.head?_drop, List.getElem?_take_of_lt hlt]
    · obtain ⟨c, r, hcr, hc⟩ := (h.shape t ht).not_blank
      rw [heq, h.drop_start, hcr] at hshape
      rw [heq, List.drop_of_length_le (Nat.le_of_eq hlen)]
      exact hshape.at_end hc

/-- The tokens before a token are closed. -/
theorem Tiles.closed (h : Tiles source n (us ++ t :: vs)) : ∀ u ∈ us, u.toLexeme.Closed := by
  intro u hu
  have ht : t ∈ us ++ t :: vs := by simp
  have hle : u.stop ≤ t.start := (List.pairwise_append.mp h.ordered).2.2 u hu t (.head _)
  have hlt : u.stop < source.length := by
    have h₁ := h.nonempty t ht
    have h₂ := h.inside t ht
    omega
  have hshape := h.shape u (List.mem_append_left _ hu)
  rw [List.drop_eq_getElem_cons hlt] at hshape
  exact hshape.closed

end

/-- **A line cut before one of its tokens** is closed and has the tokens before it. -/
theorem tokenize_take {line : Text} {us vs : List Token} {t : Token}
    (h : tokenize line = us ++ t :: vs) :
    tokenize (line.take t.start) = us ∧ Text.Closed (line.take t.start) := by
  have ht : Tiles line 0 (us ++ t :: vs) := h ▸ tiles_place [] line
  have hus : tokenize (line.take t.start) = us := (@eq_place_of_tiles [] _ us ht.take).symm
  refine ⟨hus, ?_, ?_⟩ <;> rw [hus]
  · exact fun u hu => (ht.closed u hu).quotes
  · exact fun u hu hk hq _ => (ht.closed u hu).escapes hk hq

/-! ### Cutting out a token -/

/-- **A token cut out of its line** is one token, which covers all that was cut out and stands for the
same.  It is of the same kind too, but `--` ends no options on its own. -/
theorem tokenize_slice {line : Text} {t : Token} (h : t ∈ tokenize line) :
    ∃ u, tokenize ((Line.ofText line).slice t.span) = [u] ∧
      u.raw = (Line.ofText line).slice t.span ∧ u.span = ⟨0, t.span.length⟩ ∧
      u.content = t.content ∧ u.quoted = t.quoted ∧
      u.kind = (if t.kind = .endOfOptions then .word else t.kind) ∧
      (t.kind = .endOfOptions → u.content = "--".toList) := by
  have htiles : Tiles line 0 (tokenize line) := tiles_place [] line
  have hshape : t.toLexeme.Shape (line.drop t.stop) := htiles.shape t h
  have hlength : t.span.length = t.raw.length := Nat.add_sub_cancel_left t.start t.raw.length
  rw [htiles.slice t h, hlength]
  exact ⟨⟨t.alone, 0⟩, hshape.alone.tokenize_raw, rfl, congrArg (Span.mk 0) (Nat.zero_add _), rfl, rfl,
    rfl, hshape.content_of_endOfOptions⟩

/-- The `--` and the open quote of a line, each cut out of it. -/
theorem tokenize_slice_dashes_quote :
    let line := "add -- 'it\\'s".toList
    let dashes : Token := ⟨.literal .endOfOptions "--".toList, 4⟩
    let quote : Token := ⟨⟨.unterminated, "'it\\'s".toList, "it's".toList, true⟩, 7⟩
    dashes ∈ tokenize line ∧ quote ∈ tokenize line ∧
      (∃ u, tokenize ((Line.ofText line).slice dashes.span) = [u] ∧ u.kind = .word) ∧
      ∃ u, tokenize ((Line.ofText line).slice quote.span) = [u] ∧ u.kind = .unterminated ∧
        u.content = "it's".toList := by
  intro line dashes quote
  have hdashes : dashes ∈ tokenize line := by decide +kernel
  have hquote : quote ∈ tokenize line := by decide +kernel
  obtain ⟨u, hu, -, -, -, -, hkind, -⟩ := tokenize_slice hdashes
  obtain ⟨v, hv, -, -, hcontent, -, hkind', -⟩ := tokenize_slice hquote
  exact ⟨hdashes, hquote, ⟨u, hu, hkind⟩, v, hv, hkind', hcontent⟩

end GitShell
