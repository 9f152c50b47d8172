import GitShell.Proofs.Line.Joining
import GitShell.Proofs.Line.Verbatim

/-!
# Line — Bare

The words of a line that are written without quotes.  Such a word stands for its own characters and
stops where a blank, a join or a quote stands, so another one can only follow it after a blank.

* `Lexeme.IsBare`: a word without quotes, or `--`.
* `Tiles.apart_of_bare`: two bare words next to each other have a blank between them.
* `Tiles.endOfOptions_iff`: of bare words in a row, `--` is what ends the options, but for the last.
* `tokenize_two_words`: a line of two plain words has two tokens.
-/

namespace GitShell

/-- An argument without quotes. -/
def Lexeme.IsBare (l : Lexeme) : Prop := l.kind.isArgument = true ∧ l.quoted = false

namespace Lexeme.Shape

variable {l : Lexeme} {rest : Text}

theorem content_of_bare (h : l.Shape rest) (hl : l.IsBare) : l.content = l.raw := by
  cases h with
  | join | halfJoin | unterminated => cases hl.1
  | endOfOptions | word => rfl
  | quoted => cases hl.2

/-- A bare word starts with no character that ends words, -/
theorem head_of_bare (h : l.Shape rest) (hl : l.IsBare) :
    ∃ c r, l.raw = c :: r ∧ endsWord c = false := by
  cases h with
  | join | halfJoin | unterminated => cases hl.1
  | endOfOptions => exact ⟨'-', ['-'], rfl, by decide⟩
  | @word w _ hne hw =>
      obtain ⟨c, r, rfl⟩ := List.exists_cons_of_ne_nil hne
      exact ⟨c, r, rfl, hw.head⟩
  | quoted => cases hl.2

/-- and stops before one. -/
theorem stops_of_bare (h : l.Shape rest) (hl : l.IsBare) : ∀ c ∈ rest.head?, endsWord c = true := by
  intro c hc
  cases h with
  | join | halfJoin | unterminated => cases hl.1
  | endOfOptions hb =>
      cases hc
      simp [endsWord, hb]
  | word _ _ hs => exact (hs c hc).1
  | quoted => cases hl.2

/-- At the end of a line a bare word is no `--` that ends the options. -/
theorem kind_of_bare (h : l.Shape []) (hl : l.IsBare) : l.kind = .word := by
  cases h with
  | join | halfJoin | unterminated => cases hl.1
  | word => rfl
  | quoted => cases hl.2

/-- Before a blank, `--` ends the options and nothing else does. -/
theorem endOfOptions_iff {b : Char} (h : l.Shape (b :: rest)) (hb : isBlank b = true)
    (hl : l.IsBare) : l.kind = .endOfOptions ↔ l.content = "--".toList := by
  cases h with
  | join | halfJoin => cases hl.1
  | endOfOptions => exact ⟨fun _ => rfl, fun _ => rfl⟩
  | word _ _ _ ho =>
      refine ⟨nofun, fun hw => ?_⟩
      rw [ho hw b rfl] at hb
      cases hb
  | quoted => cases hl.2

end Lexeme.Shape

namespace Tiles

variable {source : Text} {n : Nat} {us vs : List Token} {t u : Token}

/-- The tokens after a token tile what is after it. -/
theorem after_token (h : Tiles source n (us ++ t :: vs)) : Tiles source t.stop vs := by
  induction us generalizing n with
  | nil => exact h.tail
  | cons u us ih => exact ih h.tail

/-- **Two bare words next to each other** have a blank between them. -/
theorem apart_of_bare (h : Tiles source n (us ++ t :: u :: vs)) (ht : t.toLexeme.IsBare)
    (hu : u.toLexeme.IsBare) : t.stop ≠ u.start ∧
      ∃ b rest, source.drop t.stop = b :: rest ∧ isBlank b = true := by
  have htail : Tiles source t.stop (u :: vs) := h.after_token
  have hshape : t.toLexeme.Shape (source.drop t.stop) := h.shape t (by simp)
  have hlt : t.stop < source.length := by
    have h₁ := htail.after u (.head _)
    have h₂ := htail.nonempty u (.head _)
    have h₃ := htail.inside u (.head _)
    omega
  have hdrop := List.drop_eq_getElem_cons hlt
  have hapart : t.stop ≠ u.start := by
    intro heq
    -- the word would stop before the first character of the other one
    obtain ⟨c, r, hraw, hc⟩ := (htail.shape u (.head _)).head_of_bare hu
    have hnil : Tiles source t.stop ([] ++ u :: vs) := htail
    have hstart := hnil.drop_start
    have hstop := hshape.stops_of_bare ht c (by rw [heq, hstart, hraw]; rfl)
    rw [hc] at hstop
    cases hstop
  refine ⟨hapart, source[t.stop], _, hdrop, ?_⟩
  rcases htail.head (List.getElem?_eq_getElem hlt) with ⟨v, ws, heq, hv⟩ | ⟨hb, -⟩
  · cases heq
    exact absurd hv.symm hapart
  · exact hb

/-- Of bare words in a row, those before the last one end the options where they are `--`. -/
theorem endOfOptions_iff (h : Tiles source n (us ++ (vs ++ [t])))
    (hbare : ∀ w ∈ vs ++ [t], w.toLexeme.IsBare) :
    ∀ w ∈ vs, w.kind = .endOfOptions ↔ w.content = "--".toList := by
  intro w hw
  obtain ⟨a, b, rfl⟩ := List.append_of_mem hw
  obtain ⟨u, ws, hnext⟩ := List.exists_cons_of_ne_nil (List.concat_ne_nil t b)
  have hsplit : us ++ (a ++ w :: b ++ [t]) = (us ++ a) ++ w :: u :: ws := by
    rw [← hnext, List.append_assoc, List.append_assoc, List.cons_append]
  have hu : u ∈ a ++ w :: b ++ [t] := by
    rw [List.append_assoc, List.cons_append, hnext]
    simp
  rw [hsplit] at h
  have hwbare : w.toLexeme.IsBare := hbare w (List.mem_append_left _ hw)
  obtain ⟨-, c, rest, hdrop, hc⟩ := h.apart_of_bare hwbare (hbare u hu)
  have hshape := h.shape w (by simp)
  rw [hdrop] at hshape
  exact hshape.endOfOptions_iff hc hwbare

end Tiles

/-! ### Plain words -/

/-- A text without blanks, quotes, escapes and characters of joins. -/
structure Text.IsPlainWord (t : Text) : Prop where
  ne_nil : t ≠ []
  plain : ∀ c ∈ t, endsWord c = false ∧ c ≠ '\\'

namespace Text.IsPlainWord

variable {t u : Text}

theorem onlyEscaped (h : t.IsPlainWord) : OnlyEscaped endsWord t := by
  intro i c hc hends
  rw [(h.plain c (List.mem_of_getElem? hc)).1] at hends
  cases hends

/-- Nothing after it is escaped. -/
theorem endsUnescaped (h : t.IsPlainWord) : EndsUnescaped t := by
  have hplain := h.plain
  clear h
  induction t with
  | nil => exact endsUnescaped_nil
  | cons c t ih =>
      obtain ⟨hc, ht⟩ := List.forall_mem_cons.mp hplain
      exact (endsUnescaped_plain hc.2).mpr (ih ht)

theorem tokenize (h : t.IsPlainWord) : tokenize t = [⟨.literal .word t, 0⟩] :=
  tokenize_of_onlyEscaped h.ne_nil h.onlyEscaped

theorem closed (h : t.IsPlainWord) : t.Closed := by
  refine ⟨fun w hw => ?_, fun w hw _ _ _ => ?_⟩
  · rw [h.tokenize, List.mem_singleton] at hw
    rw [hw]
    exact nofun
  · rw [h.tokenize, List.mem_singleton] at hw
    rw [hw]
    exact h.endsUnescaped

end Text.IsPlainWord

/-- **Two plain words** with a blank between them are two tokens, if the first one does not end the
options. -/
theorem tokenize_two_words {t u : Text} (ht : t.IsPlainWord) (hne : t ≠ "--".toList)
    (hu : u.IsPlainWord) {b : Char} (hb : isBlank b = true) : tokenize (t ++ b :: u) =
      [⟨.literal .word t, 0⟩] ++ [⟨.literal .word u, t.length + 1⟩] := by
  have hword : Lexeme.beforeBlank (.literal .word t) = .literal .word t :=
    if_neg fun h => hne (congrArg Lexeme.raw h)
  have hlast : Token.beforeBlank t.length ⟨.literal .word t, 0⟩ = ⟨.literal .word t, 0⟩ := by
    rw [Token.beforeBlank, hword, ite_self]
  have hshift : Token.shift (t.length + 1) ⟨.literal .word u, 0⟩ =
      ⟨.literal .word u, t.length + 1⟩ := congrArg (Token.mk _) (Nat.zero_add _)
  rw [tokenize_append_blank ht.closed hb, ht.tokenize, hu.tokenize, List.map_singleton,
    List.map_singleton, hlast, hshift]

end GitShell
