import GitShell.Proofs.Line.Command

/-!
# Line — Place

The places of a line by their indices, and the command of a word said with them: the last place in
command position up to the word, with words only from there on (`IsCommandOf`).

* `Cursor.goto_index`: a place on a token is the one at its index.
* `Cursor.allSince_on`, `Cursor.allSince_on_cons`: what holds at all places from an index up to a
  place is checked one place at a time, to the left.
* `Governs.isCommandOf`: the token that governs a word is its command.
* `Cursor.exists_governs`: every word under a cursor of a line is governed by some token.
-/

namespace GitShell

namespace Cursor

theorem seek_append (left us : List Token) (t : Token) (vs : List Token) :
    seek left (us ++ t :: vs) us.length = on (us.reverse ++ left) t vs := by
  induction us generalizing left with
  | nil => rfl
  | cons u us ih =>
      rw [List.cons_append, List.length_cons, seek, ih, List.reverse_cons, List.append_assoc]
      rfl

/-- The place at the index of a token is the one on that token. -/
theorem goto_index (left : List Token) (t : Token) (right : List Token) :
    (on left t right).goto (on left t right).index = on left t right := by
  have h := seek_append [] left.reverse t right
  rw [List.length_reverse, List.reverse_reverse, List.append_nil] at h
  exact h

/-- Where an index leads depends on the line only. -/
theorem goto_congr {c d : Cursor} (h : c.tokens = d.tokens) (i : Int) : c.goto i = d.goto i := by
  rw [goto, goto, h]

theorem tokens_on_cons (left : List Token) (p t : Token) (right : List Token) :
    (on (p :: left) t right).tokens = (on left p (t :: right)).tokens := by
  rw [tokens, tokens, List.reverse_cons, List.append_assoc, List.singleton_append]

/-! ### All places up to a place -/

/-- Every place from the index `i` up to the place `z` satisfies `p`. -/
def AllSince (i : Int) (z : Cursor) (p : Cursor → Prop) : Prop :=
  ∀ j, i ≤ j → j ≤ z.index → p (z.goto j)

section
variable {p : Cursor → Prop} {i : Int} {left right : List Token} {q t : Token}

theorem allSince_of_lt {z : Cursor} (h : z.index < i) : AllSince i z p := by
  intro j hij hj
  exact absurd (Int.lt_of_lt_of_le h hij) (Int.not_lt.mpr hj)

/-- From its own index on there is only the place itself. -/
theorem allSince_on : AllSince (on left t right).index (on left t right) p ↔ p (on left t right) := by
  constructor
  · intro h
    rw [← goto_index left t right]
    exact h _ (Int.le_refl _) (Int.le_refl _)
  · intro h j hij hj
    rw [Int.le_antisymm hj hij, goto_index]
    exact h

/-- From an index on that is not to its right there is the place, and those from the index up to
the place before it. -/
theorem allSince_on_cons (hi : i ≤ (on (q :: left) t right).index) :
    AllSince i (on (q :: left) t right) p ↔
      p (on (q :: left) t right) ∧ AllSince i (on left q (t :: right)) p := by
  have hindex : (on (q :: left) t right).index = (on left q (t :: right)).index + 1 := rfl
  have hgoto := goto_congr (tokens_on_cons left q t right)
  constructor
  · intro h
    refine ⟨?_, fun j hij hj => ?_⟩
    · rw [← goto_index (q :: left) t right]
      exact h _ hi (Int.le_refl _)
    · rw [← hgoto]
      exact h j hij (by omega)
  · rintro ⟨hz, h⟩ j hij hj
    rcases Int.lt_or_eq_of_le hj with hlt | rfl
    · rw [hgoto]
      exact h j hij (by omega)
    · rw [goto_index]
      exact hz

end

/-! ### The command of a word -/

/-- The place `c` is the command of the word at the place `z`. -/
structure IsCommandOf (c z : Cursor) : Prop where
  line : c.tokens = z.tokens
  notAfter : c.index ≤ z.index
  isCommand : c.isCommand = true
  /-- No place between the two is in command position, nor is the word if it is not `c`, -/
  nearest : AllSince (c.index + 1) z fun d => d.isCommand = false
  /-- and from the command to the word there are words only. -/
  words : AllSince c.index z fun d => d.isArgument = true

end Cursor

namespace Governs

open Cursor

variable {l ws left : List Token} {c t : Token}

theorem length_le (h : Governs l c ws left t) : l.length ≤ left.length := by
  induction h with
  | command => exact Nat.le_refl _
  | word _ _ ih => exact Nat.le_succ_of_le ih

theorem index_le (h : Governs l c ws left t) (r right : List Token) :
    (on l c r).index ≤ (on left t right).index :=
  Int.ofNat_le.mpr h.length_le

/-- What is said of tokens holds at all places from the command up to the word if it holds of the
words and the command. -/
theorem allSince_iff (h : Governs l c ws left t) {p : Cursor → Prop} {q : Token → Prop}
    (hpq : ∀ left t right, p (on left t right) ↔ q t) (r right : List Token) :
    AllSince (on l c r).index (on left t right) p ↔ ∀ u ∈ ws ++ [c], q u := by
  induction h generalizing right with
  | command =>
      rw [List.nil_append, List.forall_mem_singleton, ← hpq l c right]
      have hindex : (on l c r).index = (on l c right).index := rfl
      rw [hindex, allSince_on]
  | word ht h ih =>
      rw [allSince_on_cons ((Governs.word ht h).index_le r right), hpq, ih, List.cons_append,
        List.forall_mem_cons]

theorem forall_isArgument (h : Governs l c ws left t) :
    ∀ u ∈ ws ++ [c], u.kind.isArgument = true := by
  induction h with
  | command h =>
      rw [List.nil_append, List.forall_mem_singleton]
      exact isArgument_of_commandPosition h
  | word ht _ ih =>
      rw [List.cons_append, List.forall_mem_cons]
      exact ⟨ht, ih⟩

/-- No word after the command is in command position. -/
theorem nearest (h : Governs l c ws left t) (r right : List Token) :
    AllSince ((on l c r).index + 1) (on left t right) fun d => d.isCommand = false := by
  induction h generalizing right with
  | command => exact allSince_of_lt (Int.lt_succ _)
  | @word ws left p t ht h ih =>
      have hafter : GitShell.commandPosition (p :: left) t = false :=
        commandPosition_after_word h.isArgument
      exact (allSince_on_cons (Int.add_le_add_right (h.index_le r right) 1)).mpr
        ⟨hafter, ih _⟩

/-- The line of the command and of the word is one. -/
theorem tokens_on (h : Governs l c ws left t) (right : List Token) :
    (on l c (ws.reverse ++ right)).tokens = (on left t right).tokens := by
  induction h generalizing right with
  | command => rfl
  | word _ _ ih =>
      rw [tokens_on_cons, ← ih, List.reverse_cons, List.append_assoc]
      rfl

/-- **The token that governs a word** is the nearest one in command position. -/
theorem isCommandOf (h : Governs l c ws left t) (right : List Token) :
    (on l c (ws.reverse ++ right)).IsCommandOf (on left t right) where
  line := h.tokens_on right
  notAfter := h.index_le _ _
  isCommand := h.commandPosition_command
  nearest := h.nearest _ _
  words := (h.allSince_iff (fun _ _ _ => Iff.rfl) _ _).mpr h.forall_isArgument

/-- Options are allowed if no place from the command up to the word is a `--`. -/
theorem optionsAllowed_iff (h : Governs l c ws left t) (r right : List Token) :
    (on left t right).optionsAllowed = true ↔
      AllSince (on l c r).index (on left t right) fun d => d.kind? ≠ some .endOfOptions := by
  rw [h.allSince_iff fun _ _ _ => not_congr Option.some_inj, Cursor.optionsAllowed,
    h.optionsAllowedAt, List.all_eq_true]
  simp only [bne_iff_ne, ne_eq]

end Governs

/-! ### The places of a line -/

/-- Every word under a cursor of a line belongs to a command. -/
theorem Cursor.exists_governs {line : Text} {z : Cursor} (hline : z.tokens = tokenize line)
    (hz : z.isArgument = true) :
    ∃ l c ws left t right, z = on left t right ∧ Governs l c ws left t := by
  cases z with
  | head | tail => cases hz
  | on left t right =>
      have hleft : ∀ p ∈ left, p.kind ≠ .unterminated := by
        intro p hp
        exact closed_of_tokenize hline.symm p (List.mem_reverse.mpr hp)
      have ht : t.kind.isArgument = true := by simpa [isArgument, kind?, token?] using hz
      obtain ⟨l, c, ws, h⟩ := GitShell.exists_governs ht hleft
      exact ⟨l, c, ws, left, t, right, rfl, h⟩

end GitShell
