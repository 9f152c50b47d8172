import GitShell.Line.Cursor
import GitShell.Proofs.Line.Joining

/-!
# Line — Command

The command that a word of a line belongs to: the nearest token in command position at or before
the word, with nothing but words from the one to the other (`Governs`).

* `exists_governs`: every word has such a command, if no quote is open to its left.
* `Governs.commandFrom`, `Governs.findFrom`: the walk over the words and the search through all
  tokens both stop at this command.
* `Governs.optionsAllowedAt`: options are allowed if no word of the command so far is a `--`.
* `Governs.shift`: a join and more tokens to the left of the line change nothing of this.

The walks to the left are written without regard to joins.  What keeps them within a command is that
a word after anything but a word is in command position, and that only the last token of a line can
be an open quote (`pairwise_closed`).
-/

namespace GitShell

/-- The word `t` after `left` belongs to the command `c` after `l`; `ws` are the words from `t` back
to the command, nearest first, the command not among them. -/
inductive Governs (l : List Token) (c : Token) : List Token → List Token → Token → Prop where
  | command (h : commandPosition l c = true) : Governs l c [] l c
  | word {ws left : List Token} {p t : Token} (ht : t.kind.isArgument = true)
      (h : Governs l c ws left p) : Governs l c (t :: ws) (p :: left) t

theorem isArgument_of_commandPosition {left : List Token} {t : Token}
    (h : commandPosition left t = true) : t.kind.isArgument = true := by
  simp only [commandPosition, Bool.and_eq_true] at h
  exact h.1

/-- A word directly after a word is no command. -/
theorem commandPosition_after_word {left : List Token} {p t : Token}
    (hp : p.kind.isArgument = true) : commandPosition (p :: left) t = false := by
  cases hk : p.kind <;> simp_all [commandPosition, Kind.isJoin, Kind.isArgument]

/-- A word after a join is a command. -/
theorem commandPosition_after_join {left : List Token} {p t : Token} (hp : p.kind.isJoin = true) :
    commandPosition (p :: left) t = t.kind.isArgument := by
  simp [commandPosition, hp]

theorem commandPosition_first (t : Token) : commandPosition [] t = t.kind.isArgument := by
  simp [commandPosition]

namespace Governs

variable {l ws left : List Token} {c t : Token}

theorem isArgument (h : Governs l c ws left t) : t.kind.isArgument = true := by
  cases h with
  | command h => exact isArgument_of_commandPosition h
  | word ht _ => exact ht

/-- The words and the command are the tokens from the word on to the left. -/
theorem tokens (h : Governs l c ws left t) : t :: left = ws ++ c :: l := by
  induction h with
  | command => rfl
  | word _ _ ih => rw [ih, List.cons_append]

theorem commandPosition (h : Governs l c ws left t) : commandPosition left t = ws.isEmpty := by
  cases h with
  | command h => exact h
  | word _ h => exact commandPosition_after_word h.isArgument

/-- Options are allowed as long as no word so far, the command included, is a `--`. -/
theorem optionsAllowedAt (h : Governs l c ws left t) :
    optionsAllowedAt left t = (ws ++ [c]).all fun w => w.kind != .endOfOptions := by
  induction h with
  | command h =>
      unfold GitShell.optionsAllowedAt
      by_cases hc : c.kind = .endOfOptions <;> simp [hc, h]
  | @word ws left p t ht h ih =>
      unfold GitShell.optionsAllowedAt
      simp only [ih, commandPosition_after_word h.isArgument, List.cons_append, List.all_cons]
      by_cases hc : t.kind = .endOfOptions <;> simp [hc]

theorem commandPosition_command (h : Governs l c ws left t) :
    GitShell.commandPosition l c = true := by
  induction h with
  | command h => exact h
  | word _ _ ih => exact ih

/-- The walk over the words stops at the command, with the words after it to its right. -/
theorem commandFrom (h : Governs l c ws left t) (right : List Token) :
    Cursor.commandFrom left t right = some (.on l c (ws.reverse ++ right)) := by
  induction h generalizing right with
  | command h =>
      unfold Cursor.commandFrom
      rw [if_pos (isArgument_of_commandPosition h), if_pos h]
      rfl
  | @word ws left p t ht h ih =>
      unfold Cursor.commandFrom
      rw [if_pos ht, commandPosition_after_word h.isArgument, List.reverse_cons,
        List.append_assoc]
      exact ih (t :: right)

/-- So does the search through all tokens. -/
theorem findFrom (h : Governs l c ws left t) (right : List Token) :
    Cursor.findFrom Cursor.isCommand left t right = some (.on l c (ws.reverse ++ right)) := by
  induction h generalizing right with
  | command h =>
      unfold Cursor.findFrom
      rw [Cursor.isCommand, if_pos h]
      rfl
  | @word ws left p t ht h ih =>
      unfold Cursor.findFrom
      rw [Cursor.isCommand, commandPosition_after_word h.isArgument, List.reverse_cons,
        List.append_assoc]
      exact ih (t :: right)

/-- The same words at another place, after a join and whatever is before it. -/
theorem shift (h : Governs l c ws left t) (n : Nat) {s : Token} (hs : s.kind.isJoin = true)
    (before : List Token) :
    Governs (l.map (Token.shift n) ++ s :: before) (c.shift n) (ws.map (Token.shift n))
      (left.map (Token.shift n) ++ s :: before) (t.shift n) := by
  induction h with
  | command h =>
      refine .command ?_
      cases l with
      | nil =>
          -- the first word of the line; now the join is before it
          have hc : c.kind.isArgument = true := isArgument_of_commandPosition h
          rw [List.map_nil, List.nil_append, commandPosition_after_join hs]
          exact hc
      | cons p l => exact h
  | word ht _ ih => exact .word ht ih

end Governs

/-- Every word belongs to a command, if no quote is open to its left. -/
theorem exists_governs {left : List Token} {t : Token} (ht : t.kind.isArgument = true)
    (hleft : ∀ p ∈ left, p.kind ≠ .unterminated) : ∃ l c ws, Governs l c ws left t := by
  induction left generalizing t with
  | nil => exact ⟨[], t, [], .command (by rw [commandPosition_first, ht])⟩
  | cons p left ih =>
      have hp : p.kind ≠ .unterminated := hleft p (.head _)
      cases hk : p.kind with
      | word | endOfOptions =>
          have hp' : p.kind.isArgument = true := by rw [hk]; rfl
          obtain ⟨l, c, ws, h⟩ := ih hp' fun q hq => hleft q (.tail _ hq)
          exact ⟨l, c, t :: ws, .word ht h⟩
      | join | halfJoin =>
          exact ⟨p :: left, t, [], .command (by simp [commandPosition, ht, hk, Kind.isJoin])⟩
      | unterminated => exact absurd hk hp

/-! ### The tokens of a line -/

/-- Only the last token of a line can be an open quote. -/
theorem Tiles.pairwise_closed {source : Text} {n : Nat} {ts : List Token} (h : Tiles source n ts) :
    ts.Pairwise fun t _ => t.kind ≠ .unterminated := by
  induction ts generalizing n with
  | nil => exact .nil
  | cons t ts ih =>
      refine List.pairwise_cons.mpr ⟨fun u hu => ?_, ih h.tail⟩
      obtain ⟨us, vs, rfl⟩ := List.append_of_mem hu
      rw [← List.cons_append] at h
      exact (h.closed t (.head _)).quotes

theorem pairwise_closed (line : Text) :
    (tokenize line).Pairwise fun t _ => t.kind ≠ .unterminated :=
  (tiles_place [] line).pairwise_closed

/-- To the left of a token of a line no quote is open. -/
theorem closed_of_tokenize {line : Text} {us vs : List Token} {t : Token}
    (h : tokenize line = us ++ t :: vs) : ∀ u ∈ us, u.kind ≠ .unterminated := by
  have hp := pairwise_closed line
  rw [h, List.pairwise_append] at hp
  exact fun u hu => hp.2.2 u hu t (.head _)

/-- An open quote takes in the rest of the line. -/
theorem nothing_after_open_quote {line : Text} {us vs : List Token} {t : Token}
    (h : tokenize line = us ++ t :: vs) (ht : t.kind = .unterminated) : vs = [] := by
  cases vs with
  | nil => rfl
  | cons v vs =>
      have hsplit : tokenize line = (us ++ [t]) ++ v :: vs := by rw [h, List.append_cons]
      exact absurd ht (closed_of_tokenize hsplit t (by simp))

/-- The last token of a line that does not end in a blank ends where the line ends. -/
theorem exists_last_of_endsInWord {source : Text} (h : source.endsInWord = true) :
    ∃ (left : List Token) (t : Token), tokenize source = left.reverse ++ [t] ∧
      t.stop = source.length := by
  have htiles : Tiles source 0 (tokenize source) := tiles_place [] source
  obtain ⟨c, hc, hword⟩ : ∃ c, source.getLast? = some c ∧ isBlank c = false := by
    unfold Text.endsInWord at h
    split at h
    · cases h
    next c hc => exact ⟨c, hc, by simpa using h⟩
  obtain ⟨n, hn⟩ : ∃ n, source.length = n + 1 := by
    cases source with
    | nil => cases hc
    | cons d source => exact ⟨source.length, rfl⟩
  have hlast : source[n]? = some c := by
    rw [← hc, List.getLast?_eq_getElem?, hn, Nat.add_sub_cancel]
  -- some token covers the last character, since it is no blank
  obtain ⟨t, ht, hcover⟩ : ∃ t ∈ tokenize source, t.start ≤ n ∧ n < t.stop := by
    refine Classical.byContradiction fun hno => ?_
    have hb := htiles.blank n c (Nat.zero_le _) hlast fun t ht hcover => hno ⟨t, ht, hcover⟩
    rw [hb] at hword
    cases hword
  have hin := htiles.inside t ht
  have hstop : t.stop = source.length := by omega
  -- no token can start after it
  obtain ⟨us, vs, hsplit⟩ := List.append_of_mem ht
  rw [hsplit] at htiles
  have hvs : vs = [] := by
    cases vs with
    | nil => rfl
    | cons u vs =>
        have hu : u ∈ us ++ t :: u :: vs := by simp
        have h₁ := htiles.nonempty u hu
        have h₂ := htiles.inside u hu
        have htail := (List.pairwise_append.mp htiles.ordered).2.1
        have h₃ := (List.pairwise_cons.mp htail).1 u (.head _)
        omega
  exact ⟨us.reverse, t, by rw [hsplit, hvs, List.reverse_reverse], hstop⟩

/-! ### The last place of a line -/

namespace Cursor

theorem tokens_seek (left ts : List Token) (n : Nat) :
    (seek left ts n).tokens = left.reverse ++ ts := by
  induction ts generalizing left n with
  | nil => simp [seek, tokens]
  | cons t ts ih =>
      cases n with
      | zero => rfl
      | succ n => rw [seek, ih, List.reverse_cons, List.append_assoc, List.singleton_append]

theorem lastOf_concat (left ts : List Token) (t : Token) :
    lastOf left (ts ++ [t]) = on (ts.reverse ++ left) t [] := by
  induction ts generalizing left with
  | nil => rfl
  | cons u ts ih =>
      cases ts with
      | nil => rfl
      | cons v ts =>
          rw [List.cons_append, List.cons_append, lastOf, ← List.cons_append, ih]
          simp

theorem last_of_tokens {c : Cursor} {left : List Token} {t : Token}
    (h : c.tokens = left.reverse ++ [t]) : c.last = on left t [] := by
  rw [last, h, lastOf_concat, List.reverse_reverse, List.append_nil]

/-- The last place of a line. -/
theorem last_ofTokens {ts left : List Token} {t : Token} (h : ts = left.reverse ++ [t]) :
    (ofTokens ts).last = on left t [] :=
  last_of_tokens (by rw [ofTokens, tokens_seek, h]; rfl)

end Cursor

end GitShell
