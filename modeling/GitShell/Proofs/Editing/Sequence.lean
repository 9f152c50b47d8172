import GitShell.Proofs.Editing.LastWord
import GitShell.Proofs.Editing.Painting

/-!
# Editing — Sequence

A `;` after a closed text cuts a line in two for the editor.  The text need not be one that can be
run: it is enough that it leaves no quote and no escape open.

* `annotateFrom_append`, `annotateFrom_after_join`: what is after a join is painted as it would be
  on a line of its own.
* `Plan.ofLine_after_semicolon`, `typedOption_after_semicolon`: its end is completed and hinted at
  as on a line of its own.
* `shown_after_semicolon`: the three together, for all metadata.
-/

namespace GitShell

/-! ### Painting after a join -/

section
variable {left ts : List Token} {t s : Token}

/-- Whether a token is in command position is seen from the token before it. -/
theorem commandPosition_after (n : Nat) (hs : s.kind.isJoin = true) (left before : List Token)
    (t : Token) : commandPosition (left.map (Token.shift n) ++ s :: before) (t.shift n) =
      commandPosition left t := by
  cases left with
  | nil =>
      rw [List.map_nil, List.nil_append, commandPosition_after_join hs, commandPosition_first]
      rfl
  | cons p left => rfl

theorem commandsFrom_after (n : Nat) (hs : s.kind.isJoin = true) (left before ts : List Token) :
    commandsFrom (left.map (Token.shift n) ++ s :: before) (ts.map (Token.shift n)) =
      (commandsFrom left ts).map (Token.shift n) := by
  induction ts generalizing left with
  | nil => rfl
  | cons t ts ih =>
      have htail := ih (t :: left)
      rw [List.map_cons, List.cons_append] at htail
      rw [List.map_cons, commandsFrom, commandsFrom, commandPosition_after n hs, htail]
      split <;> rfl

/-- A word is painted by the command that it belongs to, so what is before a join does not
matter. -/
theorem wordCategory_after (n : Nat) (hs : s.kind.isJoin = true) (before : List Token)
    (known : Bool) (ht : t.kind.isArgument = true) (hleft : ∀ p ∈ left, p.kind ≠ .unterminated) :
    wordCategory known (left.map (Token.shift n) ++ s :: before) (t.shift n) =
      wordCategory known left t := by
  obtain ⟨l, c, ws, h⟩ := exists_governs ht hleft
  have hallowed : optionsAllowedAt (left.map (Token.shift n) ++ s :: before) (t.shift n) =
      optionsAllowedAt left t := by
    rw [h.optionsAllowedAt, (h.shift n hs before).optionsAllowedAt]
    simp [Token.shift, Function.comp_def]
  rw [wordCategory, wordCategory, commandPosition_after n hs, hallowed]
  rfl

theorem paintToken_after (n : Nat) (hs : s.kind.isJoin = true) (before : List Token)
    (known : Bool) (hleft : ∀ p ∈ left, p.kind ≠ .unterminated) :
    paintToken known (left.map (Token.shift n) ++ s :: before) (t.shift n) =
      (paintToken known left t).map (Prod.map (Span.shift n) id) := by
  have hk' : (t.shift n).kind = t.kind := rfl
  cases hk : t.kind with
  | word | endOfOptions =>
      have ht : t.kind.isArgument = true := by rw [hk]; rfl
      rw [paintToken_word ht, paintToken_word (t := t.shift n) ht,
        wordCategory_after n hs before known ht hleft, Token.span_shift]
      rfl
  | join | halfJoin => simp [paintToken, hk', hk, Token.span_shift]
  | unterminated =>
      have hraw : (t.shift n).raw = t.raw := rfl
      have hstart : (t.shift n).start = t.start + n := rfl
      have hstop : (t.shift n).stop = t.stop + n := congrArg Span.stop (Token.span_shift n t)
      simp only [paintToken, hk', hk, hraw, hstart, hstop]
      split <;> simp [Span.shift, Nat.add_right_comm]

theorem paintFrom_after (n : Nat) (hs : s.kind.isJoin = true) (before : List Token)
    (hts : ts.Pairwise fun t _ => t.kind ≠ .unterminated)
    (hleft : ∀ t ∈ ts, ∀ p ∈ left, p.kind ≠ .unterminated) (answers : List Bool) :
    paintFrom (left.map (Token.shift n) ++ s :: before) (ts.map (Token.shift n)) answers =
      (paintFrom left ts answers).map (Prod.map (Span.shift n) id) := by
  induction ts generalizing left answers with
  | nil => rfl
  | cons t ts ih =>
      have hp : ∀ p ∈ left, p.kind ≠ .unterminated := hleft t (.head _)
      obtain ⟨ht, hts⟩ := List.pairwise_cons.mp hts
      -- a token with another one after it is no open quote
      have htail : ∀ u ∈ ts, ∀ p ∈ t :: left, p.kind ≠ .unterminated := fun u hu p hpl => by
        rcases List.mem_cons.mp hpl with rfl | hpl
        · exact ht u hu
        · exact hp p hpl
      have ih := fun answers => ih hts htail answers
      simp only [List.map_cons, List.cons_append] at ih
      rw [List.map_cons, paintFrom, paintFrom, commandPosition_after n hs]
      split <;> rw [paintToken_after n hs before _ hp, ih, List.map_append]

end

section
variable {m : Type → Type} [Monad m] [LawfulMonad m] (M : Metadata m)

/-- Tokens are painted one part of the line after the other. -/
theorem annotateFrom_append (left ts us : List Token) :
    annotateFrom M left (ts ++ us) = do
      let a ← annotateFrom M left ts
      let b ← annotateFrom M (ts.reverse ++ left) us
      return a ++ b := by
  induction ts generalizing left with
  | nil => simp [annotateFrom]
  | cons t ts ih =>
      -- what is after a token is not asked about
      have ht : annotateToken M left t (ts ++ us) = annotateToken M left t ts := by
        rw [annotateToken_eq, annotateToken_eq]
      simp only [List.cons_append, annotateFrom, ht, ih, bind_assoc, pure_bind, List.append_assoc,
        List.reverse_cons, List.nil_append]

/-- After a join the tokens are painted as on a line of their own. -/
theorem annotateFrom_after_join (n : Nat) {s : Token} (hs : s.kind.isJoin = true)
    (before : List Token) {ts : List Token} (hts : ts.Pairwise fun t _ => t.kind ≠ .unterminated) :
    annotateFrom M (s :: before) (ts.map (Token.shift n)) =
      List.map (Prod.map (Span.shift n) id) <$> annotateFrom M [] ts := by
  have hnone : ∀ t ∈ ts, ∀ p ∈ ([] : List Token), p.kind ≠ .unterminated := by simp
  have hpaint := paintFrom_after n hs before hts hnone
  have hcommands := commandsFrom_after n hs [] before ts
  rw [List.map_nil, List.nil_append] at hpaint hcommands
  rw [annotateFrom_eq, annotateFrom_eq, hcommands, List.mapM_map, Functor.map_map]
  exact congrArg (· <$> _) (funext hpaint)

end

/-! ### The last word after a join -/

section
variable {x y : Text}

theorem endsInWord_append_cons (x : Text) (d : Char) (y : Text) :
    Text.endsInWord (x ++ d :: y) = Text.endsInWord (d :: y) := by
  rw [Text.endsInWord, Text.endsInWord, List.getLast?_append, List.getLast?_cons,
    Option.some_or]

/-- The `;` after a text, as a token of the line. -/
def semicolonAfter (x : Text) : Token :=
  { Lexeme.literal (.join .next) [';'] with start := x.length }

/-- A line after a `;` ends in the word that it ends in alone; or in a blank in both cases; or it is
empty, and then the `;` is the last token. -/
theorem last_after_semicolon (hx : x.Closed) (y : Text) :
    (∃ (left : List Token) (t : Token), (∀ p ∈ left, p.kind ≠ .unterminated) ∧
      y.endsInWord = true ∧ tokenize y = left.reverse ++ [t] ∧
      Text.endsInWord (x ++ ';' :: y) = true ∧
      tokenize (x ++ ';' :: y) = (left.map (Token.shift (x.length + 1)) ++
        semicolonAfter x :: (tokenize x).reverse).reverse ++ [t.shift (x.length + 1)]) ∨
    (y.endsInWord = false ∧ Text.endsInWord (x ++ ';' :: y) = false) ∨
    (y.endsInWord = false ∧ Text.endsInWord (x ++ ';' :: y) = true ∧
      tokenize (x ++ ';' :: y) = (tokenize x).reverse.reverse ++ [semicolonAfter x]) := by
  have hts := tokenize_append_semicolon hx y
  cases y with
  | nil =>
      refine .inr (.inr ⟨rfl, ?_, ?_⟩)
      · rw [endsInWord_append_cons]
        rfl
      · have hnil : tokenize [] = [] := by decide +kernel
        rw [hts, hnil, List.reverse_reverse]
        rfl
  | cons d y =>
      have hline : Text.endsInWord (x ++ ';' :: d :: y) = Text.endsInWord (d :: y) := by
        rw [endsInWord_append_cons]
        exact endsInWord_append_cons [';'] d y
      cases hy : Text.endsInWord (d :: y) with
      | true =>
          obtain ⟨left, t, hlast, -⟩ := exists_last_of_endsInWord hy
          refine .inl ⟨left, t, fun p hp => ?_, rfl, hlast, by rw [hline, hy], ?_⟩
          · exact closed_of_tokenize hlast p (List.mem_reverse.mpr hp)
          · rw [hts, hlast]
            simp [semicolonAfter]
      | false => exact .inr (.inl ⟨rfl, by rw [hline, hy]⟩)

/-- The plan for a line after a `;` is the plan for the line alone, further on. -/
theorem Plan.ofLine_after_semicolon (hx : x.Closed) (y : Text) :
    Plan.ofLine (x ++ ';' :: y) =
      (Plan.ofLine y).map fun p => { p with start := p.start + (x.length + 1) } := by
  rcases last_after_semicolon hx y with ⟨left, t, hleft, hy, hlast, hline, hts⟩ | ⟨hy, hline⟩ |
      ⟨hy, hline, hts⟩
  · rw [ofLine_eq hline hts, ofLine_eq hy hlast, ofToken_after_join _ hleft rfl, Option.map_map]
    rfl
  · rw [ofLine_eq_none hline, ofLine_eq_none hy]
    rfl
  · rw [ofLine_eq hline hts, ofLine_eq_none hy, ofToken_of_not_argument rfl]
    rfl

theorem typedOption_after_semicolon (hx : x.Closed) (y : Text) :
    typedOption (x ++ ';' :: y) = typedOption y := by
  rcases last_after_semicolon hx y with ⟨left, t, hleft, hy, hlast, hline, hts⟩ | ⟨hy, hline⟩ |
      ⟨hy, hline, hts⟩
  · rw [typedOption_eq hline hts, typedOption_eq hy hlast, typedOption_after_join _ hleft rfl]
  · rw [typedOption_eq_none hline, typedOption_eq_none hy]
  · rw [typedOption_eq hline hts, typedOption_eq_none hy,
      Cursor.typedOption_of_not_argument rfl]

end

/-! ### What is shown -/

section
variable {m : Type → Type} [Monad m] [LawfulMonad m] (M : Metadata m) {x : Text}

/-- **What the editor shows for a command does not depend on the commands before it.**  A line
after a closed text and a `;` is painted, completed and hinted at as it is alone, further on, and
the metadata is asked the same. -/
theorem shown_after_semicolon (hx : x.Closed) (y : Text) (limit : Nat) :
    annotate M (x ++ ';' :: y) = (do
        let a ← annotate M x
        let b ← annotate M y
        return a ++ (⟨x.length, x.length + 1⟩, .join) ::
          b.map (Prod.map (Span.shift (x.length + 1)) id)) ∧
      completeAt M (x ++ ';' :: y) limit =
        Option.map (fun c => { c with start := c.start + (x.length + 1) }) <$>
          completeAt M y limit ∧
      hint M (x ++ ';' :: y) = hint M y := by
  refine ⟨?_, ?_, ?_⟩
  · have hs : annotateToken M (tokenize x).reverse (semicolonAfter x)
        ((tokenize y).map (Token.shift (x.length + 1))) =
          pure [(⟨x.length, x.length + 1⟩, .join)] := by
      rw [annotateToken_eq]
      rfl
    rw [annotate, tokenize_append_semicolon hx, ← semicolonAfter, annotateFrom_append,
      List.append_nil, annotateFrom, hs,
      annotateFrom_after_join M (x.length + 1) (s := semicolonAfter x) rfl _ (pairwise_closed y)]
    simp [annotate]
  · have hplan := Plan.ofLine_after_semicolon hx y
    cases hy : Plan.ofLine y with
    | none =>
        rw [hy] at hplan
        rw [completeAt_eq_none M hplan, completeAt_eq_none M hy, map_pure]
        rfl
    | some p =>
        rw [hy] at hplan
        rw [completeAt_eq M hplan, completeAt_eq M hy, Functor.map_map]
        simp only [Plan.completion, Option.map_map]
        rfl
  · rw [hint, hint, typedOption_after_semicolon hx]

end

/-- One command, one option, and nothing else. -/
def diffStat : Metadata Id :=
  Snapshot.metadata ⟨["diff".toList], [("diff".toList, [("--stat".toList, "=<width>".toList)])],
    [], [], [], []⟩

/-- Before the `;` options have ended, and the text is no chain of commands. -/
theorem shown_after_semicolon_half_join :
    Text.Closed "log -- |".toList ∧
      (annotate diffStat ("log -- |".toList ++ ';' :: "diff --stat".toList)).run =
        [(⟨0, 3⟩, .unknownCommand), (⟨4, 6⟩, .argument), (⟨7, 8⟩, .halfJoin), (⟨8, 9⟩, .join),
          (⟨9, 13⟩, .knownCommand), (⟨14, 20⟩, .option)] ∧
      (completeAt diffStat ("log -- |".toList ++ ';' :: "diff --stat".toList) 10).run =
        some ⟨14, ["--stat".toList]⟩ ∧
      (hint diffStat ("log -- |".toList ++ ';' :: "diff --stat".toList)).run =
        some "=<width>".toList := by
  have hx : Text.Closed "log -- |".toList := by decide +kernel
  obtain ⟨hpaint, hcomplete, hhint⟩ := shown_after_semicolon diffStat hx "diff --stat".toList 10
  refine ⟨hx, (congrArg Id.run hpaint).trans ?_, (congrArg Id.run hcomplete).trans ?_,
    (congrArg Id.run hhint).trans ?_⟩ <;> decide +kernel

end GitShell
