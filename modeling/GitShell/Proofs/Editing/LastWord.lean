import GitShell.Editing.Completion
import GitShell.Editing.Hint
import GitShell.Proofs.Line.Command

/-!
# Editing — LastWord

What is completed and hinted at the end of a line, said by the command that the last word belongs
to.  The searches that find this command, and the flags that were given since, see nothing but the
words from the command to the last word (`Governs`), so these words alone decide.

* `Governs.ofToken`: where the candidates for the word come from.
* `Governs.typedOption`: whether an option is hinted at, and of which command.
* `Plan.ofLine_eq`, `typedOption_eq`: the last token of the line is the one that counts.
* `completeAt_eq`: the metadata only says what is found for the source of the plan.
* `ofToken_after_join`, `typedOption_after_join`: a join to the left of a command hides all that is
  before it.
-/

namespace GitShell

/-! ### The words of a command -/

/-- After the command `c` and with the words `ws` back to it, the word `t` is an option: it has the
shape of one, is not the command, and none of the words so far is a `--`. -/
def optionAmong (c : Token) (ws : List Token) (t : Token) : Bool :=
  !ws.isEmpty && t.kind == .word && optionShaped t.raw &&
    (ws ++ [c]).all fun w => w.kind != .endOfOptions

/-- Where the candidates for the word `t` come from, after the command `c` and with the words `ws`
back to it.  The word itself is the first of `ws`, so a flag is looked for in the others. -/
def Source.ofWords (c : Token) (ws : List Token) (t : Token) : Option Source :=
  if ws.isEmpty then some .commands
  else if optionAmong c ws t then some (.options c.content)
  else if "./".toList.isPrefixOf t.raw then some .files
  else argumentSource c.content fun flags => ws.tail.any fun w => flags.contains w.content

/-- The option under a cursor and its command. -/
def Cursor.typedOption (c : Cursor) : Option (Text × Text) :=
  if c.isOption && c.optionsAllowed then
    (c.findLast Cursor.isCommand).map fun d => (d.content, c.content)
  else none

namespace Governs

variable {l ws left : List Token} {c t : Token}

theorem isOption_and_allowed (h : Governs l c ws left t) (right : List Token) :
    ((Cursor.on left t right).isOption && (Cursor.on left t right).optionsAllowed) =
      optionAmong c ws t := by
  simp only [Cursor.isOption, Cursor.optionsAllowed, optionAmong, h.commandPosition,
    h.optionsAllowedAt]
  cases ws.isEmpty <;> simp

theorem findLast (h : Governs l c ws left t) :
    (Cursor.on left t []).findLast Cursor.isCommand = some (.on l c (ws.reverse ++ [])) := by
  have hlast : (Cursor.on left t []).last = .on left t [] := Cursor.last_of_tokens rfl
  rw [Cursor.findLast, hlast]
  exact h.findFrom []

/-- The tokens that a flag is looked for in are the words between the command and the word. -/
theorem flagBefore (h : Governs l c ws left t) (hws : ws ≠ []) (flags : List Text) :
    flagBefore flags left l.length = ws.tail.any fun w => flags.contains w.content := by
  obtain ⟨w, ws, rfl⟩ := List.exists_cons_of_ne_nil hws
  have hleft : left = ws ++ c :: l := (List.cons.inj h.tokens).2
  have hlen : (ws ++ c :: l).length - (l.length + 1) = ws.length := by simp
  rw [GitShell.flagBefore, hleft, hlen, List.take_left, List.tail_cons]

/-- **The command and the words since decide** where the candidates come from. -/
theorem ofToken (h : Governs l c ws left t) : Source.ofToken left t = Source.ofWords c ws t := by
  rw [Source.ofToken, Source.ofWords, h.isArgument, h.isOption_and_allowed, h.findLast,
    Cursor.currentCommand, h.commandFrom, Cursor.isCommand, h.commandPosition]
  cases hws : ws.isEmpty with
  | true => rfl
  | false =>
      have hne : ws ≠ [] := by simpa using hws
      simp only [h.flagBefore hne]
      rfl

/-- They also decide whether an option is hinted at. -/
theorem typedOption (h : Governs l c ws left t) :
    (Cursor.on left t []).typedOption =
      if optionAmong c ws t then some (c.content, t.content) else none := by
  rw [Cursor.typedOption, h.isOption_and_allowed, h.findLast]
  rfl

end Governs

/-! ### Other tokens -/

theorem ofToken_of_not_argument {left : List Token} {t : Token} (ht : t.kind.isArgument = false) :
    Source.ofToken left t = none := by
  simp [Source.ofToken, ht]

theorem Cursor.typedOption_of_not_argument {left right : List Token} {t : Token}
    (ht : t.kind.isArgument = false) : (Cursor.on left t right).typedOption = none := by
  have hk : t.kind ≠ .word := fun hk => by rw [hk] at ht; cases ht
  simp [typedOption, isOption, hk]

/-! ### The end of a line -/

section
variable {line : Text} {left : List Token} {t : Token}

/-- The last token decides what is completed, if the line does not end in a blank. -/
theorem Plan.ofLine_eq (hline : line.endsInWord = true)
    (hts : tokenize line = left.reverse ++ [t]) :
    Plan.ofLine line = (Source.ofToken left t).map fun s => ⟨t.start, t.raw, s⟩ := by
  rw [Plan.ofLine, if_pos hline, Cursor.last_ofTokens hts]

theorem Plan.ofLine_eq_none (hline : line.endsInWord = false) : Plan.ofLine line = none := by
  rw [Plan.ofLine, hline]
  rfl

theorem typedOption_eq (hline : line.endsInWord = true)
    (hts : tokenize line = left.reverse ++ [t]) :
    typedOption line = (Cursor.on left t []).typedOption := by
  rw [typedOption, if_pos hline, Cursor.last_ofTokens hts]
  rfl

theorem typedOption_eq_none (hline : line.endsInWord = false) : typedOption line = none := by
  rw [typedOption, hline]
  rfl

end

/-! ### The completion of a plan -/

/-- What is completed, once the candidates are found. -/
def Plan.completion (p : Plan) (limit : Nat) (found : Option (List Text)) : Option Completion :=
  found.map fun candidates => ⟨p.start, narrow candidates p.typed limit⟩

section
variable {m : Type → Type} [Monad m] (M : Metadata m) {line : Text}

theorem completeAt_eq_none (h : Plan.ofLine line = none) (limit : Nat) :
    completeAt M line limit = pure none := by
  simp only [completeAt, h]

theorem completeAt_eq [LawfulMonad m] {p : Plan} (h : Plan.ofLine line = some p) (limit : Nat) :
    completeAt M line limit = p.completion limit <$> p.source.candidates M p.typed limit := by
  simp only [completeAt, h, bind_pure_comp]
  rfl

end

/-! ### After a join -/

theorem optionAmong_shift (n : Nat) (c : Token) (ws : List Token) (t : Token) :
    optionAmong (c.shift n) (ws.map (Token.shift n)) (t.shift n) = optionAmong c ws t := by
  simp [optionAmong, Token.shift, Function.comp_def]

theorem Source.ofWords_shift (n : Nat) (c : Token) (ws : List Token) (t : Token) :
    ofWords (c.shift n) (ws.map (Token.shift n)) (t.shift n) = ofWords c ws t := by
  have hseen : ∀ flags : List Text,
      ((ws.map (Token.shift n)).tail.any fun w => flags.contains w.content) =
        ws.tail.any fun w => flags.contains w.content := fun flags => by
    rw [← List.map_tail, List.any_map]
    rfl
  rw [ofWords, ofWords, optionAmong_shift, List.isEmpty_map]
  simp only [hseen]
  rfl

section
variable {left : List Token} {t s : Token}

/-- Of the tokens before a join nothing is seen after it. -/
theorem ofToken_after_join (n : Nat) (hleft : ∀ p ∈ left, p.kind ≠ .unterminated)
    (hs : s.kind.isJoin = true) (before : List Token) :
    Source.ofToken (left.map (Token.shift n) ++ s :: before) (t.shift n) =
      Source.ofToken left t := by
  cases ht : t.kind.isArgument with
  | true =>
      obtain ⟨l, c, ws, h⟩ := exists_governs ht hleft
      rw [h.ofToken, (h.shift n hs before).ofToken, Source.ofWords_shift]
  | false => rw [ofToken_of_not_argument ht, ofToken_of_not_argument (t := t.shift n) ht]

theorem typedOption_after_join (n : Nat) (hleft : ∀ p ∈ left, p.kind ≠ .unterminated)
    (hs : s.kind.isJoin = true) (before : List Token) :
    (Cursor.on (left.map (Token.shift n) ++ s :: before) (t.shift n) []).typedOption =
      (Cursor.on left t []).typedOption := by
  cases ht : t.kind.isArgument with
  | true =>
      obtain ⟨l, c, ws, h⟩ := exists_governs ht hleft
      rw [h.typedOption, (h.shift n hs before).typedOption, optionAmong_shift]
      rfl
  | false =>
      rw [Cursor.typedOption_of_not_argument ht,
        Cursor.typedOption_of_not_argument (t := t.shift n) ht]

end

end GitShell
