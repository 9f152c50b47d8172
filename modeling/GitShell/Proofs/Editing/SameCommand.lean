import GitShell.Proofs.Editing.LastWord
import GitShell.Proofs.Line.Place

/-!
# Editing — SameCommand

Three walks to the left look for the command of a word: over the words only, through all tokens, and
up to a `--`.  On the tokens of a line they agree, so what is completed and what is hinted at the
end of a line is about one command.

* `Source.BelongsTo`: the sources that are about a command.
* `command_of_word`: the command of a word is the nearest one, options are allowed up to the first
  `--` after it, and the search from the end of the line finds the command of the last word.
-/

namespace GitShell

/-- A source of candidates that are command names or paths, or are about this command. -/
inductive Source.BelongsTo (command : Text) : Source → Prop where
  | commands : BelongsTo command .commands
  | files    : BelongsTo command .files
  | options  : BelongsTo command (.options command)
  | arguments {s : Source} (seen : List Text → Bool) (h : argumentSource command seen = some s) :
      BelongsTo command s

theorem Source.belongsTo_of_ofWords {c t : Token} {ws : List Token} {s : Source}
    (h : ofWords c ws t = some s) : s.BelongsTo c.content := by
  unfold ofWords at h
  split at h
  · cases h
    exact .commands
  split at h
  · cases h
    exact .options
  split at h
  · cases h
    exact .files
  · exact .arguments _ h

namespace Governs

variable {line : Text} {l ws left : List Token} {c t : Token}

/-- Wherever it starts, the search finds the command of the last word. -/
theorem findLast_eq (h : Governs l c ws left t) {d : Cursor}
    (hd : d.tokens = (Cursor.on left t []).tokens) :
    d.findLast Cursor.isCommand = some (.on l c (ws.reverse ++ [])) := by
  rw [Cursor.findLast, Cursor.last_of_tokens hd]
  exact h.findFrom []

theorem plan_belongsTo (h : Governs l c ws left t) (hts : tokenize line = left.reverse ++ [t]) :
    ∀ p ∈ Plan.ofLine line, p.source.BelongsTo c.content := by
  intro p hp
  cases hline : line.endsInWord with
  | false =>
      rw [Plan.ofLine_eq_none hline] at hp
      cases hp
  | true =>
      rw [Plan.ofLine_eq hline hts, h.ofToken] at hp
      obtain ⟨s, hs, rfl⟩ := Option.map_eq_some_iff.mp hp
      exact Source.belongsTo_of_ofWords hs

theorem typedOption_fst (h : Governs l c ws left t) (hts : tokenize line = left.reverse ++ [t]) :
    ∀ o ∈ GitShell.typedOption line, o.1 = c.content := by
  intro o ho
  cases hline : line.endsInWord with
  | false =>
      rw [typedOption_eq_none hline] at ho
      cases ho
  | true =>
      rw [typedOption_eq hline hts, h.typedOption] at ho
      obtain ⟨-, heq⟩ := Option.ite_none_right_eq_some.mp ho
      cases heq
      rfl

end Governs

/-- **The command of a word of a line** is the nearest token in command position, with words only
from there to the word; options are allowed if none of these is a `--`.  If the word is the last one
of the line, a search from any place of the line ends at the same command, and what is completed and
hinted is about it. -/
theorem command_of_word {line : Text} {z : Cursor} (hline : z.tokens = tokenize line)
    (hz : z.isArgument = true) :
    ∃ c, z.currentCommand = some c ∧ c.IsCommandOf z ∧
      (z.optionsAllowed = true ↔
        Cursor.AllSince c.index z fun d => d.kind? ≠ some .endOfOptions) ∧
      (z.isLast = true →
        (∀ d : Cursor, d.tokens = z.tokens → d.findLast Cursor.isCommand = some c) ∧
        (∀ p ∈ Plan.ofLine line, p.source.BelongsTo c.content) ∧
        ∀ o ∈ typedOption line, o.1 = c.content) := by
  obtain ⟨l, c, ws, left, t, right, rfl, h⟩ := Cursor.exists_governs hline hz
  refine ⟨.on l c (ws.reverse ++ right), h.commandFrom right, h.isCommandOf right,
    h.optionsAllowed_iff _ right, fun hlast => ?_⟩
  cases right with
  | cons u us => cases hlast
  | nil =>
      exact ⟨fun d hd => h.findLast_eq hd, h.plan_belongsTo hline.symm,
        h.typedOption_fst hline.symm⟩

/-- The last word of a line with half a join in it, after a `--` and a quoted word. -/
theorem command_of_word_after_operands :
    ∃ z : Cursor, z.tokens = tokenize "log | add -- 'x' -p".toList ∧ z.isArgument = true ∧
      ∃ c, z.currentCommand = some c ∧ c.content = "add".toList ∧ c.IsCommandOf z ∧
        z.optionsAllowed = false ∧ z.before.findLast Cursor.isCommand = some c := by
  have hline : (Cursor.ofTokens (tokenize "log | add -- 'x' -p".toList)).last.tokens =
      tokenize "log | add -- 'x' -p".toList := by decide +kernel
  have hz : (Cursor.ofTokens (tokenize "log | add -- 'x' -p".toList)).last.isArgument = true := by
    decide +kernel
  have hcontent : ((Cursor.ofTokens (tokenize "log | add -- 'x' -p".toList)).last.currentCommand.map
      Cursor.content) = some "add".toList := by decide +kernel
  obtain ⟨c, hc, hcommand, -, hlast⟩ := command_of_word hline hz
  rw [hc] at hcontent
  refine ⟨_, hline, hz, c, hc, Option.some.inj hcontent, hcommand, by decide +kernel, ?_⟩
  exact (hlast (by decide +kernel)).1 _ (Cursor.tokens_before _)

end GitShell
