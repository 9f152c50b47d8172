import Mathlib.Computability.RegularExpressions
import GitShell.Proofs.Chain.Layout

/-!
# Chain — Grammar

The lines that can be run, as a regular language over the kinds of their tokens: nothing at all, or
commands with a join between each two of them and perhaps a `;` at the end (`Grammar.line`).

* `Grammar.exists_grouped_iff`: tokens lie in blocks and joins exactly if their kinds are a word of
  the grammar.
* `tokenize_eq_nil_iff`: only a blank line has no tokens.
* `parse_iff_grammar`: a line is accepted exactly if its kinds are such a word; its groups are then
  its blocks, none of them empty; and the lines without groups are the blank ones.
-/

namespace GitShell

namespace Grammar

open RegularExpression (char)
open scoped Computability

/-- A word or `--`. -/
def argument : RegularExpression Kind := char .word + char .endOfOptions

/-- `&&`, `||` or `;`. -/
def join : RegularExpression Kind :=
  char (.join .and) + char (.join .or) + char (.join .next)

def command : RegularExpression Kind := argument * argument.star

/-- Commands with joins between them. -/
def commands : RegularExpression Kind := command * (join * command).star

/-- Nothing, or commands and perhaps a final `;`. -/
def line : RegularExpression Kind := 1 + commands * (1 + char (.join .next))

theorem mem_argument {ks : List Kind} :
    ks ∈ argument.matches' ↔ ∃ k, ks = [k] ∧ k.isArgument = true := by
  simp only [argument, RegularExpression.matches'_add, RegularExpression.matches'_char,
    Language.mem_add]
  constructor
  · rintro (rfl | rfl)
    · exact ⟨.word, rfl, rfl⟩
    · exact ⟨.endOfOptions, rfl, rfl⟩
  · rintro ⟨k, rfl, hk⟩
    cases k with
    | word => exact .inl rfl
    | endOfOptions => exact .inr rfl
    | join | halfJoin | unterminated => cases hk

theorem mem_join {ks : List Kind} : ks ∈ join.matches' ↔ ∃ j, ks = [.join j] := by
  simp only [join, RegularExpression.matches'_add, RegularExpression.matches'_char,
    Language.mem_add, or_assoc]
  constructor
  · rintro (rfl | rfl | rfl)
    · exact ⟨.and, rfl⟩
    · exact ⟨.or, rfl⟩
    · exact ⟨.next, rfl⟩
  · rintro ⟨j, rfl⟩
    cases j with
    | and => exact .inl rfl
    | or => exact .inr (.inl rfl)
    | next => exact .inr (.inr rfl)

/-- A command is any run of kinds that make up arguments, but not none. -/
theorem mem_command {ks : List Kind} :
    ks ∈ command.matches' ↔ ks ≠ [] ∧ ∀ k ∈ ks, k.isArgument = true := by
  rw [command, RegularExpression.matches'_mul, RegularExpression.matches'_star, Language.mem_mul]
  constructor
  · rintro ⟨a, ha, b, hb, rfl⟩
    obtain ⟨k, rfl, hk⟩ := mem_argument.mp ha
    obtain ⟨L, rfl, hL⟩ := Language.mem_kstar.mp hb
    refine ⟨by simp, List.forall_mem_cons.mpr ⟨hk, fun x hx => ?_⟩⟩
    obtain ⟨y, hy, hxy⟩ := List.mem_flatten.mp hx
    obtain ⟨k', rfl, hk'⟩ := mem_argument.mp (hL y hy)
    exact List.mem_singleton.mp hxy ▸ hk'
  · rintro ⟨hne, h⟩
    obtain ⟨k, ks, rfl⟩ := List.exists_cons_of_ne_nil hne
    obtain ⟨hk, hks⟩ := List.forall_mem_cons.mp h
    refine ⟨[k], mem_argument.mpr ⟨k, rfl, hk⟩, ks, ?_, rfl⟩
    have heq : (ks.map fun k => [k]).flatten = ks := List.flatMap_singleton' ks
    refine Language.mem_kstar.mpr ⟨ks.map fun k => [k], heq.symm, fun y hy => ?_⟩
    obtain ⟨k', hk', rfl⟩ := List.mem_map.mp hy
    exact mem_argument.mpr ⟨k', rfl, hks k' hk'⟩

theorem matches_commands : commands.matches' =
    command.matches' + command.matches' * (join.matches' * commands.matches') := by
  simp only [commands, RegularExpression.matches'_mul, RegularExpression.matches'_star]
  calc
    command.matches' * (join.matches' * command.matches')∗ =
        command.matches' * (1 + join.matches' * command.matches' *
          (join.matches' * command.matches')∗) := by
      rw [Language.one_add_self_mul_kstar_eq_kstar]
    _ = _ := by rw [mul_add, mul_one, mul_assoc]

/-- Commands are a command, perhaps with a join and commands after it. -/
theorem mem_commands {ks : List Kind} : ks ∈ commands.matches' ↔
    ks ∈ command.matches' ∨ ∃ c ∈ command.matches', ∃ j, ∃ r ∈ commands.matches',
      ks = c ++ .join j :: r := by
  constructor
  · intro h
    rw [matches_commands] at h
    rcases Language.mem_add .. |>.mp h with h | h
    · exact .inl h
    · obtain ⟨c, hc, s, hs, rfl⟩ := Language.mem_mul.mp h
      obtain ⟨jk, hj, r, hr, rfl⟩ := Language.mem_mul.mp hs
      obtain ⟨j, rfl⟩ := mem_join.mp hj
      exact .inr ⟨c, hc, j, r, hr, rfl⟩
  · rw [matches_commands]
    rintro (h | ⟨c, hc, j, r, hr, rfl⟩)
    · exact Language.mem_add .. |>.mpr (.inl h)
    · have hj : [Kind.join j] ∈ join.matches' := mem_join.mpr ⟨j, rfl⟩
      refine Language.mem_add .. |>.mpr (.inr (Language.append_mem_mul hc ?_))
      rw [← matches_commands] at hr
      exact Language.append_mem_mul hj hr

theorem mem_line {ks : List Kind} : ks ∈ line.matches' ↔
    ks = [] ∨ ks ∈ commands.matches' ∨ ∃ r ∈ commands.matches', ks = r ++ [.join .next] := by
  simp only [line, RegularExpression.matches'_add, RegularExpression.matches'_mul,
    RegularExpression.matches'_epsilon, RegularExpression.matches'_char, mul_add, mul_one,
    Language.mem_add, Language.mem_one, Language.mem_mul]
  refine or_congr_right (or_congr_right ⟨?_, ?_⟩)
  · rintro ⟨r, hr, e, rfl, rfl⟩
    exact ⟨r, hr, rfl⟩
  · rintro ⟨r, hr, rfl⟩
    exact ⟨r, hr, _, rfl, rfl⟩

/-! ### Words of the grammar and tokens that lie well -/

theorem kinds_mem_command {b : List Token} : b.map (·.kind) ∈ command.matches' ↔ IsBlock b := by
  simp [mem_command, IsBlock]

/-- The kinds of tokens that lie well are a word of the grammar. -/
theorem kinds_mem_of_laid {j : Join} {ts : List Token} {gs : List Group} (h : Laid j ts gs) :
    ts.map (·.kind) ∈ commands.matches' ∨
      ∃ r ∈ commands.matches', ts.map (·.kind) = r ++ [.join .next] := by
  induction h with
  | last j hb => exact .inl (mem_commands.mpr (.inl (kinds_mem_command.mpr hb)))
  | @ended j b e hb he =>
      refine .inr ⟨b.map (·.kind), mem_commands.mpr (.inl (kinds_mem_command.mpr hb)), ?_⟩
      simp [he]
  | @joined j k b ts t gs hb ht _ ih =>
      have hc := kinds_mem_command.mpr hb
      rw [List.map_append, List.map_cons, ht]
      rcases ih with h | ⟨r, hr, h⟩
      · exact .inl (mem_commands.mpr (.inr ⟨_, hc, k, _, h, rfl⟩))
      · exact .inr ⟨_, mem_commands.mpr (.inr ⟨_, hc, k, r, hr, rfl⟩), by simp [h]⟩

/-- Tokens whose kinds are commands, before tokens that end a line, lie well. -/
theorem exists_laid (j : Join) {e : List Token} (he : e = [] ∨ ∃ t, e = [t] ∧ t.kind = .join .next)
    {ts : List Token} (h : ts.map (·.kind) ∈ commands.matches') : ∃ gs, Laid j (ts ++ e) gs := by
  rcases mem_commands.mp h with hc | ⟨c, hc, k, r, hr, heq⟩
  · have hb : IsBlock ts := kinds_mem_command.mp hc
    rcases he with rfl | ⟨t, rfl, ht⟩
    · exact ⟨_, by rw [List.append_nil]; exact .last j hb⟩
    · exact ⟨_, .ended j hb ht⟩
  · -- the kinds are those of a block, a join and the tokens after it
    obtain ⟨b, s, hts, hbc, hs⟩ := List.map_eq_append_iff.mp heq
    obtain ⟨t, ts', rfl, ht, hts'⟩ := List.map_eq_cons_iff.mp hs
    have hb : IsBlock b := kinds_mem_command.mp (hbc ▸ hc)
    have hlt : ts'.length < ts.length := by
      rw [hts, List.length_append, List.length_cons]
      omega
    have hr' : ts'.map (·.kind) ∈ commands.matches' := hts' ▸ hr
    obtain ⟨gs, hgs⟩ := exists_laid k he hr'
    refine ⟨⟨j, argumentsIn b⟩ :: gs, ?_⟩
    rw [hts, List.append_assoc]
    exact .joined j hb ht hgs
termination_by ts.length

/-- **Tokens lie in blocks and joins exactly if their kinds are a word of the grammar.** -/
theorem exists_grouped_iff {ts : List Token} :
    (∃ gs, Grouped ts gs) ↔ ts.map (·.kind) ∈ line.matches' := by
  rw [mem_line]
  constructor
  · rintro ⟨gs, ⟨rfl, -⟩ | h⟩
    · exact .inl rfl
    · exact .inr (kinds_mem_of_laid h)
  · rintro (h | h | ⟨r, hr, h⟩)
    · exact ⟨[], .inl ⟨List.map_eq_nil_iff.mp h, rfl⟩⟩
    · obtain ⟨gs, hgs⟩ := exists_laid .next (.inl rfl) h
      exact ⟨gs, .inr (by simpa using hgs)⟩
    · obtain ⟨ts', e, rfl, rfl, he⟩ := List.map_eq_append_iff.mp h
      obtain ⟨t, rfl, ht⟩ := List.map_eq_singleton_iff.mp he
      obtain ⟨gs, hgs⟩ := exists_laid .next (.inr ⟨t, rfl, ht⟩) hr
      exact ⟨gs, .inr hgs⟩

end Grammar

/-! ### Lines -/

/-- Only a blank line has no tokens. -/
theorem tokenize_eq_nil_iff {line : Text} : tokenize line = [] ↔ line.allBlank = true := by
  have ht : Tiles line 0 (tokenize line) := tiles_place [] line
  rw [Text.allBlank, List.all_eq_true]
  constructor
  · intro h c hc
    rw [h] at ht
    obtain ⟨i, hi⟩ := List.mem_iff_getElem?.mp hc
    exact ht.blank i c (Nat.zero_le i) hi fun t ht => by cases ht
  · intro h
    -- no tokens tile a blank line, and there is only one tiling
    have hnil : Tiles line 0 [] := ⟨by simp, by simp, .nil, by simp,
      fun i c _ hc _ => h c (List.mem_of_getElem? hc), by simp, by simp⟩
    exact (@eq_place_of_tiles [] line [] hnil).symm

/-- **The lines that can be run are a regular language**: the kinds of the tokens form a word of the
grammar.  The groups are then the blocks of the line, each of them with an argument, and a line
without groups is blank. -/
theorem parse_iff_grammar (line : Text) :
    ((∃ gs, parse line = .ok gs) ↔ (tokenize line).map (·.kind) ∈ Grammar.line.matches') ∧
      (∀ gs, parse line = .ok gs ↔
        Grouped (tokenize line) gs ∧ ∀ g ∈ gs, g.arguments ≠ []) ∧
      (parse line = .ok [] ↔ line.allBlank = true) := by
  refine ⟨?_, fun gs => ?_, ?_⟩
  · simp only [parse_eq_ok_iff, Grammar.exists_grouped_iff]
  · rw [parse_eq_ok_iff]
    refine ⟨fun h => ⟨h, ?_⟩, fun h => h.1⟩
    rcases h with ⟨-, rfl⟩ | h
    · simp
    · exact h.arguments_ne_nil
  · rw [parse_eq_ok_iff, ← tokenize_eq_nil_iff]
    refine ⟨?_, fun h => .inl ⟨h, rfl⟩⟩
    rintro (⟨h, -⟩ | h)
    · exact h
    · exact absurd rfl h.ne_nil.2

end GitShell
