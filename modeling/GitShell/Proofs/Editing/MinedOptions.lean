import GitShell.Proofs.Editing.LastWord
import GitShell.Proofs.Help.Mined
import GitShell.Proofs.Line.Bare
import GitShell.Proofs.Text.OrderedSet

/-!
# Editing — MinedOptions

The options that are mined from help pages are offered where they are typed: whatever part of one
has been typed after a command, the line has a word there, the word has the shape of an option, and
options are allowed.

* `Help.IsFlag.isPlainWord_of_prefix`, `optionShaped_of_prefix`: any part of a flag is a word and has
  the shape of an option.
* `completeAt_option`: after a command such a word is completed to its options.
* `mined_options_offered`: so all that is mined from a page is well formed and offered.
-/

namespace GitShell

/-! ### Parts of flags -/

/-- No letter is a blank: the ranges of the blanks leave the letters out. -/
theorem not_isBlank_of_isAlpha {c : Char} (h : c.isAlpha = true) : isBlank c = false := by
  have hletter := Help.toNat_of_isAlpha h
  have hranges : ∀ r ∈ blankRanges, r.2 < 65 ∨ 122 < r.1 := by decide
  rw [isBlank, List.any_eq_false]
  intro r hr
  rw [Bool.and_eq_true, decide_eq_true_eq, decide_eq_true_eq]
  have hr := hranges r hr
  omega

theorem not_endsWord_of_isAlpha {c : Char} (h : c.isAlpha = true) : endsWord c = false := by
  have hne {d : Char} (hd : d.isAlpha = false) : c ≠ d := by
    rintro rfl
    rw [hd] at h
    cases h
  rw [not_endsWord_iff]
  refine ⟨not_isBlank_of_isAlpha h, hne rfl, hne rfl, hne rfl, ?_⟩
  rw [isQuote, beq_false_of_ne (hne rfl), beq_false_of_ne (hne rfl), Bool.or_false]

namespace Help.IsFlag

variable {f q : Text}

/-- A flag is made of letters and hyphens. -/
theorem mem (h : IsFlag f) {c : Char} (hc : c ∈ f) : c.isAlpha = true ∨ c = '-' := by
  cases h with
  | short d hd =>
      rcases List.mem_cons.mp hc with rfl | hc
      · exact .inr rfl
      · exact .inl (List.mem_singleton.mp hc ▸ hd)
  | long name =>
      rcases List.mem_append.mp hc with hc | hc
      · exact .inr (by simpa using hc)
      · exact OptionName.mem_text hc

theorem isPlainWord_of_prefix (h : IsFlag f) (hq : q <+: f) (hne : q ≠ []) : q.IsPlainWord := by
  refine ⟨hne, fun c hc => ?_⟩
  rcases h.mem (hq.subset hc) with halpha | rfl
  · refine ⟨not_endsWord_of_isAlpha halpha, ?_⟩
    rintro rfl
    cases halpha
  · decide

/-- After its dashes come a letter and no line feed. -/
theorem exists_dashes (h : IsFlag f) : ∃ d r, (f = '-' :: d :: r ∨ f = '-' :: '-' :: d :: r) ∧
    d ≠ '-' ∧ '\n' ∉ d :: r := by
  have hlines : '\n' ∉ f := fun hmem => by rcases h.mem hmem with hc | hc <;> cases hc
  cases h with
  | short d hd => exact ⟨d, [], .inl rfl, ne_hyphen_of_isAlpha hd, fun hmem => hlines (.tail _ hmem)⟩
  | long name =>
      obtain ⟨d, letters, hw, hd, -⟩ := name.first.exists_cons
      have htext : name.option = '-' :: '-' :: d :: (letters ++ hyphenated name.more) := by
        simp [OptionName.option, OptionName.text, hw]
      rw [htext] at hlines ⊢
      exact ⟨d, _, .inr rfl, ne_hyphen_of_isAlpha hd, fun hmem => hlines (.tail _ (.tail _ hmem))⟩

/-- A part of what may follow the dashes may follow them too. -/
theorem afterDash_of_prefix {d : Char} {r q : Text} (hd : d ≠ '-') (hr : '\n' ∉ d :: r)
    (hq : q <+: d :: r) : optionShaped.afterDash q = true := by
  cases q with
  | nil => rfl
  | cons e q =>
      obtain ⟨rfl, -⟩ := List.cons_prefix_cons.mp hq
      have hlines : '\n' ∉ q := fun hmem => hr (hq.subset (List.mem_cons_of_mem _ hmem))
      simp [optionShaped.afterDash, hd, hlines]

/-- **Any part** of a flag has the shape of an option. -/
theorem optionShaped_of_prefix (h : IsFlag f) (hq : q <+: f) (hne : q ≠ []) :
    optionShaped q = true := by
  obtain ⟨d, r, hf, hd, hr⟩ := h.exists_dashes
  obtain ⟨c, q, rfl⟩ := List.exists_cons_of_ne_nil hne
  rcases hf with rfl | rfl
  · obtain ⟨rfl, hq₁⟩ := List.cons_prefix_cons.mp hq
    simp [optionShaped, afterDash_of_prefix hd hr hq₁]
  · obtain ⟨rfl, hq₁⟩ := List.cons_prefix_cons.mp hq
    cases q with
    | nil => rfl
    | cons e q =>
        obtain ⟨rfl, hq₂⟩ := List.cons_prefix_cons.mp hq₁
        simp [optionShaped, afterDash_of_prefix hd hr hq₂]

end Help.IsFlag

/-! ### Options after a command -/

/-- A word with the shape of an option, after a command, is completed to an option of it. -/
theorem Plan.ofLine_option {c q : Text} (hc : c.IsPlainWord) (hne : c ≠ "--".toList)
    (hq : q.IsPlainWord) (hshape : optionShaped q = true) :
    ofLine (c ++ ' ' :: q) = some ⟨c.length + 1, q, .options c⟩ := by
  have hts : tokenize (c ++ ' ' :: q) =
      [⟨.literal .word c, 0⟩].reverse ++ [⟨.literal .word q, c.length + 1⟩] :=
    tokenize_two_words hc hne hq (by decide)
  have hline : Text.endsInWord (c ++ ' ' :: q) = true := by
    obtain ⟨r, d, rfl⟩ := (List.eq_nil_or_concat' q).resolve_left hq.ne_nil
    have hd := (not_endsWord_iff.mp (hq.plain d (by simp)).1).1
    simp [Text.endsInWord, List.getLast?_append, List.getLast?_cons, hd]
  have hgoverns : Governs [] ⟨.literal .word c, 0⟩ [⟨.literal .word q, c.length + 1⟩]
      [⟨.literal .word c, 0⟩] ⟨.literal .word q, c.length + 1⟩ := .word rfl (.command rfl)
  have hoption : optionAmong ⟨.literal .word c, 0⟩ [⟨.literal .word q, c.length + 1⟩]
      ⟨.literal .word q, c.length + 1⟩ = true := by
    simp [optionAmong, Lexeme.literal, hshape]
  rw [ofLine_eq hline hts, hgoverns.ofToken, Source.ofWords, hoption]
  rfl

variable {m : Type → Type} [Monad m] [LawfulMonad m]

/-- If its options are known, they are offered. -/
theorem completeAt_option (M : Metadata m) {c q : Text} {asked : m Unit} {options : List Text}
    (hM : M.optionPrefixes c = do asked; return options) (hoptions : options ≠ [])
    (h : Plan.ofLine (c ++ ' ' :: q) = some ⟨c.length + 1, q, .options c⟩) (limit : Nat) :
    completeAt M (c ++ ' ' :: q) limit = do
      asked
      return some ⟨c.length + 1, narrow options q limit⟩ := by
  rw [completeAt_eq M h, Source.candidates, hM, bind_assoc, map_bind]
  refine bind_congr fun _ => ?_
  rw [pure_bind, map_pure, List.isEmpty_eq_false_iff.mpr hoptions]
  rfl

/-- **What is mined is well formed and offered.**  The flags of any page are different and spelled as
flags, and their suffixes are trimmed; if the options of a command are these, then whatever part of
one is typed after the command is completed to those of them that start with it. -/
theorem mined_options_offered (M : Metadata m) (t : Text) :
    (Help.Page.ofText t).flags.Nodup ∧ (∀ f ∈ (Help.Page.ofText t).flags, Help.IsFlag f) ∧
      (∀ f s, (Help.Page.ofText t).suffix? f = some s →
        f ∈ (Help.Page.ofText t).flags ∧ s ≠ [] ∧ Help.IsSuffix s) ∧
      ∀ (c f q : Text) (asked : m Unit) (limit : Nat), c.IsPlainWord → c ≠ "--".toList →
        (M.optionPrefixes c = do asked; return (Help.Page.ofText t).flags) →
        f ∈ (Help.Page.ofText t).flags → q <+: f → q ≠ [] →
        (Help.Page.ofText t).flags.length ≤ limit →
        (completeAt M (c ++ ' ' :: q) limit = do
          asked
          return some ⟨c.length + 1, narrow (Help.Page.ofText t).flags q limit⟩) ∧
        f ∈ narrow (Help.Page.ofText t).flags q limit := by
  obtain ⟨hnodup, hflags⟩ := Help.Page.flags_ofText t
  refine ⟨hnodup, hflags, fun f s => Help.Page.suffix?_ofText, ?_⟩
  intro c f q asked limit hc hne hM hf hq hqne hlimit
  have hflag := hflags f hf
  have hplan := Plan.ofLine_option hc hne (hflag.isPlainWord_of_prefix hq hqne)
    (hflag.optionShaped_of_prefix hq hqne)
  exact ⟨completeAt_option M hM (List.ne_nil_of_mem hf) hplan limit,
    (mem_narrow_iff hlimit).mpr ⟨hf, hq⟩⟩

/-- A command whose page documents a short option and one that can be taken back. -/
def patchOptions : Metadata Id :=
  Snapshot.metadata ⟨[], [("log".toList,
    ["-p", "--patch", "--no-patch"].map fun f => (f.toList, []))], [], [], [], []⟩

/-- The option that takes another one back is offered with the first letters of its name. -/
theorem mined_options_offered_for_patch :
    Help.Page.flags (.ofText "\n       -p, --[no-]patch=<n>\n".toList) =
        ["-p".toList, "--patch".toList, "--no-patch".toList] ∧
      (completeAt patchOptions "log --n".toList 3).run =
        some ⟨4, ["--no-patch".toList]⟩ := by
  have hflags : Help.Page.flags (.ofText "\n       -p, --[no-]patch=<n>\n".toList) =
      ["-p".toList, "--patch".toList, "--no-patch".toList] := by decide +kernel
  have hlog : Text.IsPlainWord "log".toList := ⟨by decide, by simp; decide⟩
  have h := ((mined_options_offered patchOptions _).2.2.2 "log".toList "--no-patch".toList
    "--n".toList (pure ()) 3 hlog (by decide) (by rw [hflags]; rfl) (by rw [hflags]; decide)
    (by decide) (by decide) (by rw [hflags]; decide)).1
  rw [hflags] at h
  exact ⟨hflags, (congrArg Id.run h).trans (by decide +kernel)⟩

end GitShell
