import GitShell.Proofs.Help.Manual

/-!
# Help — Mined

Whatever text a page is, the options that are mined from it are well formed: only what is spelled as
an option is taken for one, and what follows it is trimmed.

* `exists_spelling_of_readForm`: a form that is read is spelled like the forms of a manual.
* `DocumentedOption.WellFormed`: a flag is `-p` or `--patch-with-stat`, and its suffix ends in no
  blank and is no description.
* `Page.flags_ofText`, `Page.suffix?_ofText`: the flags and the suffixes of any page.
-/

namespace GitShell.Help

/-! ### Names -/

/-- What goes on a name are letters, and then words with a hyphen before each. -/
theorem exists_words_of_splitName (t : Text) :
    ∃ letters ws, (splitName t).1 = letters ++ hyphenated ws ∧
      ∀ c ∈ letters, c.isAlpha = true := by
  fun_induction splitName t with
  | case1 c r hc n rest heq ih =>
      obtain ⟨letters, ws, hn, hletters⟩ := ih
      rw [heq] at hn
      cases hn
      let w : Word := ⟨c :: letters, List.cons_ne_nil _ _, List.forall_mem_cons.mpr ⟨hc, hletters⟩⟩
      exact ⟨[], w :: ws, rfl, List.forall_mem_nil _⟩
  | case2 => exact ⟨[], [], rfl, List.forall_mem_nil _⟩
  | case3 c r _ hc n rest heq ih =>
      obtain ⟨letters, ws, hn, hletters⟩ := ih
      rw [heq] at hn
      cases hn
      exact ⟨c :: letters, ws, rfl, List.forall_mem_cons.mpr ⟨hc, hletters⟩⟩
  | case4 => exact ⟨[], [], rfl, List.forall_mem_nil _⟩
  | case5 => exact ⟨[], [], rfl, List.forall_mem_nil _⟩

/-- A name that is read is made of words. -/
theorem exists_name_of_readName {t n r : Text} (h : readName t = some (n, r)) :
    ∃ name : OptionName, n = name.text := by
  cases t with
  | nil => cases h
  | cons c t =>
      obtain ⟨letters, ws, hn, hletters⟩ := exists_words_of_splitName t
      rw [readName] at h
      obtain ⟨hc, heq⟩ := Option.ite_none_right_eq_some.mp h
      cases heq
      let w : Word := ⟨c :: letters, List.cons_ne_nil _ _, List.forall_mem_cons.mpr ⟨hc, hletters⟩⟩
      refine ⟨⟨w, ws⟩, ?_⟩
      rw [hn]
      rfl

/-- **A form that is read** is spelled like a form of a manual. -/
theorem exists_spelling_of_readForm {t r : Text} {flags : List Text}
    (h : readForm t = some (flags, r)) : ∃ s : Spelling, flags = s.flags := by
  unfold readForm at h
  split at h
  next u =>
    split at h
    next n rest hn =>
      obtain ⟨name, rfl⟩ := exists_name_of_readName hn
      cases h
      exact ⟨.long name, rfl⟩
    next =>
      obtain ⟨v, -, h⟩ := Option.bind_eq_some_iff.mp h
      obtain ⟨⟨n, rest⟩, hn, h⟩ := Option.bind_eq_some_iff.mp h
      obtain ⟨name, rfl⟩ := exists_name_of_readName hn
      cases h
      exact ⟨.reversible name, rfl⟩
  next c u _ =>
    obtain ⟨hc, heq⟩ := Option.ite_none_right_eq_some.mp h
    cases heq
    exact ⟨.short c hc, rfl⟩
  next => cases h

/-! ### Well-formed options -/

/-- A dash and a letter, or two dashes and a name. -/
inductive IsFlag : Text → Prop where
  | short (c : Char) (h : c.isAlpha = true) : IsFlag ['-', c]
  | long (name : OptionName) : IsFlag name.option

/-- A text that may follow a flag: it ends in no blank, and after blanks it starts with no letter and
no digit.  It may be empty. -/
structure IsSuffix (s : Text) : Prop where
  last : ∀ c ∈ s.getLast?, isBlank c = false
  first : ∀ c ∈ s.trimStart.head?, c.isAlphanum = false

structure DocumentedOption.WellFormed (o : DocumentedOption) : Prop where
  flag : IsFlag o.flag
  suffix : IsSuffix o.suffix

/-- What takes an option back is an option of its own: its first word is `no`. -/
theorem OptionName.isFlag_negation (name : OptionName) : IsFlag name.negation :=
  .long ⟨⟨"no".toList, by simp, by simp⟩, name.first :: name.more⟩

theorem Spelling.isFlag {s : Spelling} {f : Text} (h : f ∈ s.flags) : IsFlag f := by
  cases s with
  | short c hc =>
      cases List.mem_singleton.mp h
      exact .short c hc
  | long name =>
      cases List.mem_singleton.mp h
      exact .long name
  | reversible name =>
      rcases List.mem_cons.mp h with rfl | h
      · exact .long name
      · cases List.mem_singleton.mp h
        exact name.isFlag_negation

theorem isSuffix_nil : IsSuffix [] := ⟨nofun, nofun⟩

/-- **A suffix** is cleaned to one. -/
theorem isSuffix_cleanSuffix (t : Text) : IsSuffix (cleanSuffix t) := by
  rw [cleanSuffix]
  split
  next => exact isSuffix_nil
  next h =>
    refine ⟨fun c hc => ?_, fun c hc => ?_⟩
    · have hdrop := List.head?_dropWhile_not isBlank t.reverse
      rw [Text.trimEnd, List.getLast?_reverse] at hc
      rwa [hc] at hdrop
    · have hdescription : isDescription t.trimEnd = false := by simpa using h
      rw [isDescription, hc, Option.any_some] at hdescription
      exact hdescription

/-- Every option of a line is well formed. -/
theorem wellFormed_of_mem_readForms {t : Text} {o : DocumentedOption} (h : o ∈ readForms t) :
    o.WellFormed := by
  fun_induction readForms t with
  | case1 => cases h
  | case2 t flags r hr ih =>
      rcases List.mem_append.mp h with h | h
      · obtain ⟨f, hf, rfl⟩ := List.mem_map.mp h
        obtain ⟨s, rfl⟩ := exists_spelling_of_readForm hr
        exact ⟨s.isFlag hf, isSuffix_cleanSuffix _⟩
      · split at h
        next u hu => exact ih u hu h
        next => cases h

/-! ### Pages -/

/-- Every option of a page is well formed. -/
theorem wellFormed_of_mem_ofText {t : Text} {o : DocumentedOption}
    (h : o ∈ (Page.ofText t).options) : o.WellFormed := by
  obtain ⟨before, line, after, -, -, ho⟩ := mem_options_ofText_iff.mp h
  rw [optionsOfLine] at ho
  split at ho
  next => exact wellFormed_of_mem_readForms ho
  next => cases ho

/-- What is found by its flag, if something follows it, has this flag. -/
theorem exists_of_find?_flag {α : Type} {os : List α} {flag suffix : α → Text} {f s : Text}
    (h : (os.find? fun o => flag o == f && !(suffix o).isEmpty).map suffix = some s) :
    ∃ o ∈ os, flag o = f ∧ suffix o = s ∧ s ≠ [] := by
  obtain ⟨o, ho, rfl⟩ := Option.map_eq_some_iff.mp h
  have hfound := List.find?_some ho
  rw [Bool.and_eq_true, beq_iff_eq, Bool.not_eq_true', List.isEmpty_eq_false_iff] at hfound
  exact ⟨o, List.mem_of_find?_eq_some ho, hfound.1, rfl, hfound.2⟩

namespace Page

/-- **The flags of any page** are different texts that are spelled as flags. -/
theorem flags_ofText (t : Text) :
    (ofText t).flags.Nodup ∧ ∀ f ∈ (ofText t).flags, IsFlag f := by
  refine ⟨nodup_eraseDups _, fun f hf => ?_⟩
  obtain ⟨o, ho, rfl⟩ := List.mem_map.mp (List.mem_eraseDups.mp hf)
  exact (wellFormed_of_mem_ofText ho).flag

/-- **The suffix of a flag** is not empty, and the flag is one of the page. -/
theorem suffix?_ofText {t flag s : Text} (h : (ofText t).suffix? flag = some s) :
    flag ∈ (ofText t).flags ∧ s ≠ [] ∧ IsSuffix s := by
  obtain ⟨o, hmem, rfl, rfl, hne⟩ := exists_of_find?_flag h
  exact ⟨List.mem_eraseDups.mpr (List.mem_map_of_mem hmem), hne,
    (wellFormed_of_mem_ofText hmem).suffix⟩

end Page

end GitShell.Help
