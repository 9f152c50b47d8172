import GitShell.Proofs.Help.Manual
import Mathlib.Data.List.Chain
import Mathlib.Data.List.TakeWhile

/-!
# Help — NameCut

The name of an option is read as words of letters, so a digit ends it: `--utf8` is mined as `--utf`,
and what is left of the name is taken for a suffix or for a description.

* `IsOptionName`: names of letters, digits and single hyphens.
* `readName_of_isOptionName`: such a name is read up to its first digit, without a hyphen before it.
* `flags_of_only_option_line`: so a page with one such option has this flag, and the flag is the
  option exactly if no digit is in the name.
-/

namespace GitShell.Help

/-! ### Names with digits -/

/-- A name of letters, digits and single hyphens that starts with a letter and ends in no hyphen. -/
structure IsOptionName (n : Text) : Prop where
  first : ∃ c ∈ n.head?, c.isAlpha = true
  chars : ∀ c ∈ n, c.isAlphanum = true ∨ c = '-'
  single : n.IsChain fun c d => c ≠ '-' ∨ d ≠ '-'
  last : n.getLast? ≠ some '-'

def dropFinalHyphen (t : Text) : Text := if t.getLast? = some '-' then t.dropLast else t

/-- A name up to its first digit, without a hyphen before the digit. -/
def beforeDigit (n : Text) : Text := dropFinalHyphen (n.takeWhile fun c => !c.isDigit)

example : beforeDigit "utf8-mode".toList = "utf".toList ∧ beforeDigit "a-8b".toList = ['a'] := by
  decide

theorem dropFinalHyphen_cons_cons (c d : Char) (t : Text) :
    dropFinalHyphen (c :: d :: t) = c :: dropFinalHyphen (d :: t) := by
  rw [dropFinalHyphen, dropFinalHyphen, List.getLast?_cons_cons]
  split
  · rfl
  · rfl

theorem dropFinalHyphen_cons {c : Char} (hc : c ≠ '-') (t : Text) :
    dropFinalHyphen (c :: t) = c :: dropFinalHyphen t := by
  cases t with
  | nil => simp [dropFinalHyphen, hc]
  | cons d t => exact dropFinalHyphen_cons_cons c d t

theorem not_isDigit_of_isAlpha {c : Char} (h : c.isAlpha = true) : c.isDigit = false := by
  have hletter := toNat_of_isAlpha h
  refine Bool.eq_false_iff.mpr fun hdigit => ?_
  have hle : c.toNat ≤ 57 :=
    UInt32.le_iff_toNat_le.mp (of_decide_eq_true (Bool.and_eq_true_iff.mp hdigit).2)
  omega

section
variable {c : Char}

theorem beforeDigit_digit (hc : c.isDigit = true) (t : Text) : beforeDigit (c :: t) = [] := by
  simp [beforeDigit, hc, dropFinalHyphen]

theorem beforeDigit_letter (hc : c.isAlpha = true) (t : Text) :
    beforeDigit (c :: t) = c :: beforeDigit t := by
  have hdigit := not_isDigit_of_isAlpha hc
  rw [beforeDigit, List.takeWhile_cons_of_pos (by simp [hdigit]),
    dropFinalHyphen_cons (ne_hyphen_of_isAlpha hc)]
  rfl

theorem beforeDigit_hyphen_digit (hc : c.isDigit = true) (t : Text) :
    beforeDigit ('-' :: c :: t) = [] := by
  have hhyphen : Char.isDigit '-' = false := rfl
  simp [beforeDigit, hc, hhyphen, dropFinalHyphen]

theorem beforeDigit_hyphen_letter (hc : c.isAlpha = true) (t : Text) :
    beforeDigit ('-' :: c :: t) = '-' :: c :: beforeDigit t := by
  have hhyphen : Char.isDigit '-' = false := rfl
  have hdigit := not_isDigit_of_isAlpha hc
  rw [beforeDigit, List.takeWhile_cons_of_pos (by simp [hhyphen]),
    List.takeWhile_cons_of_pos (by simp [hdigit]), dropFinalHyphen_cons_cons,
    dropFinalHyphen_cons (ne_hyphen_of_isAlpha hc)]
  rfl

end

theorem length_dropFinalHyphen_le (t : Text) : (dropFinalHyphen t).length ≤ t.length := by
  rw [dropFinalHyphen]
  split
  · exact (List.dropLast_sublist t).length_le
  · exact Nat.le_refl _

/-- Nothing of a name is cut off exactly if it has no digit. -/
theorem beforeDigit_eq_self_iff {n : Text} (h : n.getLast? ≠ some '-') :
    beforeDigit n = n ↔ ∀ c ∈ n, c.isDigit = false := by
  have hprefix := List.takeWhile_prefix (l := n) fun c => !c.isDigit
  constructor
  · intro heq
    have hlength : n.length ≤ (n.takeWhile fun c => !c.isDigit).length := by
      have hle := length_dropFinalHyphen_le (n.takeWhile fun c => !c.isDigit)
      rwa [← beforeDigit, heq] at hle
    have hall := hprefix.eq_of_length_le hlength
    simpa using List.takeWhile_eq_self_iff.mp hall
  · intro hdigits
    have hall : n.takeWhile (fun c => !c.isDigit) = n :=
      List.takeWhile_eq_self_iff.mpr (by simpa using hdigits)
    rw [beforeDigit, hall, dropFinalHyphen, if_neg h]

/-- A character of a name that is no letter and no hyphen is a digit. -/
theorem isDigit_of_isAlphanum {c : Char} (h : c.isAlphanum = true) (hc : c.isAlpha ≠ true) :
    c.isDigit = true := by
  rw [Char.isAlphanum, Bool.or_eq_true] at h
  exact h.resolve_left hc

theorem getLast?_ne_of_cons {c : Char} {t : Text} (h : (c :: t).getLast? ≠ some '-') :
    t.getLast? ≠ some '-' := by
  cases t with
  | nil => exact nofun
  | cons d t => simpa [List.getLast?_cons_cons] using h

/-- What goes on a name is read up to its first digit. -/
theorem splitName_eq_beforeDigit {n : Text} (hchars : ∀ c ∈ n, c.isAlphanum = true ∨ c = '-')
    (hsingle : n.IsChain fun c d => c ≠ '-' ∨ d ≠ '-') (hlast : n.getLast? ≠ some '-') :
    (splitName n).1 = beforeDigit n := by
  fun_induction splitName n with
  | case1 c r hc name rest heq ih =>
      have hrest := ih (fun d hd => hchars d (by simp [hd])) hsingle.tail.tail
        (getLast?_ne_of_cons (getLast?_ne_of_cons hlast))
      rw [heq] at hrest
      rw [beforeDigit_hyphen_letter hc, ← hrest]
  | case2 c r hc =>
      -- after a hyphen there is no other one, so this is a digit
      have hne : c ≠ '-' := (List.isChain_cons_cons.mp hsingle).1.resolve_left (absurd rfl)
      have hdigit := isDigit_of_isAlphanum ((hchars c (by simp)).resolve_right hne) hc
      rw [beforeDigit_hyphen_digit hdigit]
  | case3 c r hr hc name rest heq ih =>
      have hrest := ih (fun d hd => hchars d (by simp [hd])) hsingle.tail
        (getLast?_ne_of_cons hlast)
      rw [heq] at hrest
      rw [beforeDigit_letter hc, ← hrest]
  | case4 c r hr hc =>
      -- a hyphen would be the last character
      have hne : c ≠ '-' := by
        rintro rfl
        cases r with
        | nil => exact hlast rfl
        | cons d r => exact hr d r rfl rfl
      have hdigit := isDigit_of_isAlphanum ((hchars c (by simp)).resolve_right hne) hc
      rw [beforeDigit_digit hdigit]
  | case5 => rfl

/-- **A name** is read up to its first digit. -/
theorem readName_of_isOptionName {n : Text} (h : IsOptionName n) :
    ∃ r, readName n = some (beforeDigit n, r) ∧ ',' ∉ r := by
  obtain ⟨c, hhead, hc⟩ := h.first
  obtain ⟨t, rfl⟩ := List.head?_eq_some_iff.mp hhead
  have hfirst := splitName_eq_beforeDigit (fun d hd => h.chars d (.tail _ hd)) h.single.tail
    (getLast?_ne_of_cons h.last)
  refine ⟨(splitName t).2, ?_, fun hcomma => ?_⟩
  · rw [readName, hc, if_pos rfl, beforeDigit_letter hc, ← hfirst]
  · have hmem : ',' ∈ t := splitName_append t ▸ List.mem_append_right _ hcomma
    rcases h.chars ',' (.tail _ hmem) with hc | hc <;> cases hc

/-! ### Pages with one option -/

/-- The line follows a blank one and is the only one of the page that has options. -/
def IsOnlyOptionLine (t line : Text) : Prop :=
  ∃ before gap after, (unstrike t).lines = before ++ gap :: line :: after ∧ gap.allBlank = true ∧
    ∀ l ∈ blockStarts true before ++ blockStarts false after, optionsOfLine l = []

/-- The options of such a page are those of the line. -/
theorem options_of_only_option_line {t line : Text} (h : IsOnlyOptionLine t line)
    (hline : isBreak line = false) :
    (Page.ofText t).options = (optionsOfLine line).eraseDups := by
  obtain ⟨before, gap, after, hlines, hgap, hothers⟩ := h
  have hnone : ∀ ls : List Text, (∀ l ∈ ls, optionsOfLine l = []) → ls.flatMap optionsOfLine = [] :=
    fun ls => List.flatMap_eq_nil_iff.mpr
  have hbefore := hnone _ fun l hl => hothers l (List.mem_append_left _ hl)
  have hafter := hnone _ fun l hl => hothers l (List.mem_append_right _ hl)
  have hbreak : isBreak gap = true := by rw [isBreak, hgap, Bool.true_or]
  have hgapNone : (if startsAfter true before then [gap] else []).flatMap optionsOfLine = [] := by
    refine hnone _ fun l hl => ?_
    split at hl
    · rw [List.mem_singleton.mp hl, optionsOfLine_of_allBlank hgap]
    · cases hl
  rw [Page.ofText, hlines, blockStarts_append, blockStarts_cons, hbreak, blockStarts, hline,
    List.flatMap_append, List.flatMap_append, hbefore, hgapNone, List.flatMap_cons, hafter,
    List.append_nil, List.nil_append, List.nil_append]

theorem exists_hyphen_of_readForm {t : Text} {p : List Text × Text} (h : readForm t = some p) :
    ∃ u, t = '-' :: u := by
  unfold readForm at h
  split at h
  · exact ⟨_, rfl⟩
  · exact ⟨_, rfl⟩
  · cases h

/-- The flags of a page with one form are those of the form. -/
theorem flags_of_form {t form r : Text} {flags : List Text}
    (h : IsOnlyOptionLine t (indent ++ form)) (hform : readForm form = some (flags, r))
    (hr : ',' ∉ r) : (Page.ofText t).flags = flags.eraseDups := by
  obtain ⟨u, rfl⟩ := exists_hyphen_of_readForm hform
  have hsuffix : splitSuffix r = (r, []) := by
    simpa using splitSuffix_of_ends hr (.inl rfl)
  have hforms : readForms ('-' :: u) = flags.map (⟨·, cleanSuffix r⟩) := by
    rw [readForms_of_readForm hform, hsuffix, List.append_nil]
  have hflags : (flags.map fun f => (⟨f, cleanSuffix r⟩ : DocumentedOption)).map
      DocumentedOption.flag = flags := by
    rw [List.map_map]
    exact List.map_id flags
  rw [Page.flags, options_of_only_option_line h (isBreak_indent u), eraseDups_map_eraseDups,
    optionsOfLine_indent, hforms, hflags]

/-- **One option on a page** is mined up to the first digit of its name, so it is mined as it is
exactly if its name has no digit. -/
theorem flags_of_only_option_line {n t : Text} (hn : IsOptionName n) :
    (IsOnlyOptionLine t (indent ++ ("--".toList ++ n)) →
      (Page.ofText t).flags = ["--".toList ++ beforeDigit n] ∧
      ((Page.ofText t).flags = ["--".toList ++ n] ↔ ∀ c ∈ n, c.isDigit = false)) ∧
    (IsOnlyOptionLine t (indent ++ ("--[no-]".toList ++ n)) →
      (Page.ofText t).flags = ["--".toList ++ beforeDigit n, "--no-".toList ++ beforeDigit n] ∧
      ((Page.ofText t).flags = ["--".toList ++ n, "--no-".toList ++ n] ↔
        ∀ c ∈ n, c.isDigit = false)) := by
  obtain ⟨r, hread, hr⟩ := readName_of_isOptionName hn
  have hcut := beforeDigit_eq_self_iff hn.last
  constructor
  · intro h
    have hflags : (Page.ofText t).flags = ["--".toList ++ beforeDigit n] := by
      rw [flags_of_form h (readForm_option hread) hr, List.eraseDups_cons]
      rfl
    refine ⟨hflags, ?_⟩
    rw [hflags, List.singleton_inj, List.append_cancel_left_eq, hcut]
  · intro h
    have hne : "--no-".toList ++ beforeDigit n ≠ "--".toList ++ beforeDigit n := by
      intro heq
      exact absurd (List.append_cancel_right heq) (by decide)
    have hflags : (Page.ofText t).flags =
        ["--".toList ++ beforeDigit n, "--no-".toList ++ beforeDigit n] := by
      rw [flags_of_form h (readForm_both hread) hr, List.eraseDups_cons,
        List.filter_cons_of_pos (by simpa using hne), List.eraseDups_cons]
      rfl
    refine ⟨hflags, ?_⟩
    rw [hflags, ← hcut]
    simp only [List.cons.injEq, List.append_cancel_left_eq, and_true, and_self]

/-- A reversible option without digits, in the middle of a page. -/
theorem flags_of_only_option_line_patch :
    IsOptionName "patch-it".toList ∧
      (Page.ofText "NAME\n  x\n\n       --[no-]patch-it\n           --utf8\n".toList).flags =
        ["--patch-it".toList, "--no-patch-it".toList] := by
  have hname : IsOptionName "patch-it".toList :=
    ⟨⟨'p', rfl, by decide⟩, by simp, by decide, by decide⟩
  have hpage : IsOnlyOptionLine "NAME\n  x\n\n       --[no-]patch-it\n           --utf8\n".toList
      (indent ++ ("--[no-]".toList ++ "patch-it".toList)) :=
    ⟨["NAME".toList, "  x".toList], [], ["           --utf8".toList], by decide +kernel, rfl,
      by decide +kernel⟩
  exact ⟨hname, ((flags_of_only_option_line hname).2 hpage).2.mpr (by simp)⟩

/-- The digit of git's own `--utf8` is cut off. -/
theorem digit_is_cut_off :
    IsOptionName "utf8".toList ∧
      IsOnlyOptionLine "\n       --utf8\n".toList (indent ++ ("--".toList ++ "utf8".toList)) ∧
      (Page.ofText "\n       --utf8\n".toList).flags = ["--utf".toList] ∧
      (Page.ofText "\n       --utf8\n".toList).flags ≠ ["--utf8".toList] := by
  have hname : IsOptionName "utf8".toList :=
    ⟨⟨'u', rfl, by decide⟩, by simp, by decide, by decide⟩
  have hpage : IsOnlyOptionLine "\n       --utf8\n".toList
      (indent ++ ("--".toList ++ "utf8".toList)) :=
    ⟨[], [], [], by decide +kernel, rfl, nofun⟩
  have hflags : (Page.ofText "\n       --utf8\n".toList).flags = ["--utf".toList] := by
    decide +kernel
  exact ⟨hname, hpage, hflags, by rw [hflags]; decide⟩

end GitShell.Help
