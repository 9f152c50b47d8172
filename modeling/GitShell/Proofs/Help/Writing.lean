import GitShell.Help.Form
import GitShell.Proofs.Text.Lines
import GitShell.Text.Backspace
import Mathlib.Data.List.Basic

/-!
# Help — Writing

How a manual writes the forms of an option on one line, and that the forms are read back from it.

* `Spelling`, `WrittenForm`: the forms `-p`, `--patch-with-stat` and `--[no-]patch`, each with a
  suffix such as `=<n>` or `[=<when>]`.
* `Spelling.readForm_text`: reading takes a form off a line, whatever ends its name.
* `splitSuffix_of_ends`: its suffix ends before the next comma.
* `readForms_formLine`: so the forms of a line are read as the options they stand for.
-/

namespace GitShell.Help

/-! ### Written forms -/

/-- A word of letters. -/
structure Word where
  letters : Text
  ne_nil : letters ≠ []
  alpha : ∀ c ∈ letters, c.isAlpha = true

/-- The name of a long option: words with hyphens between them. -/
structure OptionName where
  first : Word
  more : List Word

/-- The words after the first one, each with a hyphen before it. -/
def hyphenated (ws : List Word) : Text := ws.flatMap fun w => '-' :: w.letters

def OptionName.text (n : OptionName) : Text := n.first.letters ++ hyphenated n.more

/-- The option of a name. -/
def OptionName.option (n : OptionName) : Text := "--".toList ++ n.text

/-- The option that takes it back. -/
def OptionName.negation (n : OptionName) : Text := "--no-".toList ++ n.text

/-- Both of them in one. -/
def OptionName.both (n : OptionName) : Text := "--[no-]".toList ++ n.text

/-- How an option is spelled. -/
inductive Spelling where
  | short (c : Char) (h : c.isAlpha = true)
  | long (name : OptionName)
  | reversible (name : OptionName)

namespace Spelling

def text : Spelling → Text
  | .short c _ => ['-', c]
  | .long name => name.option
  | .reversible name => name.both

/-- The flags that the spelling stands for. -/
def flags : Spelling → List Text
  | .short c _ => [['-', c]]
  | .long name => [name.option]
  | .reversible name => [name.option, name.negation]

end Spelling

/-- A text that stands on one line and has nothing struck over in it. -/
def IsPlain (t : Text) : Prop := '\n' ∉ t ∧ backspace ∉ t

/-- A form as a manual writes it. -/
structure WrittenForm where
  spelling : Spelling
  suffix : Text
  /-- A suffix starts with one of these characters, -/
  opens : ∀ c ∈ suffix.head?, c = '=' ∨ c = '[' ∨ c = '<'
  /-- it has no comma in it, -/
  unseparated : ',' ∉ suffix
  plain : IsPlain suffix
  /-- and no blank at its end. -/
  ends : ∀ c ∈ suffix.getLast?, isBlank c = false

namespace WrittenForm

def text (f : WrittenForm) : Text := f.spelling.text ++ f.suffix

/-- The options that the form documents. -/
def documented (f : WrittenForm) : List DocumentedOption := f.spelling.flags.map (⟨·, f.suffix⟩)

end WrittenForm

/-- The forms on one line. -/
def formLine (fs : List WrittenForm) : Text := Text.join ", ".toList (fs.map WrittenForm.text)

/-! ### Names -/

theorem ne_hyphen_of_isAlpha {c : Char} (h : c.isAlpha = true) : c ≠ '-' := by
  rintro rfl
  cases h

/-- The code points of letters. -/
theorem toNat_of_isAlpha {c : Char} (h : c.isAlpha = true) : 65 ≤ c.toNat ∧ c.toNat ≤ 122 := by
  rcases Bool.or_eq_true_iff.mp h with h | h
  · obtain ⟨h₁, h₂⟩ : c.val ≥ 'A'.val ∧ c.val ≤ 'Z'.val := of_decide_eq_true h
    exact ⟨UInt32.le_iff_toNat_le.mp h₁, Nat.le_trans (UInt32.le_iff_toNat_le.mp h₂) (by decide)⟩
  · obtain ⟨h₁, h₂⟩ := Bool.and_eq_true_iff.mp h
    have hlo := UInt32.le_iff_toNat_le.mp (of_decide_eq_true h₁)
    exact ⟨Nat.le_trans (by decide) hlo, UInt32.le_iff_toNat_le.mp (of_decide_eq_true h₂)⟩

/-- A text that no name goes on in: it starts with no letter and no hyphen. -/
def EndsName (t : Text) : Prop := ∀ c ∈ t.head?, c.isAlpha = false ∧ c ≠ '-'

theorem splitName_of_endsName {t : Text} (h : EndsName t) : splitName t = ([], t) := by
  cases t with
  | nil => rfl
  | cons c t =>
      obtain ⟨hc, hn⟩ := h c rfl
      rw [splitName]
      · rw [hc]
        rfl
      · rintro d r rfl
        exact absurd rfl hn

/-- Letters belong to the name. -/
theorem splitName_letters {w : Text} (h : ∀ c ∈ w, c.isAlpha = true) (t : Text) :
    splitName (w ++ t) = (w ++ (splitName t).1, (splitName t).2) := by
  induction w with
  | nil => rfl
  | cons c w ih =>
      obtain ⟨hc, hw⟩ := List.forall_mem_cons.mp h
      rw [List.cons_append, splitName, hc, if_pos rfl, ih hw]
      · rfl
      · rintro d r rfl
        exact absurd rfl (ne_hyphen_of_isAlpha hc)

theorem Word.exists_cons (w : Word) : ∃ c letters, w.letters = c :: letters ∧
    c.isAlpha = true ∧ ∀ d ∈ letters, d.isAlpha = true := by
  obtain ⟨c, letters, hw⟩ := List.exists_cons_of_ne_nil w.ne_nil
  have halpha := w.alpha
  rw [hw] at halpha
  exact ⟨c, letters, hw, List.forall_mem_cons.mp halpha⟩

/-- So do hyphens before words. -/
theorem splitName_hyphenated (ws : List Word) {t : Text} (h : EndsName t) :
    splitName (hyphenated ws ++ t) = (hyphenated ws, t) := by
  induction ws with
  | nil => exact splitName_of_endsName h
  | cons w ws ih =>
      obtain ⟨c, letters, hw, hc, hletters⟩ := w.exists_cons
      have htext : hyphenated (w :: ws) ++ t = '-' :: c :: (letters ++ (hyphenated ws ++ t)) := by
        simp [hyphenated, hw]
      rw [htext, splitName, hc, if_pos rfl, splitName_letters hletters, ih]
      simp [hyphenated, hw]

/-- **The name** of a long option is read up to what ends it. -/
theorem readName_text (n : OptionName) {t : Text} (h : EndsName t) :
    readName (n.text ++ t) = some (n.text, t) := by
  obtain ⟨c, letters, hw, hc, hletters⟩ := n.first.exists_cons
  have htext : n.text ++ t = c :: (letters ++ (hyphenated n.more ++ t)) := by
    simp [OptionName.text, hw]
  rw [htext, readName, hc, if_pos rfl, splitName_letters hletters, splitName_hyphenated n.more h]
  simp [OptionName.text, hw]

/-- A name starts with no hyphen. -/
theorem head?_ne_of_readName {t n r : Text} (h : readName t = some (n, r)) :
    t.head? ≠ some '-' := by
  cases t with
  | nil => cases h
  | cons c t =>
      obtain ⟨hc, -⟩ := Option.ite_none_right_eq_some.mp h
      exact fun hhead => ne_hyphen_of_isAlpha hc (Option.some.inj hhead)

/-- The hyphen of `[no-]` is in the brackets. -/
theorem readReversal_text {t : Text} (h : t.head? ≠ some '-') :
    readReversal ("[no-]".toList ++ t) = some t := by
  have hdrop : readReversal.dropHyphen t = t := by
    rw [readReversal.dropHyphen]
    rintro r rfl
    exact h rfl
  exact congrArg some hdrop

/-- A reversible form is read as its name is. -/
theorem readForm_both {t n r : Text} (h : readName t = some (n, r)) :
    readForm ("--[no-]".toList ++ t) = some (["--".toList ++ n, "--no-".toList ++ n], r) := by
  have htext : "--[no-]".toList ++ t = '-' :: '-' :: ("[no-]".toList ++ t) := rfl
  -- a bracket starts no name
  have hnone : readName ("[no-]".toList ++ t) = none := rfl
  rw [htext, readForm, hnone, readReversal_text (head?_ne_of_readName h)]
  simp only [Option.bind_eq_bind, Option.bind_some, h]
  rfl

theorem readForm_option {t n r : Text} (h : readName t = some (n, r)) :
    readForm ("--".toList ++ t) = some (["--".toList ++ n], r) := by
  have htext : "--".toList ++ t = '-' :: '-' :: t := rfl
  rw [htext, readForm, h]

/-- **A form** is taken off the line up to what ends its name. -/
theorem Spelling.readForm_text (s : Spelling) {t : Text} (h : EndsName t) :
    readForm (s.text ++ t) = some (s.flags, t) := by
  cases s with
  | short c hc =>
      have htext : (short c hc).text ++ t = '-' :: c :: t := rfl
      rw [htext, readForm, hc]
      · rfl
      · exact ne_hyphen_of_isAlpha hc
  | long name =>
      have htext : (long name).text ++ t = "--".toList ++ (name.text ++ t) := List.append_assoc ..
      rw [htext, readForm_option (readName_text name h)]
      rfl
  | reversible name =>
      have htext : (reversible name).text ++ t = "--[no-]".toList ++ (name.text ++ t) :=
        List.append_assoc ..
      rw [htext, readForm_both (readName_text name h)]
      rfl

/-! ### Suffixes -/

/-- A text that a suffix ends before: the end of the line, or the next form. -/
def EndsSuffix (t : Text) : Prop := t = [] ∨ ∃ u, t = ',' :: ' ' :: u

/-- A suffix without commas goes up to the next form. -/
theorem splitSuffix_of_ends {s t : Text} (hs : ',' ∉ s) (ht : EndsSuffix t) :
    splitSuffix (s ++ t) = (s, t) := by
  induction s with
  | nil =>
      rcases ht with rfl | ⟨u, rfl⟩
      · rfl
      · rfl
  | cons c s ih =>
      rw [List.mem_cons, not_or] at hs
      rw [List.cons_append, splitSuffix, ih hs.2]
      · rintro d r rfl
        exact absurd rfl hs.1
      · rintro rfl
        exact absurd rfl hs.1

namespace WrittenForm

/-- A suffix is no description, and nothing of it is trimmed. -/
theorem cleanSuffix_suffix (f : WrittenForm) : cleanSuffix f.suffix = f.suffix := by
  have htrim : f.suffix.trimEnd = f.suffix := Text.trimEnd_of_getLast? f.ends
  have hdescription : isDescription f.suffix = false := by
    cases hs : f.suffix with
    | nil => rfl
    | cons c s =>
        have hc : c = '=' ∨ c = '[' ∨ c = '<' := f.opens c (by simp [hs])
        rcases hc with rfl | rfl | rfl <;> rfl
  rw [cleanSuffix, htrim, hdescription]
  rfl

/-- A name ends where its suffix starts, or before the next form. -/
theorem endsName_suffix (f : WrittenForm) {t : Text} (ht : EndsSuffix t) :
    EndsName (f.suffix ++ t) := by
  intro c hc
  have hcases : (c = '=' ∨ c = '[' ∨ c = '<') ∨ c = ',' := by
    cases hs : f.suffix with
    | nil =>
        rcases ht with rfl | ⟨u, rfl⟩
        · rw [hs] at hc
          cases hc
        · rw [hs] at hc
          exact .inr (Option.some.inj hc).symm
    | cons d s =>
        rw [hs] at hc
        exact .inl (f.opens c (by simpa [hs] using hc))
  rcases hcases with (rfl | rfl | rfl) | rfl <;> decide

end WrittenForm

/-! ### Lines -/

theorem readForms_of_head? {t : Text} (h : t.head? ≠ some '-') : readForms t = [] := by
  have hnone : readForm t = none := by
    cases t with
    | nil => rfl
    | cons c t =>
        rw [readForm]
        · rintro r ⟨⟩
          exact h rfl
        · rintro d r ⟨⟩
          exact absurd h (by simp)
  rw [readForms]
  split
  next => rfl
  next hs => rw [hnone] at hs; cases hs

theorem readForms_of_readForm {t r : Text} {flags : List Text} (h : readForm t = some (flags, r)) :
    readForms t = flags.map (⟨·, cleanSuffix (splitSuffix r).1⟩) ++
      match (splitSuffix r).2 with
      | ',' :: ' ' :: u => readForms u
      | _ => [] := by
  rw [readForms]
  split
  next hn => rw [hn] at h; cases h
  next fs u hs =>
    rw [hs] at h
    cases h
    refine congrArg (_ ++ ·) ?_
    split
    next v hv => simp only [hv]
    next hv =>
      split
      next v hv' => exact absurd hv' (hv v)
      next => rfl

/-- **The forms of a line** are read as the options that they document. -/
theorem readForms_formLine (fs : List WrittenForm) :
    readForms (formLine fs) = fs.flatMap WrittenForm.documented := by
  induction fs with
  | nil => exact readForms_of_head? nofun
  | cons f fs ih =>
      obtain ⟨t, htext, ht, hrest⟩ : ∃ t, formLine (f :: fs) = f.text ++ t ∧ EndsSuffix t ∧
          (match t with | ',' :: ' ' :: u => readForms u | _ => []) =
            fs.flatMap WrittenForm.documented := by
        cases fs with
        | nil => exact ⟨[], by simp [formLine, Text.join], .inl rfl, rfl⟩
        | cons g fs =>
            exact ⟨", ".toList ++ formLine (g :: fs), by simp [formLine, Text.join],
              .inr ⟨_, rfl⟩, ih⟩
      have hform : readForm (formLine (f :: fs)) = some (f.spelling.flags, f.suffix ++ t) := by
        rw [htext, WrittenForm.text, List.append_assoc]
        exact f.spelling.readForm_text (f.endsName_suffix ht)
      rw [readForms_of_readForm hform, splitSuffix_of_ends f.unseparated ht, f.cleanSuffix_suffix,
        hrest, List.flatMap_cons, WrittenForm.documented]

/-! ### Characters -/

theorem IsPlain.append {t u : Text} (ht : IsPlain t) (hu : IsPlain u) : IsPlain (t ++ u) :=
  ⟨fun h => (List.mem_append.mp h).elim ht.1 hu.1, fun h => (List.mem_append.mp h).elim ht.2 hu.2⟩

theorem OptionName.mem_text {n : OptionName} {c : Char} (h : c ∈ n.text) :
    c.isAlpha = true ∨ c = '-' := by
  rcases List.mem_append.mp h with h | h
  · exact .inl (n.first.alpha c h)
  · obtain ⟨w, -, hw⟩ := List.mem_flatMap.mp h
    rcases List.mem_cons.mp hw with rfl | hw
    · exact .inr rfl
    · exact .inl (w.alpha c hw)

/-- An option is spelled with letters, hyphens and brackets. -/
theorem Spelling.mem_text {s : Spelling} {c : Char} (h : c ∈ s.text) :
    c.isAlpha = true ∨ c ∈ ['-', '[', ']'] := by
  have hdashes : ∀ d ∈ "--".toList, d ∈ ['-', '[', ']'] := by simp
  have hno : ∀ d ∈ "--[no-]".toList, d.isAlpha = true ∨ d ∈ ['-', '[', ']'] := by simp
  cases s with
  | short d hd =>
      rcases List.mem_cons.mp h with rfl | h
      · exact .inr (List.mem_cons_self ..)
      · exact .inl (List.mem_singleton.mp h ▸ hd)
  | long n =>
      rcases List.mem_append.mp h with h | h
      · exact .inr (hdashes c h)
      · exact (OptionName.mem_text h).imp id fun hc => by simp [hc]
  | reversible n =>
      rcases List.mem_append.mp h with h | h
      · exact hno c h
      · exact (OptionName.mem_text h).imp id fun hc => by simp [hc]

theorem Spelling.not_mem_text (s : Spelling) :
    '\n' ∉ s.text ∧ backspace ∉ s.text ∧ '\r' ∉ s.text := by
  refine ⟨fun h => ?_, fun h => ?_, fun h => ?_⟩ <;> exact absurd (mem_text h) (by decide)

theorem Spelling.head?_text (s : Spelling) : s.text.head? = some '-' := by
  cases s <;> rfl

/-- What is written on a line of forms is plain. -/
theorem isPlain_formLine (fs : List WrittenForm) : IsPlain (formLine fs) := by
  have htext (f : WrittenForm) : IsPlain f.text :=
    .append ⟨f.spelling.not_mem_text.1, f.spelling.not_mem_text.2.1⟩ f.plain
  have hcomma : IsPlain ", ".toList := ⟨by decide, by decide⟩
  induction fs with
  | nil => exact ⟨List.not_mem_nil, List.not_mem_nil⟩
  | cons f fs ih =>
      cases fs with
      | nil => exact htext f
      | cons g fs => exact .append (.append (htext f) hcomma) ih

/-- Its last character is no part of a line end. -/
theorem getLast?_formLine (fs : List WrittenForm) : (formLine fs).getLast? ≠ some '\r' := by
  have htext (f : WrittenForm) : f.text.getLast? ≠ some '\r' := by
    intro h
    rw [WrittenForm.text, List.getLast?_append, Option.or_eq_some_iff] at h
    rcases h with h | ⟨-, h⟩
    · exact absurd (f.ends _ h) (by decide)
    · exact f.spelling.not_mem_text.2.2 (List.mem_of_getLast? h)
  induction fs with
  | nil => exact nofun
  | cons f fs ih =>
      cases fs with
      | nil => exact htext f
      | cons g fs =>
          have hline : formLine (f :: g :: fs) = f.text ++ ", ".toList ++ formLine (g :: fs) := rfl
          rw [hline, List.getLast?_append, ne_eq, Option.or_eq_some_iff, not_or]
          refine ⟨ih, fun h => ?_⟩
          rw [List.getLast?_append] at h
          exact absurd h.2 (by simp)

/-- Its first one is a hyphen. -/
theorem head?_formLine {fs : List WrittenForm} (h : fs ≠ []) :
    (formLine fs).head? = some '-' := by
  obtain ⟨f, fs, rfl⟩ := List.exists_cons_of_ne_nil h
  have htext : f.text.head? = some '-' := by
    rw [WrittenForm.text, List.head?_append, f.spelling.head?_text, Option.some_or]
  cases fs with
  | nil => exact htext
  | cons g fs =>
      have hline : formLine (f :: g :: fs) = f.text ++ (", ".toList ++ formLine (g :: fs)) :=
        List.append_assoc ..
      rw [hline, List.head?_append, htext, Option.some_or]

end GitShell.Help
