import GitShell.Help.Page
import GitShell.Proofs.Help.Writing
import GitShell.Proofs.Text.Lines

/-!
# Help — Manual

A manual of blocks, each a blank line, a line of forms and the lines that describe them, is read as
the options that its forms document.

* `mem_options_ofText_iff`: of any page, the options are those of the lines that may start a block.
* `optionsOf_block`: of a block, that is its line of forms, whatever its description says.
* `ofText_recovers_forms`: so the options of a manual, their flags and their suffixes are those of
  its forms.
-/

namespace GitShell.Help

/-! ### Repetitions -/

section
variable {α β : Type} [BEq α] [LawfulBEq α] [BEq β] [LawfulBEq β]

/-- What is found first has not come before. -/
theorem find?_eraseDups (p : α → Bool) : ∀ l : List α, l.eraseDups.find? p = l.find? p
  | [] => rfl
  | a :: l => by
      have hlength := List.length_filter_le (fun b => !b == a) l
      rw [List.eraseDups_cons, List.find?_cons, List.find?_cons, find?_eraseDups, List.find?_filter]
      cases ha : p a with
      | true => rfl
      | false =>
          -- what is dropped as a repetition is not looked for either
          refine congrArg (List.find? · l) (funext fun b => ?_)
          by_cases hb : b = a
          · simp [hb, ha]
          · simp [hb]
termination_by l => l.length
decreasing_by exact Nat.lt_succ_of_le hlength

theorem filter_eraseDups (p : α → Bool) :
    ∀ l : List α, l.eraseDups.filter p = (l.filter p).eraseDups
  | [] => rfl
  | a :: l => by
      have hlength := List.length_filter_le (fun b => !b == a) l
      rw [List.eraseDups_cons, List.filter_cons, List.filter_cons, filter_eraseDups,
        List.filter_filter]
      cases ha : p a with
      | true =>
          rw [if_pos rfl, if_pos rfl, List.eraseDups_cons, List.filter_filter]
          simp only [Bool.and_comm]
      | false =>
          refine congrArg (fun q => (List.filter q l).eraseDups) (funext fun b => ?_)
          by_cases hb : b = a
          · simp [hb, ha]
          · simp [hb]
termination_by l => l.length
decreasing_by exact Nat.lt_succ_of_le hlength

theorem nodup_eraseDups : ∀ l : List α, l.eraseDups.Nodup
  | [] => .nil
  | a :: l => by
      have hlength := List.length_filter_le (fun b => !b == a) l
      rw [List.eraseDups_cons, List.nodup_cons, List.mem_eraseDups, List.mem_filter]
      exact ⟨by simp, nodup_eraseDups _⟩
termination_by l => l.length
decreasing_by exact Nat.lt_succ_of_le hlength

/-- Images of what is repeated are repeated. -/
theorem eraseDups_map_eraseDups (f : α → β) :
    ∀ l : List α, (l.eraseDups.map f).eraseDups = (l.map f).eraseDups
  | [] => rfl
  | a :: l => by
      have hlength := List.length_filter_le ((fun b => !b == f a) ∘ f) l
      -- a repetition of `a` has an image that is dropped anyway
      have hfilter : (l.filter (fun b => !b == a)).filter ((fun b => !b == f a) ∘ f) =
          l.filter ((fun b => !b == f a) ∘ f) := by
        rw [List.filter_filter]
        refine List.filter_congr fun b _ => ?_
        by_cases hb : b = a
        · simp [hb]
        · simp [hb]
      rw [List.eraseDups_cons, List.map_cons, List.map_cons, List.eraseDups_cons,
        List.eraseDups_cons, List.filter_map, List.filter_map, filter_eraseDups, hfilter,
        eraseDups_map_eraseDups f (l.filter _)]
termination_by l => l.length
decreasing_by exact Nat.lt_succ_of_le hlength

end

/-! ### Lines that start a block -/

/-- Whether a block may start after these lines. -/
def startsAfter (first : Bool) (before : List Text) : Bool :=
  (before.getLast?.map isBreak).getD first

theorem startsAfter_cons (first : Bool) (l : Text) (before : List Text) :
    startsAfter first (l :: before) = startsAfter (isBreak l) before := by
  rw [startsAfter, startsAfter, List.getLast?_cons, Option.map_some, Option.getD_some,
    Option.getD_map]

theorem blockStarts_cons (first : Bool) (l : Text) (ls : List Text) :
    blockStarts first (l :: ls) = (if first then [l] else []) ++ blockStarts (isBreak l) ls := by
  cases first <;> rfl

theorem blockStarts_append (first : Bool) (ls ms : List Text) :
    blockStarts first (ls ++ ms) =
      blockStarts first ls ++ blockStarts (startsAfter first ls) ms := by
  induction ls generalizing first with
  | nil => cases first <;> rfl
  | cons l ls ih =>
      rw [List.cons_append, blockStarts_cons, blockStarts_cons, ih, startsAfter_cons,
        List.append_assoc]

theorem mem_blockStarts_iff {first : Bool} {ls : List Text} {l : Text} :
    l ∈ blockStarts first ls ↔
      ∃ before after, ls = before ++ l :: after ∧ startsAfter first before = true := by
  induction ls generalizing first with
  | nil => simp [blockStarts]
  | cons k ls ih =>
      rw [blockStarts_cons, List.mem_append, ih]
      constructor
      · rintro (h | ⟨before, after, rfl, h⟩)
        · cases first with
          | false => cases h
          | true => exact ⟨[], ls, by rw [List.mem_singleton.mp h, List.nil_append], rfl⟩
        · exact ⟨k :: before, after, rfl, by rwa [startsAfter_cons]⟩
      · rintro ⟨before, after, heq, h⟩
        cases before with
        | nil =>
            cases heq
            cases h
            exact .inl (List.mem_singleton_self _)
        | cons b before =>
            cases heq
            exact .inr ⟨before, after, rfl, by rwa [← startsAfter_cons first]⟩

/-- **What is mined** from any page: the options on its first line and on the lines that follow a
blank line or a heading. -/
theorem mem_options_ofText_iff {t : Text} {o : DocumentedOption} :
    o ∈ (Page.ofText t).options ↔ ∃ before line after,
      (unstrike t).lines = before ++ line :: after ∧ startsAfter true before = true ∧
        o ∈ optionsOfLine line := by
  rw [Page.ofText, List.mem_eraseDups, List.mem_flatMap]
  simp only [mem_blockStarts_iff]
  constructor
  · rintro ⟨line, ⟨before, after, heq, h⟩, ho⟩
    exact ⟨before, line, after, heq, h, ho⟩
  · rintro ⟨before, line, after, heq, h, ho⟩
    exact ⟨line, ⟨before, after, heq, h⟩, ho⟩

/-- Lines that are no breaks let no block start. -/
theorem blockStarts_append_of_forall {ds : List Text} (h : ∀ d ∈ ds, isBreak d = false)
    (ls : List Text) : blockStarts false (ds ++ ls) = blockStarts false ls := by
  induction ds with
  | nil => rfl
  | cons d ds ih =>
      obtain ⟨hd, hds⟩ := List.forall_mem_cons.mp h
      rw [List.cons_append, blockStarts, hd, ih hds]

/-! ### Manuals -/

/-- A block of a manual. -/
structure Block where
  gap : Text
  forms : List WrittenForm
  description : List Text
  /-- The line before the forms is blank, -/
  blank : gap.allBlank = true ∧ '\n' ∉ gap
  /-- there is a form, -/
  documents : forms ≠ []
  /-- and the lines after the forms are indented as well and say something. -/
  describes : ∀ l ∈ description, indent <+: l ∧ l.allBlank = false ∧ IsPlain l

namespace Block

def lines (b : Block) : List Text := b.gap :: (indent ++ formLine b.forms) :: b.description

end Block

/-- The text of a manual. -/
def manual (bs : List Block) : Text := (bs.flatMap Block.lines).flatMap Text.line

example : manual [{
    gap := []
    forms := [⟨.short 'U' rfl, "<n>".toList, by simp, by decide, ⟨by decide, by decide⟩,
        by simp; decide⟩,
      ⟨.reversible ⟨⟨"all".toList, by decide, by simp⟩, []⟩, [], nofun, nofun, ⟨nofun, nofun⟩,
        nofun⟩]
    description := ["           --patch is implied".toList]
    blank := ⟨rfl, nofun⟩
    documents := nofun
    describes := by
      rintro l hl
      cases List.mem_singleton.mp hl
      exact ⟨by decide, by decide, by decide, by decide⟩ }] =
    "\n       -U<n>, --[no-]all\n           --patch is implied\n".toList := by decide

theorem isPlain_of_mem_lines {b : Block} {l : Text} (h : l ∈ b.lines) : IsPlain l := by
  rcases List.mem_cons.mp h with rfl | h
  · exact ⟨b.blank.2, Text.not_mem_of_allBlank b.blank.1 (by decide)⟩
  rcases List.mem_cons.mp h with rfl | h
  · exact .append ⟨by decide, by decide⟩ (isPlain_formLine b.forms)
  · exact (b.describes l h).2.2

/-- A manual is read line by line. -/
theorem lines_manual (bs : List Block) :
    (unstrike (manual bs)).lines = bs.flatMap fun b => b.lines.map Text.withoutReturn := by
  have hplain {l : Text} (hl : l ∈ bs.flatMap Block.lines) : IsPlain l := by
    obtain ⟨b, -, hb⟩ := List.mem_flatMap.mp hl
    exact isPlain_of_mem_lines hb
  have hbackspace : backspace ∉ manual bs := by
    intro h
    obtain ⟨l, hl, hmem⟩ := List.mem_flatMap.mp h
    rcases List.mem_append.mp hmem with hmem | hmem
    · exact (hplain hl).2 hmem
    · exact absurd hmem (by decide)
  rw [unstrike_of_not_mem hbackspace, manual,
    Text.lines_flatMap_line_of_not_mem fun l hl => (hplain hl).1, List.map_flatMap]

/-- A blank line is a break, and no options are on it. -/
theorem optionsOfLine_of_allBlank {l : Text} (h : l.allBlank = true) : optionsOfLine l = [] := by
  rw [optionsOfLine]
  split
  next =>
      refine readForms_of_head? fun hhead => ?_
      have hmem : '-' ∈ l := List.mem_of_mem_drop (List.mem_of_head? hhead)
      exact Text.not_mem_of_allBlank h (by decide) hmem
  next => rfl

/-- The forms of an indented line are read from behind the indentation. -/
theorem optionsOfLine_indent (t : Text) : optionsOfLine (indent ++ t) = readForms t := by
  rw [optionsOfLine, if_pos (List.isPrefixOf_iff_prefix.mpr (List.prefix_append ..)),
    List.drop_left]

/-- Such a line is no break. -/
theorem isBreak_indent (t : Text) : isBreak (indent ++ '-' :: t) = false := by
  have hhyphen : isBlank '-' = false := by decide
  have hblank : Text.allBlank (indent ++ '-' :: t) = false := by simp [Text.allBlank, hhyphen]
  rw [isBreak, hblank]
  rfl

/-- The options of a line of forms are those of the forms. -/
theorem optionsOfLine_formLine (fs : List WrittenForm) :
    optionsOfLine (indent ++ formLine fs) = fs.flatMap WrittenForm.documented := by
  rw [optionsOfLine_indent, readForms_formLine]

theorem isBreak_formLine {fs : List WrittenForm} (h : fs ≠ []) :
    isBreak (indent ++ formLine fs) = false := by
  obtain ⟨r, hr⟩ := List.head?_eq_some_iff.mp (head?_formLine h)
  rw [hr, isBreak_indent]

theorem withoutReturn_formLine (fs : List WrittenForm) :
    (indent ++ formLine fs).withoutReturn = indent ++ formLine fs := by
  refine Text.withoutReturn_of_getLast? fun h => ?_
  rw [List.getLast?_append, Option.or_eq_some_iff] at h
  rcases h with h | ⟨-, h⟩
  · exact getLast?_formLine fs h
  · cases h

/-- Neither is a line of a description. -/
theorem isBreak_of_description {b : Block} {l : Text} (h : l ∈ b.description) :
    isBreak l.withoutReturn = false := by
  obtain ⟨⟨r, rfl⟩, hblank, -⟩ := b.describes l h
  have hcons : indent ++ r = ' ' :: ' ' :: (List.replicate 5 ' ' ++ r) := rfl
  rw [isBreak, Text.allBlank_withoutReturn, hblank, hcons, Text.withoutReturn_cons_cons]
  rfl

/-- **One block**: its line of forms is mined, and the others are not. -/
theorem optionsOf_block (first : Bool) (b : Block) (ls : List Text) :
    (blockStarts first (b.lines.map Text.withoutReturn ++ ls)).flatMap optionsOfLine =
      b.forms.flatMap WrittenForm.documented ++ (blockStarts false ls).flatMap optionsOfLine := by
  have hgap : b.gap.withoutReturn.allBlank = true := by
    rw [Text.allBlank_withoutReturn, b.blank.1]
  have hbreak : isBreak b.gap.withoutReturn = true := by
    rw [isBreak, hgap, Bool.true_or]
  have hdescription : ∀ d ∈ b.description.map Text.withoutReturn, isBreak d = false := by
    intro d hd
    obtain ⟨l, hl, rfl⟩ := List.mem_map.mp hd
    exact isBreak_of_description hl
  have hstarts : blockStarts first (b.lines.map Text.withoutReturn ++ ls) =
      (if first then [b.gap.withoutReturn] else []) ++
        (indent ++ formLine b.forms) :: blockStarts false ls := by
    rw [Block.lines, List.map_cons, List.map_cons, withoutReturn_formLine, List.cons_append,
      List.cons_append, blockStarts_cons, hbreak, blockStarts, isBreak_formLine b.documents,
      blockStarts_append_of_forall hdescription]
  have hnone : (if first then [b.gap.withoutReturn] else []).flatMap optionsOfLine = [] := by
    cases first with
    | false => rfl
    | true => simp [optionsOfLine_of_allBlank hgap]
  rw [hstarts, List.flatMap_append, hnone, List.nil_append, List.flatMap_cons,
    optionsOfLine_formLine]

/-- **All blocks**: the forms, one block after the other. -/
theorem optionsOf_blocks (first : Bool) (bs : List Block) :
    (blockStarts first (bs.flatMap fun b => b.lines.map Text.withoutReturn)).flatMap optionsOfLine =
      (bs.flatMap Block.forms).flatMap WrittenForm.documented := by
  induction bs generalizing first with
  | nil => cases first <;> rfl
  | cons b bs ih =>
      rw [List.flatMap_cons, optionsOf_block, ih, List.flatMap_cons, List.flatMap_append]

/-! ### Flags and suffixes -/

theorem options_manual (bs : List Block) : (Page.ofText (manual bs)).options =
    ((bs.flatMap Block.forms).flatMap WrittenForm.documented).eraseDups := by
  rw [Page.ofText, lines_manual, optionsOf_blocks]

theorem flags_documented (fs : List WrittenForm) :
    (fs.flatMap WrittenForm.documented).map DocumentedOption.flag =
      fs.flatMap fun f => f.spelling.flags := by
  rw [List.map_flatMap]
  refine congrArg (List.flatMap · fs) (funext fun f => ?_)
  rw [WrittenForm.documented, List.map_map]
  exact List.map_id _

/-- Whether the form gives the flag a suffix. -/
def WrittenForm.explains (flag : Text) (f : WrittenForm) : Bool :=
  f.spelling.flags.contains flag && !f.suffix.isEmpty

/-- The options of a form that give the flag a suffix are one option, if there is one. -/
theorem WrittenForm.explains_iff {flag : Text} {f : WrittenForm} {o : DocumentedOption} :
    (o ∈ f.documented ∧ (o.flag == flag && !o.suffix.isEmpty) = true) ↔
      f.explains flag = true ∧ o = ⟨flag, f.suffix⟩ := by
  rw [documented, List.mem_map, explains]
  simp only [Bool.and_eq_true, beq_iff_eq, List.contains_iff_mem]
  constructor
  · rintro ⟨⟨g, hg, rfl⟩, rfl, hs⟩
    exact ⟨⟨hg, hs⟩, rfl⟩
  · rintro ⟨⟨hg, hs⟩, rfl⟩
    exact ⟨⟨flag, hg, rfl⟩, rfl, hs⟩

/-- The first option with a suffix comes from the first form with one. -/
theorem find?_documented (flag : Text) (fs : List WrittenForm) :
    ((fs.flatMap WrittenForm.documented).find? fun o => o.flag == flag && !o.suffix.isEmpty).map
        DocumentedOption.suffix =
      (fs.find? (WrittenForm.explains flag)).map WrittenForm.suffix := by
  induction fs with
  | nil => rfl
  | cons f fs ih =>
      rw [List.flatMap_cons, List.find?_append, List.find?_cons]
      cases ho : f.documented.find? fun o => o.flag == flag && !o.suffix.isEmpty with
      | some o =>
          obtain ⟨hflag, -⟩ := List.find?_eq_some_iff_append.mp ho
          obtain ⟨hexplains, rfl⟩ :=
            WrittenForm.explains_iff.mp ⟨List.mem_of_find?_eq_some ho, hflag⟩
          rw [hexplains]
          rfl
      | none =>
          have hexplains : f.explains flag = false := by
            refine Bool.eq_false_iff.mpr fun h => ?_
            obtain ⟨hmem, hflag⟩ := WrittenForm.explains_iff.mpr ⟨h, rfl⟩
            exact List.find?_eq_none.mp ho _ hmem hflag
          rw [hexplains, Option.none_or, ih]

/-- **A manual is mined for its forms**: its options are those that the forms document, their flags
the ones that the forms stand for, each once and in the order of the manual, and the suffix of a
flag is the first one that a form gives it.  On any page, only the first line and the lines after a
blank line or a heading are mined. -/
theorem ofText_recovers_forms (bs : List Block) :
    (Page.ofText (manual bs)).options =
        ((bs.flatMap Block.forms).flatMap WrittenForm.documented).eraseDups ∧
      (Page.ofText (manual bs)).flags =
        ((bs.flatMap Block.forms).flatMap fun f => f.spelling.flags).eraseDups ∧
      (∀ flag, (Page.ofText (manual bs)).suffix? flag =
        ((bs.flatMap Block.forms).find? (WrittenForm.explains flag)).map WrittenForm.suffix) ∧
      ∀ t o, o ∈ (Page.ofText t).options ↔ ∃ before line after,
        (unstrike t).lines = before ++ line :: after ∧ startsAfter true before = true ∧
          o ∈ optionsOfLine line := by
  refine ⟨options_manual bs, ?_, fun flag => ?_, fun t o => mem_options_ofText_iff⟩
  · rw [Page.flags, options_manual, eraseDups_map_eraseDups, flags_documented]
  · rw [Page.suffix?, options_manual, find?_eraseDups, find?_documented]

end GitShell.Help
