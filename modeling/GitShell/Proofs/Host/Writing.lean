import GitShell.Proofs.Host.Places

/-!
# Host — Writing

What making directories and writing to a file do to a tree of files.

* `FileTree.makes_makeDirectories`: nothing but directories comes of making directories.
* `Entry.writeLine_cases`: a line is written as a whole, or writing it fails and a part of it is left
  (`Entry.TakesPart`).
* `FileTree.exists_edits`: what is written is added to the file at the place of the path, which is made
  if it is not there, and nothing else changes (`FileTree.Edits`).
* `FileTree.IsWritable`: a file that can be written to; `isWritable_of_edits`: it stays so when it is
  written to.
-/

namespace GitShell

namespace FileTree

section
variable {t t' : FileTree} {here p : Place} {path : Text}

/-! ### Making directories -/

/-- A directory that could be made was not there, and nothing else changes. -/
theorem makeDirectory_eq_ok (h : t.makeDirectory here path = .ok t') :
    checkPath path = .ok () ∧ ∃ p, t.resolve here (Path.withoutSlashes path) = .ok p ∧
      t.find? p = none ∧ t' = t.put p .directory := by
  rw [makeDirectory] at h
  cases hc : checkPath path with
  | error e => rw [hc] at h; cases h
  | ok =>
      cases hr : t.resolve here (Path.withoutSlashes path) with
      | error e => rw [hc, hr] at h; cases h
      | ok p =>
          rw [hc, hr] at h
          simp only [bind, Except.bind] at h
          split at h
          · cases h
          · split at h
            · cases h
            · next hf _ =>
                cases h
                exact ⟨rfl, p, rfl, hf, rfl⟩

theorem grows_put_directory (hf : t.find? p = none) : t.Grows (t.put p .directory) := by
  intro q
  rw [find?_put t (ne_root_of_absent hf)]
  by_cases hq : q = p
  · subst hq
    exact .inr ⟨hf, if_pos rfl⟩
  · exact .inl (if_neg hq)

theorem makeDirectory_grows (h : t.makeDirectory here path = .ok t') :
    t.Grows t' ∧ t'.isDirectory here path = true := by
  obtain ⟨hc, p, hr, hf, rfl⟩ := makeDirectory_eq_ok h
  have hgrows := grows_put_directory hf
  have hp : (t.put p .directory).find? p = some .directory := by
    rw [find?_put t (ne_root_of_absent hf), if_pos rfl]
  refine ⟨hgrows, isDirectory_iff.mpr ⟨p, ?_, hp⟩⟩
  rw [← resolve_withoutSlashes_iff hp hc]
  exact hgrows.keepsDirectories.resolve hr

/-- What comes of making directories up to a path: only directories are added, and without an error
the path leads to one. -/
def Makes (here : Place) (path : Text) (t : FileTree) (r : Except FileError Unit × FileTree) :
    Prop :=
  t.Grows r.2 ∧ (r.1 = .ok () → path = [] ∨ r.2.isDirectory here path = true)

theorem makes_settle {r : Except FileError FileTree}
    (h : ∀ t', r = .ok t' → t.Grows t' ∧ t'.isDirectory here path = true) :
    Makes here path t (makeDirectories.settle here path t r) := by
  cases r with
  | ok t' =>
      obtain ⟨hgrows, hd⟩ := h t' rfl
      exact ⟨hgrows, fun _ => .inr hd⟩
  | error e =>
      rw [makeDirectories.settle]
      split
      · next hd => exact ⟨.refl t, fun _ => .inr hd⟩
      · exact ⟨.refl t, nofun⟩

/-- **Making directories** only adds directories, also where one of them cannot be made. -/
theorem makes_makeDirectories (t : FileTree) (here : Place) (path : Text) :
    Makes here path t (t.makeDirectories here path) := by
  fun_induction makeDirectories t here path with
  | case1 path hempty => exact ⟨.refl t, fun _ => .inl (List.isEmpty_iff.mp hempty)⟩
  | case2 path _ t' hmade =>
      obtain ⟨hgrows, hd⟩ := makeDirectory_grows hmade
      exact ⟨hgrows, fun _ => .inr hd⟩
  | case3 => exact ⟨.refl t, nofun⟩
  | case4 path _ _ parent _ t₁ hparent ih =>
      rw [hparent] at ih
      obtain ⟨hgrows, hd⟩ := makes_settle fun t' (h : t₁.makeDirectory here path = .ok t') =>
        makeDirectory_grows h
      exact ⟨ih.1.trans hgrows, hd⟩
  | case5 path _ _ parent _ hfailed ih =>
      exact ⟨ih.1, fun hok => (hfailed _ (Prod.ext hok rfl)).elim⟩
  | case6 path _ e => exact makes_settle nofun

/-- A directory that is there stays as it is. -/
theorem makeDirectories_of_isDirectory (h : t.isDirectory here path = true) :
    t.makeDirectories here path = (.ok (), t) := by
  obtain ⟨p, hr, hp⟩ := isDirectory_iff.mp h
  have hc := checkPath_of_resolve hr
  have hmade : t.makeDirectory here path = .error .alreadyExists := by
    have hr' := (resolve_withoutSlashes_iff hp hc).mpr hr
    rw [makeDirectory, hc, hr']
    simp only [bind, Except.bind, hp]
    rfl
  have hempty : path.isEmpty = false := by
    cases path with
    | nil => cases hc
    | cons => rfl
  rw [makeDirectories, hempty, if_neg Bool.false_ne_true, hmade]
  simp only [makeDirectories.settle, h, if_true]

end

end FileTree

/-! ### Writing a line -/

/-- A part of a line with its end: some of its first characters, or bytes that end within one. -/
inductive Text.IsPart (line : Text) : Option Text → Prop where
  | piece {piece rest : Text} (h : Text.line line = piece ++ rest) (hr : rest ≠ []) :
      IsPart line (some piece)
  | within (h : ∃ c ∈ line, 1 < c.utf8Size) : IsPart line none

/-- The first bytes of a line are a part of it. -/
theorem Text.isPart_of_lt {line : Text} {n : Nat} (hn : n < (Text.line line).byteLength) :
    line.IsPart (((Text.line line).splitAtByte n).map (·.1)) := by
  cases hsplit : (Text.line line).splitAtByte n with
  | some parts =>
      obtain ⟨hline, hlength⟩ := eq_of_splitAtByte hsplit
      refine .piece hline fun hr => ?_
      rw [hline, hr, List.append_nil, hlength] at hn
      exact Nat.lt_irrefl _ hn
  | none =>
      obtain ⟨c, hc, hwide⟩ := exists_wide_of_splitAtByte hn hsplit
      refine .within ⟨c, (List.mem_append.mp hc).resolve_right fun hend => ?_, hwide⟩
      -- the line end is one byte
      rw [List.mem_singleton.mp hend] at hwide
      exact absurd hwide (by decide)

namespace Entry

/-- A file after writing a line to it failed: a part of the line is at its end, if it is a text. -/
inductive TakesPart (line : Text) : Entry → Entry → Prop where
  | part (e : Entry) {piece : Option Text} (h : line.IsPart piece) :
      TakesPart line e (e.addPart piece)
  | setting (greatest number number' : Nat) :
      TakesPart line (.setting greatest number) (.setting greatest number')

section
variable {e e' : Entry} {line : Text} {w : Write} {cause : FileError}

theorem write_line_cases (e : Entry) (line : Text) (w : Write) :
    e.write (Text.line line) w = (.ok (), e.add (Text.line line)) ∨
      ∃ cause e', e.write (Text.line line) w = (.error cause, e') ∧ e.TakesPart line e' := by
  cases w with
  | whole => exact .inl rfl
  | cut bytes cause =>
      rw [write]
      split
      next hlt => exact .inr ⟨_, _, rfl, .part e (Text.isPart_of_lt hlt)⟩
      next => exact .inl rfl

/-- **A line is written** as a whole, or a part of it is left. -/
theorem writeLine_cases (he : e ≠ .directory) (line : Text) (w : Write) :
    e.writeLine line w = (.ok (), e.add (Text.line line)) ∨
      ∃ cause e', e.writeLine line w = (.error cause, e') ∧ e.TakesPart line e' := by
  cases e with
  | file | garbled => exact write_line_cases _ line w
  | setting greatest number => exact .inr ⟨_, _, rfl, .setting ..⟩
  | directory => exact absurd rfl he
  | sink => exact .inl rfl

theorem eq_of_writeLine (he : e ≠ .directory) (h : e.writeLine line w = (.ok (), e')) :
    e' = e.add (Text.line line) := by
  rcases writeLine_cases he line w with hw | ⟨_, _, hw, -⟩
  · exact (Prod.mk.inj (h.symm.trans hw)).2
  · cases h.symm.trans hw

theorem takesPart_of_writeLine (he : e ≠ .directory) (h : e.writeLine line w = (.error cause, e')) :
    e.TakesPart line e' := by
  rcases writeLine_cases he line w with hw | ⟨_, _, hw, ht⟩
  · cases h.symm.trans hw
  · cases h.symm.trans hw
    exact ht

/-- If the system takes nothing of the line, a file of text stays as it is. -/
theorem writeLine_file_cut_zero (content line : Text) (executable : Bool) (cause : FileError) :
    (Entry.file content executable).writeLine line (.cut 0 cause) =
      (.error cause, .file content executable) := by
  have hpos : 0 < (Text.line line).byteLength := by
    rw [Text.line, Text.byteLength_append]
    exact Nat.lt_add_left _ (by decide)
  rw [writeLine, write, if_pos hpos, Text.splitAtByte, Option.map_some, addPart, add,
    List.append_nil]

end

end Entry

namespace FileTree

section
variable {t t₁ t' : FileTree} {here p : Place} {path line : Text} {e e' : Entry}

/-! ### Writing to a file -/

/-- The tree after the file at a place was opened. -/
inductive Opens (t : FileTree) (p : Place) : Entry → FileTree → Prop where
  | there {e : Entry} (h : t.find? p = some e) (he : e ≠ .directory) : Opens t p e t
  | made (h : t.find? p = none) (hn : isNamedTooLong p = false) :
      Opens t p (.file [] false) (t.put p (.file [] false))

theorem openFile_eq_ok_iff : t.openFile here path = .ok (p, t') ↔
    path.getLast? ≠ some '/' ∧ t.resolve here path = .ok p ∧ ∃ e, t.Opens p e t' := by
  constructor
  · intro h
    simp only [openFile, bind, Except.bind] at h
    split at h
    · cases h
    next hc =>
      split at h
      · cases h
      next q hr =>
        split at h
        · cases h
        next hl =>
          rw [Path.withoutSlashes_of_getLast hl] at hr
          split at h
          · cases h
          · next e he hf =>
              cases h
              exact ⟨hl, hr, e, .there hf he⟩
          · next hf =>
              split at h
              · cases h
              · next hn =>
                  cases h
                  exact ⟨hl, hr, _, .made hf (by simpa using hn)⟩
  · rintro ⟨hl, hr, e, ho⟩
    simp only [openFile, bind, Except.bind, checkPath_of_resolve hr,
      Path.withoutSlashes_of_getLast hl, hr, if_neg hl]
    cases ho with
    | there h he =>
        simp only [h]
        cases e <;> first | exact absurd rfl he | rfl
    | made h hn => simp only [h, hn]; rfl

/-- The file at a place, empty if it was not there, becomes another one. -/
structure Edits (t : FileTree) (p : Place) (e e' : Entry) (t' : FileTree) : Prop where
  before : t.find? p = some e ∨ t.find? p = none ∧ e = .file [] false
  isFile : e ≠ .directory
  after (q : Place) : t'.find? q = if q = p then some e' else t.find? q

theorem Opens.edits (h : t.Opens p e t₁) (e' : Entry) : t.Edits p e e' (t₁.put p e') := by
  cases h with
  | there h he =>
      refine ⟨.inl h, he, find?_put t (ne_root_of_find? (t := t) ?_) e'⟩
      rw [h]
      exact fun hd => he (Option.some.inj hd)
  | made h hn =>
      have hp := ne_root_of_absent h
      refine ⟨.inr ⟨h, rfl⟩, nofun, fun q => ?_⟩
      rw [find?_put _ hp, find?_put t hp]
      split <;> rfl

theorem Opens.find?_eq (h : t.Opens p e t₁) : t₁.find? p = some e := by
  cases h with
  | there h => exact h
  | made h => rw [find?_put t (ne_root_of_absent h), if_pos rfl]

/-- **Writing a line** to a file that was opened changes this file only. -/
theorem exists_edits {r : Except FileError Unit} {w : Write}
    (ho : t.openFile here path = .ok (p, t₁)) (hw : t₁.writeLine p line w = (r, t')) :
    t.resolve here path = .ok (placeOf here path) ∧
      ∃ e e', t.Edits (placeOf here path) e e' t' ∧ e.writeLine line w = (r, e') := by
  obtain ⟨-, hr, e, ho⟩ := openFile_eq_ok_iff.mp ho
  obtain rfl := eq_placeOf_of_resolve hr
  rw [writeLine, ho.find?_eq] at hw
  obtain ⟨hwrite, rfl⟩ := Prod.mk.inj hw
  exact ⟨hr, e, _, ho.edits _, Prod.ext hwrite rfl⟩

/-- Nothing stands at a place but a file of text, or a directory. -/
def IsPlainAt (t : FileTree) (p : Place) : Prop :=
  ∀ e, t.find? p = some e → e = .directory ∨ ∃ content executable, e = .file content executable

theorem isPlainAt_of_none (hn : t.find? p = none) : t.IsPlainAt p := fun e he => by
  rw [hn] at he
  cases he

theorem Grows.isPlainAt_iff (h : t.Grows t') (p : Place) : t'.IsPlainAt p ↔ t.IsPlainAt p := by
  rcases h p with hp | ⟨hn, hd⟩
  · rw [IsPlainAt, IsPlainAt, hp]
  · simp [IsPlainAt, hn, hd]

namespace Edits

theorem keepsDirectories (h : t.Edits p e e' t') : t.KeepsDirectories t' := by
  intro q hd
  rw [h.after]
  split
  next hq =>
    rcases h.before with hp | ⟨hn, -⟩
    · rw [hq, hp] at hd
      exact absurd (Option.some.inj hd) h.isFile
    · rw [hq, hn] at hd
      cases hd
  next => exact hd

theorem find?_eq (h : t.Edits p e e' t') : t'.find? p = some e' := by
  rw [h.after, if_pos rfl]

/-- Where nothing stands but text, a text is edited. -/
theorem exists_file (h : t.Edits p e e' t') (hp : t.IsPlainAt p) :
    ∃ executable, e = .file (t.textAt p) executable := by
  rcases h.before with hf | ⟨hn, rfl⟩
  · rcases hp e hf with rfl | ⟨content, x, rfl⟩
    · exact absurd rfl h.isFile
    · exact ⟨x, by rw [textAt, hf]⟩
  · exact ⟨false, by rw [textAt, hn]⟩

/-- The file is a text again. -/
theorem plain {content : Text} {executable : Bool} (h : t.Edits p e (.file content executable) t') :
    t'.textAt p = content ∧ t'.IsPlainAt p := by
  refine ⟨by rw [textAt, h.find?_eq], fun e he => .inr ?_⟩
  rw [h.find?_eq] at he
  cases he
  exact ⟨_, _, rfl⟩

end Edits

/-- **A line that is written** to a text, as far as it is taken. -/
theorem exists_edits_text {r : Except FileError Unit} {w : Write}
    (hp : t.IsPlainAt (placeOf here path)) (ho : t.openFile here path = .ok (p, t₁))
    (hw : t₁.writeLine p line w = (r, t')) :
    ∃ x e', t.Edits (placeOf here path) (.file (t.textAt (placeOf here path)) x) e' t' ∧
      (Entry.file (t.textAt (placeOf here path)) x).writeLine line w = (r, e') := by
  obtain ⟨-, e, e', he, hwrite⟩ := exists_edits ho hw
  obtain ⟨x, rfl⟩ := he.exists_file hp
  exact ⟨x, e', he, hwrite⟩

/-! ### Paths that can be written to -/

/-- Makes the directories that the file at a path is in. -/
def makeParents (t : FileTree) (here : Place) (path : Text) : Except FileError Unit × FileTree :=
  match Path.parent? path with
  | none => (.ok (), t)
  | some d => t.makeDirectories here d

theorem makeParents_grows (t : FileTree) (here : Place) (path : Text) :
    t.Grows (t.makeParents here path).2 := by
  rw [makeParents]
  split
  · exact .refl t
  · exact (makes_makeDirectories t here _).1

/-- There is a file of text at the path that can be opened, or it and the directories that it is in
can be made. -/
structure IsWritable (t : FileTree) (here : Place) (path : Text) : Prop where
  plain : t.IsPlainAt (placeOf here path)
  parents : (t.makeParents here path).1 = .ok ()
  file : ∃ r, (t.makeParents here path).2.openFile here path = .ok r

/-- **A file that was written to** can be opened again, without making directories. -/
theorem isWritable_of_edits (hm : (t.makeParents here path).1 = .ok ())
    (ho : (t.makeParents here path).2.openFile here path = .ok (p, t₁))
    (he : (t.makeParents here path).2.Edits (placeOf here path) e e' t') (hd : e' ≠ .directory)
    (hp : t'.IsPlainAt (placeOf here path)) : t'.IsWritable here path := by
  obtain ⟨hl, hr, -⟩ := openFile_eq_ok_iff.mp ho
  obtain rfl := eq_placeOf_of_resolve hr
  -- the directories that were made are still there
  have hparents : t'.makeParents here path = (.ok (), t') := by
    unfold makeParents at hm he ⊢
    split
    · rfl
    · next d hd =>
        rw [hd] at hm he
        rcases (makes_makeDirectories t here d).2 hm with rfl | hdir
        · rw [makeDirectories]
          rfl
        · obtain ⟨q, hq, hf⟩ := isDirectory_iff.mp hdir
          exact makeDirectories_of_isDirectory
            (isDirectory_iff.mpr ⟨q, he.keepsDirectories.resolve hq, he.keepsDirectories _ hf⟩)
  refine ⟨hp, by rw [hparents], ?_⟩
  rw [hparents]
  exact ⟨_, openFile_eq_ok_iff.mpr
    ⟨hl, he.keepsDirectories.resolve hr, e', .there he.find?_eq hd⟩⟩

end

end FileTree

end GitShell
