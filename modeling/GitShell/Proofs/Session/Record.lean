import GitShell.Proofs.Host.Writing
import GitShell.Proofs.Session.Names
import GitShell.Proofs.Text.Lines
import GitShell.Session.History
import Mathlib.Data.List.Chain

/-!
# Session — Record

What the history file holds after lines were added to it, by one session or by several.

* `HistoryFile.exists_adds`: adding a line makes the directories of the file and writes the line at
  its end, or fails; `HistoryFile.Adds.spoils`: what is left then.
* `HistoryFile.exists_holds`: as long as no part of a line is left, the file is the lines that were
  written, each with its line end, and what a session remembers is the last of them.
* `HistoryFile.isChain_lines_iff`: so no two lines in a row are equal exactly if no session starts
  with writing the line that the file ends in.
* `HistoryFile.repeated_after_reopen`: this can happen, as nothing is read when the file is opened.
-/

namespace GitShell

namespace Disk

variable {d : Disk}

/-- What is true of all that is to come is true of the next line, and of those after it. -/
theorem forall_next {P : Write → Prop} (h : ∀ w ∈ d.writes, P w) (hw : P .whole) :
    P d.nextWrite ∧ ∀ w ∈ d.afterWrite.writes, P w := by
  rw [nextWrite, afterWrite]
  cases hd : d.writes with
  | nil => exact ⟨hw, nofun⟩
  | cons w ws =>
      rw [hd] at h
      exact List.forall_mem_cons.mp h

/-- All lines are written whole. -/
def TakesAll (d : Disk) : Prop := ∀ w ∈ d.writes, w = .whole

theorem TakesAll.next (h : d.TakesAll) : d.nextWrite = .whole ∧ d.afterWrite.TakesAll :=
  forall_next h rfl

/-- No line is written in part. -/
def TakesAllOrNothing (d : Disk) : Prop := ∀ w ∈ d.writes, w = .whole ∨ ∃ cause, w = .cut 0 cause

theorem TakesAllOrNothing.next (h : d.TakesAllOrNothing) :
    (d.nextWrite = .whole ∨ ∃ cause, d.nextWrite = .cut 0 cause) ∧
      d.afterWrite.TakesAllOrNothing :=
  forall_next h (.inl rfl)

end Disk

namespace Host

/-- The text of the file at a path. -/
def textAt (h : Host) (path : Text) : Text := h.files.textAt (placeOf h.directory path)

/-- The file at a path can be written to, and takes all that is written. -/
structure IsWritable (h : Host) (path : Text) : Prop where
  file : h.files.IsWritable h.directory path
  disk : h.disk.TakesAll

/-- What is left where a line could not be added to a file: directories were made at most, and perhaps
a part of the line is at the end of the file. -/
inductive Spoils (h : Host) (path line : Text) : Host → Prop where
  | unwritten {t : FileTree} (hg : h.files.Grows t) : Spoils h path line { h with files := t }
  | written {t t' : FileTree} {d : Disk} {e e' : Entry} (hg : h.files.Grows t)
      (he : t.Edits (placeOf h.directory path) e e' t') (ht : e.TakesPart line e') :
      Spoils h path line { h with files := t', disk := d }

/-- Git and what is printed do not change files. -/
theorem After.textAt_eq {h h' : Host} {made : List (List Text)} (a : h.After made h')
    (path : Text) : h'.textAt path = h.textAt path := by
  obtain ⟨_, _, rfl⟩ := a
  rfl

theorem After.isWritable {h h' : Host} {made : List (List Text)} (a : h.After made h')
    {path : Text} (hw : h.IsWritable path) : h'.IsWritable path := by
  obtain ⟨_, _, rfl⟩ := a
  exact ⟨hw.file, hw.disk⟩

end Host

namespace HistoryFile

/-! ### Adding one line -/

/-- What adding a line gives.  The host changes in its files, and in what the disk will do. -/
inductive Adds (f : HistoryFile) (line : Text) (h : Host) :
    Except HistoryError HistoryFile → Host → Prop where
  | nowhere (hp : f.path = none) : Adds f line h (.ok f) h
  | again (hl : f.last = some line) : Adds f line h (.ok f) h
  | written {path : Text} {p : Place} {t t' : FileTree} (hp : f.path = some path)
      (hl : f.last ≠ some line) (hm : (h.files.makeParents h.directory path).1 = .ok ())
      (ho : (h.files.makeParents h.directory path).2.openFile h.directory path = .ok (p, t))
      (hw : t.writeLine p line h.disk.nextWrite = (.ok (), t')) :
      Adds f line h (.ok { f with last := some line })
        { h with files := t', disk := h.disk.afterWrite }
  /-- Directories may have been made, and nothing is written. -/
  | failed {e : HistoryError} {path : Text} (hp : f.path = some path) (hl : f.last ≠ some line)
      (hf : (h.files.makeParents h.directory path).1 = .ok () → ∀ r,
        (h.files.makeParents h.directory path).2.openFile h.directory path ≠ .ok r) :
      Adds f line h (.error e) { h with files := (h.files.makeParents h.directory path).2 }
  /-- The file is open, and the line does not get there as a whole. -/
  | cut {path : Text} {p : Place} {t t' : FileTree} {cause : FileError} (hp : f.path = some path)
      (hl : f.last ≠ some line) (hm : (h.files.makeParents h.directory path).1 = .ok ())
      (ho : (h.files.makeParents h.directory path).2.openFile h.directory path = .ok (p, t))
      (hw : t.writeLine p line h.disk.nextWrite = (.error cause, t')) :
      Adds f line h (.error (.cannotWrite path cause))
        { h with files := t', disk := h.disk.afterWrite }

theorem makeParent_run (path : Text) (h : Host) : (makeParent path).run h =
    ((h.files.makeParents h.directory path).1.mapError
        (.cannotMake ((Path.parent? path).getD [])),
      { h with files := (h.files.makeParents h.directory path).2 }) := by
  rw [FileTree.makeParents]
  cases hd : Path.parent? path with
  | none =>
      simp only [makeParent, hd]
      rfl
  | some d =>
      simp only [makeParent, hd]
      rw [run_bind]
      simp only [StateT.run_get, pure]
      cases (h.files.makeDirectories h.directory d).1 <;> rfl

theorem openFile_run (path : Text) (h : Host) : (openFile path).run h =
    match h.files.openFile h.directory path with
    | .ok (p, t) => (.ok p, { h with files := t })
    | .error cause => (.error (.cannotOpen path cause), h) := by
  rw [openFile, run_bind]
  simp only [StateT.run_get, pure]
  cases h.files.openFile h.directory path <;> rfl

theorem writeLine_run (path : Text) (p : Place) (line : Text) (h : Host) :
    (writeLine path p line).run h =
      ((h.files.writeLine p line h.disk.nextWrite).1.mapError (.cannotWrite path),
        { h with
          files := (h.files.writeLine p line h.disk.nextWrite).2
          disk := h.disk.afterWrite }) := by
  rw [writeLine, run_bind]
  simp only [StateT.run_get, pure]
  cases h.files.writeLine p line h.disk.nextWrite with
  | mk written files => cases written <;> rfl

/-- **Adding a line** is one of these. -/
theorem exists_adds (f : HistoryFile) (line : Text) (h : Host) :
    ∃ r h', (f.append line).run h = (r, h') ∧ Adds f line h r h' := by
  obtain ⟨p, last⟩ := f
  cases p with
  | none => exact ⟨_, _, rfl, .nowhere rfl⟩
  | some path =>
      by_cases hl : last = some line
      · refine ⟨_, h, ?_, .again hl⟩
        simp only [append, if_pos hl]
        rfl
      · simp only [append, if_neg hl]
        rw [run_bind, makeParent_run]
        cases hm : (h.files.makeParents h.directory path).1 with
        | error cause => exact ⟨_, _, rfl, .failed rfl hl fun hok => by rw [hm] at hok; cases hok⟩
        | ok =>
            simp only [Except.mapError]
            rw [run_bind, openFile_run]
            cases ho : (h.files.makeParents h.directory path).2.openFile h.directory path with
            | error cause =>
                exact ⟨_, _, rfl, .failed rfl hl fun _ r hr => by rw [ho] at hr; cases hr⟩
            | ok r =>
                obtain ⟨p, t⟩ := r
                dsimp only
                rw [run_bind, writeLine_run]
                cases hw : t.writeLine p line h.disk.nextWrite with
                | mk written t' =>
                    cases written with
                    | ok => exact ⟨_, _, rfl, .written rfl hl hm ho hw⟩
                    | error cause => exact ⟨_, _, rfl, .cut rfl hl hm ho hw⟩

section
variable {f f' : HistoryFile} {line path : Text} {h h' : Host}

/-- A file that can be written to takes the line, unless it has it already. -/
theorem Adds.of_isWritable {r : Except HistoryError HistoryFile} (ha : Adds f line h r h')
    (hp : f.path = some path) (hw : h.IsWritable path) :
    r = .ok { f with last := some line } ∧ h'.IsWritable path ∧
      h'.textAt path = h.textAt path ++ if f.last = some line then [] else Text.line line := by
  have hg := h.files.makeParents_grows h.directory path
  have hplain : (h.files.makeParents h.directory path).2.IsPlainAt (placeOf h.directory path) :=
    (hg.isPlainAt_iff _).mpr hw.file.plain
  cases ha with
  | nowhere hn => rw [hn] at hp; cases hp
  | again hl =>
      refine ⟨?_, hw, by simp [hl]⟩
      cases f
      cases hl
      rfl
  | written hp' hl hm ho hline =>
      cases hp.symm.trans hp'
      obtain ⟨x, e', he, hwrite⟩ := FileTree.exists_edits_text hplain ho hline
      obtain rfl := Entry.eq_of_writeLine he.isFile hwrite
      obtain ⟨htext, hplain'⟩ := he.plain
      refine ⟨rfl, ⟨FileTree.isWritable_of_edits hm ho he nofun hplain', hw.disk.next.2⟩, ?_⟩
      rw [hg.textAt_eq] at htext
      rw [Host.textAt, if_neg hl]
      exact htext
  | failed hp' hl hf =>
      cases hp.symm.trans hp'
      obtain ⟨r, hr⟩ := hw.file.file
      exact absurd hr (hf hw.file.parents r)
  | cut hp' hl hm ho hline =>
      cases hp.symm.trans hp'
      obtain ⟨x, e', he, hwrite⟩ := FileTree.exists_edits_text hplain ho hline
      rw [hw.disk.next.1] at hwrite
      cases hwrite

/-- **A line that cannot be added** makes directories at most, and a part of it may be left. -/
theorem Adds.spoils {e : HistoryError} (ha : Adds f line h (.error e) h') :
    ∃ path, f.path = some path ∧ h.Spoils path line h' := by
  cases ha with
  | failed hp => exact ⟨_, hp, .unwritten (h.files.makeParents_grows h.directory _)⟩
  | cut hp hl hm ho hline =>
      obtain ⟨-, e, e', he, hwrite⟩ := FileTree.exists_edits ho hline
      exact ⟨_, hp, .written (h.files.makeParents_grows h.directory _) he
        (Entry.takesPart_of_writeLine he.isFile hwrite)⟩

end

end HistoryFile

/-! ### Lines that come back -/

/-- A line without a line break, and without the part of one at its end. -/
def Text.IsUnbroken (line : Text) : Prop := '\n' ∉ line ∧ line.getLast? ≠ some '\r'

/-- Lines that are written come back. -/
theorem Text.lines_flatMap_line {ls : List Text} (h : ∀ l ∈ ls, l.IsUnbroken) :
    Text.lines (ls.flatMap Text.line) = ls := by
  have hsame : ls.map withoutReturn = ls :=
    (List.map_congr_left fun l hl => withoutReturn_of_getLast? (h l hl).2).trans ls.map_id
  rw [lines_flatMap_line_of_not_mem fun l hl => (h l hl).1, hsame]

namespace HistoryFile

/-! ### Several sessions -/

/-- What is done with a history file: a line is added, or the next session opens the file. -/
inductive Use where
  | append (line : Text)
  | reopen

/-- One use; a line that cannot be added changes nothing of what is remembered. -/
def use (f : HistoryFile) : Use → OnHost HistoryFile
  | .append line => do
    match ← f.append line with
    | .ok f => return f
    | .error _ => return f
  | .reopen => return .ofPath f.path

/-- One use after the other. -/
def uses (f : HistoryFile) (us : List Use) : OnHost HistoryFile := us.foldlM use f

theorem use_append_run (f : HistoryFile) (line : Text) (h : Host) :
    (f.use (.append line)).run h =
      (((f.append line).run h).1.toOption.getD f, ((f.append line).run h).2) := by
  rw [use, run_bind]
  cases ((f.append line).run h).1 <;> rfl

theorem uses_concat (f : HistoryFile) (us : List Use) (u : Use) (h : Host) :
    (f.uses (us ++ [u])).run h = (((f.uses us).run h).1.use u).run ((f.uses us).run h).2 := by
  rw [uses, List.foldlM_append]
  rfl

/-- The file has lines written to it, and the line that is remembered is the last one. -/
structure Holds (path : Text) (written : List Text) (f : HistoryFile) (h : Host) : Prop where
  path_eq : f.path = some path
  text_eq : h.textAt path = written.flatMap Text.line
  last : ∀ line ∈ f.last, written.getLast? = some line
  plain : h.files.IsPlainAt (placeOf h.directory path)
  disk : h.disk.TakesAllOrNothing

/-- A line is added that this session has not written, and that the file ends in. -/
def Repeats (path line : Text) (f : HistoryFile) (h : Host) : Prop :=
  f.last = none ∧ (h.textAt path).lines.getLast? = some line ∧
    ∃ f', ((f.append line).run h).1 = .ok f'

section
variable {path : Text} {written : List Text} {f f' : HistoryFile} {h h' : Host}

theorem Holds.adds {line : Text} {r : Except HistoryError HistoryFile} (hh : Holds path written f h)
    (ha : Adds f line h r h') :
    (∃ f', r = .ok f' ∧ Holds path written f' h' ∧ f.last = some line) ∨
      (∃ f', r = .ok f' ∧ Holds path (written ++ [line]) f' h' ∧ f.last ≠ some line) ∨
      (∃ e, r = .error e ∧ Holds path written f h') := by
  have hp := hh.path_eq
  have hg := h.files.makeParents_grows h.directory path
  have hplain : (h.files.makeParents h.directory path).2.IsPlainAt (placeOf h.directory path) :=
    (hg.isPlainAt_iff _).mpr hh.plain
  have htext : (h.files.makeParents h.directory path).2.textAt (placeOf h.directory path) =
      written.flatMap Text.line := by
    rw [hg.textAt_eq, ← Host.textAt, hh.text_eq]
  cases ha with
  | nowhere hn => rw [hn] at hp; cases hp
  | again hl => exact .inl ⟨f, rfl, hh, hl⟩
  | written hp' hl hm ho hline =>
      cases hp.symm.trans hp'
      obtain ⟨x, e', he, hwrite⟩ := FileTree.exists_edits_text hplain ho hline
      obtain rfl := Entry.eq_of_writeLine he.isFile hwrite
      obtain ⟨htext', hplain'⟩ := he.plain
      refine .inr (.inl ⟨_, rfl, ⟨hp, ?_, fun l hl => ?_, hplain', hh.disk.next.2⟩, hl⟩)
      · rw [Host.textAt, htext', htext]
        simp
      · cases hl
        exact List.getLast?_concat ..
  | failed hp' hl hf =>
      cases hp.symm.trans hp'
      exact .inr (.inr ⟨_, rfl, hp, htext, hh.last, hplain, hh.disk⟩)
  | cut hp' hl hm ho hline =>
      cases hp.symm.trans hp'
      obtain ⟨x, e', he, hwrite⟩ := FileTree.exists_edits_text hplain ho hline
      -- nothing of the line was taken, so the text is as it was
      obtain rfl : e' = .file _ x := by
        rcases hh.disk.next.1 with hnext | ⟨cause, hnext⟩
        · rw [hnext] at hwrite
          cases hwrite
        · rw [hnext, Entry.writeLine_file_cut_zero] at hwrite
          exact (Prod.mk.inj hwrite).2.symm
      obtain ⟨htext', hplain'⟩ := he.plain
      exact .inr (.inr ⟨_, rfl, hp, htext'.trans htext, hh.last, hplain', hh.disk.next.2⟩)

/-- **One use** adds at most one line, and the line repeats the last one exactly if it is the first
one that this session writes. -/
theorem Holds.exists_use (hh : Holds path written f h) (hw : ∀ l ∈ written, l.IsUnbroken)
    (u : Use) : ∃ written', Holds path written' ((f.use u).run h).1 ((f.use u).run h).2 ∧
      (∀ l ∈ written', l ∈ written ∨ u = .append l) ∧
      (written'.IsChain (· ≠ ·) ↔
        written.IsChain (· ≠ ·) ∧ ∀ line, u = .append line → ¬ Repeats path line f h) := by
  have hlines : (h.textAt path).lines = written := by
    rw [hh.text_eq, Text.lines_flatMap_line hw]
  cases u with
  | reopen =>
      exact ⟨written, ⟨hh.path_eq, hh.text_eq, nofun, hh.plain, hh.disk⟩, fun l hl => .inl hl,
        by simp⟩
  | append line =>
      obtain ⟨r, h', hrun, ha⟩ := exists_adds f line h
      have hrepeats : Repeats path line f h ↔
          f.last = none ∧ written.getLast? = some line ∧ ∃ f', r = .ok f' := by
        rw [Repeats, hlines, hrun]
      simp only [Use.append.injEq, forall_eq', hrepeats, use_append_run, hrun]
      rcases hh.adds ha with ⟨f', rfl, hh', hl⟩ | ⟨f', rfl, hh', hl⟩ | ⟨e, rfl, hh'⟩
      · exact ⟨written, hh', fun l hl => .inl hl, by simp [hl]⟩
      · refine ⟨written ++ [line], hh', fun l hl => ?_, ?_⟩
        · simpa [eq_comm] using hl
        · -- what this session wrote last is another line, and it is the last one
          have hother : (∀ x ∈ written.getLast?, x ≠ line) ↔
              ¬ (f.last = none ∧ written.getLast? = some line) := by
            cases hf : f.last with
            | none =>
                simp only [true_and]
                exact ⟨fun h hl => h line hl rfl, fun h x hx hl => h (hl ▸ hx)⟩
            | some l =>
                rw [hh.last l hf]
                rw [hf] at hl
                simpa using hl
          rw [List.isChain_append]
          simpa using fun _ => hother
      · exact ⟨written, hh', fun l hl => .inl hl, by simp⟩

/-- None of the uses that add a line repeats the last line of the file as it is then. -/
def NoneRepeats (path : Text) (us : List Use) (h : Host) : Prop :=
  ∀ before line after, us = before ++ .append line :: after →
    ¬ Repeats path line (((ofPath (some path)).uses before).run h).1
      (((ofPath (some path)).uses before).run h).2

theorem noneRepeats_concat (us : List Use) (u : Use) : NoneRepeats path (us ++ [u]) h ↔
    NoneRepeats path us h ∧ ∀ line, u = .append line →
      ¬ Repeats path line (((ofPath (some path)).uses us).run h).1
        (((ofPath (some path)).uses us).run h).2 := by
  constructor
  · intro hn
    refine ⟨fun before line after hus => hn before line (after ++ [u]) ?_, fun line hu => ?_⟩
    · rw [hus, List.append_assoc]
      rfl
    · exact hn us line [] (by rw [hu])
  · rintro ⟨hus, hu⟩ before line after h
    rcases List.eq_nil_or_concat' after with rfl | ⟨after, v, rfl⟩
    · obtain ⟨rfl, hv⟩ := List.append_inj' h rfl
      exact hu line (List.singleton_inj.mp hv)
    · rw [← List.cons_append, ← List.append_assoc] at h
      obtain ⟨rfl, -⟩ := List.append_inj' h rfl
      exact hus before line after rfl

/-- **All uses together**: the file holds what was written, line by line. -/
theorem exists_holds (hd : h.disk.TakesAllOrNothing)
    (hn : h.files.find? (placeOf h.directory path) = none) {us : List Use}
    (hu : ∀ line, .append line ∈ us → line.IsUnbroken) :
    ∃ written, Holds path written (((ofPath (some path)).uses us).run h).1
        (((ofPath (some path)).uses us).run h).2 ∧
      (∀ l ∈ written, .append l ∈ us) ∧
      (written.IsChain (· ≠ ·) ↔ NoneRepeats path us h) := by
  induction us using List.reverseRecOn with
  | nil =>
      have hrun : ((ofPath (some path)).uses []).run h = (ofPath (some path), h) := rfl
      rw [hrun]
      refine ⟨[], ⟨rfl, ?_, nofun, FileTree.isPlainAt_of_none hn, hd⟩, nofun, ?_⟩
      · simp [Host.textAt, FileTree.textAt, hn]
      · simp [NoneRepeats]
  | append_singleton us u ih =>
      obtain ⟨written, hh, hmem, hiff⟩ := ih fun line hl => hu line (List.mem_append_left _ hl)
      obtain ⟨written', hh', hmem', hiff'⟩ :=
        hh.exists_use (fun l hl => hu l (List.mem_append_left _ (hmem l hl))) u
      rw [uses_concat]
      refine ⟨written', hh', fun l hl => ?_, ?_⟩
      · rcases hmem' l hl with hl | rfl
        · exact List.mem_append_left _ (hmem l hl)
        · simp
      · rw [hiff', hiff, noneRepeats_concat]

/-- **No two lines of the file in a row are equal**, if no line is written in part, exactly if no
session starts with writing the line that the file ends in.  A line that a session wrote itself is not
written twice in a row. -/
theorem isChain_lines_iff (hd : h.disk.TakesAllOrNothing)
    (hn : h.files.find? (placeOf h.directory path) = none) {us : List Use}
    (hu : ∀ line, .append line ∈ us → line.IsUnbroken) :
    ((((ofPath (some path)).uses us).run h).2.textAt path).lines.IsChain (· ≠ ·) ↔
      NoneRepeats path us h := by
  obtain ⟨written, hh, hmem, hiff⟩ := exists_holds hd hn hu
  rw [hh.text_eq, Text.lines_flatMap_line fun l hl => hu l (hmem l hl), hiff]

end

/-- A host without files. -/
def noFiles : Host where
  git := fun _ _ => ⟨[], [], .exited 0⟩
  files := ⟨[]⟩
  workingDirectory := ⟨[], "/".toList⟩
  environment := []
  calls := []
  stdout := []
  stderr := []

/-- A host whose disk is full for the second line that is written. -/
def fullOnce : Host := { noFiles with disk := ⟨[.whole, .cut 0 .noSpace]⟩ }

/-- The second session starts with another line than the one the file ends in, at the second
attempt. -/
theorem isChain_lines_iff_two_sessions :
    let us : List Use := [.append "log".toList, .append "log".toList, .reopen,
      .append "diff".toList, .append "diff".toList, .append "log".toList]
    fullOnce.disk.TakesAllOrNothing ∧
      fullOnce.files.find? (placeOf fullOnce.directory "d/h".toList) = none ∧
      (∀ line, .append line ∈ us → line.IsUnbroken) ∧
      (((ofPath (some "d/h".toList)).uses us).run fullOnce).2.textAt "d/h".toList =
        "log\ndiff\nlog\n".toList ∧ NoneRepeats "d/h".toList us fullOnce := by
  intro us
  have hd : fullOnce.disk.TakesAllOrNothing := by
    intro w hw
    rcases List.mem_pair.mp hw with rfl | rfl
    · exact .inl rfl
    · exact .inr ⟨_, rfl⟩
  have hn : fullOnce.files.find? (placeOf fullOnce.directory "d/h".toList) = none := by
    decide +kernel
  have hu : ∀ line, .append line ∈ us → line.IsUnbroken := by
    intro line hl
    have hline : line = "log".toList ∨ line = "diff".toList := by
      simp only [us, List.mem_cons, Use.append.injEq, reduceCtorEq, List.not_mem_nil] at hl
      tauto
    rcases hline with rfl | rfl <;> exact ⟨by decide, by decide⟩
  have htext : (((ofPath (some "d/h".toList)).uses us).run fullOnce).2.textAt "d/h".toList =
      "log\ndiff\nlog\n".toList := by decide +kernel
  exact ⟨hd, hn, hu, htext, (isChain_lines_iff hd hn hu).mp (by rw [htext]; decide)⟩

/-- **A line comes twice in a row** if a session starts with the line that the one before it ended
with: the file is open again, and nothing is remembered. -/
theorem repeated_after_reopen :
    let us : List Use := [.append "log".toList, .reopen, .append "log".toList]
    noFiles.files.find? (placeOf noFiles.directory "h".toList) = none ∧
      (((ofPath (some "h".toList)).uses us).run noFiles).2.textAt "h".toList =
        "log\nlog\n".toList ∧
      ¬ ((((ofPath (some "h".toList)).uses us).run noFiles).2.textAt "h".toList).lines.IsChain
        (· ≠ ·) := by
  decide +kernel

end HistoryFile

end GitShell
