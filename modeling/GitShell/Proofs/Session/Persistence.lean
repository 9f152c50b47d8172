import GitShell.Proofs.Session.Record

/-!
# Session — Persistence

What was written to the history file comes back when it is loaded: the lines, and the parts of lines
that were left where writing failed.  Between the uses of the file other things may happen to the
host, as long as they leave the file alone; so a line that could not be added may be added later.

* `Kept`: what the file at a path is, and `FileTree.Edits.keeps`: what it is after an addition.
* `HistoryFile.Adds.changes`: what adding a line does to the file, also if it fails.
* `HistoryFile.Course`: what happens to a history file, one thing after the other;
  `HistoryFile.keptAfter`: what the file is then, and `HistoryFile.linesWritten`: the lines that were
  written.
* `HistoryFile.load_returns_what_was_written`: loading the file gives back what it is after its course;
  if no line was written in part, these are the lines that were written, in order.
* `HistoryFile.part_of_line_is_loaded`: a part of a line that is left is loaded as well.
-/

namespace GitShell

/-! ### What a file keeps -/

/-- What the file at a path is. -/
inductive Kept where
  | absent
  | text (content : Text)
  /-- Its bytes are no text. -/
  | garbled
deriving DecidableEq

/-- The file with a part of a text at its end.  It is made if it is not there. -/
def Kept.addPart : Option Text → Kept → Kept
  | none, _ => .garbled
  | some piece, .absent => .text piece
  | some piece, .text content => .text (content ++ piece)
  | some _, .garbled => .garbled

/-- The file with a line at its end. -/
def Kept.addLine (k : Kept) (line : Text) : Kept := k.addPart (some (Text.line line))

namespace FileTree

/-- The file at a path is this; where no file is, there may be a directory. -/
def Keeps (t : FileTree) (here : Place) (path : Text) : Kept → Prop
  | .absent => ∀ e, t.find? (placeOf here path) = some e → e = .directory
  | .text content => ∃ p x, t.resolve here path = .ok p ∧ t.find? p = some (.file content x)
  | .garbled => ∃ p x, t.resolve here path = .ok p ∧ t.find? p = some (.garbled x)

section
variable {t t' : FileTree} {here p : Place} {path : Text} {e : Entry} {k : Kept}

theorem keeps_absent (hn : t.find? (placeOf here path) = none) : t.Keeps here path .absent :=
  fun e he => by
    rw [hn] at he
    cases he

/-- Where the path leads to none there is no file. -/
theorem Keeps.eq_absent (hk : t.Keeps here path k) {cause : FileError}
    (hr : t.resolve here path = .error cause) : k = .absent := by
  cases k with
  | absent => rfl
  | text | garbled =>
      obtain ⟨p, x, hp, -⟩ := hk
      cases hr.symm.trans hp

/-- Directories that are made leave a file as it is. -/
theorem Grows.keeps (h : t.Grows t') (hk : t.Keeps here path k) : t'.Keeps here path k := by
  have hsame {q : Place} {e : Entry} (he : t.find? q = some e) : t'.find? q = some e := by
    rcases h q with hq | ⟨hn, -⟩
    · rw [hq, he]
    · rw [hn] at he
      cases he
  cases k with
  | absent =>
      intro e he
      rcases h (placeOf here path) with hq | ⟨-, hd⟩
      · exact hk e (hq ▸ he)
      · exact Option.some.inj (he.symm.trans hd)
  | text | garbled =>
      obtain ⟨p, x, hr, hf⟩ := hk
      exact ⟨p, x, h.keepsDirectories.resolve hr, hsame hf⟩

/-- **A file that is edited** has at its end what was added. -/
theorem Edits.keeps {piece : Option Text} (h : t.Edits p e (e.addPart piece) t')
    (hr : t.resolve here path = .ok p) (hk : t.Keeps here path k) :
    t'.Keeps here path (k.addPart piece) := by
  have hr' := h.keepsDirectories.resolve hr
  have hf' := h.find?_eq
  cases k with
  | absent =>
      obtain rfl := eq_placeOf_of_resolve hr
      rcases h.before with hf | ⟨-, rfl⟩
      · exact absurd (hk e hf) h.isFile
      · cases piece <;> exact ⟨_, _, hr', hf'⟩
  | text | garbled =>
      obtain ⟨q, x, hq, hf⟩ := hk
      cases hq.symm.trans hr
      rcases h.before with hbefore | ⟨hn, -⟩
      · cases hf.symm.trans hbefore
        cases piece <;> exact ⟨_, _, hr', hf'⟩
      · cases hf.symm.trans hn

/-- Something else than a file whose bytes the shell can see is kept as nothing. -/
theorem Edits.not_keeps {e' : Entry} {greatest number : Nat}
    (h : t.Edits p (.setting greatest number) e' t') (hr : t.resolve here path = .ok p) :
    ¬ t.Keeps here path k := by
  intro hk
  have hbefore : t.find? p = some (.setting greatest number) :=
    h.before.resolve_right fun hn => by cases hn.2
  cases k with
  | absent =>
      obtain rfl := eq_placeOf_of_resolve hr
      cases hk _ hbefore
  | text | garbled =>
      obtain ⟨q, x, hq, hf⟩ := hk
      cases hq.symm.trans hr
      cases hf.symm.trans hbefore

theorem read_eq (hr : t.resolve here path = .ok p) (hf : t.find? p = some e) :
    t.read here path = e.read := by
  rw [read, at?, hr]
  simp only [bind, Except.bind, hf, pure, Except.pure]

/-- Where no file is, nothing is read. -/
theorem exists_read_error (hk : t.Keeps here path .absent) :
    ∃ cause, t.read here path = .error cause := by
  cases hr : t.resolve here path with
  | error cause => exact ⟨cause, by rw [read, at?, hr]; rfl⟩
  | ok p =>
      obtain rfl := eq_placeOf_of_resolve hr
      cases hf : t.find? (placeOf here path) with
      | none =>
          refine ⟨absent (placeOf here path), ?_⟩
          rw [read, at?, hr]
          simp only [bind, Except.bind, hf, throw, throwThe, MonadExceptOf.throw]
      | some e =>
          obtain rfl := hk e hf
          exact ⟨_, read_eq hr hf⟩

end

end FileTree

namespace Host

/-- The file at a path is this. -/
def Keeps (h : Host) (path : Text) (k : Kept) : Prop := h.files.Keeps h.directory path k

/-- From the first host to the second the file at a path becomes another, by what it was. -/
def Changes (h : Host) (path : Text) (becomes : Kept → Kept) (h' : Host) : Prop :=
  ∀ k, h.Keeps path k → h'.Keeps path (becomes k)

/-- From the first host to the second the file at a path stays as it is. -/
def LeavesAlone (h : Host) (path : Text) (h' : Host) : Prop := h.Changes path id h'

theorem changes_of_resolve_error {h h' : Host} {path : Text} {becomes : Kept → Kept}
    (cause : FileError) (hr : h.files.resolve h.directory path = .error cause)
    (hk : h'.Keeps path (becomes .absent)) : h.Changes path becomes h' := fun k hkeeps => by
  obtain rfl := hkeeps.eq_absent hr
  exact hk

end Host

namespace History

variable {h : Host} {path content : Text}

theorem load_text (hk : h.Keeps path (.text content)) (s : History) :
    s.load path h = (.ok (), ⟨content.lines.reverse⟩) := by
  obtain ⟨p, x, hr, hf⟩ := hk
  rw [load, FileTree.read_eq hr hf]
  rfl

/-- What is no text is not loaded. -/
theorem exists_load_error {k : Kept} (hk : h.Keeps path k) (hn : ∀ content, k ≠ .text content)
    (s : History) : ∃ e, s.load path h = (.error e, s) := by
  have hread : ∃ cause, h.files.read h.directory path = .error cause := by
    cases k with
    | absent => exact FileTree.exists_read_error hk
    | text content => exact absurd rfl (hn content)
    | garbled =>
        obtain ⟨p, x, hr, hf⟩ := hk
        exact ⟨_, FileTree.read_eq hr hf⟩
  obtain ⟨cause, hread⟩ := hread
  exact ⟨_, by rw [load, hread]⟩

end History

namespace HistoryFile

/-! ### What adding a line does to the file -/

section
variable {path line : Text} {f f' : HistoryFile} {h h' : Host}

/-- **What adding a line does** to the file: it takes the line, unless the session wrote it last; if it
fails, it leaves the file alone, or a part of the line is left. -/
theorem Adds.changes {r : Except HistoryError HistoryFile} (ha : Adds f line h r h')
    (hp : f.path = some path) :
    (r = .ok { f with last := some line } ∧ h.Changes path
      (if f.last = some line then id else (Kept.addLine · line)) h') ∨
    f.last ≠ some line ∧ ∃ e, r = .error e ∧ (h.LeavesAlone path h' ∨
      (∃ cause, e = .cannotWrite path cause) ∧
        ∃ piece, line.IsPart piece ∧ h.Changes path (Kept.addPart piece) h') := by
  have hg := h.files.makeParents_grows h.directory path
  cases ha with
  | nowhere hn => rw [hn] at hp; cases hp
  | again hl =>
      refine .inl ⟨?_, by rw [if_pos hl]; exact fun k hk => hk⟩
      cases f
      cases hl
      rfl
  | written hp' hl hm ho hline =>
      cases hp.symm.trans hp'
      obtain ⟨hr, e, e', he, hwrite⟩ := FileTree.exists_edits ho hline
      obtain rfl : e' = e.addPart (some (Text.line line)) := Entry.eq_of_writeLine he.isFile hwrite
      refine .inl ⟨rfl, ?_⟩
      rw [if_neg hl]
      exact fun k hk => he.keeps hr (hg.keeps hk)
  | failed hp' hl =>
      cases hp.symm.trans hp'
      exact .inr ⟨hl, _, rfl, .inl fun k hk => hg.keeps hk⟩
  | cut hp' hl hm ho hline =>
      cases hp.symm.trans hp'
      obtain ⟨hr, e, e', he, hwrite⟩ := FileTree.exists_edits ho hline
      refine .inr ⟨hl, _, rfl, ?_⟩
      cases Entry.takesPart_of_writeLine he.isFile hwrite with
      | part _ hpart =>
          exact .inr ⟨⟨_, rfl⟩, _, hpart, fun k hk => he.keeps hr (hg.keeps hk)⟩
      | setting => exact .inl fun k hk => absurd (hg.keeps hk) (he.not_keeps hr)

/-- **A line that cannot be added now can be added later**, once the file can be written to. -/
theorem exists_append_later (hl : f.last ≠ some line) (hp : f.path = some path) {later : Host}
    (hw : later.IsWritable path) :
    ∃ h'', (f.append line).run later = (.ok { f with last := some line }, h'') ∧
      h''.textAt path = later.textAt path ++ Text.line line := by
  obtain ⟨r, h'', hlater, ha⟩ := exists_adds f line later
  obtain ⟨rfl, -, htext⟩ := ha.of_isWritable hp hw
  exact ⟨h'', hlater, by rw [htext, if_neg hl]⟩

end

/-! ### The course of a file -/

/-- What happens to a history file. -/
inductive Happening where
  /-- A line is added, or it was the last one. -/
  | added (line : Text)
  /-- A line cannot be added, and nothing of it is written. -/
  | failed (line : Text)
  /-- A line cannot be added, and a part of it is written. -/
  | cut (line : Text) (piece : Option Text)
  /-- The next session opens the file. -/
  | reopened
  /-- Something that is no use of the file. -/
  | elsewhere

/-- The use of the file, if it is one. -/
def Happening.use? : Happening → Option Use
  | .added line | .failed line | .cut line _ => some (.append line)
  | .reopened => some .reopen
  | .elsewhere => none

/-- A line is written in part. -/
def Happening.IsCut : Happening → Prop
  | .cut .. => True
  | _ => False

/-- The lines that are written.  A line is written unless it is the one that the session wrote last,
`own`. -/
def linesWritten (own : Option Text) : List Happening → List Text
  | [] => []
  | .added line :: es =>
    if own = some line then linesWritten own es else line :: linesWritten (some line) es
  | .failed _ :: es | .cut .. :: es | .elsewhere :: es => linesWritten own es
  | .reopened :: es => linesWritten none es

/-- What the file is after what happens to it. -/
def keptAfter (own : Option Text) (k : Kept) : List Happening → Kept
  | [] => k
  | .added line :: es =>
    if own = some line then keptAfter own k es
    else keptAfter (some line) (k.addLine line) es
  | .cut _ piece :: es => keptAfter own (k.addPart piece) es
  | .failed _ :: es | .elsewhere :: es => keptAfter own k es
  | .reopened :: es => keptAfter none k es

/-- What happens to a file at a path leads from one state of the file and the host to the next. -/
inductive Happens (path : Text) : Happening → HistoryFile × Host → HistoryFile × Host → Prop where
  | added {f f' : HistoryFile} {h h' : Host} {line : Text}
      (hrun : (f.append line).run h = (.ok f', h')) : Happens path (.added line) (f, h) (f', h')
  | failed {f : HistoryFile} {h h' : Host} {line : Text} {e : HistoryError}
      (hrun : (f.append line).run h = (.error e, h')) (hl : h.LeavesAlone path h') :
      Happens path (.failed line) (f, h) (f, h')
  | cut {f : HistoryFile} {h h' : Host} {line : Text} {piece : Option Text} {e : HistoryError}
      (hrun : (f.append line).run h = (.error e, h')) (hpart : line.IsPart piece)
      (hc : h.Changes path (Kept.addPart piece) h') :
      Happens path (.cut line piece) (f, h) (f, h')
  | reopened (f : HistoryFile) (h : Host) : Happens path .reopened (f, h) (.ofPath f.path, h)
  | elsewhere (f : HistoryFile) {h h' : Host} (hl : h.LeavesAlone path h') :
      Happens path .elsewhere (f, h) (f, h')

/-- One thing after the other. -/
inductive Course (path : Text) :
    List Happening → HistoryFile × Host → HistoryFile × Host → Prop where
  | done (s : HistoryFile × Host) : Course path [] s s
  | more {e : Happening} {es : List Happening} {s s₁ s' : HistoryFile × Host}
      (he : Happens path e s s₁) (hes : Course path es s₁ s') : Course path (e :: es) s s'

section
variable {path line : Text} {own : Option Text} {es : List Happening}
  {f f' : HistoryFile} {h h' : Host} {e : HistoryError}

theorem mem_linesWritten (hl : line ∈ linesWritten own es) : .added line ∈ es := by
  induction es generalizing own with
  | nil => cases hl
  | cons e es ih =>
      cases e with
      | added line' =>
          rw [linesWritten] at hl
          split at hl
          · exact .tail _ (ih hl)
          · rcases List.mem_cons.mp hl with rfl | hl
            · exact .head _
            · exact .tail _ (ih hl)
      | failed | cut | reopened | elsewhere => exact .tail _ (ih hl)

/-- The file after lines were added to a text. -/
theorem foldl_addLine_text (content : Text) (lines : List Text) :
    lines.foldl Kept.addLine (.text content) =
      .text (content ++ lines.flatMap Text.line) := by
  induction lines generalizing content with
  | nil => rw [List.flatMap_nil, List.append_nil, List.foldl_nil]
  | cons line lines ih =>
      rw [List.foldl_cons, Kept.addLine, Kept.addPart, ih, List.flatMap_cons, List.append_assoc]

/-- If no line is written in part, the file has the lines that were written. -/
theorem keptAfter_eq_foldl (hc : ∀ e ∈ es, ¬ e.IsCut) (k : Kept) :
    keptAfter own k es = (linesWritten own es).foldl Kept.addLine k := by
  induction es generalizing own k with
  | nil => rfl
  | cons e es ih =>
      obtain ⟨he, hes⟩ := List.forall_mem_cons.mp hc
      cases e with
      | added line =>
          rw [keptAfter, linesWritten]
          split
          · exact ih hes k
          · exact ih hes _
      | cut => exact absurd trivial he
      | failed | reopened | elsewhere => exact ih hes k

theorem keptAfter_absent (hc : ∀ e ∈ es, ¬ e.IsCut) :
    (linesWritten none es = [] → keptAfter none .absent es = .absent) ∧
      (linesWritten none es ≠ [] →
        keptAfter none .absent es = .text ((linesWritten none es).flatMap Text.line)) := by
  rw [keptAfter_eq_foldl hc]
  cases linesWritten none es with
  | nil => exact ⟨fun _ => rfl, fun hn => absurd rfl hn⟩
  | cons l lines => exact ⟨nofun, fun _ => foldl_addLine_text (Text.line l) lines⟩

/-- Every use of the file is something that happens to it. -/
theorem exists_happens (hp : f.path = some path) (u : Use) (h : Host) :
    ∃ e, e.use? = some u ∧ Happens path e (f, h) ((f.use u).run h) ∧
      ((f.use u).run h).1.path = some path := by
  cases u with
  | reopen => exact ⟨.reopened, rfl, .reopened f h, hp⟩
  | append line =>
      obtain ⟨r, h', hrun, ha⟩ := exists_adds f line h
      rw [use_append_run, hrun]
      rcases ha.changes hp with ⟨rfl, -⟩ | ⟨-, e, rfl, hl | ⟨-, piece, hpart, hc⟩⟩
      · exact ⟨.added line, rfl, .added hrun, hp⟩
      · exact ⟨.failed line, rfl, .failed hrun hl, hp⟩
      · exact ⟨.cut line piece, rfl, .cut hrun hpart hc, hp⟩

/-- **All uses of a file** are a course. -/
theorem exists_course (hp : f.path = some path) (us : List Use) (h : Host) :
    ∃ es, es.map Happening.use? = us.map some ∧ Course path es (f, h) ((f.uses us).run h) := by
  induction us generalizing f h with
  | nil => exact ⟨[], rfl, .done _⟩
  | cons u us ih =>
      obtain ⟨e, he, hstep, hp'⟩ := exists_happens hp u h
      obtain ⟨es, hes, hcourse⟩ := ih hp' ((f.use u).run h).2
      refine ⟨e :: es, by rw [List.map_cons, he, hes, List.map_cons], .more hstep ?_⟩
      rw [uses, List.foldlM_cons]
      exact hcourse

/-- **What the file is** after its course. -/
theorem Course.keeps {s s' : HistoryFile × Host} (hc : Course path es s s')
    (hp : s.1.path = some path) {k : Kept} (hk : s.2.Keeps path k) :
    s'.2.Keeps path (keptAfter s.1.last k es) := by
  induction hc generalizing k with
  | done s => exact hk
  | more he hes ih =>
      cases he with
      | added hrun =>
          obtain ⟨r, h', hrun', ha⟩ := exists_adds _ _ _
          cases hrun.symm.trans hrun'
          rcases ha.changes hp with ⟨hr, hchanges⟩ | ⟨-, e, hr, -⟩
          · cases hr
            have hrest := ih hp (hchanges k hk)
            rw [keptAfter]
            split
            next hl => rwa [if_pos hl, ← hl] at hrest
            next hl => rwa [if_neg hl] at hrest
          · cases hr
      | failed hrun hl => exact ih hp (hl k hk)
      | cut hrun hpart hchanges => exact ih hp (hchanges k hk)
      | reopened f h => exact ih hp hk
      | elsewhere f hl => exact ih hp (hl k hk)

end

/-! ### Loading the file -/

/-- **The history that is kept is the history that was written.**  The uses of a file are a course
of it.  If there is no file at first, then after any course of it the file loads what it is then, and
else the entries stay as they are.  If no line was written in part, these are exactly the lines that
were written, in order; nothing is loaded if none was.  A line that cannot be added leaves what is
remembered as it is, and the file as well, unless the failure came while the line was written: then a
part of it is left.  So it is written when it is added again and can be. -/
theorem load_returns_what_was_written :
    (∀ (path : Text) (us : List Use) (h : Host), ∃ es, es.map Happening.use? = us.map some ∧
        Course path es (ofPath (some path), h) (((ofPath (some path)).uses us).run h)) ∧
      (∀ {path : Text} {es : List Happening} {h : Host} {f' : HistoryFile} {h' : Host},
        h.Keeps path .absent → Course path es (ofPath (some path), h) (f', h') → ∀ s : History,
          (∀ content, keptAfter none .absent es = .text content →
            s.load path h' = (.ok (), ⟨content.lines.reverse⟩)) ∧
          ((∀ content, keptAfter none .absent es ≠ .text content) →
            ∃ e, s.load path h' = (.error e, s)) ∧
          ((∀ e ∈ es, ¬ e.IsCut) → (∀ line, .added line ∈ es → line.IsUnbroken) →
            (linesWritten none es = [] → ∃ e, s.load path h' = (.error e, s)) ∧
              (linesWritten none es ≠ [] →
                s.load path h' = (.ok (), ⟨(linesWritten none es).reverse⟩)))) ∧
      (∀ {f : HistoryFile} {line : Text} {h h' : Host} {e : HistoryError},
        (f.append line).run h = (.error e, h') → (f.use (.append line)).run h = (f, h') ∧
          ∃ path, f.path = some path ∧
            (h.LeavesAlone path h' ∨ (∃ cause, e = .cannotWrite path cause) ∧
              ∃ piece, line.IsPart piece ∧ h.Changes path (Kept.addPart piece) h') ∧
            ∀ later : Host, later.IsWritable path → ∃ h'',
              (f.append line).run later = (.ok { f with last := some line }, h'') ∧
                h''.textAt path = later.textAt path ++ Text.line line) ∧
      ∀ {s s' : History} {path : Text} {h : Host} {e : HistoryError},
        s.load path h = (.error e, s') → s' = s := by
  refine ⟨fun path us h => exists_course rfl us h,
    fun {path es h f' h'} habsent hcourse s => ?_, fun {f line h h' e} hrun => ?_,
    fun {s s' path h e} hload => ?_⟩
  · have hkeeps : h'.Keeps path (keptAfter none .absent es) := hcourse.keeps rfl habsent
    refine ⟨fun content hk => History.load_text (hk ▸ hkeeps) s,
      fun hn => History.exists_load_error hkeeps hn s, fun hcut hu => ?_⟩
    obtain ⟨hnone, hlines⟩ := keptAfter_absent hcut
    refine ⟨fun hw => History.exists_load_error hkeeps (by rw [hnone hw]; nofun) s, fun hw => ?_⟩
    rw [History.load_text (hlines hw ▸ hkeeps),
      Text.lines_flatMap_line fun l hl => hu l (mem_linesWritten hl)]
  · obtain ⟨r, h₁, hrun', ha⟩ := exists_adds f line h
    cases hrun.symm.trans hrun'
    obtain ⟨path, hp, -⟩ := ha.spoils
    rcases ha.changes hp with ⟨hr, -⟩ | ⟨hl, e', hr, hleft⟩
    · cases hr
    · cases hr
      refine ⟨?_, path, hp, hleft, fun later hw => exists_append_later hl hp hw⟩
      rw [use_append_run, hrun]
      rfl
  · rw [History.load] at hload
    split at hload
    · cases hload
    · cases hload
      rfl

/-- A file stands where the directory of the history file should be. -/
def obstructed : Host := { noFiles with files := ⟨[(["d".toList], .file [] false)]⟩ }

/-- A disk that is full after one byte of the next line. -/
def fullSoon : Host := { noFiles with disk := ⟨[.cut 1 .noSpace]⟩ }

/-- The file at `d/h`, and what it remembers. -/
def fileAt (last : Option Text) : HistoryFile := ⟨some "d/h".toList, last⟩

/-- The host after the line `log` was added, or could not be. -/
def afterLog (last : Option Text) (h : Host) : Host :=
  (((fileAt last).append "log".toList).run h).2

theorem append_obstructed : ((fileAt none).append "log".toList).run obstructed =
    (.error (.cannotMake "d".toList .alreadyExists), afterLog none obstructed) :=
  Prod.ext (by decide +kernel) rfl

/-- The line cannot be added; when the obstacle is gone it is added, again in vain, and again by the
next session. -/
theorem course_obstructed : Course "d/h".toList
    [.failed "log".toList, .elsewhere, .added "log".toList, .added "log".toList, .reopened,
      .added "log".toList] (fileAt none, obstructed)
    (fileAt (some "log".toList), afterLog none (afterLog none noFiles)) := by
  -- without the directory `d` no path leads to the file
  have hleft : obstructed.LeavesAlone "d/h".toList (afterLog none obstructed) :=
    Host.changes_of_resolve_error .notDirectory (by decide +kernel)
      (FileTree.keeps_absent (by decide +kernel))
  have hcleared : (afterLog none obstructed).LeavesAlone "d/h".toList noFiles :=
    Host.changes_of_resolve_error .notDirectory (by decide +kernel)
      (FileTree.keeps_absent (by decide +kernel))
  have hadded : ((fileAt none).append "log".toList).run noFiles =
      (.ok (fileAt (some "log".toList)), afterLog none noFiles) := Prod.ext (by decide +kernel) rfl
  have hagain : ((fileAt (some "log".toList)).append "log".toList).run (afterLog none noFiles) =
      (.ok (fileAt (some "log".toList)), afterLog none noFiles) := rfl
  have hnext : ((fileAt none).append "log".toList).run (afterLog none noFiles) =
      (.ok (fileAt (some "log".toList)), afterLog none (afterLog none noFiles)) :=
    Prod.ext (by decide +kernel) rfl
  exact .more (.failed append_obstructed hleft) (.more (.elsewhere _ hcleared)
    (.more (.added hadded) (.more (.added hagain) (.more (.reopened _ _)
      (.more (.added hnext) (.done _))))))

/-- On a disk that is full, a part of the line is left; the line comes after it. -/
theorem course_fullSoon : Course "d/h".toList [.cut "log".toList (some ['l']), .added "log".toList]
    (fileAt none, fullSoon)
    (fileAt (some "log".toList), afterLog none (afterLog none fullSoon)) := by
  have hcut : ((fileAt none).append "log".toList).run fullSoon =
      (.error (.cannotWrite "d/h".toList .noSpace), afterLog none fullSoon) :=
    Prod.ext (by decide +kernel) rfl
  have hpart : Text.IsPart "log".toList (some ['l']) :=
    .piece (show Text.line "log".toList = ['l'] ++ "og\n".toList from rfl) (by decide)
  have hleft : fullSoon.Changes "d/h".toList (Kept.addPart (some ['l'])) (afterLog none fullSoon) :=
    Host.changes_of_resolve_error .notFound (by decide +kernel)
      ⟨["d".toList, "h".toList], false, by decide +kernel, by decide +kernel⟩
  have hadded : ((fileAt none).append "log".toList).run (afterLog none fullSoon) =
      (.ok (fileAt (some "log".toList)), afterLog none (afterLog none fullSoon)) :=
    Prod.ext (by decide +kernel) rfl
  exact .more (.cut hcut hpart hleft) (.more (.added hadded) (.done _))

theorem isWritable_noFiles : noFiles.IsWritable "d/h".toList where
  file := {
    plain := FileTree.isPlainAt_of_none (by decide +kernel)
    parents := by decide +kernel
    file := by
      have hopens : (noFiles.files.makeParents noFiles.directory "d/h".toList).2.Opens
          ["d".toList, "h".toList] (.file [] false) _ :=
        .made (by decide +kernel) (by decide +kernel)
      exact ⟨_, FileTree.openFile_eq_ok_iff.mpr ⟨by decide, by decide +kernel, _, hopens⟩⟩ }
  disk := nofun

/-- A line cannot be added; it is added when the obstacle is gone, again in vain, and again by the
next session.  On a disk that is full, a part of it is left when it is added again. -/
theorem load_returns_what_was_written_obstructed :
    obstructed.Keeps "d/h".toList .absent ∧
      (∃ h', Course "d/h".toList
          [.failed "log".toList, .elsewhere, .added "log".toList, .added "log".toList, .reopened,
            .added "log".toList] (fileAt none, obstructed) (fileAt (some "log".toList), h') ∧
        History.empty.load "d/h".toList h' = (.ok (), ⟨["log".toList, "log".toList]⟩) ∧
        ∃ h'', ((fileAt none).append "log".toList).run noFiles =
            (.ok (fileAt (some "log".toList)), h'') ∧ h''.textAt "d/h".toList = "log\n".toList) ∧
      fullSoon.Keeps "d/h".toList .absent ∧
      ∃ h', Course "d/h".toList [.cut "log".toList (some ['l']), .added "log".toList]
          (fileAt none, fullSoon) (fileAt (some "log".toList), h') ∧
        History.empty.load "d/h".toList h' = (.ok (), ⟨["llog".toList]⟩) := by
  have hn : obstructed.Keeps "d/h".toList .absent := FileTree.keeps_absent (by decide +kernel)
  have hn' : fullSoon.Keeps "d/h".toList .absent := FileTree.keeps_absent (by decide +kernel)
  have hu : ∀ line, Happening.added line ∈ [.failed "log".toList, .elsewhere,
      .added "log".toList, .added "log".toList, .reopened, .added "log".toList] →
        line.IsUnbroken := by
    intro line hl
    obtain rfl : line = "log".toList := by simpa using hl
    exact ⟨by decide, by decide⟩
  obtain ⟨-, hload, hlater, -⟩ := load_returns_what_was_written
  obtain ⟨-, path, hp, -, hwrite⟩ := hlater append_obstructed
  cases hp
  have hlines := (hload hn course_obstructed History.empty).2.2 (by simp [Happening.IsCut]) hu
  exact ⟨hn, ⟨_, course_obstructed, hlines.2 (by decide), hwrite noFiles isWritable_noFiles⟩, hn', _,
    course_fullSoon, (hload hn' course_fullSoon History.empty).1 "llog\n".toList (by decide)⟩

/-- The host of a process, with a number of it that the system keeps. -/
def withSetting : Host :=
  { noFiles with
    files := ⟨[(["proc".toList, "self".toList, "oom_score_adj".toList], .setting 1000 0),
      (["proc".toList, "self".toList], .directory), (["proc".toList], .directory)]⟩ }

/-- **A part of a line is loaded** if it was left where writing the line failed, also in front of the
line when it is added again; and a number that the system keeps is another one then. -/
theorem part_of_line_is_loaded :
    (let f := fileAt none
      let failed := (f.append "log".toList).run fullSoon
      let again := (f.append "log".toList).run failed.2
      fullSoon.files.find? (placeOf fullSoon.directory "d/h".toList) = none ∧
        failed.1 = .error (.cannotWrite "d/h".toList .noSpace) ∧
        History.empty.load "d/h".toList failed.2 = (.ok (), ⟨["l".toList]⟩) ∧
        again.1 = .ok (fileAt (some "log".toList)) ∧
        History.empty.load "d/h".toList again.2 = (.ok (), ⟨["llog".toList]⟩)) ∧
    (let path := "/proc/self/oom_score_adj".toList
      let failed := ((ofPath (some path)).append "1000".toList).run withSetting
      History.empty.load path withSetting = (.ok (), ⟨["0".toList]⟩) ∧
        failed.1 = .error (.cannotWrite path .invalid) ∧
        History.empty.load path failed.2 = (.ok (), ⟨["1000".toList]⟩)) := by
  decide +kernel

end HistoryFile

end GitShell
