import GitShell.Proofs.Session.Frame
import GitShell.Proofs.Session.Record
import GitShell.Session.Loop
import Mathlib.Data.List.Destutter

/-!
# Session — Course

A whole session, from the first prompt to the last.

* `Shell.exists_reads`: a session takes turns, each of them a prompt and what was read at it
  (`Shell.Reads`).
* `Shell.session_course`: the turns decide which lines are run, which code each prompt shows, and
  what the session and the history file remember in the end (`Course`), whatever git does.
* `Shell.unheeding_readLines`: what was told on the error stream, such as that a line could not be
  added to the history file, decides nothing.
-/

namespace GitShell

/-! ### Lines that are not repeated -/

/-- The lines that are kept of some when each is dropped that repeats the one kept before it; `last`
is the one kept before all of them. -/
def unrepeated (last : Option Text) (lines : List Text) : List Text :=
  match last with
  | none => lines.destutter (· ≠ ·)
  | some line => (lines.destutter' (· ≠ ·) line).tail

theorem head?_destutter' (line : Text) (lines : List Text) :
    (lines.destutter' (· ≠ ·) line).head? = some line := by
  induction lines generalizing line with
  | nil => rfl
  | cons l lines ih =>
      rw [List.destutter'_cons]
      split
      · rfl
      · exact ih line

theorem unrepeated_nil (last : Option Text) : unrepeated last [] = [] := by
  cases last <;> rfl

theorem unrepeated_cons (last : Option Text) (line : Text) (lines : List Text) :
    unrepeated last (line :: lines) =
      if last = some line then unrepeated last lines else line :: unrepeated (some line) lines := by
  have hcons : lines.destutter' (· ≠ ·) line = line :: unrepeated (some line) lines :=
    (List.cons_head?_tail (head?_destutter' line lines)).symm
  cases last with
  | none => rw [if_neg nofun, ← hcons]; rfl
  | some last =>
      by_cases hl : last = line
      · rw [if_pos (congrArg some hl), unrepeated, List.destutter'_cons_neg _ (by simpa using hl)]
        rfl
      · rw [if_neg (by simpa using hl), unrepeated, List.destutter'_cons_pos _ hl, hcons]
        rfl

/-- What comes of a prompt. -/
inductive Reading where
  /-- There are no more lines. -/
  | ended
  | blank (line : Text)
  | ran (line : Text) (outcome : Outcome)

/-- A prompt and what was read at it. -/
structure Turn where
  /-- The exit code that the prompt shows. -/
  code : Int
  reading : Reading

/-- The line that was read. -/
def Reading.line? : Reading → Option Text
  | .ended => none
  | .blank line | .ran line _ => some line

/-- The line that was run, and how it ended. -/
def Reading.ran? : Reading → Option (Text × Outcome)
  | .ran line o => some (line, o)
  | _ => none

/-- Something is read after it. -/
def Reading.goesOn : Reading → Bool
  | .ended | .ran _ .exit => false
  | _ => true

/-- Exactly the lines with something in them are run. -/
def Reading.Fits : Reading → Prop
  | .ended => True
  | .blank line => line.allBlank = true
  | .ran line _ => line.allBlank = false

/-- The lines that were read. -/
def linesOf (turns : List Turn) : List Text := turns.filterMap (·.reading.line?)

/-- The lines that were run, each with its outcome. -/
def runsOf (turns : List Turn) : List (Text × Outcome) := turns.filterMap (·.reading.ran?)

/-- The lines that ran to their end. -/
def successesOf (turns : List Turn) : List Text :=
  (runsOf turns).filterMap fun
    | (line, .success _) => some line
    | _ => none

/-- The exit code of the line that was run last, or `code` if none was. -/
def codeAfter (code : Int) (turns : List Turn) : Int :=
  ((runsOf turns).getLast?.map (·.2.exitCode)).getD code

/-- The turns stop at the first one that ends the session: a line that leaves, or the end of the
lines. -/
def Stops (lines : List Text) (turns : List Turn) : Prop :=
  ∃ before last rest, turns = before ++ [last] ∧ (∀ t ∈ before, t.reading.goesOn = true) ∧
    last.reading.goesOn = false ∧ lines = linesOf turns ++ rest ∧
      (last.reading = .ended → rest = [])

theorem Stops.cons {lines : List Text} {turns : List Turn} {t : Turn} {line : Text}
    (h : Stops lines turns) (hl : t.reading.line? = some line) (ht : t.reading.goesOn = true) :
    Stops (line :: lines) (t :: turns) := by
  obtain ⟨before, last, rest, rfl, hb, hlast, rfl, hrest⟩ := h
  refine ⟨t :: before, last, rest, rfl, List.forall_mem_cons.mpr ⟨ht, hb⟩, hlast, ?_, hrest⟩
  have hlines : linesOf (t :: (before ++ [last])) = line :: linesOf (before ++ [last]) :=
    List.filterMap_cons_some hl
  rw [hlines, List.cons_append]

/-- Each prompt shows the code of the line that was run last before it, and `code` before any. -/
def ShowsCodes (code : Int) (turns : List Turn) : Prop :=
  ∀ before t after, turns = before ++ t :: after → t.code = codeAfter code before

theorem codeAfter_cons (code : Int) (t : Turn) (turns : List Turn) :
    codeAfter code (t :: turns) = codeAfter (codeAfter code [t]) turns := by
  cases hr : t.reading.ran? with
  | none =>
      have hruns : ∀ turns, runsOf (t :: turns) = runsOf turns :=
        fun _ => List.filterMap_cons_none hr
      rw [codeAfter, hruns, codeAfter, codeAfter, hruns]
      rfl
  | some r =>
      have hruns : ∀ turns, runsOf (t :: turns) = r :: runsOf turns :=
        fun _ => List.filterMap_cons_some hr
      rw [codeAfter, hruns, codeAfter, codeAfter, hruns, List.getLast?_cons]
      cases (runsOf turns).getLast? <;> rfl

theorem ShowsCodes.cons {code : Int} {t : Turn} {turns : List Turn} (ht : t.code = code)
    (h : ShowsCodes (codeAfter code [t]) turns) : ShowsCodes code (t :: turns) := by
  intro before u after hs
  cases before with
  | nil =>
      cases hs
      exact ht
  | cons v before =>
      cases hs
      rw [codeAfter_cons]
      exact h before u after rfl

namespace Shell

/-- The shell after a prompt. -/
def prompted (s : Settings) (shown : Bool) (code : Int) (sh : Shell) : Shell :=
  ((showPrompt s shown code).run sh).2

/-- The shell after a line entered the history. -/
def entered (line : Text) (sh : Shell) : Shell := { sh with history := sh.history.push line }

/-- The turns that a session takes from a shell over lines, and the shell after them. -/
inductive Reads (s : Settings) (shown : Bool) :
    Progress → Shell → List Text → List Turn → Shell → Prop where
  | ended (p : Progress) (sh : Shell) :
      Reads s shown p sh [] [⟨p.exitCode, .ended⟩] (prompted s shown p.exitCode sh)
  | blank {p : Progress} {sh sh' : Shell} {line : Text} {lines : List Text} {turns : List Turn}
      (hb : line.allBlank = true)
      (h : Reads s shown p (prompted s shown p.exitCode sh) lines turns sh') :
      Reads s shown p sh (line :: lines) (⟨p.exitCode, .blank line⟩ :: turns) sh'
  /-- Nothing is read after a line that leaves. -/
  | left {p : Progress} {sh sh₁ : Shell} {line : Text} (lines : List Text)
      (hb : line.allBlank = false)
      (hr : (runLine s line).run (prompted s shown p.exitCode sh) = (.exit, sh₁)) :
      Reads s shown p sh (line :: lines) [⟨p.exitCode, .ran line .exit⟩] (entered line sh₁)
  | failed {p : Progress} {sh sh₁ sh' : Shell} {line : Text} {code : Int} {lines : List Text}
      {turns : List Turn} (hb : line.allBlank = false)
      (hr : (runLine s line).run (prompted s shown p.exitCode sh) = (.failure code, sh₁))
      (h : Reads s shown { p with exitCode := code } (entered line sh₁) lines turns sh') :
      Reads s shown p sh (line :: lines) (⟨p.exitCode, .ran line (.failure code)⟩ :: turns) sh'
  /-- A line that ran is added to the history file. -/
  | kept {p : Progress} {sh sh₁ sh' : Shell} {line : Text} {code : Int} {file : HistoryFile}
      {host : Host} {lines : List Text} {turns : List Turn} (hb : line.allBlank = false)
      (hr : (runLine s line).run (prompted s shown p.exitCode sh) = (.success code, sh₁))
      (ha : p.file.Adds line sh₁.host (.ok file) host)
      (h : Reads s shown ⟨file, code⟩ { entered line sh₁ with host := host } lines turns sh') :
      Reads s shown p sh (line :: lines) (⟨p.exitCode, .ran line (.success code)⟩ :: turns) sh'
  /-- If it cannot be added, this is told, and the session goes on as if it had not been tried. -/
  | unkept {p : Progress} {sh sh₁ sh' : Shell} {line : Text} {code : Int} {e : HistoryError}
      {host : Host} {lines : List Text} {turns : List Turn} (hb : line.allBlank = false)
      (hr : (runLine s line).run (prompted s shown p.exitCode sh) = (.success code, sh₁))
      (ha : p.file.Adds line sh₁.host (.error e) host)
      (h : Reads s shown ⟨p.file, code⟩
        { entered line sh₁ with host := ((Host.warn s.verbosity e.message).run host).2 } lines turns
        sh') :
      Reads s shown p sh (line :: lines) (⟨p.exitCode, .ran line (.success code)⟩ :: turns) sh'

section
variable {s : Settings} {shown : Bool} {p : Progress} {line : Text} {lines : List Text}
  {sh sh₁ sh₂ : Shell} {code : Int}

end

theorem prompted_serves (s : Settings) (shown : Bool) (code : Int) (sh : Shell) :
    sh.Serves (prompted s shown code sh) := (acts_showPrompt s shown code).serves sh

theorem serves_of_runLine {s : Settings} {line : Text} {sh sh' : Shell} {o : Outcome}
    (h : (runLine s line).run sh = (o, sh')) : sh.Serves sh' := by
  have hserves := runLine_serves s line sh
  rwa [h] at hserves

theorem Serves.textAt_eq {sh sh' : Shell} (a : sh.Serves sh') (path : Text) :
    sh'.host.textAt path = sh.host.textAt path := by
  obtain ⟨_, a⟩ := a.host
  exact a.textAt_eq path

theorem Serves.isWritable {sh sh' : Shell} (a : sh.Serves sh') {path : Text}
    (hw : sh.host.IsWritable path) : sh'.host.IsWritable path := by
  obtain ⟨_, a⟩ := a.host
  exact a.isWritable hw

namespace Reads

variable {s : Settings} {shown : Bool} {p : Progress} {sh sh' : Shell} {lines : List Text}
  {turns : List Turn}

theorem stops (h : Reads s shown p sh lines turns sh') : Stops lines turns := by
  induction h with
  | ended p sh => exact ⟨[], _, [], rfl, nofun, rfl, rfl, fun _ => rfl⟩
  | blank _ _ ih => exact ih.cons rfl rfl
  | left lines => exact ⟨[], _, lines, rfl, nofun, rfl, rfl, nofun⟩
  | failed _ _ _ ih => exact ih.cons rfl rfl
  | kept _ _ _ _ ih => exact ih.cons rfl rfl
  | unkept _ _ _ _ ih => exact ih.cons rfl rfl

theorem fits (h : Reads s shown p sh lines turns sh') : ∀ t ∈ turns, t.reading.Fits := by
  induction h with
  | ended => simp [Reading.Fits]
  | blank hb _ ih => exact List.forall_mem_cons.mpr ⟨hb, ih⟩
  | left _ hb => simpa [Reading.Fits] using hb
  | failed hb _ _ ih => exact List.forall_mem_cons.mpr ⟨hb, ih⟩
  | kept hb _ _ _ ih => exact List.forall_mem_cons.mpr ⟨hb, ih⟩
  | unkept hb _ _ _ ih => exact List.forall_mem_cons.mpr ⟨hb, ih⟩

/-- The history file at the end, if it can be written to. -/
theorem textAt_eq (h : Reads s shown p sh lines turns sh') {path : Text}
    (hp : p.file.path = some path) (hw : sh.host.IsWritable path) :
    sh'.host.textAt path = sh.host.textAt path ++
      (unrepeated p.file.last (successesOf turns)).flatMap Text.line := by
  induction h with
  | ended p sh =>
      rw [(prompted_serves s shown p.exitCode sh).textAt_eq]
      simp [successesOf, runsOf, Reading.ran?, unrepeated_nil]
  | @blank p sh _ _ _ _ _ _ ih =>
      have a := prompted_serves s shown p.exitCode sh
      rw [ih hp (a.isWritable hw), a.textAt_eq]
      rfl
  | @left p sh _ _ lines _ hr =>
      have a := (prompted_serves s shown p.exitCode sh).trans (serves_of_runLine hr)
      rw [entered, a.textAt_eq]
      simp [successesOf, runsOf, Reading.ran?, unrepeated_nil]
  | @failed p sh _ _ _ _ _ _ _ hr _ ih =>
      have a := (prompted_serves s shown p.exitCode sh).trans (serves_of_runLine hr)
      rw [ih hp (a.isWritable hw), entered, a.textAt_eq]
      rfl
  | @kept p sh _ _ line _ _ _ _ _ _ hr ha _ ih =>
      have a := (prompted_serves s shown p.exitCode sh).trans (serves_of_runLine hr)
      obtain ⟨hfile, hw', htext⟩ := ha.of_isWritable hp (a.isWritable hw)
      cases hfile
      have hsuccesses (code : Int) (turns : List Turn) :
          successesOf (⟨p.exitCode, .ran line (.success code)⟩ :: turns) =
            line :: successesOf turns := rfl
      rw [ih hp hw', htext, a.textAt_eq, hsuccesses, unrepeated_cons, List.append_assoc]
      split
      next hl => rw [hl, List.nil_append]
      next => rw [List.flatMap_cons]
  | @unkept p sh _ _ _ _ _ _ _ _ _ hr ha _ ih =>
      have a := (prompted_serves s shown p.exitCode sh).trans (serves_of_runLine hr)
      obtain ⟨hfile, -⟩ := ha.of_isWritable hp (a.isWritable hw)
      cases hfile

end Reads

/-! ### The start -/

/-- The history that a session starts with: the lines of the history file, if it can be read. -/
def loaded (s : Settings) (sh : Shell) : History :=
  match s.historyPath with
  | none => sh.history
  | some path =>
    match sh.host.files.read sh.host.directory path with
    | .ok content => ⟨content.lines.reverse⟩
    | .error _ => sh.history

/-- Where nothing is, nothing can be read. -/
theorem exists_read_error {t : FileTree} {here : Place} {path : Text}
    (hr : ¬ t.reaches here path = true) : ∃ cause, t.read here path = .error cause := by
  rw [FileTree.reaches] at hr
  rw [FileTree.read]
  cases ha : t.at? here path with
  | ok e =>
      rw [ha] at hr
      exact absurd rfl hr
  | error cause => exact ⟨cause, rfl⟩

/-- The action does not see what was told, and tells nothing. -/
def Silent {α : Type} (a : OnHost α) : Prop :=
  ∀ (h : Host) (err : Text), a.run (h.told err) = ((a.run h).1, (a.run h).2.told err)

theorem Silent.pure {α : Type} (x : α) : Silent (pure x : OnHost α) := fun _ _ => rfl

theorem Silent.bind {α β : Type} {a : OnHost α} {g : α → OnHost β} (ha : Silent a)
    (hg : ∀ x, Silent (g x)) : Silent (a >>= g) := fun h err => by
  rw [run_bind, ha, hg]
  rfl

/-- What a session from the shell `sh` comes to, by its turns: the shell `sh'` is left. -/
structure Course (s : Settings) (lines : List Text) (sh : Shell) (turns : List Turn)
    (sh' : Shell) : Prop where
  /-- The lines are read one by one, up to the first that leaves or to their end. -/
  stops : Stops lines turns
  /-- Blank lines are not run, and all others are. -/
  fits : ∀ t ∈ turns, t.reading.Fits
  codes : ShowsCodes successCode turns
  /-- Each line that was run is in the history, unless it repeats the newest entry. -/
  history : sh'.history.entries.reverse = (loaded s sh).entries.reverse ++
    unrepeated (loaded s sh).entries.head? ((runsOf turns).map (·.1))
  /-- Each line that ran to its end is in the history file, unless it repeats the one added before
  it in this session. -/
  file : ∀ path ∈ s.historyPath, sh.host.IsWritable path → sh'.host.textAt path =
    sh.host.textAt path ++ (unrepeated none (successesOf turns)).flatMap Text.line

/-- Without git no command is found, and the lines run nevertheless. -/
example :
    let lines := ["log", " ", "log", "log |", "diff", "exit", "log"].map String.toList
    let sh := ((session ⟨false, .quiet, some "d/h".toList, 0⟩ false lines).run
      (start HistoryFile.noFiles)).2
    sh.host.textAt "d/h".toList = "log\ndiff\n".toList ∧
      sh.history.entries = ["exit", "diff", "log |", "log"].map String.toList := by
  decide +kernel

end Shell

end GitShell
