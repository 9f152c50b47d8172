import GitShell.Help.Form
import GitShell.Text.Backspace

/-!
# Help — Page

The options that a manual page documents.  They stand on lines that are indented by seven blanks and
follow a blank line or a heading; dashes in descriptions and examples are none.  A page made for a
terminal may strike characters over each other: a character before a backspace is not seen.
-/

namespace GitShell.Help

/-- The characters that stay visible: every pair of a character and a backspace after it, from the
left, is gone. -/
def unstrike : Text → Text
  | c :: d :: r =>
    if c ≠ backspace ∧ d = backspace then unstrike r else c :: unstrike (d :: r)
  | t => t

theorem unstrike_of_not_mem {t : Text} (h : backspace ∉ t) : unstrike t = t := by
  fun_induction unstrike t with
  | case1 c d r hd => simp [hd.2] at h
  | case2 c d r hd ih => simp [ih (fun m => h (List.mem_cons_of_mem c m))]
  | case3 t ht => rfl

/-- The indentation of options. -/
def indent : Text := List.replicate 7 ' '

/-- After this line a block may start: it is blank or a heading. -/
def isBreak (line : Text) : Bool := line.allBlank || line.head?.any Char.isUpper

/-- The lines that start a block; `atStart` says whether the first one does. -/
def blockStarts : (atStart : Bool) → List Text → List Text
  | _, [] => []
  | true, l :: ls => l :: blockStarts (isBreak l) ls
  | false, l :: ls => blockStarts (isBreak l) ls

/-- The options of a line that starts a block. -/
def optionsOfLine (line : Text) : List DocumentedOption :=
  if indent.isPrefixOf line then readForms (line.drop indent.length) else []

/-- A manual page, as the options it documents. -/
structure Page where
  options : List DocumentedOption

namespace Page

/-- The page without options. -/
def empty : Page := ⟨[]⟩

/-- Reads the text of a page. -/
def ofText (t : Text) : Page :=
  ⟨((blockStarts true (unstrike t).lines).flatMap optionsOfLine).eraseDups⟩

/-- The flags, in the order of the page, each once. -/
def flags (p : Page) : List Text := (p.options.map (·.flag)).eraseDups

/-- The first suffix of a flag that is not empty. -/
def suffix? (p : Page) (flag : Text) : Option Text :=
  (p.options.find? fun o => o.flag == flag && !o.suffix.isEmpty).map (·.suffix)

end Page

end GitShell.Help
