import GitShell.Text.Basic

/-!
# Help — Form

The forms in which a manual documents an option: `-p`, `--patch` or `--[no-]patch`, each with what
may follow it, several on one line with `, ` between them.

* A form is a short option, or dashes with words of letters; a reversible form stands for two
  options.
* `readForm_shorter`: a form takes characters off the line, so reading a line ends.
-/

namespace GitShell.Help

/-- A documented option: the flag, such as `--color`, and its suffix, such as `[=<when>]`. -/
structure DocumentedOption where
  flag : Text
  suffix : Text
deriving DecidableEq

/-! ### Names -/

/-- The rest of a name after one of its letters: letters, and hyphens before a letter. -/
def splitName : Text → Text × Text
  | '-' :: c :: r =>
    if c.isAlpha then let (n, rest) := splitName r; ('-' :: c :: n, rest) else ([], '-' :: c :: r)
  | c :: r => if c.isAlpha then let (n, rest) := splitName r; (c :: n, rest) else ([], c :: r)
  | [] => ([], [])

theorem splitName_append (t : Text) : (splitName t).1 ++ (splitName t).2 = t := by
  fun_induction splitName t <;> simp_all

/-- The name at the start of a text, if it starts with a letter. -/
def readName : Text → Option (Text × Text)
  | c :: r => if c.isAlpha then let (n, rest) := splitName r; some (c :: n, rest) else none
  | [] => none

theorem readName_append {t n r : Text} (h : readName t = some (n, r)) : n ++ r = t := by
  cases t with
  | nil => simp [readName] at h
  | cons c t =>
    by_cases hc : c.isAlpha
    · simp [readName, hc] at h
      obtain ⟨rfl, rfl⟩ := h
      simp [splitName_append]
    · simp [readName, hc] at h

/-! ### Forms -/

/-- `[no-]` or `[no]`, after it possibly a hyphen. -/
def readReversal (t : Text) : Option Text :=
  match t with
  | '[' :: 'n' :: 'o' :: r =>
    match dropHyphen r with
    | ']' :: r => some (dropHyphen r)
    | _ => none
  | _ => none
where
  dropHyphen : Text → Text
    | '-' :: r => r
    | r => r

theorem length_dropHyphen (t : Text) : (readReversal.dropHyphen t).length ≤ t.length := by
  unfold readReversal.dropHyphen
  split <;> simp

theorem readReversal_shorter {t r : Text} (h : readReversal t = some r) : r.length ≤ t.length := by
  unfold readReversal at h
  split at h
  · next u =>
    split at h
    · next v hv =>
      have h₁ := length_dropHyphen u
      have h₂ := length_dropHyphen v
      rw [hv] at h₁
      simp only [Option.some.injEq] at h
      subst h
      simp only [List.length_cons] at *
      omega
    · simp at h
  · simp at h

/-- The flags that the form at the start of a text stands for, and the text after it. -/
def readForm : Text → Option (List Text × Text)
  | '-' :: '-' :: t =>
    match readName t with
    | some (n, r) => some (["--".toList ++ n], r)
    | none => do
      let (n, r) ← readName (← readReversal t)
      return (["--".toList ++ n, "--no-".toList ++ n], r)
  | '-' :: c :: t => if c.isAlpha then some ([['-', c]], t) else none
  | _ => none

theorem readForm_shorter {t r : Text} {fs : List Text} (h : readForm t = some (fs, r)) :
    r.length < t.length := by
  unfold readForm at h
  split at h
  · next u =>
    split at h
    · next n r' hn =>
      have := congrArg List.length (readName_append hn)
      simp only [Option.some.injEq, Prod.mk.injEq] at h
      obtain ⟨-, rfl⟩ := h
      simp only [List.length_append, List.length_cons] at *
      omega
    · cases hu : readReversal u with
      | none => simp [hu] at h
      | some v =>
        cases hv : readName v with
        | none => simp [hu, hv] at h
        | some p =>
          obtain ⟨n, r'⟩ := p
          have h₁ := readReversal_shorter hu
          have h₂ := congrArg List.length (readName_append hv)
          simp [hu, hv] at h
          obtain ⟨-, rfl⟩ := h
          simp only [List.length_append, List.length_cons] at *
          omega
  · next c u _ =>
    by_cases hc : c.isAlpha
    · simp [hc] at h
      obtain ⟨-, rfl⟩ := h
      simp only [List.length_cons]
      omega
    · simp [hc] at h
  · simp at h

/-! ### Suffixes -/

/-- What follows a form, up to a comma with a blank or nothing after it. -/
def splitSuffix : Text → Text × Text
  | ',' :: c :: r =>
    if isBlank c then ([], ',' :: c :: r)
    else let (s, rest) := splitSuffix r; (',' :: c :: s, rest)
  | [','] => ([], [','])
  | c :: r => let (s, rest) := splitSuffix r; (c :: s, rest)
  | [] => ([], [])

theorem splitSuffix_append (t : Text) : (splitSuffix t).1 ++ (splitSuffix t).2 = t := by
  fun_induction splitSuffix t <;> simp_all

/-- A suffix that starts, after blanks, with a letter or a digit is the start of a description. -/
def isDescription (suffix : Text) : Bool := suffix.trimStart.head?.any Char.isAlphanum

/-- The suffix that the text after a form gives the option. -/
def cleanSuffix (t : Text) : Text :=
  if isDescription t.trimEnd then [] else t.trimEnd

/-! ### Lines -/

/-- The options of a line from the first form on; the line ends at the first entry that is none. -/
def readForms (t : Text) : List DocumentedOption :=
  match h : readForm t with
  | none => []
  | some (flags, r) =>
    flags.map (⟨·, cleanSuffix (splitSuffix r).1⟩) ++
      match _hr : (splitSuffix r).2 with
      | ',' :: ' ' :: u => readForms u
      | _ => []
termination_by t.length
decreasing_by
  have h₁ := readForm_shorter h
  have h₂ := congrArg List.length (splitSuffix_append r)
  rw [_hr] at h₂
  simp only [List.length_append, List.length_cons] at h₂
  omega

end GitShell.Help
