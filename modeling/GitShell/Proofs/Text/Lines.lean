import GitShell.Text.Basic

/-!
# Text — Lines

Reading a text line by line gives back the lines that it was written with, except that a carriage
return at the end of one is taken for a part of the line end.

* `Text.lines_line_append_of_not_mem`: the first line is read up to its line end.
* `Text.lines_flatMap_line_of_not_mem`: so are all of them.
* `Text.lines_of_not_mem`: a last line need not be ended.
-/

namespace GitShell.Text

/-- A line as it is read: one carriage return at its end is gone. -/
def withoutReturn : Text → Text
  | [] => []
  | ['\r'] => []
  | c :: r => c :: withoutReturn r

theorem withoutReturn_cons_cons (c d : Char) (r : Text) :
    withoutReturn (c :: d :: r) = c :: withoutReturn (d :: r) := by
  rw [withoutReturn]
  rintro - ⟨⟩

theorem withoutReturn_of_getLast? {t : Text} (h : t.getLast? ≠ some '\r') :
    t.withoutReturn = t := by
  induction t with
  | nil => rfl
  | cons c t ih =>
      cases t with
      | nil =>
          have hc : c ≠ '\r' := fun hc => h (by rw [hc]; rfl)
          rw [withoutReturn]
          · rfl
          · rintro rfl -
            exact hc rfl
      | cons d r =>
          rw [withoutReturn_cons_cons, ih (by simpa using h)]

/-- What is gone is a carriage return, if anything is. -/
theorem eq_withoutReturn_or (t : Text) :
    t = t.withoutReturn ∨ t = t.withoutReturn ++ ['\r'] := by
  by_cases h : t.getLast? = some '\r'
  · induction t with
    | nil => cases h
    | cons c t ih =>
        cases t with
        | nil =>
            cases h
            exact .inr rfl
        | cons d r =>
            rw [withoutReturn_cons_cons]
            exact (ih (by simpa using h)).imp (congrArg (c :: ·)) (congrArg (c :: ·))
  · exact .inl (withoutReturn_of_getLast? h).symm

theorem not_mem_of_allBlank {t : Text} (h : t.allBlank = true) {c : Char} (hc : isBlank c = false) :
    c ∉ t := by
  intro hm
  rw [List.all_eq_true.mp h c hm] at hc
  cases hc

/-- The carriage return is a blank. -/
theorem allBlank_withoutReturn (t : Text) : t.withoutReturn.allBlank = t.allBlank := by
  rcases t.eq_withoutReturn_or with h | h
  · rw [← h]
  · have hreturn : isBlank '\r' = true := by decide
    have happend : t.allBlank = (t.withoutReturn ++ ['\r']).allBlank := congrArg allBlank h
    rw [happend]
    simp [allBlank, hreturn]

/-- **One line** is read up to its line end. -/
theorem lines_line_append_of_not_mem {l : Text} (h : '\n' ∉ l) (rest : Text) :
    lines (line l ++ rest) = withoutReturn l :: rest.lines := by
  induction l with
  | nil => rfl
  | cons c l ih =>
      rw [List.mem_cons, not_or] at h
      by_cases hreturn : c = '\r' ∧ l = []
      · obtain ⟨rfl, rfl⟩ := hreturn
        rfl
      · have hcons : line (c :: l) ++ rest = c :: (line l ++ rest) := rfl
        have hkeep : withoutReturn (c :: l) = c :: withoutReturn l := by
          rw [withoutReturn]
          rintro rfl rfl
          exact hreturn ⟨rfl, rfl⟩
        rw [hcons, lines, ih h.2, hkeep]
        · rintro rfl
          exact absurd rfl h.1
        · -- a line feed after the carriage return could only be the end of the line
          rintro r rfl hr
          cases l with
          | nil => exact hreturn ⟨rfl, rfl⟩
          | cons d l =>
              cases hr
              exact absurd (List.mem_cons_self ..) h.2

theorem lines_flatMap_line_append_of_not_mem {ls : List Text} (h : ∀ l ∈ ls, '\n' ∉ l)
    (rest : Text) : lines (ls.flatMap line ++ rest) = ls.map withoutReturn ++ rest.lines := by
  induction ls with
  | nil => rfl
  | cons l ls ih =>
      obtain ⟨hl, hls⟩ := List.forall_mem_cons.mp h
      rw [List.flatMap_cons, List.append_assoc, lines_line_append_of_not_mem hl, ih hls,
        List.map_cons, List.cons_append]

theorem lines_flatMap_line_of_not_mem {ls : List Text} (h : ∀ l ∈ ls, '\n' ∉ l) :
    lines (ls.flatMap line) = ls.map withoutReturn := by
  simpa [lines] using lines_flatMap_line_append_of_not_mem h []

/-- A last line that is not ended is read as it is. -/
theorem lines_of_not_mem {l : Text} (h : '\n' ∉ l) (hne : l ≠ []) : l.lines = [l] := by
  induction l with
  | nil => exact absurd rfl hne
  | cons c l ih =>
      rw [List.mem_cons, not_or] at h
      cases l with
      | nil =>
          rw [lines]
          · rfl
          · rintro rfl
            exact h.1 rfl
          · rintro r - ⟨⟩
      | cons d r =>
          rw [lines, ih h.2 (List.cons_ne_nil d r)]
          · rintro rfl
            exact h.1 rfl
          · rintro r' - ⟨⟩
            exact h.2 (List.mem_cons_self ..)

/-! ### Trimming -/

/-- Blanks before a text that starts with none are trimmed. -/
theorem trimStart_append {b t : Text} (hb : b.allBlank = true)
    (ht : ∀ c ∈ t.head?, isBlank c = false) : trimStart (b ++ t) = t := by
  rw [trimStart, List.dropWhile_append_of_pos (List.all_eq_true.mp hb)]
  cases t with
  | nil => rfl
  | cons c t => rw [List.dropWhile_cons, if_neg (by rw [ht c rfl]; exact Bool.false_ne_true)]

/-- Nothing is trimmed of a text that ends in no blank. -/
theorem trimEnd_of_getLast? {t : Text} (h : ∀ c ∈ t.getLast?, isBlank c = false) :
    trimEnd t = t := by
  rw [← List.head?_reverse] at h
  rw [trimEnd]
  cases hr : t.reverse with
  | nil => exact (List.reverse_eq_nil_iff.mp hr).symm
  | cons c r =>
      have hc : isBlank c = false := h c (by rw [hr]; rfl)
      rw [List.dropWhile_cons, if_neg (by rw [hc]; exact Bool.false_ne_true), ← hr,
        List.reverse_reverse]

end GitShell.Text
