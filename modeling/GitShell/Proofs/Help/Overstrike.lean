import GitShell.Help.Page
import Mathlib.Logic.Relation

/-!
# Help — Overstrike

A terminal prints a character in bold by striking it over itself, and underlined by striking it over
an underscore (`Strikes`).  A page that is printed so, once or any number of times, documents the
options of the plain page.

* `unstrike_marks`: what is struck over is not seen.
* `unstrike_of_strikes`: a pass over a text leaves what is seen as it is.
* `ofText_overstruck`: so do any number of passes, and with it the options of the page.

A backspace takes away the character before it, so what matters is what stands to the left of each
backspace: a pass puts backspaces only after marks of its own, never after a character of the text.
-/

namespace GitShell.Help

/-- The characters `marks`, each with a backspace after it. -/
def struckOver (marks : Text) : Text := marks.flatMap fun m => [m, backspace]

/-- One pass over a text: any of its characters may be made bold or underlined, several times too.
Line feeds and backspaces print nothing and stay as they are. -/
inductive Strikes : Text → Text → Prop where
  | nil : Strikes [] []
  | kept (c : Char) {t u : Text} (h : Strikes t u) : Strikes (c :: t) (c :: u)
  | struck {c : Char} (hline : c ≠ '\n') (hback : c ≠ backspace) (marks : Text)
      (hmarks : ∀ m ∈ marks, m = c ∨ m = '_') {t u : Text} (h : Strikes t u) :
      Strikes (c :: t) (struckOver marks ++ c :: u)

namespace Strikes

variable {c : Char} {t u : Text}

/-- The first character of a text stays, behind what it is struck over. -/
theorem exists_marks (h : Strikes (c :: t) u) :
    ∃ marks v, u = struckOver marks ++ c :: v ∧ backspace ∉ marks ∧ Strikes t v := by
  cases h with
  | kept _ h => exact ⟨[], _, rfl, nofun, h⟩
  | struck _ hback marks hmarks h =>
      refine ⟨_, _, rfl, fun hm => ?_, h⟩
      rcases hmarks _ hm with hc | hc
      · exact hback hc.symm
      · revert hc
        decide

/-- A backspace is not struck over. -/
theorem exists_of_backspace (h : Strikes (backspace :: t) u) :
    ∃ v, u = backspace :: v ∧ Strikes t v := by
  cases h with
  | kept _ h => exact ⟨_, rfl, h⟩
  | struck _ hback => exact absurd rfl hback

/-- No text gets a backspace at its start. -/
theorem head?_ne_backspace (h : Strikes t u) (ht : t.head? ≠ some backspace) :
    u.head? ≠ some backspace := by
  cases t with
  | nil =>
      cases h
      exact ht
  | cons c t =>
      obtain ⟨marks, v, rfl, hmarks, -⟩ := h.exists_marks
      cases marks with
      | nil => exact ht
      | cons m marks =>
          intro hm
          exact hmarks (Option.some.inj hm ▸ List.mem_cons_self)

theorem append_left (s : Text) (h : Strikes t u) : Strikes (s ++ t) (s ++ u) := by
  induction s with
  | nil => exact h
  | cons c s ih => exact .kept c ih

end Strikes

/-! ### What is seen -/

/-- What is struck over is not seen. -/
theorem unstrike_marks {marks : Text} (h : backspace ∉ marks) (t : Text) :
    unstrike (struckOver marks ++ t) = unstrike t := by
  induction marks with
  | nil => rfl
  | cons m marks ih =>
      rw [List.mem_cons, not_or] at h
      have htext : struckOver (m :: marks) ++ t = m :: backspace :: (struckOver marks ++ t) := rfl
      rw [htext, unstrike, if_pos ⟨Ne.symm h.1, rfl⟩, ih h.2]

/-- A character that no backspace follows is seen, and so is a backspace with nothing before it. -/
theorem unstrike_cons {c : Char} {t : Text} (h : c = backspace ∨ t.head? ≠ some backspace) :
    unstrike (c :: t) = c :: unstrike t := by
  cases t with
  | nil => rfl
  | cons d t =>
      have hpair : ¬ (c ≠ backspace ∧ d = backspace) := by
        rintro ⟨hc, rfl⟩
        exact h.elim hc fun hd => hd rfl
      rw [unstrike, if_neg hpair]

/-- **A pass over a text** leaves what is seen as it is. -/
theorem unstrike_of_strikes {t u : Text} (h : Strikes t u) : unstrike u = unstrike t := by
  fun_induction unstrike t generalizing u with
  | case1 c d r hpair ih =>
      -- the text strikes `c` itself, and the backspace that does so stays right behind `c`
      obtain ⟨hc, rfl⟩ := hpair
      obtain ⟨marks, v, rfl, hmarks, hv⟩ := h.exists_marks
      obtain ⟨w, rfl, hw⟩ := hv.exists_of_backspace
      rw [unstrike_marks hmarks, unstrike, if_pos ⟨hc, rfl⟩, ih hw]
  | case2 c d r hpair ih =>
      obtain ⟨marks, v, rfl, hmarks, hv⟩ := h.exists_marks
      have hnext : c = backspace ∨ v.head? ≠ some backspace := by
        by_cases hc : c = backspace
        · exact .inl hc
        · refine .inr (hv.head?_ne_backspace fun hd => hpair ⟨hc, ?_⟩)
          exact Option.some.inj hd
      rw [unstrike_marks hmarks, unstrike_cons hnext, ih hv]
  | case3 t hshort =>
      cases t with
      | nil =>
          cases h
          rfl
      | cons c t =>
          obtain rfl : t = [] := by
            cases t with
            | nil => rfl
            | cons d t => exact absurd rfl (hshort c d t)
          obtain ⟨marks, v, rfl, hmarks, hv⟩ := h.exists_marks
          cases hv
          exact unstrike_marks hmarks [c]

/-- **Overstrikes are not seen**: after any number of passes over a page the text that is seen and
the options are those of the page; without backspaces of its own, the page itself is seen. -/
theorem ofText_overstruck {t u : Text} (h : Relation.ReflTransGen Strikes t u) :
    unstrike u = unstrike t ∧ Page.ofText u = Page.ofText t ∧ (backspace ∉ t → unstrike u = t) := by
  have hseen : unstrike u = unstrike t := by
    induction h with
    | refl => rfl
    | tail _ h ih => rw [unstrike_of_strikes h, ih]
  refine ⟨hseen, ?_, fun ht => ?_⟩
  · rw [Page.ofText, hseen, Page.ofText]
  · rw [hseen, unstrike_of_not_mem ht]

/-- A dash that is underlined and then made bold with its underscore, and a letter in bold. -/
theorem ofText_overstruck_patch :
    Relation.ReflTransGen Strikes "\n       -p".toList
        "\n       _\x08_\x08-\x08-p\x08p".toList ∧
      (Page.ofText "\n       _\x08_\x08-\x08-p\x08p".toList).flags = ["-p".toList] := by
  have hletter : Strikes "p".toList "p\x08p".toList :=
    .struck (c := 'p') (by decide) (by decide) ['p'] (by simp) .nil
  have hunderlined : Strikes "\n       -p".toList "\n       _\x08-p\x08p".toList :=
    .append_left "\n       ".toList
      (.struck (c := '-') (by decide) (by decide) ['_'] (by simp) hletter)
  have hbold : Strikes "-p\x08p".toList "-\x08-p\x08p".toList :=
    .struck (c := '-') (by decide) (by decide) ['-'] (by simp) (.append_left "p\x08p".toList .nil)
  have hagain : Strikes "\n       _\x08-p\x08p".toList
      "\n       _\x08_\x08-\x08-p\x08p".toList :=
    .append_left "\n       ".toList
      (.struck (c := '_') (by decide) (by decide) ['_'] (by simp) (.kept backspace hbold))
  have h := Relation.ReflTransGen.tail (.single hunderlined) hagain
  exact ⟨h, (congrArg Page.flags (ofText_overstruck h).2.1).trans (by decide +kernel)⟩

end GitShell.Help
