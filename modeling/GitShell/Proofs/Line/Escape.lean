import GitShell.Line.Scan

/-!
# Line — Escape

A backslash escapes the character after it, a backslash included, so whether a position is escaped
is decided from the left (`escapedAt`).  A text whose characters of some class are all escaped can
be scanned over; the scanner stops at the first one that is not.

* `exists_first_unescaped`: a text either escapes all characters of a class or has a first
  unescaped one.
* `splitWord_eq`: an unquoted word goes up to the first unescaped character that ends it.
* `QuotedTail.read_closed`, `QuotedTail.read_open`: a quoted word goes up to the first unescaped
  delimiter, or to the end of the line where there is none; its content is the inside unescaped.
-/

namespace GitShell

/-! ### Escaped positions -/

/-- Position `i` of a text comes right after a backslash that is not escaped itself. -/
def escapedAt (t : Text) : Nat → Bool
  | 0 => false
  | i + 1 => t[i]? == some '\\' && !escapedAt t i

/-- The characters of `t` that satisfy `p` are all escaped. -/
def OnlyEscaped (p : Char → Bool) (t : Text) : Prop :=
  ∀ i c, t[i]? = some c → p c = true → escapedAt t i = true

/-- The text inside `d`-quotes with the backslashes gone that escape `d` or a backslash. -/
def unescape (d : Char) : Text → Text
  | '\\' :: e :: r => if e = d ∨ e = '\\' then e :: unescape d r else '\\' :: e :: unescape d r
  | c :: r => c :: unescape d r
  | [] => []

/-- A backslash is taken off a text with the character it escapes, every other character alone. -/
@[elab_as_elim]
theorem escape_induction {motive : Text → Prop} (nil : motive []) (dangling : motive ['\\'])
    (escaped : ∀ e t, motive t → motive ('\\' :: e :: t))
    (plain : ∀ c t, c ≠ '\\' → motive t → motive (c :: t)) : ∀ t, motive t
  | [] => nil
  | [c] => by
      by_cases hc : c = '\\'
      · exact hc ▸ dangling
      · exact plain c [] hc nil
  | c :: e :: t => by
      by_cases hc : c = '\\'
      · exact hc ▸ escaped e t (escape_induction nil dangling escaped plain t)
      · exact plain c (e :: t) hc (escape_induction nil dangling escaped plain (e :: t))

theorem escapedAt_plain {c : Char} (hc : c ≠ '\\') (t : Text) (i : Nat) :
    escapedAt (c :: t) (i + 1) = escapedAt t i := by
  induction i with
  | zero => simp [escapedAt, hc]
  | succ i ih => rw [escapedAt, ih, escapedAt, List.getElem?_cons_succ]

theorem escapedAt_escaped (e : Char) (t : Text) (i : Nat) :
    escapedAt ('\\' :: e :: t) (i + 2) = escapedAt t i := by
  induction i with
  | zero => simp [escapedAt]
  | succ i ih => rw [escapedAt, ih, escapedAt, List.getElem?_cons_succ, List.getElem?_cons_succ]

/-! ### Texts that can be scanned over -/

section
variable {p : Char → Bool}

theorem onlyEscaped_nil : OnlyEscaped p [] := by
  intro i c h
  simp at h

theorem onlyEscaped_dangling (hp : p '\\' = false) : OnlyEscaped p ['\\'] := by
  intro i c h hc
  cases i with
  | zero => cases h; rw [hp] at hc; cases hc
  | succ i => simp at h

theorem onlyEscaped_plain {c : Char} (hc : c ≠ '\\') {t : Text} :
    OnlyEscaped p (c :: t) ↔ p c = false ∧ OnlyEscaped p t := by
  constructor
  · intro h
    refine ⟨Bool.eq_false_iff.mpr fun hpc => ?_, fun i x hx hpx => ?_⟩
    · exact absurd (h 0 c rfl hpc) (by simp [escapedAt])
    · rw [← escapedAt_plain hc]
      exact h (i + 1) x hx hpx
  · rintro ⟨hpc, h⟩ i x hx hpx
    cases i with
    | zero => cases hx; rw [hpc] at hpx; cases hpx
    | succ i => rw [escapedAt_plain hc]; exact h i x hx hpx

theorem onlyEscaped_escaped (hp : p '\\' = false) {e : Char} {t : Text} :
    OnlyEscaped p ('\\' :: e :: t) ↔ OnlyEscaped p t := by
  constructor
  · intro h i x hx hpx
    rw [← escapedAt_escaped e]
    exact h (i + 2) x hx hpx
  · intro h i x hx hpx
    match i, hx with
    | 0, hx => cases hx; rw [hp] at hpx; cases hpx
    | 1, _ => rfl
    | i + 2, hx => rw [escapedAt_escaped]; exact h i x hx hpx

/-- A text is a whole number of characters and escapes: its end is not escaped. -/
def EndsUnescaped (t : Text) : Prop := escapedAt t t.length = false

instance (t : Text) : Decidable (EndsUnescaped t) := inferInstanceAs (Decidable (_ = false))

theorem endsUnescaped_nil : EndsUnescaped [] := rfl

theorem not_endsUnescaped_dangling : ¬ EndsUnescaped ['\\'] := by
  simp [EndsUnescaped, escapedAt]

theorem endsUnescaped_plain {c : Char} (hc : c ≠ '\\') {t : Text} :
    EndsUnescaped (c :: t) ↔ EndsUnescaped t := by
  rw [EndsUnescaped, List.length_cons, escapedAt_plain hc, EndsUnescaped]

theorem endsUnescaped_escaped {e : Char} {t : Text} :
    EndsUnescaped ('\\' :: e :: t) ↔ EndsUnescaped t := by
  rw [EndsUnescaped, List.length_cons, List.length_cons, escapedAt_escaped, EndsUnescaped]

/-- A text escapes all its characters of a class, or there is a first one that it does not. -/
theorem exists_first_unescaped (hp : p '\\' = false) (t : Text) :
    OnlyEscaped p t ∨ ∃ before c after, t = before ++ c :: after ∧ p c = true ∧
      OnlyEscaped p before ∧ EndsUnescaped before := by
  induction t using escape_induction with
  | nil => exact .inl onlyEscaped_nil
  | dangling => exact .inl (onlyEscaped_dangling hp)
  | escaped e t ih =>
      -- whether `e` is in the class does not matter
      rcases ih with h | ⟨before, c, after, rfl, hc, hb, hu⟩
      · exact .inl ((onlyEscaped_escaped hp).mpr h)
      · exact .inr ⟨'\\' :: e :: before, c, after, rfl, hc, (onlyEscaped_escaped hp).mpr hb,
          endsUnescaped_escaped.mpr hu⟩
  | plain x t hx ih =>
      cases hpx : p x with
      | true => exact .inr ⟨[], x, t, rfl, hpx, onlyEscaped_nil, endsUnescaped_nil⟩
      | false =>
          rcases ih with h | ⟨before, c, after, rfl, hc, hb, hu⟩
          · exact .inl ((onlyEscaped_plain hx).mpr ⟨hpx, h⟩)
          · exact .inr ⟨x :: before, c, after, rfl, hc, (onlyEscaped_plain hx).mpr ⟨hpx, hb⟩,
              (endsUnescaped_plain hx).mpr hu⟩

end

/-! ### Unquoted words -/

/-- None of the characters of `--` ends a word. -/
theorem onlyEscaped_dashes : OnlyEscaped endsWord ['-', '-'] := by
  have hd : ('-' : Char) ≠ '\\' := by decide
  have he : endsWord '-' = false := by decide
  exact (onlyEscaped_plain hd).mpr ⟨he, (onlyEscaped_plain hd).mpr ⟨he, onlyEscaped_nil⟩⟩

/-- A word may stop before `rest`: at the end of the line, or at an unescaped character that ends
words. -/
def StopsBefore (w rest : Text) : Prop :=
  ∀ c ∈ rest.head?, endsWord c = true ∧ EndsUnescaped w

theorem splitWord_plain {c : Char} (hc : c ≠ '\\') (he : endsWord c = false) (r : Text) :
    splitWord (c :: r) = (c :: (splitWord r).1, (splitWord r).2) := by
  rw [splitWord]
  · simp [he]
  · intro h; cases h; exact absurd rfl hc
  · intro e r' h; cases h; exact absurd rfl hc

/-- The scanned word is the one that escapes what would end it and stops where it may. -/
theorem splitWord_eq {w rest : Text} (hw : OnlyEscaped endsWord w) (hs : StopsBefore w rest) :
    splitWord (w ++ rest) = (w, rest) := by
  have hb : endsWord '\\' = false := by decide
  induction w using escape_induction with
  | nil =>
      cases rest with
      | nil => rfl
      | cons c r =>
          have hc : endsWord c = true := (hs c rfl).1
          have hcb : c ≠ '\\' := fun e => by rw [e, hb] at hc; cases hc
          rw [List.nil_append, splitWord]
          · simp [hc]
          · intro h; cases h; exact absurd rfl hcb
          · intro e r' h; cases h; exact absurd rfl hcb
  | dangling =>
      -- a last backslash would escape what follows, so the line ends here
      cases rest with
      | nil => rfl
      | cons c r => exact absurd (hs c rfl).2 not_endsUnescaped_dangling
  | escaped e w ih =>
      have hs' : StopsBefore w rest := fun c hc =>
        ⟨(hs c hc).1, endsUnescaped_escaped.mp (hs c hc).2⟩
      simp only [List.cons_append, splitWord, ih ((onlyEscaped_escaped hb).mp hw) hs']
  | plain c w hc ih =>
      obtain ⟨he, hw'⟩ := (onlyEscaped_plain hc).mp hw
      have hs' : StopsBefore w rest := fun x hx =>
        ⟨(hs x hx).1, (endsUnescaped_plain hc).mp (hs x hx).2⟩
      rw [List.cons_append, splitWord_plain hc he, ih hw' hs']

/-- Every text starts with a word that escapes what would end it and stops where it may. -/
theorem exists_splitWord (t : Text) : ∃ w rest, t = w ++ rest ∧ OnlyEscaped endsWord w ∧
    StopsBefore w rest ∧ splitWord t = (w, rest) := by
  rcases exists_first_unescaped (p := endsWord) (by decide) t with h | ⟨w, c, r, rfl, hc, hw, hu⟩
  · have hs : StopsBefore t [] := fun c hc => by cases hc
    exact ⟨t, [], (List.append_nil t).symm, h, hs, by simpa using splitWord_eq h hs⟩
  · have hs : StopsBefore w (c :: r) := fun x hx => by cases hx; exact ⟨hc, hu⟩
    exact ⟨w, c :: r, rfl, hw, hs, splitWord_eq hw hs⟩

/-! ### Quoted words -/

namespace QuotedTail

variable {d : Char}

theorem read_plain {c : Char} (hc : c ≠ '\\') (hd : c ≠ d) (r : Text) :
    read d (c :: r) = push [c] [c] (read d r) := by
  cases r with
  | nil => simp [read, hd, push]
  | cons e r => simp [read, hd, hc]

theorem read_escaped (hd : d ≠ '\\') (e : Char) (r : Text) :
    read d ('\\' :: e :: r) =
      push ['\\', e] (if e = d ∨ e = '\\' then [e] else ['\\', e]) (read d r) := by
  simp [read, hd.symm]

/-- Up to the first unescaped delimiter, the tail is closed. -/
theorem read_closed (hd : d ≠ '\\') {inside : Text} (hi : OnlyEscaped (· == d) inside)
    (hu : EndsUnescaped inside) (rest : Text) :
    read d (inside ++ d :: rest) = ⟨inside ++ [d], unescape d inside, true, rest⟩ := by
  have hb : ('\\' == d) = false := by simpa using hd.symm
  induction inside using escape_induction with
  | nil => cases rest <;> simp [read, unescape]
  | dangling => exact absurd hu not_endsUnescaped_dangling
  | escaped e t ih =>
      rw [List.cons_append, List.cons_append, read_escaped hd,
        ih ((onlyEscaped_escaped hb).mp hi) (endsUnescaped_escaped.mp hu)]
      by_cases he : e = d ∨ e = '\\' <;> simp [push, unescape, he]
  | plain c t hc ih =>
      obtain ⟨hcd, hi'⟩ := (onlyEscaped_plain hc).mp hi
      have hcd' : c ≠ d := by simpa using hcd
      rw [List.cons_append, read_plain hc hcd', ih hi' ((endsUnescaped_plain hc).mp hu)]
      simp [push, unescape, hc]

/-- With every delimiter escaped, the tail is the rest of the line and stays open. -/
theorem read_open (hd : d ≠ '\\') {t : Text} (ht : OnlyEscaped (· == d) t) :
    read d t = ⟨t, unescape d t, false, []⟩ := by
  have hb : ('\\' == d) = false := by simpa using hd.symm
  induction t using escape_induction with
  | nil => rfl
  | dangling => simp [read, unescape, hd.symm]
  | escaped e t ih =>
      rw [read_escaped hd, ih ((onlyEscaped_escaped hb).mp ht)]
      by_cases he : e = d ∨ e = '\\' <;> simp [push, unescape, he]
  | plain c t hc ih =>
      obtain ⟨hcd, ht'⟩ := (onlyEscaped_plain hc).mp ht
      have hcd' : c ≠ d := by simpa using hcd
      rw [read_plain hc hcd', ih ht']
      simp [push, unescape, hc]

end QuotedTail

end GitShell
