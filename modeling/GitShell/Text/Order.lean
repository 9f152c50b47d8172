import GitShell.Text.Basic

/-!
# Text — Order

Texts in the order of their code points, the shorter of two texts first where one begins the
other.  An ordered set of texts is a sorted list that holds each text once.
-/

namespace GitShell.Text

/-- `t` comes before `u` or is `u`, by code points. -/
def le : Text → Text → Bool
  | [], _ => true
  | _ :: _, [] => false
  | c :: t, d :: u => if c = d then le t u else c.toNat < d.toNat

theorem le_refl (t : Text) : le t t = true := by
  induction t with
  | nil => rfl
  | cons c t ih => simp [le, ih]

theorem le_total (t u : Text) : (le t u || le u t) = true := by
  induction t generalizing u with
  | nil => simp [le]
  | cons c t ih =>
    cases u with
    | nil => simp [le]
    | cons d u =>
      by_cases h : c = d
      · simpa [le, h] using ih u
      · have hn : c.toNat ≠ d.toNat := fun e => h (Char.toNat_inj.mp e)
        have hd : ¬ d = c := fun e => h e.symm
        simp only [le, h, hd, if_false, Bool.or_eq_true, decide_eq_true_eq]
        omega

theorem le_trans (t u v : Text) (h₁ : le t u = true) (h₂ : le u v = true) : le t v = true := by
  induction t generalizing u v with
  | nil => simp [le]
  | cons c t ih =>
    cases u with
    | nil => simp [le] at h₁
    | cons d u =>
      cases v with
      | nil => simp [le] at h₂
      | cons e v =>
        by_cases hcd : c = d <;> by_cases hde : d = e
        · subst hcd hde; simp only [le, if_true] at *; exact ih u v h₁ h₂
        · subst hcd; simpa [le, hde] using h₂
        · subst hde; simpa [le, hcd] using h₁
        · simp only [le, hcd, hde, if_false, decide_eq_true_eq] at h₁ h₂
          have hce : c ≠ e := fun he => by subst he; omega
          simp only [le, hce, if_false, decide_eq_true_eq]
          omega

/-- Only equal texts come before each other both ways. -/
theorem le_antisymm (t u : Text) (h₁ : le t u = true) (h₂ : le u t = true) : t = u := by
  induction t generalizing u with
  | nil => cases u with
    | nil => rfl
    | cons d u => simp [le] at h₂
  | cons c t ih =>
    cases u with
    | nil => simp [le] at h₁
    | cons d u =>
      by_cases h : c = d
      · subst h; simp only [le, if_true] at h₁ h₂; rw [ih u h₁ h₂]
      · have hd : ¬ d = c := fun e => h e.symm
        simp only [le, h, hd, if_false, decide_eq_true_eq] at h₁ h₂
        omega

/-! ### Ordered sets -/

/-- Puts a text at its place in a list that is sorted by `le`, unless it is there already. -/
def insertNew (le : Text → Text → Bool) (t : Text) : List Text → List Text
  | [] => [t]
  | u :: us =>
    if t = u then u :: us
    else if le t u then t :: u :: us
    else u :: insertNew le t us

theorem mem_insertNew {le : Text → Text → Bool} {t x : Text} {us : List Text} :
    x ∈ insertNew le t us ↔ x = t ∨ x ∈ us := by
  induction us with
  | nil => simp [insertNew]
  | cons u us ih => grind [insertNew]

/-- The different texts of a list, sorted by `le`. -/
def sortedSet (le : Text → Text → Bool) (ts : List Text) : List Text :=
  ts.foldr (insertNew le) []

theorem mem_sortedSet {le : Text → Text → Bool} {x : Text} {ts : List Text} :
    x ∈ sortedSet le ts ↔ x ∈ ts := by
  induction ts with
  | nil => simp [sortedSet]
  | cons t ts ih => simp only [sortedSet, List.foldr_cons, mem_insertNew, List.mem_cons] at *; rw [ih]

example : sortedSet le ["b".toList, "ab".toList, "b".toList] = ["ab".toList, "b".toList] := by
  decide

end GitShell.Text
