import GitShell.Editing.Narrow

/-!
# Text — OrderedSet

The lists that `sortedSet` makes are strictly increasing, so they hold each text once.

* `Decides`: a Boolean test for a strict total order.  `Text.le` decides the order of texts, and
  `shorterFirst` that of their lengths and then of the texts (`ShorterFirst`).
* `Decides.pairwise_sortedSet`: an ordered set is strictly increasing.
* `pairwise_narrow`: so is what is offered.
* `mem_narrow_iff`: and where the limit cuts nothing off, all texts that start with what is typed are.
-/

namespace GitShell

/-- The test `le` decides the strict order `r` of different texts. -/
structure Decides (le : Text → Text → Bool) (r : Text → Text → Prop) : Prop where
  lt_of_le : ∀ {t u}, t ≠ u → le t u = true → r t u
  lt_of_not_le : ∀ {t u}, le t u = false → r u t
  trans : ∀ {t u v}, r t u → r u v → r t v

namespace Decides

variable {le : Text → Text → Bool} {r : Text → Text → Prop}

theorem pairwise_insertNew (h : Decides le r) (t : Text) {us : List Text} (hus : us.Pairwise r) :
    (Text.insertNew le t us).Pairwise r := by
  induction us with
  | nil => exact List.pairwise_singleton r t
  | cons u us ih =>
      obtain ⟨hu, htail⟩ := List.pairwise_cons.mp hus
      rw [Text.insertNew]
      split
      · exact hus
      next hne =>
        split
        next hle =>
          have htu : r t u := h.lt_of_le hne hle
          refine List.pairwise_cons.mpr ⟨fun v hv => ?_, hus⟩
          rcases List.mem_cons.mp hv with rfl | hv
          · exact htu
          · exact h.trans htu (hu v hv)
        next hle =>
          refine List.pairwise_cons.mpr ⟨fun v hv => ?_, ih htail⟩
          rcases Text.mem_insertNew.mp hv with rfl | hv
          · exact h.lt_of_not_le (Bool.eq_false_iff.mpr hle)
          · exact hu v hv

/-- **An ordered set is strictly increasing.** -/
theorem pairwise_sortedSet (h : Decides le r) (ts : List Text) :
    (Text.sortedSet le ts).Pairwise r := by
  induction ts with
  | nil => exact .nil
  | cons t ts ih => exact h.pairwise_insertNew t ih

end Decides

/-! ### The two orders -/

theorem Text.le_iff (t u : Text) : Text.le t u = true ↔ t = u ∨ t < u := by
  induction t generalizing u with
  | nil => cases u <;> simp [Text.le]
  | cons c t ih =>
      cases u with
      | nil => simp [Text.le]
      | cons d u =>
          by_cases h : c = d
          · simp [Text.le, h, ih]
          · have hlt : c.toNat < d.toNat ↔ c < d := UInt32.lt_iff_toNat_lt.symm
            simp [Text.le, h, hlt, List.cons_lt_cons_iff]

/-- The order of candidates: by length, and texts of one length in their order. -/
def ShorterFirst (t u : Text) : Prop := t.length < u.length ∨ t.length = u.length ∧ t < u

theorem shorterFirst_iff (t u : Text) : shorterFirst t u = true ↔ t = u ∨ ShorterFirst t u := by
  rw [shorterFirst, Bool.or_eq_true, Bool.and_eq_true, decide_eq_true_eq, beq_iff_eq, Text.le_iff,
    ShorterFirst]
  constructor
  · rintro (h | ⟨h, rfl | hlt⟩)
    · exact .inr (.inl h)
    · exact .inl rfl
    · exact .inr (.inr ⟨h, hlt⟩)
  · rintro (rfl | h | ⟨h, hlt⟩)
    · exact .inr ⟨rfl, .inl rfl⟩
    · exact .inl h
    · exact .inr ⟨h, .inr hlt⟩

theorem Text.decides_le : Decides Text.le (· < ·) where
  lt_of_le hne h := ((Text.le_iff _ _).mp h).resolve_left hne
  lt_of_not_le {t u} h := by
    have htotal := Text.le_total t u
    rw [h, Bool.false_or, Text.le_iff] at htotal
    rcases htotal with rfl | hlt
    · rw [Text.le_refl] at h
      cases h
    · exact hlt
  trans := List.lt_trans

theorem decides_shorterFirst : Decides shorterFirst ShorterFirst where
  lt_of_le hne h := ((shorterFirst_iff _ _).mp h).resolve_left hne
  lt_of_not_le {t u} h := by
    simp only [shorterFirst, Bool.or_eq_false_iff, Bool.and_eq_false_iff, decide_eq_false_iff_not,
      beq_eq_false_iff_ne] at h
    rcases h.2 with hne | hle
    · exact .inl (by omega)
    · by_cases hlen : t.length = u.length
      · exact .inr ⟨hlen.symm, Text.decides_le.lt_of_not_le hle⟩
      · exact .inl (by omega)
  trans := by
    rintro t u v (h₁ | ⟨h₁, hlt₁⟩) (h₂ | ⟨h₂, hlt₂⟩)
    · exact .inl (Nat.lt_trans h₁ h₂)
    · exact .inl (h₂ ▸ h₁)
    · exact .inl (h₁ ▸ h₂)
    · exact .inr ⟨h₁.trans h₂, List.lt_trans hlt₁ hlt₂⟩

/-- What is offered is strictly increasing. -/
theorem pairwise_narrow (candidates : List Text) (typed : Text) (limit : Nat) :
    (narrow candidates typed limit).Pairwise ShorterFirst :=
  (decides_shorterFirst.pairwise_sortedSet _).sublist (List.take_sublist _ _)

/-! ### Nothing is cut off -/

theorem Text.length_insertNew_le (le : Text → Text → Bool) (t : Text) (us : List Text) :
    (insertNew le t us).length ≤ us.length + 1 := by
  induction us with
  | nil => exact Nat.le_refl 1
  | cons u us ih =>
      rw [insertNew]
      split
      · exact Nat.le_succ _
      split
      · exact Nat.le_refl _
      · exact Nat.succ_le_succ ih

theorem Text.length_sortedSet_le (le : Text → Text → Bool) (ts : List Text) :
    (sortedSet le ts).length ≤ ts.length := by
  induction ts with
  | nil => exact Nat.le_refl 0
  | cons t ts ih => exact Nat.le_trans (length_insertNew_le le t _) (Nat.succ_le_succ ih)

/-- If there are no more candidates than the limit, those that start with the typed text are
offered. -/
theorem mem_narrow_iff {candidates : List Text} {typed t : Text} {limit : Nat}
    (h : candidates.length ≤ limit) :
    t ∈ narrow candidates typed limit ↔ t ∈ candidates ∧ typed <+: t := by
  have hlength : (Text.sortedSet shorterFirst (candidates.filter typed.isPrefixOf)).length ≤ limit :=
    Nat.le_trans (Text.length_sortedSet_le _ _) (Nat.le_trans (List.length_filter_le _ _) h)
  rw [narrow, List.take_of_length_le hlength, Text.mem_sortedSet, List.mem_filter,
    List.isPrefixOf_iff_prefix]

end GitShell
