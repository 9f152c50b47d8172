import GitShell.Proofs.Editing.Answers
import GitShell.Proofs.Text.ByteOrder
import Mathlib.Data.List.Dedup

/-!
# Editing — Enumeration

What is offered for a typed text is the start of one list: the candidates that continue the text, each
once, by the number of characters and then byte by byte (`Enumerates`).

* `Enumerates.eq`: there is one such list.
* `narrow_of_enumerates`: what is offered is its start.
* `head?_narrow`: the typed text itself comes first, if it is a candidate.
* `narrow_enumerates`: so what is offered depends on the set of candidates only, a larger limit goes
  on where a smaller one stops, and what was narrowed can be narrowed further.
-/

namespace GitShell

/-- The order in which candidates are offered: by the number of characters, and then byte by byte. -/
def Precedes (t u : Text) : Prop := t.length < u.length ∨ t.length = u.length ∧ t.bytes < u.bytes

/-- The list has the candidates that continue the typed text, each once, in the order in which they
are offered. -/
structure Enumerates (candidates : List Text) (typed : Text) (all : List Text) : Prop where
  increasing : all.Pairwise Precedes
  mem_iff : ∀ t, t ∈ all ↔ t ∈ candidates ∧ typed <+: t

section
variable {candidates all : List Text} {typed : Text}

/-- All that is offered where there is no limit. -/
def enumeration (candidates : List Text) (typed : Text) : List Text :=
  Text.sortedSet shorterFirst (candidates.filter typed.isPrefixOf)

theorem enumerates_enumeration (candidates : List Text) (typed : Text) :
    Enumerates candidates typed (enumeration candidates typed) where
  increasing := (decides_shorterFirst.pairwise_sortedSet _).imp shorterFirst_iff_bytes.mp
  mem_iff t := by
    rw [enumeration, Text.mem_sortedSet, List.mem_filter, List.isPrefixOf_iff_prefix]

theorem Enumerates.pairwise (h : Enumerates candidates typed all) : all.Pairwise ShorterFirst :=
  h.increasing.imp shorterFirst_iff_bytes.mpr

/-- **There is one such list.** -/
theorem Enumerates.eq (h : Enumerates candidates typed all) :
    all = enumeration candidates typed := by
  have hall := (enumerates_enumeration candidates typed)
  refine h.pairwise.eq_of_mem_iff hall.pairwise fun t => ?_
  rw [h.mem_iff, hall.mem_iff]

/-- **What is offered** is the start of the list. -/
theorem narrow_of_enumerates (h : Enumerates candidates typed all) (limit : Nat) :
    narrow candidates typed limit = all.take limit := by
  rw [h.eq]
  rfl

/-- The list has no repetitions, so its length is the number of candidates that continue the text. -/
theorem Enumerates.length_eq (h : Enumerates candidates typed all) :
    all.length = (candidates.filter typed.isPrefixOf).dedup.length := by
  have hnodup : all.Nodup := h.pairwise.imp fun hlt => by
    rintro rfl
    exact Std.Irrefl.irrefl _ hlt
  refine ((List.perm_ext_iff_of_nodup hnodup (List.nodup_dedup _)).mpr fun t => ?_).length_eq
  rw [h.mem_iff, List.mem_dedup, List.mem_filter, List.isPrefixOf_iff_prefix]

/-- A text does not come before what it is continued to. -/
theorem not_shorterFirst_continued {t u : Text} (h : t <+: u) : ¬ ShorterFirst u t := by
  rintro (hlt | ⟨heq, hlt⟩)
  · exact absurd h.length_le (Nat.not_le_of_lt hlt)
  · rw [h.eq_of_length heq.symm] at hlt
    exact List.lt_irrefl _ hlt

/-- **The typed text comes first**, if it is a candidate. -/
theorem head?_narrow (h : typed ∈ candidates) {limit : Nat} (hlimit : 0 < limit) :
    (narrow candidates typed limit).head? = some typed := by
  have hall := enumerates_enumeration candidates typed
  rw [narrow_of_enumerates hall, List.head?_take, if_neg (Nat.ne_of_gt hlimit)]
  have hmem : typed ∈ enumeration candidates typed := (hall.mem_iff _).mpr ⟨h, List.prefix_rfl⟩
  generalize enumeration candidates typed = all at *
  cases all with
  | nil => cases hmem
  | cons t all =>
      rcases List.mem_cons.mp hmem with rfl | hmem
      · rfl
      · have hprefix : typed <+: t := ((hall.mem_iff t).mp List.mem_cons_self).2
        have hbefore := (List.pairwise_cons.mp hall.pairwise).1 typed hmem
        exact absurd hbefore (not_shorterFirst_continued hprefix)

/-- What is offered for a text is enough for what it is continued to, as long as nothing is cut off. -/
theorem narrow_further (h : Enumerates candidates typed all) {longer : Text} {wide : Nat}
    (hlonger : typed <+: longer) (hwide : all.length ≤ wide) (limit : Nat) :
    narrow (narrow candidates typed wide) longer limit = narrow candidates longer limit := by
  refine narrow_congr (fun t ht => ?_) limit
  rw [narrow_of_enumerates h, List.take_of_length_le hwide, h.mem_iff]
  exact and_iff_left (hlonger.trans ht)

end

/-- **What is offered for a typed text** is the start of the list of the candidates that continue it,
each once, by the number of characters and then byte by byte.  So it depends only on the set of
candidates, what was narrowed stays as it is, a smaller limit gives a part of what a larger one gives,
what is narrowed for a text can be narrowed for a longer one, and the text itself comes first. -/
theorem narrow_enumerates (candidates : List Text) (typed : Text) :
    ∃ all, (∀ ts, Enumerates candidates typed ts ↔ ts = all) ∧
      all.length = (candidates.filter typed.isPrefixOf).dedup.length ∧
      (∀ limit, narrow candidates typed limit = all.take limit ∧
        (narrow candidates typed limit).length = min limit all.length) ∧
      (∀ others : List Text, (∀ t, t ∈ others ↔ t ∈ candidates) →
        ∀ limit, narrow others typed limit = narrow candidates typed limit) ∧
      (∀ limit, narrow (narrow candidates typed limit) typed limit = narrow candidates typed limit) ∧
      (∀ fewer limit, fewer ≤ limit →
        narrow candidates typed fewer <+: narrow candidates typed limit) ∧
      (∀ longer wide limit, typed <+: longer → all.length ≤ wide →
        narrow (narrow candidates typed wide) longer limit = narrow candidates longer limit) ∧
      (typed ∈ candidates → ∀ limit, 0 < limit →
        (narrow candidates typed limit).head? = some typed) := by
  have hall := enumerates_enumeration candidates typed
  refine ⟨enumeration candidates typed, fun ts => ⟨Enumerates.eq, ?_⟩, hall.length_eq,
    fun limit => ⟨narrow_of_enumerates hall limit, ?_⟩, fun others h => ?_, ?_, ?_, ?_, ?_⟩
  · rintro rfl
    exact hall
  · rw [narrow_of_enumerates hall, List.length_take]
  · exact narrow_congr fun t _ => h t
  · exact narrow_narrow candidates typed
  · intro fewer limit hle
    rw [narrow_of_enumerates hall, narrow_of_enumerates hall]
    exact List.take_prefix_take_left hle
  · intro longer wide limit hlonger hwide
    exact narrow_further hall hlonger hwide limit
  · intro h limit hlimit
    exact head?_narrow h hlimit

/-- Branches with letters of one byte and of two, one of them given twice. -/
def accentedBranches : List Text := ["née", "é", "né", "nz", "n", "né"].map String.toList

/-- Two of them, of two characters each, are in the order of their bytes. -/
theorem narrow_enumerates_accented :
    "n".toList ∈ accentedBranches ∧
      narrow accentedBranches "n".toList 3 = ["n", "nz", "né"].map String.toList ∧
      (narrow accentedBranches "n".toList 3).head? = some "n".toList ∧
      narrow accentedBranches.reverse "n".toList 3 = narrow accentedBranches "n".toList 3 ∧
      narrow (narrow accentedBranches "n".toList 4) "né".toList 1 = ["né".toList] := by
  obtain ⟨all, hall, hlength, htake, hset, -, -, hfurther, hfirst⟩ :=
    narrow_enumerates accentedBranches "n".toList
  have hmem : "n".toList ∈ accentedBranches := by decide
  have hwide : all.length ≤ 4 := by rw [hlength]; decide
  refine ⟨hmem, by decide, hfirst hmem 3 (by decide), hset _ (fun t => List.mem_reverse) 3, ?_⟩
  rw [hfurther "né".toList 4 1 (by decide) hwide]
  decide

end GitShell
