import Mathlib.Data.List.SplitBy

/-!
# Split

Cutting a list into runs (`List.splitBy`), one element at a time from the left.

* `exists_splitBy_cons`, `splitBy_cons_of_rel`, `splitBy_cons_of_not_rel`: a further element joins
  the first run or makes one of its own.
* `splitBy_map`: the runs of an image are the images of the runs.
* `splitBy_before`: to cut before every element of a class is to take the elements up to the first
  of them, and then the runs that start with one (`cutBefore`).
-/

namespace GitShell

variable {α : Type}

theorem exists_splitBy_cons (r : α → α → Bool) (a : α) (l : List α) :
    ∃ s ss, (a :: l).splitBy r = (a :: s) :: ss := by
  cases h : (a :: l).splitBy r with
  | nil => exact absurd (List.splitBy_eq_nil.mp h) (List.cons_ne_nil a l)
  | cons s ss =>
      have hne : s ≠ [] := List.ne_nil_of_mem_splitBy (h ▸ List.mem_cons_self)
      obtain ⟨x, s, rfl⟩ := List.exists_cons_of_ne_nil hne
      have hf := List.flatten_splitBy r (a :: l)
      rw [h, List.flatten_cons, List.cons_append, List.cons.injEq] at hf
      exact ⟨s, ss, by rw [hf.1]⟩

theorem splitBy_cons_of_not_rel {r : α → α → Bool} {a b : α} (h : r a b = false) (l : List α) :
    (a :: b :: l).splitBy r = [a] :: (b :: l).splitBy r :=
  List.splitBy_append_cons (l := [a]) l (by simpa using h)

theorem splitBy_cons_of_rel {r : α → α → Bool} {a b : α} {l s : List α} {ss : List (List α)}
    (h : r a b = true) (hs : (b :: l).splitBy r = s :: ss) :
    (a :: b :: l).splitBy r = (a :: s) :: ss := by
  obtain ⟨s', ss', hs'⟩ := exists_splitBy_cons r b l
  rw [hs'] at hs
  cases hs
  obtain ⟨hf, hn, hc, hj⟩ := List.splitBy_eq_iff.mp hs'
  refine List.splitBy_eq_iff.mpr ⟨by simp [hf], ?_, ?_, ?_⟩
  · simpa using hn
  · intro m hm
    rcases List.mem_cons.mp hm with rfl | hm
    · exact List.isChain_cons_cons.mpr ⟨h, hc _ List.mem_cons_self⟩
    · exact hc m (List.mem_cons_of_mem _ hm)
  · cases ss with
    | nil => exact .singleton _
    | cons t ts =>
        obtain ⟨⟨_, hb, hr⟩, hts⟩ := List.isChain_cons_cons.mp hj
        refine List.isChain_cons_cons.mpr ⟨⟨List.cons_ne_nil _ _, hb, ?_⟩, hts⟩
        rw [List.getLast_cons (List.cons_ne_nil b s')]
        exact hr

theorem splitBy_map {β : Type} (f : α → β) (r : β → β → Bool) (l : List α) :
    (l.map f).splitBy r = (l.splitBy fun a b => r (f a) (f b)).map (List.map f) := by
  induction l with
  | nil => rfl
  | cons a l ih =>
      cases l with
      | nil => rfl
      | cons b l =>
          obtain ⟨s, ss, hs⟩ := exists_splitBy_cons (fun a b => r (f a) (f b)) b l
          rw [hs, List.map_cons, List.map_cons, List.map_cons] at ih
          rw [List.map_cons, List.map_cons]
          cases h : r (f a) (f b) with
          | true =>
              rw [splitBy_cons_of_rel h ih,
                splitBy_cons_of_rel (r := fun a b => r (f a) (f b)) h hs]
              rfl
          | false =>
              rw [splitBy_cons_of_not_rel h, ih,
                splitBy_cons_of_not_rel (r := fun a b => r (f a) (f b)) h, hs]
              rfl

/-- The elements before the first one that satisfies `p`, and the runs that start with such an
element. -/
def cutBefore (p : α → Bool) : List α → List α × List (List α)
  | [] => ([], [])
  | a :: l =>
    let (s, ss) := cutBefore p l
    if p a then ([], (a :: s) :: ss) else (a :: s, ss)

theorem cutBefore_of_pos {p : α → Bool} {a : α} (h : p a = true) (l : List α) :
    cutBefore p (a :: l) = ([], (a :: (cutBefore p l).1) :: (cutBefore p l).2) := by
  simp [cutBefore, h]

theorem cutBefore_of_neg {p : α → Bool} {a : α} (h : p a = false) (l : List α) :
    cutBefore p (a :: l) = (a :: (cutBefore p l).1, (cutBefore p l).2) := by
  simp [cutBefore, h]

theorem splitBy_before (p : α → Bool) (a : α) (l : List α) :
    (a :: l).splitBy (fun _ b => !p b) = (a :: (cutBefore p l).1) :: (cutBefore p l).2 := by
  induction l generalizing a with
  | nil => rfl
  | cons b l ih =>
      cases hb : p b with
      | true =>
          rw [splitBy_cons_of_not_rel (by simp [hb]), ih b, cutBefore_of_pos hb]
      | false =>
          rw [splitBy_cons_of_rel (by simp [hb]) (ih b), cutBefore_of_neg hb]

end GitShell
