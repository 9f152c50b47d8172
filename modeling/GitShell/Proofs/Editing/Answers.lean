import GitShell.Proofs.Editing.LastWord
import GitShell.Proofs.Text.OrderedSet
import Mathlib.Data.List.Perm.Subperm
import Mathlib.Data.List.Sort

/-!
# Editing — Answers

Metadata may filter, sort and cut their lists as they like: the editor does it again, and the result
is the same.

* `narrow_congr`: what is offered depends only on which of the candidates continue the typed text.
* `Hinted`: what metadata may do to a list that they were asked for, with a typed text and a limit
  as hints; `Hinted.narrow_eq`: the editor cannot tell.
* `Metadata.HintedBy`: metadata that answer as others do, but for this; `completeAt_of_hintedBy`:
  they complete every line as the others do.
-/

namespace GitShell

/-! ### What is offered -/

instance : Std.Irrefl ShorterFirst where
  irrefl t h := by
    rcases h with h | ⟨-, h⟩
    · exact Nat.lt_irrefl _ h
    · exact List.lt_irrefl t h

instance : Std.Antisymm ShorterFirst where
  antisymm _ _ h₁ h₂ := absurd (decides_shorterFirst.trans h₁ h₂) (Std.Irrefl.irrefl _)

/-- A strictly increasing list is told by its members. -/
theorem sortedSet_shorterFirst_eq_iff {ts us : List Text} (hus : us.Pairwise ShorterFirst) :
    Text.sortedSet shorterFirst ts = us ↔ ∀ t, t ∈ ts ↔ t ∈ us := by
  constructor
  · rintro rfl t
    exact Text.mem_sortedSet.symm
  · intro h
    refine (decides_shorterFirst.pairwise_sortedSet ts).eq_of_mem_iff hus fun t => ?_
    rw [Text.mem_sortedSet, h]

/-- **Only the candidates that continue the typed text count**, whatever their order and however
often they come. -/
theorem narrow_congr {ts us : List Text} {typed : Text}
    (h : ∀ t, typed <+: t → (t ∈ ts ↔ t ∈ us)) (limit : Nat) :
    narrow ts typed limit = narrow us typed limit := by
  have hset : Text.sortedSet shorterFirst (ts.filter typed.isPrefixOf) =
      Text.sortedSet shorterFirst (us.filter typed.isPrefixOf) := by
    refine (sortedSet_shorterFirst_eq_iff (decides_shorterFirst.pairwise_sortedSet _)).mpr
      fun t => ?_
    simp only [Text.mem_sortedSet, List.mem_filter, List.isPrefixOf_iff_prefix]
    exact and_congr_left (h t)
  rw [narrow, hset, narrow]

/-- **What was narrowed once stays as it is**: nothing that is offered was cut off. -/
theorem narrow_narrow (ts : List Text) (typed : Text) (limit : Nat) :
    narrow (narrow ts typed limit) typed limit = narrow ts typed limit := by
  have hkept : (narrow ts typed limit).filter typed.isPrefixOf = narrow ts typed limit :=
    List.filter_eq_self.mpr fun t ht => List.isPrefixOf_iff_prefix.mpr (mem_of_mem_narrow ht).2
  have hsorted : Text.sortedSet shorterFirst (narrow ts typed limit) = narrow ts typed limit :=
    (sortedSet_shorterFirst_eq_iff (pairwise_narrow ts typed limit)).mpr fun _ => Iff.rfl
  rw [narrow, hkept, hsorted, List.take_of_length_le (length_narrow_le ts typed limit)]

/-! ### Hints -/

/-- What may be answered in place of the list `ts` to a question that comes with a typed text and a
limit. -/
inductive Hinted (typed : Text) (limit : Nat) (ts : List Text) : List Text → Prop where
  /-- What the editor would make of the list, -/
  | narrowed : Hinted typed limit ts (narrow ts typed limit)
  /-- the list in another order, -/
  | permuted {us : List Text} (h : us.Perm ts) : Hinted typed limit ts us
  /-- or the list and more: repetitions, and entries that do not continue the typed text. -/
  | padded {us : List Text} (hkept : ts.Subperm us) (hmore : ∀ u ∈ us, u ∈ ts ∨ ¬ typed <+: u) :
      Hinted typed limit ts us

/-- The editor offers the same. -/
theorem Hinted.narrow_eq {typed : Text} {limit : Nat} {ts us : List Text}
    (h : Hinted typed limit ts us) : narrow us typed limit = narrow ts typed limit := by
  cases h with
  | narrowed => exact narrow_narrow ts typed limit
  | permuted h => exact narrow_congr (fun _ _ => h.mem_iff) limit
  | padded hkept hmore =>
      refine narrow_congr (fun t ht => ⟨fun hu => ?_, fun ht => hkept.subset ht⟩) limit
      exact (hmore t hu).resolve_right fun hn => hn ht

/-- Two actions have the same effects, and results of which the second is one that the first may be
answered with. -/
def Related {m : Type → Type} [Functor m] {α β : Type} (r : α → β → Prop) (x : m α) (y : m β) :
    Prop :=
  ∃ both : m {p : α × β // r p.1 p.2}, x = (·.val.1) <$> both ∧ y = (·.val.2) <$> both

theorem related_pure {m : Type → Type} [Monad m] [LawfulMonad m] {α β : Type} {r : α → β → Prop}
    {a : α} {b : β} (h : r a b) : Related r (pure a : m α) (pure b : m β) := by
  refine ⟨pure ⟨(a, b), h⟩, ?_, ?_⟩
  · rw [map_pure]
  · rw [map_pure]

theorem Related.map_eq {m : Type → Type} [Functor m] [LawfulFunctor m] {α β γ : Type}
    {r : α → β → Prop} {x : m α} {y : m β} (h : Related r x y) {f : α → γ} {g : β → γ}
    (hfg : ∀ a b, r a b → f a = g b) : f <$> x = g <$> y := by
  obtain ⟨both, rfl, rfl⟩ := h
  rw [← comp_map, ← comp_map]
  exact congrArg (· <$> both) (funext fun p => hfg _ _ p.property)

/-- The action and what is made of its result. -/
theorem related_map {m : Type → Type} [Functor m] [LawfulFunctor m] {α β : Type}
    {r : α → β → Prop} {f : α → β} (h : ∀ a, r a (f a)) (x : m α) : Related r x (f <$> x) := by
  refine ⟨(fun a => ⟨(a, f a), h a⟩) <$> x, ?_, ?_⟩
  · rw [← comp_map]
    exact (id_map x).symm
  · rw [← comp_map]
    rfl

section
variable {m : Type → Type} [Monad m]

/-- `M'` answer as `M` do, but that they may heed the hints in their own way, differently for each
question. -/
structure Metadata.HintedBy (M M' : Metadata m) : Prop where
  commandNames : M'.commandNames = M.commandNames
  isCommand : M'.isCommand = M.isCommand
  optionPrefixes : M'.optionPrefixes = M.optionPrefixes
  branchNames : ∀ typed limit,
    Related (Hinted typed limit) (M.branchNames typed limit) (M'.branchNames typed limit)
  stagedFiles : ∀ typed limit,
    Related (Hinted typed limit) (M.stagedFiles typed limit) (M'.stagedFiles typed limit)
  unstagedFiles : ∀ typed limit,
    Related (Hinted typed limit) (M.unstagedFiles typed limit) (M'.unstagedFiles typed limit)
  filePaths : ∀ typed limit,
    Related (Hinted typed limit) (M.filePaths typed limit) (M'.filePaths typed limit)

/-- A list from the metadata counts only as far as it is narrowed. -/
theorem Plan.completion_of_hinted [LawfulMonad m] (p : Plan) (limit : Nat)
    {x y : m (List Text)} (h : Related (Hinted p.typed limit) x y) :
    p.completion limit <$> some <$> y = p.completion limit <$> some <$> x := by
  rw [← comp_map, ← comp_map]
  refine (h.map_eq fun ts us hu => ?_).symm
  simp only [Function.comp_apply, completion, Option.map_some, hu.narrow_eq]

/-- **Hints are only hints**: every line is completed in the same way. -/
theorem completeAt_of_hintedBy [LawfulMonad m] {M M' : Metadata m} (h : M.HintedBy M')
    (line : Text) (limit : Nat) : completeAt M' line limit = completeAt M line limit := by
  cases hp : Plan.ofLine line with
  | none => rw [completeAt_eq_none M' hp, completeAt_eq_none M hp]
  | some p =>
      rw [completeAt_eq M' hp, completeAt_eq M hp]
      cases p.source with
      | commands => simp only [Source.candidates, h.isCommand, h.commandNames]
      | options command => simp only [Source.candidates, h.optionPrefixes]
      | files => exact p.completion_of_hinted limit (h.filePaths p.typed limit)
      | branches => exact p.completion_of_hinted limit (h.branchNames p.typed limit)
      | staged => exact p.completion_of_hinted limit (h.stagedFiles p.typed limit)
      | unstaged => exact p.completion_of_hinted limit (h.unstagedFiles p.typed limit)

end

end GitShell
