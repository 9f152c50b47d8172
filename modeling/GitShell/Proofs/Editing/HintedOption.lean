import GitShell.Proofs.Editing.Enumeration
import GitShell.Proofs.Editing.LastWord
import GitShell.Proofs.Line.Bare

/-!
# Editing — HintedOption

A hint is about an option that is also offered.  The option is the last word of the line as it is
written, since nothing in quotes has the shape of an option; the hint asks for its suffix, and the
completion for the options of the same command.

* `exists_plan_of_typedOption`: the line is completed to the options of the hinted command.
* `InEitherOrder`: what two actions give is related, whichever of them is first.
* `Metadata.ListsHinted`: an option with a suffix is among the options of its command.
* `Metadata.ListsHinted.offersHinted`: then what is hinted at is offered first.
-/

namespace GitShell

/-! ### The option that is typed -/

/-- A word with the shape of an option is not quoted, so it stands for its own characters. -/
theorem Lexeme.Shape.content_of_optionShaped {l : Lexeme} {rest : Text} (h : l.Shape rest)
    (hk : l.kind = .word) (ho : optionShaped l.raw = true) : l.content = l.raw := by
  cases h with
  | join | halfJoin | unterminated => cases hk
  | endOfOptions | word => rfl
  | @quoted d inside hd =>
      -- a quote is no dash
      have hne : d ≠ '-' := by
        rintro rfl
        cases hd
      simp [optionShaped, hne] at ho

/-- **The option that is hinted at** is the last word of the line as it is written, and the word is
completed to the options of the same command. -/
theorem exists_plan_of_typedOption {line command option : Text}
    (h : typedOption line = some (command, option)) :
    ∃ t, (tokenize line).getLast? = some t ∧ t.raw = option ∧
      Plan.ofLine line = some ⟨t.start, t.raw, .options command⟩ := by
  have hline : line.endsInWord = true := by
    by_contra hno
    rw [typedOption_eq_none (Bool.eq_false_iff.mpr hno)] at h
    cases h
  obtain ⟨left, t, hts, -⟩ := exists_last_of_endsInWord hline
  rw [typedOption_eq hline hts] at h
  have ht : t.kind.isArgument = true := by
    by_contra hno
    rw [Cursor.typedOption_of_not_argument (Bool.eq_false_iff.mpr hno)] at h
    cases h
  obtain ⟨l, c, ws, hgoverns⟩ := exists_governs ht fun p hp =>
    closed_of_tokenize hts p (List.mem_reverse.mpr hp)
  rw [hgoverns.typedOption] at h
  obtain ⟨hoption, heq⟩ := Option.ite_none_right_eq_some.mp h
  obtain ⟨rfl, rfl⟩ := Prod.mk.inj (Option.some.inj heq)
  obtain ⟨⟨⟨hws, hk⟩, hshaped⟩, -⟩ : ((ws.isEmpty = false ∧ t.kind = .word) ∧
      optionShaped t.raw = true) ∧ _ := by simpa [optionAmong] using hoption
  have htiles : Tiles line 0 (tokenize line) := tiles_place [] line
  have hcontent : t.content = t.raw :=
    (htiles.shape t (by simp [hts])).content_of_optionShaped hk hshaped
  refine ⟨t, by rw [hts, List.getLast?_concat], hcontent.symm, ?_⟩
  rw [Plan.ofLine_eq hline hts, hgoverns.ofToken, Source.ofWords, hws, hoption]
  rfl

/-! ### Two actions -/

section
variable {m : Type → Type} [Monad m] {α β γ δ : Type}

/-- One action after the other. -/
def pair (x : m α) (y : m β) : m (α × β) := do
  let a ← x
  let b ← y
  return (a, b)

/-- Whatever an action gives satisfies `p`. -/
def Gives (p : α → Prop) (x : m α) : Prop := ∃ y : m {a // p a}, x = (·.val) <$> y

/-- What two actions give is related, whichever of them is first. -/
structure InEitherOrder (r : α → β → Prop) (x : m α) (y : m β) : Prop where
  first : Gives (fun p => r p.1 p.2) (pair x y)
  last : Gives (fun p => r p.2 p.1) (pair y x)

variable [LawfulMonad m]

theorem pair_map (f : α → γ) (g : β → δ) (x : m α) (y : m β) :
    pair (f <$> x) (g <$> y) = Prod.map f g <$> pair x y := by
  simp only [pair, bind_map_left, map_bind, map_pure, Prod.map_apply]

theorem Gives.map {p : α → Prop} {q : β → Prop} {x : m α} (h : Gives p x) {f : α → β}
    (hf : ∀ a, p a → q (f a)) : Gives q (f <$> x) := by
  obtain ⟨y, rfl⟩ := h
  refine ⟨(fun a => ⟨f a.val, hf a.val a.property⟩) <$> y, ?_⟩
  rw [← comp_map, ← comp_map]
  rfl

theorem gives_of_forall {p : α → Prop} (h : ∀ a, p a) (x : m α) : Gives p x := by
  refine ⟨(fun a => ⟨a, h a⟩) <$> x, ?_⟩
  rw [← comp_map]
  exact (id_map x).symm

namespace InEitherOrder

theorem map {r : α → β → Prop} {s : γ → δ → Prop} {x : m α} {y : m β} (h : InEitherOrder r x y)
    {f : α → γ} {g : β → δ} (hfg : ∀ a b, r a b → s (f a) (g b)) :
    InEitherOrder s (f <$> x) (g <$> y) where
  first := by
    rw [pair_map]
    exact h.first.map fun p => hfg p.1 p.2
  last := by
    rw [pair_map]
    exact h.last.map fun p => hfg p.2 p.1

/-- An action without effects may come first or last. -/
theorem of_pure {r : α → β → Prop} {a : α} (h : ∀ b, r a b) (y : m β) :
    InEitherOrder r (pure a) y where
  first := by
    have hpair : pair (pure a) y = (fun b => (a, b)) <$> y := by
      rw [pair, pure_bind, bind_pure_comp]
    rw [hpair]
    exact (gives_of_forall h y).map fun b hb => hb
  last := by
    have hpair : pair y (pure a) = (fun b => (b, a)) <$> y := by
      simp only [pair, bind_pure_comp, map_pure]
    rw [hpair]
    exact (gives_of_forall h y).map fun b hb => hb

/-- Without effects the order does not matter. -/
theorem id_iff {r : α → β → Prop} {x : Id α} {y : Id β} :
    InEitherOrder r x y ↔ r x.run y.run := by
  constructor
  · rintro ⟨⟨both, hboth⟩, -⟩
    have hrun : (x.run, y.run) = both.run.val := hboth
    have hr := both.run.property
    rw [← hrun] at hr
    exact hr
  · intro h
    exact ⟨⟨(⟨(x.run, y.run), h⟩ : {p : α × β // r p.1 p.2}), rfl⟩,
      ⟨(⟨(y.run, x.run), h⟩ : {p : β × α // r p.2 p.1}), rfl⟩⟩

end InEitherOrder

end

/-! ### Metadata that list what they hint at -/

/-- The option is among the flags, if anything is said to follow it. -/
def Listed (option : Text) (suffix : Option Text) (flags : List Text) : Prop :=
  ∀ s ∈ suffix, s ≠ [] → option ∈ flags

section
variable {m : Type → Type} [Monad m]

/-- An option with a suffix is among the options of its command, whichever of the two is asked for
first. -/
def Metadata.ListsHinted (M : Metadata m) : Prop :=
  ∀ command option,
    InEitherOrder (Listed option) (M.optionSuffix command option) (M.optionPrefixes command)

theorem Snapshot.listed (s : Snapshot) (command option : Text) :
    Listed option ((s.optionsOf command).lookup option) ((s.optionsOf command).map (·.1)) := by
  intro suffix hsuffix _
  obtain ⟨l₁, l₂, heq, -⟩ := List.lookup_eq_some_iff.mp hsuffix
  rw [heq]
  simp

/-- Answers known in advance come from one list. -/
theorem Snapshot.listsHinted (s : Snapshot) : (s.metadata : Metadata Id).ListsHinted :=
  fun command option => InEitherOrder.id_iff.mpr (s.listed command option)

/-! ### What is hinted at is offered -/

/-- The last word of the line is the option that is typed, and the first candidate for it. -/
def OffersOption (line : Text) (found : Completion) : Prop :=
  ∃ command t, (tokenize line).getLast? = some t ∧ typedOption line = some (command, t.raw) ∧
    found.start = t.start ∧ found.candidates.head? = some t.raw

/-- Where there is a hint, the option it is about is offered first. -/
def OffersHinted (line : Text) (suffix : Option Text) (completion : Option Completion) : Prop :=
  suffix.isSome → ∃ found, completion = some found ∧ OffersOption line found

theorem hint_eq_none {line : Text} (h : typedOption line = none) (M : Metadata m) :
    hint M line = pure none := by
  rw [hint, h]

theorem hint_eq [LawfulMonad m] {line command option : Text}
    (h : typedOption line = some (command, option)) (M : Metadata m) :
    hint M line =
      (Option.filter fun suffix => !suffix.isEmpty) <$> M.optionSuffix command option := by
  simp only [hint, h, bind_pure_comp]

/-- The options of a command as a source of candidates. -/
def foundAmong (flags : List Text) : Option (List Text) := if flags.isEmpty then none else some flags

theorem candidates_options [LawfulMonad m] (M : Metadata m) (command typed : Text) (limit : Nat) :
    (Source.options command).candidates M typed limit =
      foundAmong <$> M.optionPrefixes command := by
  rw [Source.candidates, bind_pure_comp]
  rfl

/-- What is listed is offered first where it is typed. -/
theorem Listed.offersHinted {line command : Text} {t : Token} {suffix : Option Text}
    {flags : List Text} (h : Listed t.raw suffix flags)
    (hlast : (tokenize line).getLast? = some t)
    (ho : typedOption line = some (command, t.raw)) {limit : Nat} (hlimit : 0 < limit) :
    OffersHinted line (suffix.filter fun s => !s.isEmpty)
      (Plan.completion ⟨t.start, t.raw, .options command⟩ limit (foundAmong flags)) := by
  intro hsome
  obtain ⟨s, hs⟩ := Option.isSome_iff_exists.mp hsome
  obtain ⟨hsuffix, hs⟩ := Option.filter_eq_some_iff.mp hs
  have hmem : t.raw ∈ flags := h s hsuffix (by simpa using hs)
  have hfound : foundAmong flags = some flags :=
    if_neg (by simpa using List.ne_nil_of_mem hmem)
  refine ⟨⟨t.start, narrow flags t.raw limit⟩, by rw [hfound]; rfl, command, t, hlast, ho, rfl, ?_⟩
  exact head?_narrow hmem hlimit

/-- **After an option** the hint is made of its suffix, and the completion of the flags of its
command.  If it is listed, it is offered first. -/
theorem exists_hint_and_completion [LawfulMonad m] (M : Metadata m) {line : Text}
    {o : Text × Text} (ho : typedOption line = some o) {limit : Nat} (hlimit : 0 < limit) :
    ∃ (hinted : Option Text → Option Text) (completed : List Text → Option Completion),
      hint M line = hinted <$> M.optionSuffix o.1 o.2 ∧
      completeAt M line limit = completed <$> M.optionPrefixes o.1 ∧
      ∀ suffix flags, Listed o.2 suffix flags →
        OffersHinted line (hinted suffix) (completed flags) := by
  obtain ⟨command, option⟩ := o
  obtain ⟨t, hlast, rfl, hplan⟩ := exists_plan_of_typedOption ho
  refine ⟨_, _, hint_eq ho M, ?_, fun suffix flags h => h.offersHinted hlast ho hlimit⟩
  rw [completeAt_eq M hplan, candidates_options, ← comp_map]
  rfl

/-- **What is hinted at is offered first**, whether the hint or the completion is asked for
first. -/
theorem Metadata.ListsHinted.offersHinted [LawfulMonad m] {M : Metadata m} (h : M.ListsHinted)
    (line : Text) {limit : Nat} (hlimit : 0 < limit) :
    InEitherOrder (OffersHinted line) (hint M line) (completeAt M line limit) := by
  cases ho : typedOption line with
  | none =>
      rw [hint_eq_none ho]
      exact .of_pure (fun _ => nofun) _
  | some o =>
      obtain ⟨hinted, completed, hhint, hcomplete, hoffers⟩ :=
        exists_hint_and_completion M ho hlimit
      rw [hhint, hcomplete]
      exact (h o.1 o.2).map hoffers

end

end GitShell
