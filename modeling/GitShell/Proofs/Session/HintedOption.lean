import GitShell.Proofs.Editing.HintedOption
import GitShell.Proofs.Help.Mined
import GitShell.Proofs.Session.Coherence

/-!
# Session — HintedOption

A shell lists the options that it hints at.  The flags and the suffixes of a command are read off
one page, or off the catalog if the command is the shell's own.  Once a page was read it is
remembered, so it does not matter what becomes of the host between the hint and the completion.

* `Settles`: an action that, repeated on any host, gives what it gave.
* `Shell.settles_consultPage`: a page is read once.
* `ReadTogether`: two actions that are read off one that settles.
* `hinted_option_offered_first`: what is hinted at is offered first, by all metadata that list it and
  so by a shell.
-/

namespace GitShell

/-! ### Repeated actions -/

/-- The shell on another host. -/
def Shell.movedTo (sh : Shell) (host : Host) : Shell := { sh with host := host }

/-- Done again, on whatever host, the action gives what it gave and changes nothing. -/
def Settles {α : Type} (x : InShell α) : Prop :=
  ∀ sh host, x.run ((x.run sh).2.movedTo host) = ((x.run sh).1, (x.run sh).2.movedTo host)

/-- Two actions are read off one action that settles, and what they give is related. -/
def ReadTogether {α β : Type} (r : α → β → Prop) (x : InShell α) (y : InShell β) : Prop :=
  ∃ both : InShell {p : α × β // r p.1 p.2}, Settles both ∧
    x = (·.val.1) <$> both ∧ y = (·.val.2) <$> both

section
variable {α β γ δ : Type} {r : α → β → Prop} {x : InShell α} {y : InShell β}

theorem run_map (f : α → β) (x : InShell α) (sh : Shell) :
    (f <$> x).run sh = (f (x.run sh).1, (x.run sh).2) := rfl

theorem settles_pure (a : α) : Settles (pure a) := fun _ _ => rfl

theorem Settles.map (hx : Settles x) (f : α → β) : Settles (f <$> x) := by
  intro sh host
  rw [run_map, run_map, hx]

/-- What is done twice is done once. -/
theorem Settles.pair_map (hx : Settles x) (f : α → β) (g : α → γ) :
    pair (f <$> x) (g <$> x) = (fun a => (f a, g a)) <$> x := by
  funext sh
  have hagain := hx sh (x.run sh).2.host
  exact congrArg (fun p : α × Shell => ((f (x.run sh).1, g p.1), p.2)) hagain

theorem Settles.readTogether (hx : Settles x) {f : α → β} {g : α → γ} {r : β → γ → Prop}
    (hr : ∀ a, r (f a) (g a)) : ReadTogether r (f <$> x) (g <$> x) := by
  refine ⟨(fun a => ⟨(f a, g a), hr a⟩) <$> x, hx.map _, ?_, ?_⟩
  · rw [← comp_map]
    rfl
  · rw [← comp_map]
    rfl

namespace ReadTogether

theorem map {s : γ → δ → Prop} (h : ReadTogether r x y) {f : α → γ} {g : β → δ}
    (hfg : ∀ a b, r a b → s (f a) (g b)) : ReadTogether s (f <$> x) (g <$> y) := by
  obtain ⟨both, hboth, rfl, rfl⟩ := h
  rw [← comp_map, ← comp_map]
  exact hboth.readTogether fun p => hfg _ _ p.property

theorem inEitherOrder (h : ReadTogether r x y) : InEitherOrder r x y := by
  obtain ⟨both, hboth, rfl, rfl⟩ := h
  constructor
  · rw [hboth.pair_map]
    exact (gives_of_forall (fun p => p.property) both).map fun p hp => hp
  · rw [hboth.pair_map]
    exact (gives_of_forall (fun p => p.property) both).map fun p hp => hp

/-- **Asked at once or after the first**, on whatever host, the second gives the same. -/
theorem later (h : ReadTogether r x y) (sh : Shell) :
    r (x.run sh).1 (y.run sh).1 ∧ ∀ host, y.run ((x.run sh).2.movedTo host) =
      ((y.run sh).1, (x.run sh).2.movedTo host) := by
  obtain ⟨both, hboth, rfl, rfl⟩ := h
  refine ⟨(both.run sh).1.property, fun host => ?_⟩
  rw [run_map, run_map, run_map, hboth]

end ReadTogether

end

/-! ### Pages -/

/-- What is remembered tells the page of a command: the commands that git names are known, and if
this is one of them, so is its page. -/
inductive Memory.Recalls (m : Memory) (command : Text) : Option Help.Page → Prop where
  | unnamed {names : List Text} (hk : m.known .gitCommands = some names) (hn : command ∉ names) :
      m.Recalls command none
  | named {names : List Text} {page : Help.Page} (hk : m.known .gitCommands = some names)
      (hc : command ∈ names) (hp : m.pages.find? command = some page) :
      m.Recalls command (some page)

namespace Shell

/-- A list that was consulted is known. -/
theorem known_consult (v : Verbosity) (topic : Topic) (sh : Shell) :
    ((consult v topic).run sh).2.memory.known topic = some ((consult v topic).run sh).1 := by
  cases hk : sh.memory.known topic with
  | some values =>
      rw [consult_of_known hk]
      exact hk
  | none =>
      rw [consult_of_unknown v hk]
      exact if_pos rfl

theorem consultPage_of_recalls {v : Verbosity} {command : Text} {page : Option Help.Page}
    {sh : Shell} (h : sh.memory.Recalls command page) :
    (consultPage v command).run sh = (page, sh) := by
  cases h with
  | unnamed hk hn => exact consultPage_of_not_mem (consult_of_known hk) hn
  | named hk hc hp => rw [consultPage_run (consult_of_known hk) hc, hp]

theorem recalls_consultPage (v : Verbosity) (command : Text) (sh : Shell) :
    ((consultPage v command).run sh).2.memory.Recalls command
      ((consultPage v command).run sh).1 := by
  have hk := known_consult v .gitCommands sh
  obtain ⟨names, sh₁, hrun⟩ : ∃ names sh₁, (consult v .gitCommands).run sh = (names, sh₁) :=
    ⟨_, _, rfl⟩
  rw [hrun] at hk
  by_cases hc : command ∈ names
  · rw [consultPage_run hrun hc]
    cases hp : sh₁.memory.pages.find? command with
    | some page => exact .named hk hc hp
    | none => exact .named hk hc (by rw [Dictionary.find?_insert, if_pos rfl])
  · rw [consultPage_of_not_mem hrun hc]
    exact .unnamed hk hc

/-- **A page is read once.** -/
theorem settles_consultPage (v : Verbosity) (command : Text) : Settles (consultPage v command) :=
  fun sh _ => consultPage_of_recalls (recalls_consultPage v command sh)

end Shell

/-! ### Options -/

/-- An option whose suffix is found in a list has its flag there. -/
theorem listed_find? {α : Type} (os : List α) (flag suffix : α → Text) (option : Text) :
    Listed option ((os.find? fun o => flag o == option && !(suffix o).isEmpty).map suffix)
      (os.map flag) := by
  intro s hs _
  obtain ⟨o, ho, rfl, -⟩ := Help.exists_of_find?_flag hs
  exact List.mem_map_of_mem ho

theorem Help.Page.listed (p : Page) (option : Text) :
    Listed option (p.suffix? option) p.flags := fun s hs hne =>
  List.mem_eraseDups.mpr (listed_find? p.options _ _ option s hs hne)

theorem Internal.listed (i : Internal) (option : Text) :
    Listed option ((i.options.find? fun o => o.1 == option && !o.2.isEmpty).map (·.2))
      (i.options.map (·.1)) := listed_find? i.options _ _ option

namespace Shell

/-- The suffix of an option and the flags of its command are read off one page. -/
theorem readTogether_options (v : Verbosity) (command option : Text) :
    ReadTogether (Listed option) ((metadata v).optionSuffix command option)
      ((metadata v).optionPrefixes command) := by
  dsimp only [metadata, optionSuffix, optionFlags]
  cases Internal.ofName? command with
  | some i => exact (settles_pure ()).readTogether fun _ => i.listed option
  | none =>
      simp only [bind_pure_comp]
      refine (settles_consultPage v command).readTogether fun page => ?_
      cases page with
      | none => exact nofun
      | some page => exact page.listed option

theorem listsHinted (v : Verbosity) : (metadata v).ListsHinted := fun command option =>
  (readTogether_options v command option).inEitherOrder

/-- After an option, the hint and the completion are read off one page. -/
theorem readTogether_hint (v : Verbosity) {line : Text} {o : Text × Text}
    (ho : typedOption line = some o) {limit : Nat} (hlimit : 0 < limit) :
    ReadTogether (OffersHinted line) (hint (metadata v) line)
      (completeAt (metadata v) line limit) := by
  obtain ⟨hinted, completed, hhint, hcomplete, hoffers⟩ :=
    exists_hint_and_completion (metadata v) ho hlimit
  rw [hhint, hcomplete]
  exact (readTogether_options v o.1 o.2).map hoffers

end Shell

/-! ### What is hinted at is offered -/

/-- **What is hinted at is offered first.**  If metadata list the options that have a suffix, then at
the end of any line where there is a hint, the first candidate is the last word of the line, the
option that the hint is about, whichever of the two is asked for first.  A shell lists them,
whatever git prints.  What it hints at it offers at once and later, when the host may be any other,
and it does not ask git again. -/
theorem hinted_option_offered_first :
    (∀ {m : Type → Type} [Monad m] [LawfulMonad m] {M : Metadata m}, M.ListsHinted →
        ∀ (line : Text) (limit : Nat), 0 < limit →
          InEitherOrder (OffersHinted line) (hint M line) (completeAt M line limit)) ∧
      ∀ v : Verbosity, (Shell.metadata v).ListsHinted ∧
        ∀ (sh sh' : Shell) (line suffix : Text),
          (hint (Shell.metadata v) line).run sh = (some suffix, sh') →
            ∀ limit, 0 < limit → ∃ found, OffersOption line found ∧
              ((completeAt (Shell.metadata v) line limit).run sh).1 = some found ∧
              ∀ host, (completeAt (Shell.metadata v) line limit).run (sh'.movedTo host) =
                (some found, sh'.movedTo host) := by
  refine ⟨fun hM line limit => hM.offersHinted line, fun v => ⟨Shell.listsHinted v, ?_⟩⟩
  intro sh sh' line suffix hrun limit hlimit
  obtain ⟨o, ho⟩ : ∃ o, typedOption line = some o := by
    cases ho : typedOption line with
    | some o => exact ⟨o, rfl⟩
    | none =>
        rw [hint_eq_none ho] at hrun
        cases hrun
  obtain ⟨hoffers, hlater⟩ := (Shell.readTogether_hint v ho hlimit).later sh
  rw [hrun] at hoffers hlater
  obtain ⟨found, hfound, hoption⟩ := hoffers rfl
  exact ⟨found, hoption, hfound, fun host => by rw [hlater, hfound]⟩

/-- An option after the second command of a line. -/
def colorLine : Text := "log; diff --color".toList

/-- Two options of which one has a suffix. -/
def colorOptions : Metadata Id :=
  Snapshot.metadata ⟨[], [("diff".toList,
    [("--color-moved".toList, []), ("--color".toList, "[=<when>]".toList)])], [], [], [], []⟩

/-- Git, in `/bin`, names one command and prints a page with these options for it. -/
def withDiffPage : Host where
  git _ arguments :=
    ⟨if arguments.head? = some "help".toList then
        "OPTIONS\n       --color-moved\n\n       --color[=<when>]\n".toList
      else "diff\n".toList, [], .exited 0⟩
  files := ⟨[(["bin".toList], .directory), (["bin".toList, "git".toList], .file [] true)]⟩
  workingDirectory := ⟨[], "/".toList⟩
  environment := [("PATH".toList, "/bin".toList)]
  calls := []
  stdout := []
  stderr := []

/-- A host without git. -/
def withoutGit : Host := { withDiffPage with files := ⟨[]⟩ }

/-- Options that are known in advance; and options that a shell reads off a page, for the hint, and
still has when git is gone. -/
theorem hinted_option_offered_first_color :
    colorOptions.ListsHinted ∧
      (hint colorOptions colorLine).run = some "[=<when>]".toList ∧
      (∃ found, (completeAt colorOptions colorLine 1).run = some found ∧
        found.start = 10 ∧ found.candidates.head? = some "--color".toList) ∧
      ∃ sh', (hint (Shell.metadata .debug) colorLine).run (.start withDiffPage) =
          (some "[=<when>]".toList, sh') ∧
        ∃ found, (completeAt (Shell.metadata .debug) colorLine 1).run (sh'.movedTo withoutGit) =
            (some found, sh'.movedTo withoutGit) ∧
          found.start = 10 ∧ found.candidates.head? = some "--color".toList := by
  obtain ⟨hall, hshell⟩ := hinted_option_offered_first
  have hlast : (tokenize colorLine).getLast? = some ⟨.literal .word "--color".toList, 10⟩ := by
    decide +kernel
  have hoption : ∀ found, OffersOption colorLine found →
      found.start = 10 ∧ found.candidates.head? = some "--color".toList := by
    rintro found ⟨command, t, ht, -, hstart, hfirst⟩
    obtain rfl := Option.some.inj (hlast.symm.trans ht)
    exact ⟨hstart, hfirst⟩
  have hlists : colorOptions.ListsHinted := Snapshot.listsHinted _
  have hhint : (hint colorOptions colorLine).run = some "[=<when>]".toList := by decide +kernel
  have hknown := InEitherOrder.id_iff.mp (hall hlists colorLine 1 (by decide))
  obtain ⟨found, hfound, hoffers⟩ := hknown (by rw [hhint]; rfl)
  have hread : (hint (Shell.metadata .debug) colorLine).run (.start withDiffPage) =
      (some "[=<when>]".toList,
        ((hint (Shell.metadata .debug) colorLine).run (.start withDiffPage)).2) :=
    Prod.ext (by decide +kernel) rfl
  obtain ⟨later, hlater, -, hrun⟩ := (hshell .debug).2 _ _ _ _ hread 1 (by decide)
  exact ⟨hlists, hhint, ⟨found, hfound, hoption found hoffers⟩, _, hread, later,
    hrun withoutGit, hoption later hlater⟩

end GitShell
