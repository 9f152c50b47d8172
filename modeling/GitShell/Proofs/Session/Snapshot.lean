import GitShell.Proofs.Editing.Answers
import GitShell.Proofs.Session.Coherence
import Mathlib.Data.List.Basic

/-!
# Session — Snapshot

What a shell that remembers nothing completes a line to: what git printed and what stands in the
directory of the typed path, held in memory as whole lists, completes it to the same.

* `Host.snapshot`: these lists, as git prints them when it is asked for the first time.
* `Shell.hintedBy_metadata`: a shell narrows its lists before the editor does, and no more.
* `Shell.candidates_fresh`: without this, what it finds is what the snapshot says.
* `completeAt_heeds_no_hints`: the typed text and the limit are hints for every metadata, and so for
  those of a shell.
-/

namespace GitShell

/-! ### What git prints -/

/-- What an action on a host gives. -/
def Host.answer {α : Type} (h : Host) (x : OnHost α) : α := (x.run h).1

/-- The manual page of a command, asked for after the names of the commands. -/
def Host.pageFor (h : Host) (command : Text) : Help.Page :=
  Shell.pageOf (Host.answer (Topic.gitCommands.ask.run h).2 (Repository.helpPage command))

/-- The flags of a page, each with its suffix. -/
def Help.Page.documented (p : Page) : List (Text × Text) :=
  p.flags.map fun flag => (flag, (p.suffix? flag).getD [])

theorem Help.Page.map_fst_documented (p : Page) : p.documented.map (·.1) = p.flags := by
  rw [documented, List.map_map]
  exact List.map_id _

/-- The lists that git prints, and the entries of the directory that a typed path is in.  The
commands of the shell have their own options; those of git have the options of their pages. -/
def Host.snapshot (h : Host) (typed : Text) : Snapshot where
  commands := h.answer (Topic.ask .commands)
  options := Internal.all.map (fun i => (i.name, i.options)) ++
    (h.answer (Topic.ask .gitCommands)).map fun command => (command, (h.pageFor command).documented)
  branches := h.answer (Topic.ask .branches)
  staged := h.answer (Topic.ask .stagedFiles)
  unstaged := h.answer (Topic.ask .unstagedFiles)
  files := h.answer (Repository.filePaths typed)

theorem lookup_internal (name : Text) :
    (Internal.all.map fun i => (i.name, i.options)).lookup name =
      (Internal.ofName? name).map Internal.options := by
  rw [Internal.ofName?]
  induction Internal.all with
  | nil => rfl
  | cons i is ih =>
      by_cases h : i.name = name
      · simp [h]
      · have hn : (name == i.name) = false := by simpa using Ne.symm h
        simp [List.lookup_cons, hn, h, ih]

theorem lookup_eq_none {α : Type} {names : List Text} {name : Text} (h : name ∉ names)
    (f : Text → α) : (names.map fun n => (n, f n)).lookup name = none := by
  rw [List.lookup_eq_none_iff]
  intro p hp
  obtain ⟨n, hn, rfl⟩ := List.mem_map.mp hp
  have hne : name ≠ n := fun hname => h (hname ▸ hn)
  simpa using hne

/-- The options of a command in the snapshot. -/
theorem Host.optionsOf_snapshot (h : Host) (typed command : Text) :
    (h.snapshot typed).optionsOf command =
      match Internal.ofName? command with
      | some i => i.options
      | none =>
        if command ∈ h.answer (Topic.ask .gitCommands) then (h.pageFor command).documented
        else [] := by
  rw [Snapshot.optionsOf, snapshot, List.lookup_append, lookup_internal]
  cases Internal.ofName? command with
  | some i => rfl
  | none =>
      simp only [Option.map_none, Option.none_or]
      split
      next hmem => rw [List.lookup_graph _ hmem, Option.getD_some]
      next hmem => rw [lookup_eq_none hmem, Option.getD_none]

/-! ### Asking for the first time -/

theorem Repository.acts_helpPage (command : Text) : Host.Acts (helpPage command) :=
  (Host.Acts.query _).bind fun _ => .pure _

/-- What was told does not change an answer. -/
theorem Host.Acts.answer_told {α : Type} {x : OnHost α} (hx : Acts x) (h : Host) (err : Text) :
    (h.told err).answer x = h.answer x := by
  obtain ⟨err', hrun⟩ := hx.unheeding h err
  rw [answer, hrun, answer]

namespace Shell

section
variable (v : Verbosity) (h : Host) (history : History)

/-- **A list that is asked for first** is what git prints. -/
theorem exists_consult_fresh (topic : Topic) :
    ∃ err, (consult v topic).run ⟨h, .empty, history⟩ = (h.answer topic.ask,
      ⟨(topic.ask.run h).2.told err, Memory.empty.learn topic (h.answer topic.ask), history⟩) := by
  obtain ⟨err, ht⟩ := Host.exists_trace v ("loading ".toList ++ topic.label) h
  obtain ⟨err', ha⟩ := topic.acts_ask.unheeding h err
  have hload : (load v topic).run h = (h.answer topic.ask, (topic.ask.run h).2.told err') := by
    rw [load, run_bind, ht]
    exact ha
  exact ⟨err', by rw [consult_of_unknown v rfl, hload]⟩

/-- **A page that is asked for first** is the page that git prints. -/
theorem consultPage_fresh (command : Text) :
    ((consultPage v command).run ⟨h, .empty, history⟩).1 =
      if command ∈ h.answer (Topic.ask .gitCommands) then some (h.pageFor command) else none := by
  obtain ⟨err, hrun⟩ := exists_consult_fresh v h history .gitCommands
  split
  next hmem =>
    obtain ⟨err', ht⟩ := Host.exists_trace v ("loading help page for ".toList ++ command)
      (((Topic.ask .gitCommands).run h).2.told err)
    have hpage := (Repository.acts_helpPage command).answer_told
      ((Topic.ask .gitCommands).run h).2 err'
    rw [consultPage_run hrun hmem, Host.pageFor, ← hpage]
    simp only [ht]
    rfl
  next hmem => rw [consultPage_of_not_mem hrun hmem]

/-- The options of a command are those of the snapshot. -/
theorem optionFlags_fresh (command typed : Text) :
    ((optionFlags v command).run ⟨h, .empty, history⟩).1 =
      ((h.snapshot typed).optionsOf command).map (·.1) := by
  rw [h.optionsOf_snapshot, optionFlags]
  cases Internal.ofName? command with
  | some i => rfl
  | none =>
      have hpage := consultPage_fresh v h history command
      simp only [run_bind, hpage]
      split
      next => exact (h.pageFor command).map_fst_documented.symm
      next => rfl

end

/-! ### Completing a line -/

/-- The questions of the editor, answered with whole lists. -/
def wholeLists (v : Verbosity) : Metadata InShell where
  commandNames := (metadata v).commandNames
  isCommand := (metadata v).isCommand
  optionPrefixes := (metadata v).optionPrefixes
  optionSuffix := (metadata v).optionSuffix
  branchNames _ _ := consult v .branches
  stagedFiles _ _ := consult v .stagedFiles
  unstagedFiles _ _ := consult v .unstagedFiles
  filePaths typed _ := onHost (Repository.filePaths typed)

theorem related_narrow (typed : Text) (limit : Nat) (x : InShell (List Text)) :
    Related (Hinted typed limit) x (do return narrow (← x) typed limit) := by
  rw [bind_pure_comp]
  exact related_map (fun _ => .narrowed) x

/-- **A shell narrows its lists**, and answers as with whole lists otherwise. -/
theorem hintedBy_metadata (v : Verbosity) : (wholeLists v).HintedBy (metadata v) where
  commandNames := rfl
  isCommand := rfl
  optionPrefixes := rfl
  branchNames typed limit := related_narrow typed limit _
  stagedFiles typed limit := related_narrow typed limit _
  unstagedFiles typed limit := related_narrow typed limit _
  filePaths typed limit := related_narrow typed limit _

section
variable (v : Verbosity) (h : Host) (history : History)

/-- A list that is asked for first, in what is found. -/
theorem consult_fresh (topic : Topic) :
    ((some <$> consult v topic).run ⟨h, .empty, history⟩).1 = some (h.answer topic.ask) := by
  obtain ⟨err, hrun⟩ := exists_consult_fresh v h history topic
  exact congrArg (some ·.1) hrun

/-- **What is found with whole lists** is what is found in the snapshot. -/
theorem candidates_fresh (source : Source) (typed : Text) (limit : Nat) :
    ((source.candidates (wholeLists v) typed limit).run ⟨h, .empty, history⟩).1 =
      (source.candidates (m := Id) (h.snapshot typed).metadata typed limit).run := by
  cases source with
  | commands =>
      -- the names are asked for once, and remembered for the second question
      obtain ⟨sh, hrun, hknown⟩ : ∃ sh : Shell,
          (consult v .commands).run ⟨h, .empty, history⟩ =
            (h.answer (Topic.ask .commands), sh) ∧
          sh.memory.known .commands = some (h.answer (Topic.ask .commands)) := by
        obtain ⟨err, hrun⟩ := exists_consult_fresh v h history .commands
        exact ⟨_, hrun, rfl⟩
      have hagain := consult_of_known (v := v) hknown
      simp only [Source.candidates, wholeLists, metadata, run_bind, hrun]
      have hrest : ∀ known : Bool, ((if known = true then pure none else
            some <$> consult v .commands : InShell (Option (List Text))).run sh).1 =
          if known = true then none else some (h.answer (Topic.ask .commands)) := by
        intro known
        cases known with
        | true => rfl
        | false => exact congrArg (some ·.1) hagain
      exact hrest _
  | options command =>
      have hflags := optionFlags_fresh v h history command typed
      simp only [Source.candidates, wholeLists, metadata, run_bind, hflags]
      rfl
  | files => rfl
  | branches => exact consult_fresh v h history .branches
  | staged => exact consult_fresh v h history .stagedFiles
  | unstaged => exact consult_fresh v h history .unstagedFiles

end

end Shell

/-! ### Hints are only hints -/

/-- The word that is completed at the end of a line. -/
def typedWord (line : Text) : Text := ((Plan.ofLine line).map Plan.typed).getD []

/-- **The typed text and the limit are only hints.**  Metadata that heed them, each in its own way,
complete every line as those do that answer with whole lists.  So does a shell that remembers
nothing: the lists that git prints and the entries of the typed directory, held in memory, give the
same completion. -/
theorem completeAt_heeds_no_hints :
    (∀ {m : Type → Type} [Monad m] [LawfulMonad m] {M M' : Metadata m}, M.HintedBy M' →
        ∀ line limit, completeAt M' line limit = completeAt M line limit) ∧
      ∀ (v : Verbosity) (h : Host) (history : History) (line : Text) (limit : Nat),
        ((completeAt (Shell.metadata v) line limit).run ⟨h, .empty, history⟩).1 =
          (completeAt (m := Id) (h.snapshot (typedWord line)).metadata line limit).run := by
  refine ⟨fun hM line limit => completeAt_of_hintedBy hM line limit,
    fun v h history line limit => ?_⟩
  rw [completeAt_of_hintedBy (Shell.hintedBy_metadata v)]
  cases hp : Plan.ofLine line with
  | none =>
      rw [completeAt_eq_none _ hp, completeAt_eq_none _ hp]
      rfl
  | some p =>
      have htyped : typedWord line = p.typed := by rw [typedWord, hp]; rfl
      rw [completeAt_eq _ hp, completeAt_eq _ hp, htyped]
      exact congrArg (p.completion limit)
        (Shell.candidates_fresh v h history p.source p.typed limit)

/-- Whole lists of branches and of staged and changed files. -/
def someLists : Metadata Id :=
  Snapshot.metadata ⟨[], [], ["main".toList, "fix".toList, "feature".toList],
    ["b".toList, "a".toList], ["new".toList], []⟩

/-- The same lists: the branches narrowed, the staged files in another order, the changed ones twice
and with one more where it does not continue the typed text. -/
def sameLists : Metadata Id where
  commandNames := someLists.commandNames
  isCommand := someLists.isCommand
  optionPrefixes := someLists.optionPrefixes
  optionSuffix _ _ := pure none
  branchNames typed limit := pure (narrow ["main".toList, "fix".toList, "feature".toList] typed limit)
  stagedFiles _ _ := pure ["a".toList, "b".toList]
  unstagedFiles typed _ := pure ("new".toList :: "new".toList ::
    if typed.isPrefixOf "old".toList then [] else ["old".toList])
  filePaths := someLists.filePaths

/-- Git, in `/bin`, prints some branches and no other list. -/
def withBranches : Host where
  git _ arguments :=
    ⟨if arguments.head? = some "branch".toList then "main\nfix\nfeature\n".toList else [], [],
      .exited 0⟩
  files := ⟨[(["bin".toList], .directory), (["bin".toList, "git".toList], .file [] true)]⟩
  workingDirectory := ⟨[], "/".toList⟩
  environment := [("PATH".toList, "/bin".toList)]
  calls := []
  stdout := []
  stderr := []

/-- Lists that heed the hints in each of the three ways; and a shell that asks git for its
branches. -/
theorem completeAt_heeds_no_hints_branch :
    someLists.HintedBy sameLists ∧
      (completeAt sameLists "rebase f".toList 1).run = some ⟨7, ["fix".toList]⟩ ∧
      ((completeAt (Shell.metadata .debug) "rebase f".toList 1).run
        ⟨withBranches, .empty, .empty⟩).1 = some ⟨7, ["fix".toList]⟩ := by
  have hhinted : someLists.HintedBy sameLists :=
    { commandNames := rfl
      isCommand := rfl
      optionPrefixes := rfl
      branchNames := fun _ _ => related_pure .narrowed
      stagedFiles := fun _ _ => related_pure (.permuted (.swap ..))
      unstagedFiles := fun typed _ => by
        refine related_pure (.padded (List.singleton_subperm_iff.mpr (List.mem_cons_self ..))
          fun u hu => ?_)
        have hu' : u = "new".toList ∨ ¬ typed <+: "old".toList ∧ u = "old".toList := by
          simpa using hu
        rcases hu' with rfl | ⟨h, rfl⟩
        · exact .inl (List.mem_singleton_self _)
        · exact .inr h
      filePaths := fun _ _ => related_pure (.permuted (.refl _)) }
  obtain ⟨hall, hshell⟩ := completeAt_heeds_no_hints
  refine ⟨hhinted, ?_, ?_⟩
  · rw [hall hhinted]
    decide +kernel
  · rw [hshell]
    decide +kernel

end GitShell
