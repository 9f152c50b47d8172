import GitShell.Proofs.Chain.Calls
import GitShell.Proofs.Chain.Writing
import GitShell.Proofs.Session.Names
import GitShell.Session.Interpreter

/-!
# Session — Foreground

Commands that are for git: what a shell does with a line of them.

* `Host.Starts`: the commands that git was started with, and how each of them ended.
* `Shell.IsForGit`: the arguments of a group mean no command of the shell and git starts with them.
* `Shell.Reaches.run`: one such group starts git once, with its arguments.
* `runLine_starts`: a line of such groups starts git with the groups that the nested evaluation
  selects on git's own statuses.

Whether a name is misspelled depends on what git says when it is asked, which may change while the
line runs, and on what is remembered of it.  `Shell.Reaches` is kept at each group: every name that
git would have known until then is known.
-/

namespace GitShell

/-! ### The commands of git -/

/-- Git was started with commands, one after the other, and each of them ended.  The calls of git
are those, and before a command with the name of one of the shell, less its colon, perhaps some that
ask for the names. -/
inductive Host.Starts : Host → List (List Text × Ending) → Host → Prop where
  | done {h h' : Host} (hp : h.After [] h') : Starts h [] h'
  | start {h h₁ h' : Host} {queries : List (List Text)} {arguments : List Text}
      {starts : List (List Text × Ending)} (hq : queries.Sublist nameQueries)
      (hn : queries = [] ∨ ∃ name ∈ arguments.head?, isInternal (':' :: name) = true)
      (ha : h.After (arguments :: queries) h₁) (hs : Starts h₁ starts h') :
      Starts h ((arguments, (h.git (queries ++ h.calls) arguments).ending) :: starts) h'

namespace Host.Starts

variable {h h₁ h' : Host} {starts starts' : List (List Text × Ending)}

theorem of_after (a : h.After [] h₁) (hs : Starts h₁ starts h') : Starts h starts h' := by
  cases hs with
  | done hp => exact .done (a.trans hp)
  | start hq hn ha hs =>
      rw [a.git_eq, a.calls_eq, List.nil_append]
      have ha' := a.trans ha
      rw [List.append_nil] at ha'
      exact .start hq hn ha' hs

theorem append (hs : Starts h starts h₁) (hs' : Starts h₁ starts' h') :
    Starts h (starts ++ starts') h' := by
  induction hs with
  | done hp => exact hs'.of_after hp
  | start hq hn ha _ ih => exact .start hq hn ha (ih hs')

theorem printed (hs : Starts h starts h₁) (a : h₁.After [] h') : Starts h starts h' := by
  simpa using hs.append (.done a)

theorem exists_after (hs : Starts h starts h') : ∃ made, h.After made h' := by
  induction hs with
  | done hp => exact ⟨_, hp⟩
  | start _ _ ha _ ih =>
      obtain ⟨made, a⟩ := ih
      exact ⟨_, ha.trans a⟩

end Host.Starts

namespace Shell

/-! ### Groups for git -/

/-- A name is one that git knows, by what the shell remembers, or by what git says whenever it is
asked until the commands `before` have had their turn. -/
def Knows (sh : Shell) (before : List (List Text)) (name : Text) : Prop :=
  match sh.memory.known .commands with
  | some names => name ∈ names
  | none => ∀ starts h, sh.host.Starts starts h → (starts.map (·.1)).Sublist before →
      name ∈ (Topic.commands.ask.run h).1

/-- Arguments are for git after the commands `before`: git is found and starts with them, and they
are neither a command of the shell, nor one that lacks its colon and that git does not know, nor the
question for help on one. -/
structure IsForGit (sh : Shell) (before : List (List Text)) (arguments : List Text) : Prop where
  starts : ∃ program, sh.host.findProgram = some program ∧
    sh.host.checkStart program arguments = .ok ()
  name : ∀ name ∈ arguments.head?, isInternal name = false ∧
    (isInternal (':' :: name) = true → sh.Knows before name)
  help : ∀ name, isInternal name = true → arguments ≠ ["help".toList, name]

/-- The memory holds what git knew at some time. -/
structure Informs (sh : Shell) (before : List (List Text)) (m : Memory) : Prop where
  known : ∀ names, m.known .commands = some names → ∀ name, sh.Knows before name → name ∈ names
  unknown : m.known .commands = none → sh.memory.known .commands = none

/-- A shell may be like this when the commands `before` have had their turn. -/
structure Reaches (sh : Shell) (before : List (List Text)) (sh' : Shell) : Prop where
  host : ∃ starts, sh.host.Starts starts sh'.host ∧ (starts.map (·.1)).Sublist before
  memory : sh.Informs before sh'.memory

variable {sh₀ sh sh' : Shell} {before before' : List (List Text)} {name : Text}

theorem Knows.mono (hk : sh.Knows before' name) (hb : before.Sublist before') :
    sh.Knows before name := by
  unfold Knows at hk ⊢
  split at hk
  · exact hk
  · exact fun starts h hs hsub => hk starts h hs (hsub.trans hb)

theorem Informs.mono {m : Memory} (hi : sh.Informs before m) (hb : before.Sublist before') :
    sh.Informs before' m :=
  ⟨fun names hm name hk => hi.known names hm name (hk.mono hb), hi.unknown⟩

theorem informs_self (sh : Shell) (before : List (List Text)) : sh.Informs before sh.memory := by
  refine ⟨fun names hm name hk => ?_, id⟩
  simpa only [Knows, hm] using hk

theorem Reaches.mono (hr : sh₀.Reaches before sh) (hb : before.Sublist before') :
    sh₀.Reaches before' sh := by
  obtain ⟨starts, hs, hsub⟩ := hr.host
  exact ⟨⟨starts, hs, hsub.trans hb⟩, hr.memory.mono hb⟩

theorem reaches_self (sh : Shell) : sh.Reaches [] sh :=
  ⟨⟨[], .done (.refl sh.host), List.Sublist.refl _⟩, sh.informs_self []⟩

theorem Reaches.exists_after (hr : sh₀.Reaches before sh) :
    ∃ made, sh₀.host.After made sh.host := by
  obtain ⟨starts, hs, -⟩ := hr.host
  exact hs.exists_after

theorem Reaches.findProgram_eq (hr : sh₀.Reaches before sh) :
    sh.host.findProgram = sh₀.host.findProgram := by
  obtain ⟨made, a⟩ := hr.exists_after
  exact a.findProgram_eq

theorem Reaches.checkStart_eq (hr : sh₀.Reaches before sh) (program : Text)
    (arguments : List Text) :
    sh.host.checkStart program arguments = sh₀.host.checkStart program arguments := by
  obtain ⟨made, a⟩ := hr.exists_after
  exact a.checkStart_eq program arguments

/-- **A name that git knows is found**, whether it is remembered or git is asked. -/
theorem Reaches.isCommand (hr : sh₀.Reaches before sh) (hk : sh₀.Knows before name)
    (v : Verbosity) : ∃ queries sh', queries.Sublist nameQueries ∧
      ((metadata v).isCommand name).run sh = (true, sh') ∧ sh.host.After queries sh'.host ∧
        sh₀.Informs before sh'.memory := by
  have hcontains {names : List Text} {sh' : Shell} (hn : name ∈ names)
      (hc : (consult v .commands).run sh = (names, sh')) :
      ((metadata v).isCommand name).run sh = (true, sh') := by
    rw [isCommand_of_consult hc, List.contains_iff_mem.mpr hn]
  cases hm : sh.memory.known .commands with
  | some names =>
      refine ⟨[], sh, List.nil_sublist _, hcontains (hr.memory.known names hm name hk)
        (consult_of_known hm), .refl sh.host, hr.memory⟩
  | none =>
      obtain ⟨host, a, hc⟩ := exists_consult_of_unknown v hm
      obtain ⟨queries, hq, a'⟩ := exists_after_ask host
      obtain ⟨starts, hs, hsub⟩ := hr.host
      -- nothing was known at the start either, so a name is known by what git says now
      have hall : ∀ n, sh₀.Knows before n → n ∈ (Topic.commands.ask.run host).1 := by
        intro n hn
        simp only [Knows, hr.memory.unknown hm] at hn
        exact hn starts host (hs.printed a) hsub
      refine ⟨queries, _, hq, hcontains (hall name hk) hc, by simpa using a.trans a', ?_, ?_⟩
      · intro names hl n hn
        obtain rfl : _ = names := by simpa [Memory.known_learn] using hl
        exact hall n hn
      · intro hl
        simp [Memory.known_learn] at hl

/-! ### Running a group -/

section
variable {M : Metadata InShell} {arguments : List Text}

theorem first_of_none {r : Recognizer} (rs : List Recognizer)
    (h : (r.recognize M name arguments).run sh = (none, sh')) :
    (Recognizer.first M name arguments (r :: rs)).run sh =
      (Recognizer.first M name arguments rs).run sh' := by
  rw [Recognizer.first, run_bind, h]

theorem first_of_some {r : Recognizer} {command : Command} (rs : List Recognizer)
    (h : (r.recognize M name arguments).run sh = (some command, sh')) :
    (Recognizer.first M name arguments (r :: rs)).run sh = (some command, sh') := by
  rw [Recognizer.first, run_bind, h]
  rfl

theorem recognize_internal_of_ne {i : Internal} (hne : name ≠ i.name) (sh : Shell) :
    ((Recognizer.internal i).recognize M name arguments).run sh = (none, sh) := by
  rw [Recognizer.recognize, if_neg hne]
  rfl

theorem recognize_internal (hn : isInternal name = false) (i : Internal) (sh : Shell) :
    ((Recognizer.internal i).recognize M name arguments).run sh = (none, sh) := by
  refine recognize_internal_of_ne (fun hname => ?_) sh
  rw [isInternal_iff.mpr ⟨i, hname⟩] at hn
  cases hn

/-- A name that is no command of the shell is left to the last two recognizers. -/
theorem first_all (hn : isInternal name = false) (sh : Shell) :
    (Recognizer.first M name arguments Recognizer.all).run sh =
      (Recognizer.first M name arguments [.misspelled, .git]).run sh := by
  simp only [Recognizer.all, Internal.all, List.map_cons, List.map_nil, List.cons_append,
    List.nil_append, first_of_none _ (recognize_internal hn _ sh)]

theorem recognize_git (sh : Shell) : (Recognizer.git.recognize M name arguments).run sh =
    (sh.host.findProgram.map fun program => .git program (name :: arguments), sh) := rfl

/-- Arguments go to git if their name is no command of the shell and is not held for misspelled. -/
theorem first_eq_git {program : Text} (hn : isInternal name = false)
    (hm : (Recognizer.misspelled.recognize M name arguments).run sh = (none, sh'))
    (hp : sh'.host.findProgram = some program) :
    (Recognizer.first M name arguments Recognizer.all).run sh =
      (some (.git program (name :: arguments)), sh') := by
  have hgit : (Recognizer.git.recognize M name arguments).run sh' =
      (some (.git program (name :: arguments)), sh') := by
    rw [recognize_git, hp]
    rfl
  rw [first_all hn, first_of_none _ hm, first_of_some _ hgit]

/-- What a command printed is printed. -/
theorem runNamed_of_ok {color : Bool} {command : Command} {report : Report} {sh₂ : Shell}
    (hfirst : (Recognizer.first M name arguments Recognizer.all).run sh = (some command, sh'))
    (hrun : (command.run M color).run sh' = (.ok report, sh₂)) :
    (runNamed M color name arguments).run sh = (report.status,
      { sh₂ with host := { sh₂.host with stdout := sh₂.host.stdout ++ report.printed } }) := by
  rw [runNamed, run_bind, hfirst]
  simp only
  rw [run_bind, hrun]
  rfl

/-- Arguments that go to git are one call of it, and its status is how git ended. -/
theorem exists_runNamed (color : Bool) {program : Text}
    (h : (Recognizer.first M name arguments Recognizer.all).run sh =
      (some (.git program (name :: arguments)), sh'))
    (hc : sh'.host.checkStart program (name :: arguments) = .ok ()) :
    ∃ host, sh'.host.After [name :: arguments] host ∧
      (runNamed M color name arguments).run sh =
        (.ofEnding (sh'.host.git sh'.host.calls (name :: arguments)).ending,
          { sh' with host := host }) := by
  obtain ⟨host, a, hs⟩ := Host.exists_startOpenly (name :: arguments) sh'.host
  have hrun : ((Command.git program (name :: arguments)).run M color).run sh' =
      (.ok ⟨[], .ofEnding (sh'.host.git sh'.host.calls (name :: arguments)).ending⟩,
        { sh' with host := host }) := by
    rw [Command.run, run_bind]
    simp only [StateT.run_get, pure, hc]
    rw [run_bind, onHost_run, hs]
    rfl
  exact ⟨{ host with stdout := host.stdout ++ [] }, a.trans (.printed host _ host.stderr),
    runNamed_of_ok h hrun⟩

end

/-- A name that git knows is not held for misspelled. -/
theorem Reaches.recognize_misspelled (hr : sh₀.Reaches before sh)
    (hk : isInternal (':' :: name) = true → sh₀.Knows before name) (v : Verbosity)
    (arguments : List Text) : ∃ queries sh', queries.Sublist nameQueries ∧
      (queries = [] ∨ isInternal (':' :: name) = true) ∧
        (Recognizer.misspelled.recognize (metadata v) name arguments).run sh = (none, sh') ∧
          sh.host.After queries sh'.host ∧ sh₀.Informs before sh'.memory := by
  cases hi : isInternal (':' :: name) with
  | false =>
      refine ⟨[], sh, List.nil_sublist _, .inl rfl, ?_,
        .refl sh.host, hr.memory⟩
      rw [Recognizer.recognize, if_neg (Bool.eq_false_iff.mp hi)]
      rfl
  | true =>
      obtain ⟨queries, sh', hq, hc, a, hm⟩ := hr.isCommand (hk hi) v
      refine ⟨queries, sh', hq, .inr rfl, ?_, a, hm⟩
      rw [Recognizer.recognize, if_pos hi, run_bind, hc]
      rfl

theorem resolveHelp_eq {arguments : List Text}
    (h : ∀ name, isInternal name = true → arguments ≠ ["help".toList, name]) :
    resolveHelp arguments = arguments := by
  unfold resolveHelp
  split
  · next help name =>
      rw [if_neg]
      rintro ⟨rfl, hi⟩
      exact h name hi rfl
  · rfl

theorem Reaches.printed (hr : sh₀.Reaches before sh) (stdout stderr : Text) :
    sh₀.Reaches before
      { sh with host := { sh.host with stdout := stdout, stderr := stderr } } := by
  obtain ⟨starts, hs, hsub⟩ := hr.host
  exact ⟨⟨starts, hs.printed (.printed sh.host stdout stderr), hsub⟩, hr.memory⟩

/-- **A group for git starts git once**, with its arguments, and its status is how git ended. -/
theorem Reaches.run (hr : sh₀.Reaches before sh) {arguments : List Text}
    (hg : sh₀.IsForGit before arguments) (hne : arguments ≠ []) (s : Settings) :
    ∃ ending sh', (Shell.run s arguments).run sh = (.ofEnding ending, sh') ∧
      sh.host.Starts [(arguments, ending)] sh'.host ∧
        sh₀.Reaches (before ++ [arguments]) sh' := by
  obtain ⟨name, rest, rfl⟩ := List.exists_cons_of_ne_nil hne
  obtain ⟨hi, hk⟩ := hg.name name rfl
  obtain ⟨program, hp, hc⟩ := hg.starts
  obtain ⟨err, ht⟩ := Host.exists_trace s.verbosity
    ("run: ".toList ++ Trace.ofArguments (name :: rest)) sh.host
  have hr₁ := hr.printed sh.host.stdout err
  obtain ⟨queries, sh₂, hq, hn, hm, a, hinf⟩ := hr₁.recognize_misspelled hk s.verbosity rest
  have hfirst := first_eq_git hi hm (a.findProgram_eq.trans (hr₁.findProgram_eq.trans hp))
  obtain ⟨host, a', hrun⟩ := exists_runNamed s.color hfirst
    ((a.checkStart_eq _ _).trans ((hr₁.checkStart_eq _ _).trans hc))
  obtain ⟨err', ht'⟩ := Host.exists_trace s.verbosity ("status: ".toList ++ Trace.ofStatus
    (.ofEnding (sh₂.host.git sh₂.host.calls (name :: rest)).ending)) host
  have hstart : sh.host.Starts
      [(name :: rest, (sh₂.host.git sh₂.host.calls (name :: rest)).ending)]
      { host with stderr := err' } := by
    rw [a.git_eq, a.calls_eq]
    have hall := (Host.After.printed sh.host sh.host.stdout err).trans (a.trans a')
    rw [List.append_nil] at hall
    exact .start hq (hn.imp id fun h => ⟨name, rfl, h⟩) hall (.done (.printed host _ err'))
  refine ⟨_, { sh₂ with host := { host with stderr := err' } }, ?_, hstart, ?_, ?_⟩
  · rw [Shell.run, run_bind, onHost_run, ht]
    simp only [run_bind, dispatch, resolveHelp_eq hg.help]
    rw [hrun]
    simp only [onHost_run, ht']
    rfl
  · obtain ⟨starts, hs, hsub⟩ := hr.host
    refine ⟨_, hs.append hstart, ?_⟩
    rw [List.map_append]
    exact hsub.append (List.Sublist.refl _)
  · exact hinf.mono (List.sublist_append_left _ _)

/-! ### Running a line -/

/-- The groups of a list are for git, each after those before it. -/
def AllForGit (sh : Shell) (before : List (List Text)) (gs : List Group) : Prop :=
  ∀ gs₁ g gs₂, gs = gs₁ ++ g :: gs₂ → sh.IsForGit (before ++ gs₁.map (·.arguments)) g.arguments

theorem AllForGit.head {g : Group} {gs : List Group} (h : sh.AllForGit before (g :: gs)) :
    sh.IsForGit before g.arguments := by
  simpa using h [] g gs rfl

theorem AllForGit.tail {g : Group} {gs : List Group} (h : sh.AllForGit before (g :: gs)) :
    sh.AllForGit (before ++ [g.arguments]) gs := by
  rintro gs₁ k gs₂ rfl
  simpa using h (g :: gs₁) k gs₂ rfl

/-- **The loop over groups for git** starts git with the groups that it calls. -/
theorem Reaches.starts {s : Settings} {code : Int} {skipping : Bool} {gs : List Group}
    {calls : List Call} {o : Outcome}
    (e : Execution (Shell.run s) code skipping gs sh calls o sh') (hr : sh₀.Reaches before sh)
    (hg : sh₀.AllForGit before gs) (hne : ∀ g ∈ gs, g.arguments ≠ []) :
    ∃ starts, sh.host.Starts starts sh'.host ∧
      calls = starts.map fun p => (p.1, .ofEnding p.2) := by
  -- a skipped group has had its turn like one that ran, so `before` grows in every step
  induction e generalizing before with
  | done _ _ sh => exact ⟨[], .done (.refl sh.host), rfl⟩
  | left _ sh => exact ⟨[], .done (.refl sh.host), rfl⟩
  | skipped _ _ ih =>
      obtain ⟨-, hne⟩ := List.forall_mem_cons.mp hne
      exact ih (hr.mono (List.sublist_append_left _ _)) hg.tail hne
  | exited _ _ hrun _ ih =>
      obtain ⟨hg₁, hne⟩ := List.forall_mem_cons.mp hne
      obtain ⟨ending, sh₁, hrun', hs, hr₁⟩ := hr.run hg.head hg₁ s
      rw [hrun, Prod.mk.injEq] at hrun'
      obtain ⟨hk, rfl⟩ := hrun'
      obtain ⟨starts, hs', rfl⟩ := ih hr₁ hg.tail hne
      exact ⟨_, hs.append hs', by rw [hk]; rfl⟩
  | interrupted _ _ _ hrun =>
      obtain ⟨hg₁, -⟩ := List.forall_mem_cons.mp hne
      obtain ⟨ending, sh₁, hrun', hs, -⟩ := hr.run hg.head hg₁ s
      rw [hrun, Prod.mk.injEq] at hrun'
      obtain ⟨hk, rfl⟩ := hrun'
      exact ⟨_, hs, by rw [hk]; rfl⟩

/-- A line is run between traces, and the lists are forgotten at its end. -/
theorem exists_runLine (s : Settings) (line : Text) (sh : Shell) :
    ∃ err, ∀ {o : Outcome} {report : Text} {sh' : Shell},
      (executeLine (Shell.run s) s.color line).run
          { sh with host := { sh.host with stderr := err } } = ((o, report), sh') →
        ∃ err', (runLine s line).run sh = (o, { sh' with
          host := { sh'.host with stderr := err' }
          memory := sh'.memory.forget }) := by
  obtain ⟨err₁, h₁⟩ := Host.exists_trace s.verbosity
    ("tokens: ".toList ++ Trace.list ((tokenize line).map Trace.ofToken)) sh.host
  obtain ⟨err₂, h₂⟩ := Host.exists_trace s.verbosity
    ("groups: ".toList ++ Trace.ofParse (parse line)) { sh.host with stderr := err₁ }
  refine ⟨err₂, fun {o report sh'} he => ?_⟩
  obtain ⟨err₃, h₃⟩ := Host.exists_trace s.verbosity ("outcome: ".toList ++ Trace.ofOutcome o)
    ((Host.printError report).run sh'.host).2
  obtain ⟨err₄, h₄⟩ := Host.exists_trace s.verbosity "clearing git metadata".toList
    { ((Host.printError report).run sh'.host).2 with stderr := err₃ }
  refine ⟨err₄, ?_⟩
  rw [runLine, run_bind, onHost_run, h₁, run_bind, onHost_run, h₂, run_bind, he]
  simp only [run_bind, onHost_run]
  rw [h₃, forget]
  simp only [run_bind, onHost_run, h₄]
  rfl

/-- **Arguments reach git as they are.**  However a line of groups for git is written, running it
starts git with the groups that the nested evaluation selects when each of them has the status that
git ended with, in that order, each with its own arguments and nothing else.  The outcome is that of
the evaluation, which a git killed by signal 2 ends; one killed by another signal `n` has code
`128 + n` (`RunStatus.ofEnding`). -/
theorem runLine_starts (s : Settings) (sh : Shell) (l : WrittenLine)
    (hg : sh.AllForGit [] l.groups) :
    ∃ starts : List (List Text × Ending),
      let e := evaluate replay l.groups (starts.map fun p => .ofEnding p.2)
      sh.host.Starts starts ((runLine s l.text).run sh).2.host ∧
        e.calls = starts.map (fun p => (p.1, .ofEnding p.2)) ∧ e.state = [] ∧
          ((runLine s l.text).run sh).1 = e.outcome := by
  obtain ⟨err, hline⟩ := exists_runLine s l.text sh
  obtain ⟨calls, o, sh', e⟩ := exists_execution (Shell.run s) successCode false l.groups
    { sh with host := { sh.host with stderr := err } }
  obtain ⟨starts, hs, rfl⟩ :=
    (sh.reaches_self.printed sh.host.stdout err).starts e hg l.arguments_ne_nil
  have hperforms : Performs (Shell.run s) s.color l.text _ _ o [] sh' :=
    e.performs (parse_eq_ok_iff.mpr l.grouped)
  obtain ⟨err', hrun⟩ := hline hperforms.1
  obtain ⟨ho, hstate, hcalls⟩ := (e.replayed []).evaluate_eq
  have hstatuses : (starts.map fun p => (p.1, RunStatus.ofEnding p.2)).map (·.2) ++ [] =
      starts.map fun p => RunStatus.ofEnding p.2 := by simp
  rw [hstatuses] at ho hstate hcalls
  rw [hrun]
  exact ⟨starts, (hs.of_after (.printed sh.host sh.host.stdout err)).printed
    (.printed sh'.host _ err'), hcalls, hstate, ho.symm⟩

/-- A shell on a machine whose git, in `/bin`, fails at `log` and is killed at anything else.  It
remembers that git knows a command `history`. -/
def onFailingGit : Shell where
  host :=
    { git := fun _ arguments =>
        ⟨[], [], if arguments.head? = some "log".toList then .exited 1 else .killed 9⟩
      files := ⟨[(["bin".toList], .directory), (["bin".toList, "git".toList], .file [] true)]⟩
      workingDirectory := ⟨[], "/".toList⟩
      environment := [("PATH".toList, "/bin".toList)]
      calls := []
      stdout := []
      stderr := [] }
  memory := Memory.empty.learn .commands ["history".toList]
  history := .empty

/-- The line `'log' 'it\'s'||'history'`. -/
def logOrHistory : WrittenLine where
  leading := .none
  first := ⟨.ofText "log".toList, [(.space, .ofText "it's".toList)]⟩
  more := [(⟨.none, .or, .none⟩, ⟨.ofText "history".toList, []⟩)]
  final := none
  trailing := .none

theorem runLine_starts_log_history :
    logOrHistory.text = "'log' 'it\\'s'||'history'".toList ∧
      onFailingGit.AllForGit [] logOrHistory.groups ∧
      ∃ starts : List (List Text × Ending),
        let e := evaluate replay logOrHistory.groups (starts.map fun p => .ofEnding p.2)
        onFailingGit.host.Starts starts
            ((runLine ⟨false, .normal, none, 0⟩ logOrHistory.text).run onFailingGit).2.host ∧
          e.calls = starts.map (fun p => (p.1, .ofEnding p.2)) ∧ e.state = [] ∧
            e.outcome = .success 137 := by
  have hstarts : ∀ g ∈ logOrHistory.groups,
      onFailingGit.host.findProgram = some "/bin/git".toList ∧
        onFailingGit.host.checkStart "/bin/git".toList g.arguments = .ok () := by decide +kernel
  have hname : ∀ g ∈ logOrHistory.groups, ∀ name ∈ g.arguments.head?, isInternal name = false ∧
      (isInternal (':' :: name) = true → name ∈ ["history".toList]) := by decide
  have hhelp : ∀ g ∈ logOrHistory.groups, g.arguments.head? ≠ some "help".toList := by decide
  have hg : onFailingGit.AllForGit [] logOrHistory.groups := by
    intro gs₁ g gs₂ h
    have hmem : g ∈ logOrHistory.groups := by simp [h]
    refine ⟨⟨_, hstarts g hmem⟩, hname g hmem, fun name _ h => hhelp g hmem ?_⟩
    rw [h]
    rfl
  obtain ⟨starts, hs, hcalls, hstate, ho⟩ :=
    runLine_starts ⟨false, .normal, none, 0⟩ onFailingGit logOrHistory hg
  exact ⟨by decide, hg, starts, hs, hcalls, hstate, ho.symm.trans (by decide +kernel)⟩

end Shell

end GitShell
