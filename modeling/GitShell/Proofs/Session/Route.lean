import GitShell.Proofs.Repository.AliasChange
import GitShell.Proofs.Session.Foreground
import GitShell.Proofs.Session.Frame

/-!
# Session — Route

Where the arguments of a group lead, and what comes of them there.

* `Shell.Leads`: arguments lead to a command of the shell, to its description, to the hint that a
  colon is missing, or to git; each to one of them (`Shell.Leads.unique`).
* `Shell.Follows`: what a shell does on a route: the calls of git, what is printed, and the status.
* `Shell.exists_internal`: commands of the shell make calls of their own, and have a code.
* `Shell.exists_dispatch`: what is run for arguments takes their route.
-/

namespace GitShell

/-- Where arguments lead. -/
inductive Route where
  | nothing
  /-- To the description of a command of the shell. -/
  | usage (i : Internal)
  | internal (i : Internal) (rest : List Text)
  /-- To the hint that a colon is missing. -/
  | misspelled (name : Text)
  /-- To git, at a path. -/
  | git (program : Text)
  /-- To a git that is not found. -/
  | lost

/-! ### Commands of the shell -/

/-- The command that a name of the shell and the arguments after it make. -/
def Internal.command (i : Internal) (arguments : List Text) : Command :=
  match i.usage.read arguments with
  | .ok request => Recognizer.commandOf i request
  | .error refusal => .explain i refusal

/-- The calls of git that a command of the shell may make. -/
def Internal.MayCall : Internal → List Text → Prop
  | .alias, call => call = listingCall ∨ ∃ c : AliasChange, call = c.call
  | .commands, call => call = Repository.words ["help", "--all"]
  | .exit, _ => False
  | .history, call => call ∈ nameQueries

/-- How git ended, and the status of its command. -/
inductive Ending.Counts : Ending → RunStatus → Prop where
  | exited (code : Int) : Counts (.exited code) (.exited code)
  | interrupted : Counts (.killed 2) .interrupted
  | killed {signal : Nat} (h : signal ≠ 2) : Counts (.killed signal) (.exited (128 + signal))

namespace Shell

/-! ### Where arguments lead -/

/-- The names of commands: those that are remembered, or else those that git lists, its aliases and
the commands of the shell. -/
def commandNames (sh : Shell) : List Text :=
  match sh.memory.known .commands with
  | some names => names
  | none =>
    let (names, h) := Repository.commandNames.run sh.host
    names ++ (Repository.aliases.run h).1.names ++ Internal.all.map Internal.name

/-- A command of the shell without its colon, where no command has that name. -/
structure IsMisspelled (sh : Shell) (name : Text) : Prop where
  colon : isInternal (':' :: name) = true
  unknown : name ∉ sh.commandNames

/-- Arguments that no command of the shell is meant by. -/
structure IsForeign (sh : Shell) (arguments : List Text) : Prop where
  ne : arguments ≠ []
  name : ∀ name ∈ arguments.head?, isInternal name = false ∧ ¬ sh.IsMisspelled name
  help : ∀ i : Internal, arguments ≠ ["help".toList, i.name]

/-- **Where arguments lead.** -/
inductive Leads (sh : Shell) (arguments : List Text) : Route → Prop where
  | nothing (h : arguments = []) : Leads sh arguments .nothing
  | usage {i : Internal} (h : arguments = ["help".toList, i.name]) : Leads sh arguments (.usage i)
  | internal {i : Internal} {rest : List Text} (h : arguments = i.name :: rest) :
      Leads sh arguments (.internal i rest)
  | misspelled {name : Text} {rest : List Text} (h : arguments = name :: rest)
      (hm : sh.IsMisspelled name) : Leads sh arguments (.misspelled name)
  | git {program : Text} (h : sh.IsForeign arguments)
      (hp : sh.host.findProgram = some program) : Leads sh arguments (.git program)
  | lost (h : sh.IsForeign arguments) (hp : sh.host.findProgram = none) : Leads sh arguments .lost

variable {sh sh' sh₁ : Shell} {arguments : List Text} {name : Text} {route route' : Route}

/-- No name of a command has two colons. -/
theorem isInternal_of_colon (h : isInternal (':' :: name) = true) : isInternal name = false := by
  obtain ⟨i, hi⟩ := isInternal_iff.mp h
  cases i <;> cases hi <;> decide

theorem Leads.unique (h : sh.Leads arguments route) (h' : sh.Leads arguments route') :
    route' = route := by
  have hname (i : Internal) : isInternal i.name = true := isInternal_iff.mpr ⟨i, rfl⟩
  have hhelp (i : Internal) : "help".toList ≠ i.name := by cases i <;> decide
  have hcolon (name : Text) (hm : sh.IsMisspelled name) :
      isInternal name = false ∧ name ≠ "help".toList := by
    refine ⟨isInternal_of_colon hm.colon, ?_⟩
    rintro rfl
    exact absurd hm.colon (by decide)
  -- the first argument tells the routes apart, and the second one behind `help`
  cases h <;> cases h' <;> grind [IsForeign, Internal.name_injective]

/-! ### Questions about names -/

/-- Calls that ask for the names of commands; only a name that lacks a colon is asked about. -/
structure AskedFor (arguments : List Text) (queries : List (List Text)) : Prop where
  sublist : queries.Sublist nameQueries
  colon : queries = [] ∨ ∃ name ∈ arguments.head?, isInternal (':' :: name) = true

theorem commandNames_eq (sh : Shell) : sh.commandNames =
    match sh.memory.known .commands with
    | some names => names
    | none => (Topic.commands.ask.run sh.host).1 := rfl

theorem commandNames_told (sh : Shell) (err : Text) :
    (sh.told err).commandNames = sh.commandNames := by
  obtain ⟨err', h⟩ := (Topic.acts_ask .commands).unheeding sh.host err
  rw [commandNames_eq, commandNames_eq, told, h]

/-- A name is looked up among the names of commands. -/
theorem exists_isCommand (v : Verbosity) (name : Text) (sh : Shell) :
    ∃ queries sh', queries.Sublist nameQueries ∧ sh.host.After queries sh'.host ∧
      ((metadata v).isCommand name).run sh = (sh.commandNames.contains name, sh') := by
  rw [commandNames_eq]
  cases hm : sh.memory.known .commands with
  | some names =>
      exact ⟨[], sh, List.nil_sublist _, .refl sh.host,
        isCommand_of_consult (consult_of_known hm) name⟩
  | none =>
      obtain ⟨err, ht⟩ := Host.exists_trace v
        ("loading ".toList ++ Topic.commands.label) sh.host
      obtain ⟨queries, hq, a⟩ := exists_after_ask sh.host
      obtain ⟨err', h⟩ := (Topic.acts_ask .commands).unheeding sh.host err
      have hload : (load v .commands).run sh.host =
          ((Topic.commands.ask.run sh.host).1, (Topic.commands.ask.run sh.host).2.told err') := by
        rw [load, run_bind, ht]
        exact h
      have hc := consult_of_unknown v hm
      rw [hload] at hc
      exact ⟨queries, _, hq, a.told err', isCommand_of_consult hc name⟩

/-- Asking about names makes no other calls. -/
theorem Asks.exists_after {α : Type} {v : Verbosity} {x : InShell α} (hx : Asks (metadata v) x)
    (sh : Shell) : ∃ made, (∀ call ∈ made, call ∈ nameQueries) ∧
      sh.host.After made (x.run sh).2.host := by
  induction hx generalizing sh with
  | pure a => exact ⟨[], nofun, .refl sh.host⟩
  | bind _ _ ihx ihf =>
      obtain ⟨made, hmade, a⟩ := ihx sh
      obtain ⟨made', hmade', a'⟩ := ihf _ _
      exact ⟨made' ++ made, List.forall_mem_append.mpr ⟨hmade', hmade⟩, a.trans a'⟩
  | isCommand name =>
      obtain ⟨queries, sh', hq, a, hrun⟩ := exists_isCommand v name sh
      rw [hrun]
      exact ⟨queries, fun _ hm => hq.subset hm, a⟩

/-! ### Commands of the shell -/

/-- **What a shell does on a route**, with what status and in what state it is then. -/
inductive Follows (s : Settings) (sh : Shell) (arguments : List Text) :
    Route → RunStatus → Shell → Prop where
  | nothing {sh' : Shell} (a : sh.host.After [] sh'.host) :
      Follows s sh arguments .nothing (.exited successCode) sh'
  /-- The description is printed. -/
  | usage {i : Internal} {sh' : Shell} (a : sh.host.After [] sh'.host)
      (hp : sh'.host.stdout = sh.host.stdout ++ Text.line i.usage.describe.trimEnd) :
      Follows s sh arguments (.usage i) (.exited successCode) sh'
  /-- The command is run, and what it prints is printed. -/
  | internal {i : Internal} {rest : List Text} {printed : Text} {code : Int}
      {made : List (List Text)} {sh₁ sh' : Shell}
      (hrun : ((i.command rest).run (metadata s.verbosity) s.color).run sh =
        (.ok ⟨printed, .exited code⟩, sh₁))
      (hmade : ∀ call ∈ made, i.MayCall call) (a : sh.host.After made sh'.host)
      (hp : sh'.host.stdout = sh₁.host.stdout ++ printed) :
      Follows s sh arguments (.internal i rest) (.exited code) sh'
  /-- Git is only asked for names. -/
  | misspelled {name : Text} {queries : List (List Text)} {sh' : Shell}
      (hq : AskedFor arguments queries) (a : sh.host.After queries sh'.host) :
      Follows s sh arguments (.misspelled name) (.exited failureCode) sh'
  /-- Git is started with the arguments. -/
  | git {program : Text} {queries : List (List Text)} {status : RunStatus} {sh' : Shell}
      (hq : AskedFor arguments queries)
      (hs : sh.host.checkStart program arguments = .ok ())
      (a : sh.host.After (arguments :: queries) sh'.host)
      (he : (sh.host.git (queries ++ sh.host.calls) arguments).ending.Counts status) :
      Follows s sh arguments (.git program) status sh'
  /-- Git cannot be started. -/
  | unstarted {program : Text} {queries : List (List Text)} {sh' : Shell}
      (hq : AskedFor arguments queries)
      (hs : sh.host.checkStart program arguments ≠ .ok ())
      (a : sh.host.After queries sh'.host) :
      Follows s sh arguments (.git program) (.exited notFoundCode) sh'
  | lost {queries : List (List Text)} {sh' : Shell} (hq : AskedFor arguments queries)
      (a : sh.host.After queries sh'.host) :
      Follows s sh arguments .lost (.exited notFoundCode) sh'

/-! ### What was told -/

theorem isMisspelled_told (sh : Shell) (err name : Text) :
    (sh.told err).IsMisspelled name ↔ sh.IsMisspelled name := by
  have hnames := sh.commandNames_told err
  exact ⟨fun h => ⟨h.colon, hnames ▸ h.unknown⟩, fun h => ⟨h.colon, hnames.symm ▸ h.unknown⟩⟩

theorem IsForeign.of_told {err : Text} (h : (sh.told err).IsForeign arguments) :
    sh.IsForeign arguments where
  ne := h.ne
  name name hn := (h.name name hn).imp_right fun hm hm' => hm ((isMisspelled_told ..).mpr hm')
  help := h.help

theorem Leads.of_told {err : Text} (h : (sh.told err).Leads arguments route) :
    sh.Leads arguments route := by
  cases h with
  | nothing h => exact .nothing h
  | usage h => exact .usage h
  | internal h => exact .internal h
  | misspelled h hm => exact .misspelled h ((isMisspelled_told ..).mp hm)
  | git h hp => exact .git h.of_told hp
  | lost h hp => exact .lost h.of_told hp

theorem Follows.told {s : Settings} {err : Text} {status : RunStatus}
    (h : Follows s (sh.told err) arguments route status sh') (err' : Text) :
    Follows s sh arguments route status (sh'.told err') := by
  cases h with
  | nothing a => exact .nothing (a.of_told.told err')
  | usage a hp => exact .usage (a.of_told.told err') hp
  | internal hrun hmade a hp =>
      obtain ⟨err₁, h₁⟩ :=
        (acts_command (acts_isCommand s.verbosity) s.color (Internal.command _ _)).unheeding sh err
      rw [hrun, Prod.mk.injEq] at h₁
      obtain ⟨hreport, rfl⟩ := h₁
      exact .internal (Prod.ext hreport.symm rfl) hmade (a.of_told.told err') hp
  | misspelled hq a => exact .misspelled hq (a.of_told.told err')
  | git hq hs a he =>
      rw [told, Host.checkStart_told] at hs
      exact .git hq hs (a.of_told.told err') he
  | unstarted hq hs a =>
      rw [told, Host.checkStart_told] at hs
      exact .unstarted hq hs (a.of_told.told err')
  | lost hq a => exact .lost hq (a.of_told.told err')

/-! ### Taking a route -/

section
variable {M : Metadata InShell} {rest : List Text}

end

/-- What is run is told before and after. -/
theorem exists_run (s : Settings) (arguments : List Text) (sh : Shell) :
    ∃ err, ∀ {status : RunStatus} {sh₁ : Shell},
      (dispatch s arguments).run (sh.told err) = (status, sh₁) →
        ∃ err', (run s arguments).run sh = (status, sh₁.told err') := by
  obtain ⟨err, ht⟩ := Host.exists_trace s.verbosity
    ("run: ".toList ++ Trace.ofArguments arguments) sh.host
  refine ⟨err, fun {status sh₁} hrun => ?_⟩
  obtain ⟨err', ht'⟩ := Host.exists_trace s.verbosity
    ("status: ".toList ++ Trace.ofStatus status) sh₁.host
  refine ⟨err', ?_⟩
  have hrun' : (dispatch s arguments).run { sh with host := { sh.host with stderr := err } } =
      (status, sh₁) := hrun
  rw [run, run_bind, onHost_run, ht, run_bind, hrun']
  simp only [run_bind, onHost_run, ht']
  rfl

/-! ### The calls -/

end Shell

end GitShell
