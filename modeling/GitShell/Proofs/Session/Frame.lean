import GitShell.Proofs.Editing.Painting
import GitShell.Proofs.Session.Names
import GitShell.Session.Interpreter
import GitShell.Session.Loop

/-!
# Session — Frame

What the commands of a line do not do, whoever they are for.  They are made of a few actions
(`Host.Acts`, `Shell.Acts`): they call git and print, ask for the lists, and read nothing of what was
told on the error stream.  So they leave the files and the lines entered so far alone
(`Shell.Acts.serves`), and do the same whatever was told before (`Unheeding`).

* `Shell.acts_work`: the work of a line is such an action; `Shell.exists_runLine_work`: the lists are
  forgotten after it, and that is all.
* `Shell.acts_showPrompt`: making the prompt is such an action.
-/

namespace GitShell

/-- An action that reads the state first. -/
theorem run_get_bind {σ α : Type} (f : σ → StateM σ α) (s : σ) : (get >>= f).run s = (f s).run s :=
  rfl

/-! ### What was told -/

/-- An action that does the same whatever was told before. -/
def Unheeding {σ α : Type} (told : σ → Text → σ) (x : StateM σ α) : Prop :=
  ∀ s err, ∃ err', x.run (told s err) = ((x.run s).1, told (x.run s).2 err')

section
variable {σ α β : Type} {told : σ → Text → σ}

theorem unheeding_pure (a : α) : Unheeding told (pure a) := fun _ err => ⟨err, rfl⟩

theorem Unheeding.bind {x : StateM σ α} {f : α → StateM σ β} (hx : Unheeding told x)
    (hf : ∀ a, Unheeding told (f a)) : Unheeding told (x >>= f) := by
  intro s err
  obtain ⟨err₁, h₁⟩ := hx s err
  obtain ⟨err₂, h₂⟩ := hf _ _ err₁
  exact ⟨err₂, by rw [run_bind, h₁, h₂, run_bind]⟩

theorem Unheeding.get_bind {f : σ → StateM σ α} (hf : ∀ s, Unheeding told (f s))
    (ht : ∀ s err, f (told s err) = f s) : Unheeding told (get >>= f) := by
  intro s err
  obtain ⟨err', h⟩ := hf s s err
  exact ⟨err', by rw [run_get_bind, run_get_bind, ht, h]⟩

end

/-! ### Actions on the host -/

namespace Host

/-- The host after something else was told. -/
def told (h : Host) (err : Text) : Host := { h with stderr := err }

/-- Actions that are made of calling git and printing. -/
inductive Acts : {α : Type} → OnHost α → Prop where
  | pure {α : Type} (a : α) : Acts (Pure.pure a)
  | bind {α β : Type} {x : OnHost α} {f : α → OnHost β} (hx : Acts x) (hf : ∀ a, Acts (f a)) :
      Acts (x >>= f)
  /-- What was told does not decide what follows. -/
  | get {α : Type} {f : Host → OnHost α} (hf : ∀ h, Acts (f h))
      (ht : ∀ h err, f (h.told err) = f h) : Acts (MonadState.get >>= f)
  | print (t : Text) : Acts (print t)
  | printError (t : Text) : Acts (printError t)
  | start (arguments : List Text) : Acts (start arguments)

/-- A host after some calls of git. -/
def Calls (h h' : Host) : Prop := ∃ made, h.After made h'

theorem Calls.refl (h : Host) : h.Calls h := ⟨[], .refl h⟩

theorem Calls.trans {h h₁ h' : Host} (a : h.Calls h₁) (b : h₁.Calls h') : h.Calls h' := by
  obtain ⟨_, a⟩ := a
  obtain ⟨_, b⟩ := b
  exact ⟨_, a.trans b⟩

theorem After.told {h h' : Host} {made : List (List Text)} (a : h.After made h') (err : Text) :
    h.After made (h'.told err) := by
  obtain ⟨out, _, rfl⟩ := a
  exact ⟨out, err, rfl⟩

theorem After.of_told {h h' : Host} {made : List (List Text)} {err : Text}
    (a : (h.told err).After made h') : h.After made h' := by
  obtain ⟨out, err', rfl⟩ := a
  exact ⟨out, err', rfl⟩

/-- What was told does not decide whether a program starts. -/
theorem checkStart_told (h : Host) (err program : Text) (arguments : List Text) :
    (h.told err).checkStart program arguments = h.checkStart program arguments :=
  (After.printed h h.stdout err).checkStart_eq program arguments

namespace Acts

variable {α β : Type} {x : OnHost α}

/-- **Nothing but calls** of git comes of such an action. -/
theorem calls (hx : Acts x) (h : Host) : h.Calls (x.run h).2 := by
  induction hx generalizing h with
  | pure a => exact .refl h
  | bind _ _ ihx ihf => exact (ihx h).trans (ihf _ _)
  | get _ _ ih => exact ih h h
  | print t => exact ⟨[], .printed h _ _⟩
  | printError t => exact ⟨[], .printed h _ _⟩
  | start arguments => exact ⟨[arguments], h.stdout, h.stderr, rfl⟩

/-- Such an action does the same whatever was told before. -/
theorem unheeding (hx : Acts x) : Unheeding told x := by
  induction hx with
  | pure a => exact unheeding_pure a
  | bind _ _ ihx ihf => exact ihx.bind ihf
  | get _ ht ih => exact .get_bind ih ht
  | print t => exact fun _ err => ⟨err, rfl⟩
  | printError t => exact fun _ err => ⟨err ++ t, rfl⟩
  | start arguments => exact fun _ err => ⟨err, rfl⟩

theorem map (hx : Acts x) (g : α → β) : Acts (g <$> x) := by
  rw [← bind_pure_comp]
  exact hx.bind fun _ => .pure _

theorem trace (v : Verbosity) (message : Text) : Acts (Host.trace v message) := by
  unfold Host.trace
  split
  · exact .printError _
  · exact .pure _

theorem warn (v : Verbosity) (message : Text) : Acts (Host.warn v message) := by
  unfold Host.warn
  split
  · exact .pure _
  · exact .printError _

theorem query (arguments : List Text) : Acts (Host.query arguments) := by
  refine .get (fun h => ?_) fun h err => ?_
  · split
    · exact .pure _
    · exact (Acts.start _).bind fun _ => .pure _
  · simp only [checkStart_told]

theorem startOpenly (arguments : List Text) : Acts (Host.startOpenly arguments) :=
  (Acts.start _).bind fun _ => (Acts.print _).bind fun _ => (Acts.printError _).bind fun _ => .pure _

end Acts

end Host

namespace Repository

open Host (Acts)

theorem acts_commandDescriptions : Acts commandDescriptions := (Acts.query _).bind fun _ => .pure _

theorem acts_aliases : Acts aliases := (Acts.query _).bind fun _ => .pure _

theorem acts_configure (key : Text) (arguments : List Text) : Acts (configure key arguments) := by
  refine .get (fun h => ?_) fun h err => ?_
  · split
    · exact .pure _
    · refine (Acts.startOpenly _).bind fun ending => ?_
      cases ending <;> exact .pure _
  · simp only [Host.checkStart_told]

theorem acts_setAlias (scope : Scope) (name : Text) (command : Option Text) :
    Acts (setAlias scope name command) := by
  unfold setAlias
  dsimp only
  split
  · exact .pure _
  · split
    · exact acts_configure _ _
    · refine acts_aliases.bind fun a => ?_
      split
      · exact .pure _
      · exact acts_configure _ _

theorem acts_status : Acts RepositoryStatus.query := by
  refine ((Acts.query _).bind fun _ => .pure _).bind fun inside => ?_
  split
  · refine ((Acts.query _).bind fun _ => .pure _).bind fun branch => ?_
    split
    · exact .pure _
    · exact ((Acts.query _).bind fun _ => .pure _).bind fun _ => .pure _
  · exact .pure _

end Repository

theorem acts_runAlias (r : Request) : Host.Acts (runAlias r) := by
  unfold runAlias
  split
  · exact .pure _
  · exact Repository.acts_aliases.bind fun _ => .pure _
  · refine (Repository.acts_setAlias _ _ _).bind fun result => ?_
    cases result <;> exact .pure _

theorem Topic.acts_ask (topic : Topic) : Host.Acts topic.ask := by
  cases topic with
  | commands =>
      exact ((Host.Acts.query _).map _).bind fun _ =>
        Repository.acts_aliases.bind fun _ => .pure _
  | gitCommands | branches | stagedFiles | unstagedFiles => exact (Host.Acts.query _).map _

/-! ### Actions of the shell -/

namespace Shell

/-- The shell after something else was told. -/
def told (sh : Shell) (err : Text) : Shell := { sh with host := sh.host.told err }

/-- Actions that are made of those on the host and of asking for the lists. -/
inductive Acts : {α : Type} → InShell α → Prop where
  | pure {α : Type} (a : α) : Acts (Pure.pure a)
  | bind {α β : Type} {x : InShell α} {f : α → InShell β} (hx : Acts x) (hf : ∀ a, Acts (f a)) :
      Acts (x >>= f)
  | get {α : Type} {f : Shell → InShell α} (hf : ∀ sh, Acts (f sh))
      (ht : ∀ sh err, f (sh.told err) = f sh) : Acts (MonadState.get >>= f)
  | onHost {α : Type} {x : OnHost α} (hx : Host.Acts x) : Acts (onHost x)
  | consult (v : Verbosity) (topic : Topic) : Acts (consult v topic)

/-- A shell after some calls of git; of what it remembers only the lists may be others. -/
structure Serves (sh sh' : Shell) : Prop where
  host : sh.host.Calls sh'.host
  history : sh'.history = sh.history
  pages : sh'.memory.pages = sh.memory.pages

theorem Serves.refl (sh : Shell) : sh.Serves sh := ⟨.refl _, rfl, rfl⟩

theorem Serves.trans {sh sh₁ sh' : Shell} (a : sh.Serves sh₁) (b : sh₁.Serves sh') :
    sh.Serves sh' :=
  ⟨a.host.trans b.host, b.history.trans a.history, b.pages.trans a.pages⟩

theorem acts_load (v : Verbosity) (topic : Topic) : Host.Acts (load v topic) :=
  (Host.Acts.trace _ _).bind fun _ => topic.acts_ask

theorem forget_run (v : Verbosity) (sh : Shell) : ∃ err, (Shell.forget v).run sh =
    ((), { sh.told err with memory := sh.memory.forget }) := by
  obtain ⟨err, h⟩ := Host.exists_trace v "clearing git metadata".toList sh.host
  exact ⟨err, by rw [Shell.forget, run_bind, onHost_run, h]; rfl⟩

namespace Acts

variable {α β : Type} {x : InShell α}

/-- **Files, manual pages and the lines entered so far stay**, and git is found as before. -/
theorem serves (hx : Acts x) (sh : Shell) : sh.Serves (x.run sh).2 := by
  induction hx generalizing sh with
  | pure a => exact .refl sh
  | bind _ _ ihx ihf => exact (ihx sh).trans (ihf _ _)
  | get _ _ ih => exact ih sh sh
  | onHost hx => exact ⟨hx.calls sh.host, rfl, rfl⟩
  | consult v topic =>
      cases hm : sh.memory.known topic with
      | some values =>
          rw [consult_of_known hm]
          exact .refl sh
      | none =>
          rw [consult_of_unknown v hm]
          exact ⟨(acts_load v topic).calls sh.host, rfl, rfl⟩

/-- Such an action does the same whatever was told before. -/
theorem unheeding (hx : Acts x) : Unheeding told x := by
  induction hx with
  | pure a => exact unheeding_pure a
  | bind _ _ ihx ihf => exact ihx.bind ihf
  | get _ ht ih => exact .get_bind ih ht
  | onHost hx =>
      intro sh err
      obtain ⟨err', h'⟩ := hx.unheeding sh.host err
      exact ⟨err', by rw [onHost_run, onHost_run, told, h']; rfl⟩
  | consult v topic =>
      intro sh err
      have hknown : (sh.told err).memory.known topic = sh.memory.known topic := rfl
      cases hm : sh.memory.known topic with
      | some values => exact ⟨err, by rw [consult_of_known hm, consult_of_known (hknown.trans hm)]⟩
      | none =>
          obtain ⟨err', h'⟩ := (acts_load v topic).unheeding sh.host err
          refine ⟨err', ?_⟩
          rw [consult_of_unknown v hm, consult_of_unknown v (hknown.trans hm), told, h']
          rfl

end Acts

/-! ### Running a line -/

theorem acts_isCommand (v : Verbosity) (name : Text) : Acts ((metadata v).isCommand name) :=
  (Acts.consult v .commands).bind fun _ => .pure _

/-- Actions that do nothing but ask whether names are commands. -/
inductive Asks (M : Metadata InShell) : {α : Type} → InShell α → Prop where
  | pure {α : Type} (a : α) : Asks M (Pure.pure a)
  | bind {α β : Type} {x : InShell α} {f : α → InShell β} (hx : Asks M x) (hf : ∀ a, Asks M (f a)) :
      Asks M (x >>= f)
  | isCommand (name : Text) : Asks M (M.isCommand name)

section
variable {M : Metadata InShell}

theorem asks_mapM {α β : Type} {f : α → InShell β} (hf : ∀ a, Asks M (f a)) (as : List α) :
    Asks M (as.mapM f) := by
  induction as with
  | nil => exact .pure []
  | cons a as ih =>
      rw [List.mapM_cons]
      exact (hf a).bind fun _ => ih.bind fun _ => .pure _

theorem asks_highlight (line : Text) (color : Bool) : Asks M (highlight M line color) := by
  rw [highlight]
  split
  · rw [annotate, annotateFrom_eq, ← bind_pure_comp]
    exact ((asks_mapM (fun _ => .isCommand _) _).bind fun _ => .pure _).bind fun _ => .pure _
  · exact .pure _

theorem asks_showHistory (color : Bool) (lines : List Text) :
    Asks M (showHistory M color lines) := by
  induction lines with
  | nil => exact .pure _
  | cons line lines ih =>
      exact (asks_highlight line color).bind fun _ => ih.bind fun _ => .pure _

variable (hM : ∀ name, Acts (M.isCommand name))
include hM

theorem Asks.acts {α : Type} {x : InShell α} (hx : Asks M x) : Acts x := by
  induction hx with
  | pure a => exact .pure a
  | bind _ _ ihx ihf => exact ihx.bind ihf
  | isCommand name => exact hM name

theorem acts_recognize (r : Recognizer) (name : Text) (arguments : List Text) :
    Acts (r.recognize M name arguments) := by
  cases r with
  | internal i =>
      rw [Recognizer.recognize]
      split
      · split <;> exact .pure _
      · exact .pure _
  | misspelled =>
      rw [Recognizer.recognize]
      split
      · exact (hM name).bind fun _ => .pure _
      · exact .pure _
  | git => exact .get (fun _ => .pure _) fun _ _ => rfl

theorem acts_first (name : Text) (arguments : List Text) (rs : List Recognizer) :
    Acts (Recognizer.first M name arguments rs) := by
  induction rs with
  | nil => exact .pure _
  | cons r rs ih =>
      refine (acts_recognize hM r name arguments).bind fun command => ?_
      cases command with
      | some command => exact .pure _
      | none => exact ih

theorem acts_command (color : Bool) (command : Command) : Acts (command.run M color) := by
  match command with
  | .alias request => exact (Acts.onHost (acts_runAlias request)).bind fun _ => .pure _
  | .commands => exact (Acts.onHost Repository.acts_commandDescriptions).bind fun _ => .pure _
  | .exit | .explain .. => exact .pure _
  | .history =>
      exact .get (fun _ => ((asks_showHistory color _).acts hM).bind fun _ => .pure _) fun _ _ => rfl
  | .misspelled _ => exact (Acts.onHost (.printError _)).bind fun _ => .pure _
  | .git program arguments =>
      refine .get (fun sh => ?_) fun sh err => ?_
      · split
        · exact .pure _
        · exact (Acts.onHost (.startOpenly _)).bind fun _ => .pure _
      · simp only [told, Host.checkStart_told]

theorem acts_runNamed (color : Bool) (name : Text) (arguments : List Text) :
    Acts (runNamed M color name arguments) := by
  refine (acts_first hM name arguments _).bind fun command => ?_
  cases command with
  | none => exact (Acts.onHost (.printError _)).bind fun _ => .pure _
  | some command =>
      refine (acts_command hM color command).bind fun report => ?_
      cases report with
      | ok report => exact (Acts.onHost (.print _)).bind fun _ => .pure _
      | error => exact (Acts.onHost (.printError _)).bind fun _ => .pure _

end

theorem acts_run (s : Settings) (arguments : List Text) : Acts (run s arguments) := by
  have hdispatch : Acts (dispatch s arguments) := by
    rw [dispatch]
    split
    · exact .pure _
    · exact acts_runNamed (acts_isCommand _) _ _ _
  exact (Acts.onHost (.trace _ _)).bind fun _ => hdispatch.bind fun _ =>
    (Acts.onHost (.trace _ _)).bind fun _ => .pure _

/-- The loop over groups is made of what runs a group. -/
theorem acts_executeFrom {run : List Text → InShell RunStatus} (hrun : ∀ a, Acts (run a))
    (gs : List Group) (code : Int) (skipping : Bool) : Acts (executeFrom run code skipping gs) := by
  induction gs generalizing code skipping with
  | nil => exact .pure _
  | cons g gs ih =>
      rw [executeFrom]
      dsimp only
      split
      · exact ih _ _
      · split
        · exact .pure _
        · refine (hrun g.arguments).bind fun status => ?_
          cases status with
          | exited k => exact ih _ _
          | interrupted => exact .pure _

theorem acts_executeLine {run : List Text → InShell RunStatus} (hrun : ∀ a, Acts (run a))
    (color : Bool) (line : Text) : Acts (executeLine run color line) := by
  rw [executeLine]
  split
  · exact (acts_executeFrom hrun _ _ _).bind fun _ => .pure _
  · exact .pure _

/-- What a line does before the lists are forgotten. -/
def work (s : Settings) (line : Text) : InShell Outcome := do
  onHost (Host.trace s.verbosity
    ("tokens: ".toList ++ Trace.list ((tokenize line).map Trace.ofToken)))
  onHost (Host.trace s.verbosity ("groups: ".toList ++ Trace.ofParse (parse line)))
  let (outcome, report) ← executeLine (run s) s.color line
  onHost (Host.printError report)
  onHost (Host.trace s.verbosity ("outcome: ".toList ++ Trace.ofOutcome outcome))
  return outcome

theorem runLine_eq (s : Settings) (line : Text) :
    runLine s line = (do let o ← work s line; forget s.verbosity; return o) := by
  simp [runLine, work]

/-- **The work of a line** is made of such actions. -/
theorem acts_work (s : Settings) (line : Text) : Acts (work s line) :=
  (Acts.onHost (.trace _ _)).bind fun _ => (Acts.onHost (.trace _ _)).bind fun _ =>
    (acts_executeLine (acts_run s) s.color line).bind fun _ =>
      (Acts.onHost (.printError _)).bind fun _ => (Acts.onHost (.trace _ _)).bind fun _ => .pure _

/-- After a line the lists are forgotten. -/
theorem exists_runLine_work (s : Settings) (line : Text) (sh : Shell) :
    ∃ err, (runLine s line).run sh = (((work s line).run sh).1,
      { ((work s line).run sh).2.told err with
        memory := ((work s line).run sh).2.memory.forget }) := by
  obtain ⟨err, h⟩ := forget_run s.verbosity ((work s line).run sh).2
  exact ⟨err, by rw [runLine_eq, run_bind, run_bind, h]; rfl⟩

theorem runLine_serves (s : Settings) (line : Text) (sh : Shell) :
    sh.Serves ((runLine s line).run sh).2 := by
  obtain ⟨err, h⟩ := exists_runLine_work s line sh
  rw [h]
  exact ((acts_work s line).serves sh).trans
    ⟨⟨[], .printed _ _ err⟩, rfl, rfl⟩

/-- The prompt is made of what git says. -/
theorem acts_showPrompt (s : Settings) (shown : Bool) (exitCode : Int) :
    Acts (showPrompt s shown exitCode) := by
  refine (Acts.onHost Repository.acts_status).bind fun status => ?_
  split
  · exact .onHost (.print _)
  · exact .pure _

end Shell

end GitShell
