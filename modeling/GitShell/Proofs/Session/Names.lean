import GitShell.Session.Shell

/-!
# Session — Names

How the shell comes to know the names of commands: it has two questions for git, which are calls of
git like any other, and it keeps what it was told.

* `Host.After`: a host after some calls of git is the same but for what was printed; git is found
  and starts as before.
* `exists_after_ask`: to ask for the names makes calls among the two of `nameQueries`.
* `consult_of_known`, `consult_of_unknown`: a list that is known is not asked for again.
-/

namespace GitShell

/-- An action and what follows it. -/
theorem run_bind {σ α β : Type} (x : StateM σ α) (f : α → StateM σ β) (s : σ) :
    (x >>= f).run s = (f (x.run s).1).run (x.run s).2 := rfl

theorem onHost_run {α : Type} (x : OnHost α) (sh : Shell) :
    (onHost x).run sh = ((x.run sh.host).1, { sh with host := (x.run sh.host).2 }) := rfl

/-! ### A host after calls -/

/-- The host after some calls of git, the latest first.  What was printed may differ too, and
nothing else does. -/
def Host.After (h : Host) (made : List (List Text)) (h' : Host) : Prop :=
  ∃ out err, h' = { h with calls := made ++ h.calls, stdout := out, stderr := err }

namespace Host.After

theorem printed (h : Host) (out err : Text) :
    h.After [] { h with stdout := out, stderr := err } := ⟨out, err, rfl⟩

theorem refl (h : Host) : h.After [] h := .printed h h.stdout h.stderr

theorem trans {h h₁ h' : Host} {made made' : List (List Text)} (a : h.After made h₁)
    (b : h₁.After made' h') : h.After (made' ++ made) h' := by
  obtain ⟨_, _, rfl⟩ := a
  obtain ⟨out, err, rfl⟩ := b
  exact ⟨out, err, by rw [List.append_assoc]⟩

variable {h h' : Host} {made : List (List Text)}

theorem git_eq (a : h.After made h') : h'.git = h.git := by
  obtain ⟨_, _, rfl⟩ := a
  rfl

theorem calls_eq (a : h.After made h') : h'.calls = made ++ h.calls := by
  obtain ⟨_, _, rfl⟩ := a
  rfl

theorem findProgram_eq (a : h.After made h') : h'.findProgram = h.findProgram := by
  obtain ⟨_, _, rfl⟩ := a
  rfl

theorem searchFrom_eq (a : h.After made h') (here : Place) (paths : List Text) (denied : Bool)
    (error : FileError) :
    h'.searchFrom here denied error paths = h.searchFrom here denied error paths := by
  obtain ⟨_, _, rfl⟩ := a
  induction paths generalizing denied error with
  | nil => rfl
  | cons path paths ih => simp only [searchFrom, ih]

/-- A program starts after calls if it started before them. -/
theorem checkStart_eq (a : h.After made h') (program : Text) (arguments : List Text) :
    h'.checkStart program arguments = h.checkStart program arguments := by
  have hs := a.searchFrom_eq
  obtain ⟨_, _, rfl⟩ := a
  simp only [checkStart, checkProgram, hs]
  rfl

end Host.After

theorem Host.exists_trace (v : Verbosity) (message : Text) (h : Host) :
    ∃ err, (Host.trace v message).run h = ((), { h with stderr := err }) := by
  unfold trace
  split
  · exact ⟨_, rfl⟩
  · exact ⟨_, rfl⟩

/-- A command of git in the foreground is one call. -/
theorem Host.exists_startOpenly (arguments : List Text) (h : Host) :
    ∃ h', h.After [arguments] h' ∧
      (Host.startOpenly arguments).run h = ((h.git h.calls arguments).ending, h') :=
  ⟨((Host.startOpenly arguments).run h).2, ⟨_, _, rfl⟩, rfl⟩

/-! ### Questions -/

theorem Host.query_run (arguments : List Text) (h : Host) :
    (Host.query arguments).run h = match h.checkStart programName arguments with
      | .error _ => (.failed, h)
      | .ok () =>
        (.ofReply (h.git h.calls arguments), { h with calls := arguments :: h.calls }) := by
  rw [query, run_bind]
  simp only [StateT.run_get, pure]
  cases h.checkStart programName arguments <;> rfl

/-- A question to git makes one call, unless git does not start. -/
theorem Host.exists_after_query (arguments : List Text) (h : Host) :
    ∃ made, made.Sublist [arguments] ∧ h.After made ((Host.query arguments).run h).2 := by
  rw [query_run]
  cases h.checkStart programName arguments with
  | error _ => exact ⟨[], List.nil_sublist _, .refl h⟩
  | ok => exact ⟨[arguments], List.Sublist.refl _, h.stdout, h.stderr, rfl⟩

/-- The calls that ask git for the names of its commands and aliases, the latest first. -/
def nameQueries : List (List Text) :=
  [Repository.words ["config", "--show-scope", "--get-regexp", "^alias\\."],
    Repository.words ["--list-cmds=main,nohelpers"]]

theorem exists_after_ask (h : Host) :
    ∃ made, made.Sublist nameQueries ∧ h.After made (Topic.commands.ask.run h).2 := by
  obtain ⟨made, hmade, a⟩ :=
    Host.exists_after_query (Repository.words ["--list-cmds=main,nohelpers"]) h
  obtain ⟨made', hmade', a'⟩ := Host.exists_after_query
    (Repository.words ["config", "--show-scope", "--get-regexp", "^alias\\."])
    ((Host.query (Repository.words ["--list-cmds=main,nohelpers"])).run h).2
  exact ⟨made' ++ made, hmade'.append hmade, a.trans a'⟩

/-! ### Memory -/

namespace Shell

theorem consult_of_known {v : Verbosity} {topic : Topic} {sh : Shell} {values : List Text}
    (h : sh.memory.known topic = some values) : (consult v topic).run sh = (values, sh) := by
  rw [consult, run_bind]
  simp only [StateT.run_get, pure, h]
  rfl

/-- A list is asked of git, with a trace. -/
def load (v : Verbosity) (topic : Topic) : OnHost (List Text) := do
  Host.trace v ("loading ".toList ++ topic.label)
  topic.ask

/-- A list that is not known is asked for and remembered. -/
theorem consult_of_unknown (v : Verbosity) {topic : Topic} {sh : Shell}
    (h : sh.memory.known topic = none) : (consult v topic).run sh =
      (((load v topic).run sh.host).1,
        { sh with host := ((load v topic).run sh.host).2
                  memory := sh.memory.learn topic ((load v topic).run sh.host).1 }) := by
  rw [consult, run_bind]
  simp only [StateT.run_get, pure, h]
  rfl

theorem exists_consult_of_unknown (v : Verbosity) {topic : Topic} {sh : Shell}
    (h : sh.memory.known topic = none) :
    ∃ host, sh.host.After [] host ∧ (consult v topic).run sh =
      ((topic.ask.run host).1,
        { sh with host := (topic.ask.run host).2
                  memory := sh.memory.learn topic (topic.ask.run host).1 }) := by
  obtain ⟨err, ht⟩ := Host.exists_trace v ("loading ".toList ++ topic.label) sh.host
  refine ⟨_, .printed sh.host sh.host.stdout err, ?_⟩
  rw [consult_of_unknown v h, load, run_bind, ht]

/-- A name is looked up in the list of names. -/
theorem isCommand_of_consult {v : Verbosity} {sh sh' : Shell} {names : List Text}
    (h : (consult v .commands).run sh = (names, sh')) (name : Text) :
    ((metadata v).isCommand name).run sh = (names.contains name, sh') := by
  simp only [metadata]
  rw [run_bind, h]
  rfl

end Shell

end GitShell
