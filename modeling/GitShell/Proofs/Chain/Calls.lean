import GitShell.Proofs.Chain.Evaluation
import GitShell.Proofs.Chain.Grammar

/-!
# Chain — Calls

What the loop over the groups of a line does to the group that comes next, one rule for each thing
that can happen to it (`Execution`), and what follows for the calls of a whole line.

* `exists_execution`, `Execution.run_eq`: the loop is an execution, with any runner.
* `Execution.calls_eq`: its calls are the arguments of some of the groups, in order.
* `Execution.replayed`: how the commands ended decides which are called, and the outcome.
* `Execution.evaluate_eq`: the execution is the nested evaluation.
* `executeLine_calls`: a line is validated completely before anything runs, and a runner is called
  with commands only.
-/

namespace GitShell

variable {σ : Type}

/-- A call of the runner: the arguments, and how the command ended. -/
abbrev Call := List Text × RunStatus

/-- The loop over groups, after the exit code `code` and perhaps skipping: from a state of the
runner it makes some calls, ends with an outcome and leaves a state. -/
inductive Execution (run : List Text → StateM σ RunStatus) :
    (code : Int) → (skipping : Bool) → List Group → σ → List Call → Outcome → σ → Prop where
  | done (code : Int) (skipping : Bool) (s : σ) :
      Execution run code skipping [] s [] (.success code) s
  | skipped {code : Int} {skipping : Bool} {g : Group} {gs : List Group} {s s' : σ}
      {calls : List Call} {o : Outcome} (h : (skips code skipping g.join).1 = true)
      (e : Execution run code (skips code skipping g.join).2 gs s calls o s') :
      Execution run code skipping (g :: gs) s calls o s'
  /-- The group asks to leave. -/
  | left {code : Int} {skipping : Bool} {g : Group} (gs : List Group) (s : σ)
      (h : (skips code skipping g.join).1 = false) (hl : g.leaves = true) :
      Execution run code skipping (g :: gs) s [] .exit s
  | exited {code k : Int} {skipping : Bool} {g : Group} {gs : List Group} {s s₁ s' : σ}
      {calls : List Call} {o : Outcome} (h : (skips code skipping g.join).1 = false)
      (hl : g.leaves = false) (hr : (run g.arguments).run s = (.exited k, s₁))
      (e : Execution run k false gs s₁ calls o s') :
      Execution run code skipping (g :: gs) s ((g.arguments, .exited k) :: calls) o s'
  | interrupted {code : Int} {skipping : Bool} {g : Group} (gs : List Group) {s s₁ : σ}
      (h : (skips code skipping g.join).1 = false) (hl : g.leaves = false)
      (hr : (run g.arguments).run s = (.interrupted, s₁)) :
      Execution run code skipping (g :: gs) s [(g.arguments, .interrupted)] .exit s₁

/-- The runner whose commands end as they are told to, one after the other, and succeed when nothing
is told any more. -/
def replay (_arguments : List Text) : StateM (List RunStatus) RunStatus
  | [] => (.exited successCode, [])
  | status :: statuses => (status, statuses)

variable {run : List Text → StateM σ RunStatus}

theorem exists_execution (run : List Text → StateM σ RunStatus) (code : Int) (skipping : Bool)
    (gs : List Group) (s : σ) : ∃ calls o s', Execution run code skipping gs s calls o s' := by
  induction gs generalizing code skipping s with
  | nil => exact ⟨_, _, _, .done code skipping s⟩
  | cons g gs ih =>
      cases h : (skips code skipping g.join).1 with
      | true =>
          obtain ⟨calls, o, s', e⟩ := ih code (skips code skipping g.join).2 s
          exact ⟨calls, o, s', .skipped h e⟩
      | false =>
          cases hl : g.leaves with
          | true => exact ⟨_, _, _, .left gs s h hl⟩
          | false =>
              cases hr : (run g.arguments).run s with
              | mk status s₁ =>
                  cases status with
                  | exited k =>
                      obtain ⟨calls, o, s', e⟩ := ih k false s₁
                      exact ⟨_, o, s', .exited h hl hr e⟩
                  | interrupted => exact ⟨_, _, _, .interrupted gs h hl hr⟩

namespace Execution

variable {code : Int} {skipping : Bool} {gs : List Group} {s s' : σ} {calls : List Call}
  {o : Outcome}

/-- **The loop is an execution.** -/
theorem run_eq (e : Execution run code skipping gs s calls o s') :
    (executeFrom run code skipping gs).run s = (o, s') := by
  induction e with
  | done => rfl
  | skipped h _ ih => rw [executeFrom_of_skips _ h, ih]
  | left gs s h hl => rw [executeFrom_of_runs gs s h, if_pos hl]
  | exited h hl hr _ ih =>
      rw [executeFrom_of_runs _ _ h, if_neg (Bool.eq_false_iff.mp hl), hr]
      exact ih
  | interrupted gs h hl hr =>
      rw [executeFrom_of_runs gs _ h, if_neg (Bool.eq_false_iff.mp hl), hr]

/-- A runner that keeps a list of its calls adds those of the execution. -/
theorem record (e : Execution run code skipping gs s calls o s') (before : List Call) :
    Execution (recorded run) code skipping gs (s, before) calls o (s', before ++ calls) := by
  induction e generalizing before with
  | done code skipping s => simpa using .done code skipping (s, before)
  | skipped h _ ih => exact .skipped h (ih before)
  | left gs s h hl => simpa using .left gs (s, before) h hl
  | @exited _ k _ g _ _ _ _ _ _ h hl hr _ ih =>
      have e := ih (before ++ [(g.arguments, .exited k)])
      rw [List.append_assoc] at e
      exact .exited h hl (by rw [run_recorded, hr]) e
  | interrupted gs h hl hr => exact .interrupted gs h hl (by rw [run_recorded, hr])

/-- The calls are the arguments of some of the groups, in order, none of which asks to leave. -/
theorem calls_eq (e : Execution run code skipping gs s calls o s') :
    ∃ gs' : List Group, gs'.Sublist gs ∧ calls.map (·.1) = gs'.map (·.arguments) ∧
      ∀ g ∈ gs', g.leaves = false := by
  induction e with
  | done | left => exact ⟨[], List.nil_sublist _, rfl, by simp⟩
  | skipped _ _ ih =>
      obtain ⟨gs', hsub, hcalls, hl⟩ := ih
      exact ⟨gs', hsub.cons _, hcalls, hl⟩
  | @exited _ _ _ g _ _ _ _ _ _ _ hg _ _ ih =>
      obtain ⟨gs', hsub, hcalls, hl⟩ := ih
      exact ⟨g :: gs', hsub.cons_cons g, by simp [hcalls], List.forall_mem_cons.mpr ⟨hg, hl⟩⟩
  | @interrupted _ _ g gs _ _ _ hg _ =>
      exact ⟨[g], by simp, rfl, by simpa using hg⟩

/-- The statuses of the calls, replayed, give the same execution. -/
theorem replayed (e : Execution run code skipping gs s calls o s') (more : List RunStatus) :
    Execution replay code skipping gs (calls.map (·.2) ++ more) calls o more := by
  induction e with
  | done code skipping => exact .done code skipping more
  | skipped h _ ih => exact .skipped h ih
  | left gs _ h hl => exact .left gs more h hl
  | exited h hl _ _ ih => exact .exited h hl rfl ih
  | interrupted gs h hl => exact .interrupted gs h hl rfl

/-- The execution of the groups of a line is their nested evaluation. -/
theorem evaluate_eq (e : Execution run successCode false gs s calls o s') :
    (evaluate run gs s).outcome = o ∧ (evaluate run gs s).state = s' ∧
      (evaluate run gs s).calls = calls := by
  have h : (executeFrom (recorded run) successCode false gs).run (s, []) =
      (evaluate run gs s).result := by
    rw [evaluate_eq_resume]
    exact executeFrom_recorded (e := ⟨s, [], false⟩) gs rfl (by simp)
  rw [(e.record []).run_eq, List.nil_append] at h
  exact ⟨congrArg (·.1) h.symm, congrArg (·.2.1) h.symm, congrArg (·.2.2) h.symm⟩

/-- The loop never rejects. -/
theorem outcome_ne_failure (e : Execution run code skipping gs s calls o s') (k : Int) :
    o ≠ .failure k := by
  induction e with
  | done | left | interrupted => exact fun h => by cases h
  | skipped _ _ ih | exited _ _ _ _ ih => exact ih

end Execution

/-! ### Lines -/

/-- A line, run from a state, makes these calls, ends with this outcome, writes this report and
leaves the runner in this state. -/
def Performs (run : List Text → StateM σ RunStatus) (color : Bool) (line : Text) (s : σ)
    (calls : List Call) (o : Outcome) (report : Text) (s' : σ) : Prop :=
  (executeLine run color line).run s = ((o, report), s') ∧
    (executeLine (recorded run) color line).run (s, []) = ((o, report), s', calls)

theorem executeLine_of_ok {color : Bool} {line : Text} {gs : List Group}
    (hp : parse line = .ok gs) (s : σ) : (executeLine run color line).run s =
      ((((executeGroups run gs).run s).1, []), ((executeGroups run gs).run s).2) := by
  rw [executeLine, hp]
  rfl

theorem executeLine_of_error {color : Bool} {line : Text} {e : LineError}
    (hp : parse line = .error e) (s : σ) : (executeLine run color line).run s =
      ((.failure notFoundCode, e.report line color), s) := by
  rw [executeLine, hp]
  rfl

/-- An accepted line performs the execution of its groups. -/
theorem Execution.performs {color : Bool} {line : Text} {gs : List Group} {s s' : σ}
    {calls : List Call} {o : Outcome} (e : Execution run successCode false gs s calls o s')
    (hp : parse line = .ok gs) : Performs run color line s calls o [] s' := by
  constructor
  · rw [executeLine_of_ok hp, executeGroups, e.run_eq]
  · rw [executeLine_of_ok hp, executeGroups, (e.record []).run_eq]
    rfl

theorem arguments_ne_nil_of_parse {line : Text} {gs : List Group} (hp : parse line = .ok gs) :
    ∀ g ∈ gs, g.arguments ≠ [] := by
  rcases parse_eq_ok_iff.mp hp with ⟨-, rfl⟩ | h
  · simp
  · exact h.arguments_ne_nil

/-- A group with arguments that does not ask to leave names a command. -/
theorem Group.exists_name {g : Group} (hne : g.arguments ≠ []) (hl : g.leaves = false) :
    ∃ name rest, g.arguments = name :: rest ∧ name ∉ exitNames := by
  obtain ⟨name, rest, hg⟩ := List.exists_cons_of_ne_nil hne
  refine ⟨name, rest, hg, ?_⟩
  simpa [leaves, name?, hg] using hl

/-- **A line is validated completely before anything runs.**  A rejected line makes no call, fails
with 127 and reports its one error.  An accepted line reports nothing and does not fail; it calls
the runner with the arguments of some of its groups, in order, each of them once at most, and never
with no arguments or with a name that asks to leave. -/
theorem executeLine_calls (run : List Text → StateM σ RunStatus) (color : Bool) (line : Text)
    (s : σ) :
    match parse line with
    | .error e => Performs run color line s [] (.failure 127) (e.report line color) s
    | .ok gs => ∃ calls o s', Performs run color line s calls o [] s' ∧ (∀ k, o ≠ .failure k) ∧
        (∃ gs' : List Group, gs'.Sublist gs ∧ calls.map (·.1) = gs'.map (·.arguments)) ∧
        ∀ c ∈ calls, ∃ name rest, c.1 = name :: rest ∧ name ∉ exitNames := by
  cases hp : parse line with
  | error e => exact ⟨executeLine_of_error hp s, executeLine_of_error hp (s, [])⟩
  | ok gs =>
      obtain ⟨calls, o, s', e⟩ := exists_execution run successCode false gs s
      obtain ⟨gs', hsub, hcalls, hl⟩ := e.calls_eq
      refine ⟨calls, o, s', e.performs hp, e.outcome_ne_failure, ⟨gs', hsub, hcalls⟩, ?_⟩
      intro c hc
      have hmem : c.1 ∈ gs'.map (·.arguments) := hcalls ▸ List.mem_map_of_mem hc
      obtain ⟨g, hg, hgc⟩ := List.mem_map.mp hmem
      rw [← hgc]
      exact g.exists_name (arguments_ne_nil_of_parse hp g (hsub.mem hg)) (hl g hg)

end GitShell
