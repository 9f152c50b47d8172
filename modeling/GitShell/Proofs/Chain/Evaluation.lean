import GitShell.Chain.Execute
import GitShell.Proofs.Split

/-!
# Chain — Evaluation

What the groups of a line do, said by nesting: `;` separates segments, `||` separates the chains of
a segment, and `&&` the groups of a chain.  A chain runs until a group fails, a segment until a
chain succeeds, a line to its end; asking to leave and being interrupted end everything.

* `executeGroups_eq_evaluate`: the flat loop over the groups, which remembers an exit code and
  whether it is skipping, makes the calls of the nested evaluation and has its outcome, for any
  runner.

The loop stands inside some chain of some segment.  `resume` is what the nested evaluation still
has to do there; the loop does it (`executeFrom_recorded`), and while it is skipping, which it only
does after success, it does what is left after the segment.
-/

namespace GitShell

variable {σ α : Type}

/-! ### The nested evaluation -/

/-- An evaluation so far. -/
structure Evaluation (σ : Type) where
  state : σ
  /-- The calls that were made, in order, and how each ended. -/
  calls : List (List Text × RunStatus)
  /-- Everything has ended. -/
  left : Bool

namespace Evaluation

/-- The code of the last call; success before any. -/
def code (e : Evaluation σ) : Int :=
  match e.calls.getLast? with
  | some (_, .exited code) => code
  | _ => successCode

def outcome (e : Evaluation σ) : Outcome := if e.left then .exit else .success e.code

end Evaluation

/-- What stands in a chain. -/
inductive Link where
  /-- Succeeds without a call. -/
  | pass
  | group (g : Group)

def Link.join : Link → Join
  | .pass => .next
  | .group g => g.join

/-- The groups of a line, after a link that succeeds if they do not start as after `;`. -/
def links (gs : List Group) : List Link :=
  if gs.head?.map (·.join) = some .next then gs.map .group else .pass :: gs.map .group

def startsSegment (c : Link) : Bool := c.join == .next

def startsChain (c : Link) : Bool := c.join == .or

/-- The links, cut before each `;`. -/
def segments (cs : List Link) : List (List Link) := cs.splitBy fun _ c => !startsSegment c

/-- The links of a segment, cut before each `||`. -/
def chains (cs : List Link) : List (List Link) := cs.splitBy fun _ c => !startsChain c

variable (run : List Text → StateM σ RunStatus)

/-- Runs a link, or ends everything. -/
def Link.eval : Link → Evaluation σ → Evaluation σ
  | .pass, e => e
  | .group g, e =>
    if g.leaves then { e with left := true }
    else
      let (status, s) := (run g.arguments).run e.state
      ⟨s, e.calls ++ [(g.arguments, status)], status == .interrupted⟩

/-- Evaluates parts in order, until `stop` holds after one of them or everything has ended. -/
def evalUntil (stop : Evaluation σ → Bool) (eval : α → Evaluation σ → Evaluation σ) :
    List α → Evaluation σ → Evaluation σ
  | [], e => e
  | a :: as, e =>
    let e := eval a e
    if e.left || stop e then e else evalUntil stop eval as e

/-- A chain runs until a link fails. -/
def evalChain : List Link → Evaluation σ → Evaluation σ :=
  evalUntil (fun e => e.code != successCode) (Link.eval run)

/-- A segment runs until a chain succeeds. -/
def evalSegment (cs : List Link) : Evaluation σ → Evaluation σ :=
  evalUntil (fun e => e.code == successCode) (evalChain run) (chains cs)

/-- All segments run. -/
def evalLine (cs : List Link) : Evaluation σ → Evaluation σ :=
  evalUntil (fun _ => false) (evalSegment run) (segments cs)

/-- The evaluation of the groups of a line from a state of the runner. -/
def evaluate (gs : List Group) (s : σ) : Evaluation σ := evalLine run (links gs) ⟨s, [], false⟩

/-- The runner, keeping a list of its calls. -/
def recorded (arguments : List Text) : StateM (σ × List (List Text × RunStatus)) RunStatus :=
  fun (s, calls) =>
    let (status, s) := (run arguments).run s
    (status, s, calls ++ [(arguments, status)])

/-! ### What is left of a line -/

/-- Goes on with the parts after one whose evaluation gave `e`. -/
def continueUntil (stop : Evaluation σ → Bool) (eval : α → Evaluation σ → Evaluation σ)
    (as : List α) (e : Evaluation σ) : Evaluation σ :=
  if e.left || stop e then e else evalUntil stop eval as e

/-- What is left after the segment in which `cs` follows. -/
def leave (cs : List Link) (e : Evaluation σ) : Evaluation σ :=
  continueUntil (fun _ => false) (evalSegment run) (cutBefore startsSegment cs).2 e

/-- What is left after a link that `cs` follows: of its chain, then of its segment, then of the
line. -/
def resume (cs : List Link) (e : Evaluation σ) : Evaluation σ :=
  let parts := cutBefore startsChain (cutBefore startsSegment cs).1
  leave run cs <|
    continueUntil (fun e => e.code == successCode) (evalChain run) parts.2 <|
      continueUntil (fun e => e.code != successCode) (Link.eval run) parts.1 e

theorem evalUntil_cons (stop : Evaluation σ → Bool) (eval : α → Evaluation σ → Evaluation σ)
    (a : α) (as : List α) (e : Evaluation σ) :
    evalUntil stop eval (a :: as) e = continueUntil stop eval as (eval a e) := rfl

theorem evalLine_cons (c : Link) (cs : List Link) (e : Evaluation σ) :
    evalLine run (c :: cs) e = resume run cs (c.eval run e) := by
  rw [evalLine, segments, splitBy_before, evalUntil_cons, evalSegment, chains, splitBy_before,
    evalUntil_cons, evalChain, evalUntil_cons]
  rfl

variable {run} {e : Evaluation σ}

theorem continueUntil_of_left (h : e.left = true) {stop : Evaluation σ → Bool}
    {eval : α → Evaluation σ → Evaluation σ} {as : List α} :
    continueUntil stop eval as e = e := by
  simp [continueUntil, h]

theorem continueUntil_of_stop {stop : Evaluation σ → Bool} (h : stop e = true)
    {eval : α → Evaluation σ → Evaluation σ} {as : List α} :
    continueUntil stop eval as e = e := by
  simp [continueUntil, h]

theorem continueUntil_cons (h : e.left = false) {stop : Evaluation σ → Bool} (hs : stop e = false)
    {eval : α → Evaluation σ → Evaluation σ} {a : α} {as : List α} :
    continueUntil stop eval (a :: as) e = continueUntil stop eval as (eval a e) := by
  simp [continueUntil, evalUntil, h, hs]

theorem resume_of_left (h : e.left = true) (cs : List Link) : resume run cs e = e := by
  simp only [resume, leave, continueUntil_of_left h]

theorem continueUntil_nil {stop : Evaluation σ → Bool} {eval : α → Evaluation σ → Evaluation σ} :
    continueUntil stop eval [] e = e := by
  simp [continueUntil, evalUntil]

/-- Up to the next `;` nothing is left to do after a segment. -/
theorem leave_cons {c : Link} (hc : startsSegment c = false) (cs : List Link)
    (e : Evaluation σ) : leave run (c :: cs) e = leave run cs e := by
  rw [leave, cutBefore_of_neg hc]
  rfl

/-- A `;` starts a segment, whatever came before. -/
theorem leave_next {c : Link} (hc : startsSegment c = true) (cs : List Link)
    (he : e.left = false) : leave run (c :: cs) e = resume run cs (c.eval run e) := by
  rw [leave, cutBefore_of_pos hc, continueUntil_cons he rfl, evalSegment, chains, splitBy_before,
    evalUntil_cons, evalChain, evalUntil_cons]
  rfl

/-- What is left where `c` comes next: whether `c` runs depends on how it is joined and on the last
code, and a success before `||` leaves the segment. -/
theorem resume_cons (c : Link) (cs : List Link) (he : e.left = false) :
    resume run (c :: cs) e =
      match c.join with
      | .and => if e.code = successCode then resume run cs (c.eval run e) else resume run cs e
      | .or => if e.code = successCode then leave run cs e else resume run cs (c.eval run e)
      | .next => resume run cs (c.eval run e) := by
  cases hj : c.join with
  | and =>
      have hn : startsSegment c = false := by simp [startsSegment, hj]
      have ho : startsChain c = false := by simp [startsChain, hj]
      rw [resume, leave_cons hn, cutBefore_of_neg hn, cutBefore_of_neg ho]
      dsimp only
      by_cases hc : e.code = successCode
      · rw [continueUntil_cons he (by simp [hc]), if_pos hc, resume]
      · -- the chain has failed, so the rest of it is skipped with or without `c`
        have hf : ∀ as, continueUntil (fun e => e.code != successCode) (Link.eval run) as e = e :=
          fun as => continueUntil_of_stop (by simp [hc])
        rw [if_neg hc, resume, hf, hf]
  | or =>
      have hn : startsSegment c = false := by simp [startsSegment, hj]
      have ho : startsChain c = true := by simp [startsChain, hj]
      rw [resume, leave_cons hn, cutBefore_of_neg hn, cutBefore_of_pos ho]
      dsimp only
      rw [continueUntil_nil]
      by_cases hc : e.code = successCode
      · rw [continueUntil_of_stop (by simp [hc]), if_pos hc]
      · rw [continueUntil_cons he (by simp [hc]), if_neg hc, resume, evalChain, evalUntil_cons]
  | next =>
      have hn : startsSegment c = true := by simp [startsSegment, hj]
      dsimp only
      rw [← leave_next hn cs he, resume, cutBefore_of_pos hn, cutBefore, continueUntil_nil,
        continueUntil_nil]

/-! ### The loop does what is left -/

variable (run) in
/-- What is left at a place of the loop: after a link of a chain or, while skipping, after a
segment. -/
def rest (skipping : Bool) (cs : List Link) (e : Evaluation σ) : Evaluation σ :=
  if skipping then leave run cs e else resume run cs e

/-- The loop stops skipping before it runs a group. -/
theorem skips_snd_of_runs {code : Int} {skipping : Bool} {j : Join}
    (h : (skips code skipping j).1 = false) : (skips code skipping j).2 = false := by
  cases j with
  | and => exact (Bool.or_eq_false_iff.mp h).2
  | or => exact h
  | next => rfl

/-- The loop skips to the next `;` only after success. -/
theorem code_of_skips_snd {code : Int} {skipping : Bool} {j : Join}
    (hs : skipping = true → code = successCode) (h : (skips code skipping j).2 = true) :
    code = successCode := by
  cases j with
  | and => exact hs h
  | or =>
      rcases Bool.or_eq_true_iff.mp h with hc | hk
      · exact eq_of_beq hc
      · exact hs hk
  | next => cases h

/-- **One step of the loop**: a link that is skipped changes nothing of what is left, and a link
that runs is the next one of what is left. -/
theorem rest_cons {skipping : Bool} (c : Link) (cs : List Link) (he : e.left = false)
    (hs : skipping = true → e.code = successCode) :
    rest run skipping (c :: cs) e =
      rest run (skips e.code skipping c.join).2 cs
        (if (skips e.code skipping c.join).1 then e else c.eval run e) := by
  cases skipping with
  | false =>
      simp only [rest, Bool.false_eq_true, if_false, resume_cons c cs he]
      cases hj : c.join <;> by_cases hc : e.code = successCode <;> simp [skips, hc]
  | true =>
      have hc : e.code = successCode := hs rfl
      simp only [rest, if_true]
      cases hj : c.join with
      | and => rw [leave_cons (by simp [startsSegment, hj])]; simp [skips]
      | or => rw [leave_cons (by simp [startsSegment, hj])]; simp [skips, hc]
      | next => rw [leave_next (by simp [startsSegment, hj]) cs he]; simp [skips]

/-- The evaluation as a run of the recording runner gives it. -/
def Evaluation.result (e : Evaluation σ) : Outcome × σ × List (List Text × RunStatus) :=
  (e.outcome, e.state, e.calls)

theorem executeFrom_of_skips {code : Int} {skipping : Bool} {g : Group} (gs : List Group)
    (h : (skips code skipping g.join).1 = true) :
    executeFrom run code skipping (g :: gs) =
      executeFrom run code (skips code skipping g.join).2 gs := by
  rw [executeFrom]
  simp [h]

/-- A group that is not skipped runs, and the loop goes on where it can. -/
theorem executeFrom_of_runs {code : Int} {skipping : Bool} {g : Group} (gs : List Group) (s : σ)
    (h : (skips code skipping g.join).1 = false) :
    (executeFrom run code skipping (g :: gs)).run s =
      if g.leaves then (.exit, s)
      else match (run g.arguments).run s with
        | (.exited code, s) => (executeFrom run code false gs).run s
        | (.interrupted, s) => (.exit, s) := by
  rw [executeFrom]
  cases hl : g.leaves with
  | true => simp [h]; rfl
  | false =>
      cases hr : (run g.arguments).run s with
      | mk status s' =>
          simp only [h, skips_snd_of_runs h, Bool.false_eq_true, if_false, StateT.run_bind, hr]
          cases status <;> rfl

theorem code_mk_exited (s : σ) (calls : List (List Text × RunStatus)) (arguments : List Text)
    (code : Int) : (Evaluation.mk s (calls ++ [(arguments, .exited code)]) false).code = code := by
  simp [Evaluation.code]

theorem run_recorded (arguments : List Text) (s : σ) (calls : List (List Text × RunStatus)) :
    (recorded run arguments).run (s, calls) =
      (((run arguments).run s).1, ((run arguments).run s).2,
        calls ++ [(arguments, ((run arguments).run s).1)]) := rfl

/-- The recording loop does what is left, at every place. -/
theorem executeFrom_recorded (gs : List Group) {skipping : Bool} (he : e.left = false)
    (hs : skipping = true → e.code = successCode) :
    (executeFrom (recorded run) e.code skipping gs).run (e.state, e.calls) =
      (rest run skipping (gs.map .group) e).result := by
  -- the code after success is what `hs` keeps: only then may the loop be skipping
  induction gs generalizing e skipping with
  | nil =>
      have hr : rest run skipping [] e = e := by
        simp [rest, resume, leave, cutBefore, continueUntil_nil]
      rw [List.map_nil, hr, Evaluation.result, Evaluation.outcome, he]
      rfl
  | cons g gs ih =>
      rw [List.map_cons, rest_cons _ _ he hs, Link.join]
      cases hk : (skips e.code skipping g.join).1 with
      | true =>
          rw [executeFrom_of_skips gs hk, if_pos rfl]
          exact ih he (code_of_skips_snd hs)
      | false =>
          rw [executeFrom_of_runs gs _ hk, skips_snd_of_runs hk, Link.eval]
          simp only [rest, Bool.false_eq_true, if_false]
          cases hl : g.leaves with
          | true =>
              simp only [if_true]
              rw [resume_of_left rfl]
              rfl
          | false =>
              simp only [Bool.false_eq_true, if_false]
              rw [run_recorded]
              cases (run g.arguments).run e.state with
              | mk status s =>
                  cases status with
                  | exited code =>
                      let e' : Evaluation σ := ⟨s, e.calls ++ [(g.arguments, .exited code)], false⟩
                      have hcode : e'.code = code := code_mk_exited ..
                      have hrun := @ih e' false rfl (by simp)
                      rw [hcode] at hrun
                      exact hrun
                  | interrupted =>
                      rw [resume_of_left rfl]
                      rfl

/-- Recording the calls of a runner changes nothing else. -/
theorem executeFrom_eq_of_recorded (run : List Text → StateM σ RunStatus) (code : Int)
    (skipping : Bool) (gs : List Group) (s : σ) (calls : List (List Text × RunStatus)) :
    (executeFrom run code skipping gs).run s =
      (((executeFrom (recorded run) code skipping gs).run (s, calls)).1,
        ((executeFrom (recorded run) code skipping gs).run (s, calls)).2.1) := by
  induction gs generalizing code skipping s calls with
  | nil => rfl
  | cons g gs ih =>
      cases hk : (skips code skipping g.join).1 with
      | true =>
          rw [executeFrom_of_skips gs hk, executeFrom_of_skips gs hk]
          exact ih _ _ s calls
      | false =>
          rw [executeFrom_of_runs gs _ hk, executeFrom_of_runs gs _ hk, run_recorded]
          cases g.leaves with
          | true => rfl
          | false =>
              cases (run g.arguments).run s with
              | mk status s =>
                  cases status with
                  | exited code => exact ih code false s _
                  | interrupted => rfl

/-- What is evaluated first is what is left after a link without effect. -/
theorem evaluate_eq_resume (gs : List Group) (s : σ) :
    evaluate run gs s = resume run (gs.map .group) ⟨s, [], false⟩ := by
  rw [evaluate, links]
  split
  · next h =>
      cases gs with
      | nil => cases h
      | cons g gs =>
          have hj : g.join = .next := by simpa using h
          rw [List.map_cons, evalLine_cons, resume_cons _ _ rfl]
          simp only [Link.join, hj]
  · rw [evalLine_cons]
    rfl

/-- **The flat loop is the nested evaluation**: the same calls in the same order, the same state of
the runner and the same outcome. -/
theorem executeGroups_eq_evaluate (run : List Text → StateM σ RunStatus) (gs : List Group) (s : σ) :
    (executeGroups run gs).run s = ((evaluate run gs s).outcome, (evaluate run gs s).state) ∧
      (executeGroups (recorded run) gs).run (s, []) =
        ((evaluate run gs s).outcome, (evaluate run gs s).state, (evaluate run gs s).calls) := by
  have h : (executeGroups (recorded run) gs).run (s, []) = (evaluate run gs s).result := by
    rw [evaluate_eq_resume]
    exact executeFrom_recorded (e := ⟨s, [], false⟩) gs rfl (by simp)
  refine ⟨?_, h⟩
  rw [executeGroups, executeFrom_eq_of_recorded run _ _ gs s []]
  exact congrArg (fun r => (r.1, r.2.1)) h

end GitShell
