import GitShell.Proofs.Chain.Calls
import GitShell.Proofs.Line.Joining

/-!
# Chain — Sequence

A `;` puts two lines one after the other, for the scanner, for the parser and for the runner.

* `Laid.append`: groups, a `;` and groups lie as the groups of both.
* `Execution.append`: the loop over both is the loop over the first and then, unless that has ended
  everything, the loop over the second; no exit code and no skipping goes from one to the other.
* `sequential_composition`: so a line that is closed, a `;` and another line do what the two lines do.
-/

namespace GitShell

/-! ### Groups -/

/-- The arguments of a block do not depend on its place. -/
theorem argumentsIn_shift (n : Nat) (b : List Token) :
    argumentsIn (b.map (Token.shift n)) = argumentsIn b := by
  have htouch : ∀ t u : Token, ((t.shift n).stop == (u.shift n).start) = (t.stop == u.start) := by
    intro t u
    rw [Bool.eq_iff_iff, beq_iff_eq, beq_iff_eq, Token.stop, Token.stop]
    simp only [Token.shift]
    omega
  rw [argumentsIn, splitBy_map]
  simp only [htouch, List.map_map, argumentsIn]
  refine List.map_congr_left fun ts _ => ?_
  simp [List.flatMap_map, Token.shift]

theorem IsBlock.shift {b : List Token} (h : IsBlock b) (n : Nat) :
    IsBlock (b.map (Token.shift n)) :=
  ⟨by simpa using h.1, List.forall_mem_map.mpr h.2⟩

/-- Tokens lie the same at another place. -/
theorem Laid.shift {j : Join} {ts : List Token} {gs : List Group} (h : Laid j ts gs) (n : Nat) :
    Laid j (ts.map (Token.shift n)) gs := by
  induction h with
  | last j hb =>
      rw [← argumentsIn_shift n]
      exact .last j (hb.shift n)
  | ended j hb he =>
      rw [List.map_append, List.map_singleton, ← argumentsIn_shift n]
      exact .ended j (hb.shift n) he
  | joined j hb ht _ ih =>
      rw [List.map_append, List.map_cons, ← argumentsIn_shift n]
      exact .joined j (hb.shift n) ht ih

/-- **Groups after a `;`.**  Tokens that do not end in a `;`, a `;` and more tokens have the groups
of both. -/
theorem Laid.append {j : Join} {ts us : List Token} {gs hs : List Group} {e : Token}
    (h : Laid j ts gs) (hlast : ∀ t ∈ ts.getLast?, t.kind ≠ .join .next)
    (he : e.kind = .join .next) (hu : Grouped us hs) : Laid j (ts ++ e :: us) (gs ++ hs) := by
  induction h with
  | last j hb =>
      rcases hu with ⟨rfl, rfl⟩ | hu
      · exact .ended j hb he
      · exact .joined j hb he hu
  | ended j hb hb' => exact absurd hb' (hlast _ (by simp))
  | @joined j k b ts t gs hb ht h ih =>
      rw [List.append_assoc, List.cons_append, List.cons_append]
      refine .joined j hb ht (ih fun u hu => hlast u ?_)
      rw [List.append_cons]
      exact List.mem_getLast?_append_of_mem_getLast? hu

/-! ### The loop -/

section
variable {σ : Type} {run : List Text → StateM σ RunStatus}

/-- At a group after `;` it does not matter what came before. -/
theorem Execution.of_next {code code' : Int} {skipping skipping' : Bool} {g : Group}
    {gs : List Group} {s s' : σ} {calls : List Call} {o : Outcome} (hg : g.join = .next)
    (e : Execution run code skipping (g :: gs) s calls o s') :
    Execution run code' skipping' (g :: gs) s calls o s' := by
  have h : (skips code' skipping' g.join).1 = false := by rw [hg]; rfl
  cases e with
  | skipped h' => rw [hg] at h'; cases h'
  | left gs s _ hl => exact .left gs s h hl
  | exited _ hl hr e => exact .exited h hl hr e
  | interrupted gs _ hl hr => exact .interrupted gs h hl hr

/-- **The loop over groups and then others** that start as after `;` is the loop over the first and
then, unless everything has ended, the loop over the others from the state that is left. -/
theorem Execution.append {code : Int} {skipping : Bool} {gs hs : List Group} {s s₁ s₂ : σ}
    {c₁ c₂ : List Call} {o₁ o₂ : Outcome} (e₁ : Execution run code skipping gs s c₁ o₁ s₁)
    (hh : ∀ h ∈ hs.head?, h.join = .next) (e₂ : Execution run successCode false hs s₁ c₂ o₂ s₂) :
    Execution run code skipping (gs ++ hs) s (if o₁ = .exit then c₁ else c₁ ++ c₂)
      (if o₁ = .exit then .exit else if hs = [] then o₁ else o₂)
      (if o₁ = .exit then s₁ else s₂) := by
  induction e₁ with
  | done code skipping s =>
      cases hs with
      | nil =>
          cases e₂
          simpa using Execution.done code skipping _
      | cons h hs => simpa using e₂.of_next (hh h rfl)
  | skipped h _ ih => exact .skipped h (ih e₂)
  | left gs s h hl => exact .left (gs ++ hs) s h hl
  | @exited _ _ _ _ _ _ _ _ _ o h hl hr _ ih =>
      have e := Execution.exited h hl hr (ih e₂)
      cases o <;> simpa using e
  | interrupted gs h hl hr => exact .interrupted (gs ++ hs) h hl hr

end

/-! ### Lines -/

theorem Laid.join_head {j : Join} {ts : List Token} {gs : List Group} (h : Laid j ts gs) :
    ∀ g ∈ gs.head?, g.join = j := by
  cases h <;> simp

/-- The first group of a line is taken as after `;`. -/
theorem join_head_of_parse {line : Text} {gs : List Group} (hp : parse line = .ok gs) :
    ∀ g ∈ gs.head?, g.join = .next := by
  rcases parse_eq_ok_iff.mp hp with ⟨-, rfl⟩ | h
  · simp
  · exact h.join_head

theorem Grouped.shift {ts : List Token} {gs : List Group} (h : Grouped ts gs) (n : Nat) :
    Grouped (ts.map (Token.shift n)) gs := by
  rcases h with ⟨rfl, rfl⟩ | h
  · exact .inl ⟨rfl, rfl⟩
  · exact .inr (h.shift n)

/-- A `;` between two accepted lines joins their groups. -/
theorem parse_append_semicolon {x y : Text} (hx : x.Closed) {gs hs : List Group}
    (hgs : parse x = .ok gs) (hne : gs ≠ [])
    (hlast : ∀ t ∈ (tokenize x).getLast?, t.kind ≠ .join .next) (hhs : parse y = .ok hs) :
    parse (x ++ ';' :: y) = .ok (gs ++ hs) := by
  rw [parse_eq_ok_iff] at hgs hhs ⊢
  rw [tokenize_append_semicolon hx]
  rcases hgs with ⟨-, rfl⟩ | h
  · exact absurd rfl hne
  · exact .inr (h.append hlast rfl (hhs.shift _))

/-- **A `;` is sequential composition.**  After a closed text, a `;` and another text are scanned as
they are alone.  If the first is accepted with groups and does not end in a `;`, and the second is
accepted, the groups are those of both.  Then every runner is called as for the first and, unless
that ends everything, as for the second from the state that is left; without groups in the second
the outcome is that of the first. -/
theorem sequential_composition {x : Text} (hx : x.Closed) (y : Text) :
    tokenize (x ++ ';' :: y) = tokenize x ++
        { Lexeme.literal (.join .next) [';'] with start := x.length } ::
          (tokenize y).map (Token.shift (x.length + 1)) ∧
      ∀ gs hs, parse x = .ok gs → gs ≠ [] →
        (∀ t ∈ (tokenize x).getLast?, t.kind ≠ .join .next) → parse y = .ok hs →
          parse (x ++ ';' :: y) = .ok (gs ++ hs) ∧
            ∀ {σ : Type} (run : List Text → StateM σ RunStatus) (color : Bool) (s : σ),
              ∃ c₁ o₁ s₁ c₂ o₂ s₂, Performs run color x s c₁ o₁ [] s₁ ∧
                Performs run color y s₁ c₂ o₂ [] s₂ ∧
                Performs run color (x ++ ';' :: y) s (if o₁ = .exit then c₁ else c₁ ++ c₂)
                  (if o₁ = .exit then .exit else if hs = [] then o₁ else o₂) []
                  (if o₁ = .exit then s₁ else s₂) := by
  refine ⟨tokenize_append_semicolon hx y, fun gs hs hgs hne hlast hhs => ?_⟩
  have hp := parse_append_semicolon hx hgs hne hlast hhs
  refine ⟨hp, fun run color s => ?_⟩
  obtain ⟨c₁, o₁, s₁, e₁⟩ := exists_execution run successCode false gs s
  obtain ⟨c₂, o₂, s₂, e₂⟩ := exists_execution run successCode false hs s₁
  exact ⟨c₁, o₁, s₁, c₂, o₂, s₂, e₁.performs hgs, e₂.performs hhs,
    (e₁.append (join_head_of_parse hhs) e₂).performs hp⟩

/-- The `;` in quotes and the `--` at the end stay what they are. -/
theorem sequential_composition_log_diff :
    parse ("log 'a;b' --".toList ++ ';' :: "diff || x".toList) = .ok
        [⟨.next, ["log".toList, "a;b".toList, "--".toList]⟩, ⟨.next, ["diff".toList]⟩,
          ⟨.or, ["x".toList]⟩] ∧
      ∃ c₁ o₁ s₁ c₂ o₂ s₂,
        Performs replay false "log 'a;b' --".toList [.exited 1] c₁ o₁ [] s₁ ∧
          Performs replay false "diff || x".toList s₁ c₂ o₂ [] s₂ ∧
            Performs replay false ("log 'a;b' --".toList ++ ';' :: "diff || x".toList) [.exited 1]
              (if o₁ = .exit then c₁ else c₁ ++ c₂)
              (if o₁ = .exit then .exit else o₂) [] (if o₁ = .exit then s₁ else s₂) := by
  have h := (sequential_composition (x := "log 'a;b' --".toList) (by decide +kernel)
    "diff || x".toList).2 [⟨.next, ["log".toList, "a;b".toList, "--".toList]⟩]
    [⟨.next, ["diff".toList]⟩, ⟨.or, ["x".toList]⟩] (by decide +kernel) (by decide)
    (by decide +kernel) (by decide +kernel)
  exact ⟨h.1, h.2 replay false [.exited 1]⟩

end GitShell
