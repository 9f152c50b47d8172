import GitShell.Chain.Parse
import GitShell.Proofs.Line.Tiling
import GitShell.Proofs.Split

/-!
# Chain — Layout

How the tokens of a line that can be run lie: blocks of words with one join between each two of
them, and perhaps a `;` at the end (`Laid`).  A block is a group, and its words make one argument
as long as nothing stands between them (`argumentsIn`).

* `parseTokens_eq_ok_iff`, `parse_eq_ok_iff`: tokens in order, and so those of a line, are accepted
  with some groups exactly if they lie so.

The check and the grouping are two walks over the tokens.  Both are followed from inside a block:
`laid_of_firstError` takes the words read so far along.
-/

namespace GitShell

/-- Tokens that can be arguments, at least one. -/
def IsBlock (b : List Token) : Prop := b ≠ [] ∧ ∀ t ∈ b, t.kind.isArgument = true

theorem isBlock_singleton {t : Token} (h : t.kind.isArgument = true) : IsBlock [t] :=
  ⟨by simp, by simpa using h⟩

theorem IsBlock.append {b c : List Token} (hb : IsBlock b) (hc : IsBlock c) : IsBlock (b ++ c) :=
  ⟨by simp [hb.1], List.forall_mem_append.mpr ⟨hb.2, hc.2⟩⟩

/-- The words of a block, glued where one ends at the start of the next. -/
def argumentsIn (b : List Token) : List Text :=
  (b.splitBy fun t u => t.stop == u.start).map fun ts => ts.flatMap (·.content)

/-- The tokens of a block that follows `j` and all after it, and their groups.  Each block is
bounded by joins and the ends of the line. -/
inductive Laid : Join → List Token → List Group → Prop where
  | last (j : Join) {b : List Token} (hb : IsBlock b) : Laid j b [⟨j, argumentsIn b⟩]
  /-- A final `;` joins nothing. -/
  | ended (j : Join) {b : List Token} {e : Token} (hb : IsBlock b) (he : e.kind = .join .next) :
      Laid j (b ++ [e]) [⟨j, argumentsIn b⟩]
  | joined (j : Join) {k : Join} {b ts : List Token} {t : Token} {gs : List Group} (hb : IsBlock b)
      (ht : t.kind = .join k) (h : Laid k ts gs) : Laid j (b ++ t :: ts) (⟨j, argumentsIn b⟩ :: gs)

/-- The tokens of a whole line and its groups; the first block is taken as after `;`. -/
def Grouped (ts : List Token) (gs : List Group) : Prop := ts = [] ∧ gs = [] ∨ Laid .next ts gs

/-- Each token ends before the next one starts. -/
def Ordered (ts : List Token) : Prop := ts.Pairwise fun t u => t.stop ≤ u.start

/-! ### The arguments of a block -/

/-- A word right before the next one adds to the first argument. -/
theorem argumentsIn_cons_glued {t u : Token} {ts : List Token} {a : Text} {as : List Text}
    (hg : t.stop = u.start) (h : argumentsIn (u :: ts) = a :: as) :
    argumentsIn (t :: u :: ts) = (t.content ++ a) :: as := by
  obtain ⟨s, ss, hs⟩ := exists_splitBy_cons (fun t u : Token => t.stop == u.start) u ts
  rw [argumentsIn, hs, List.map_cons, List.cons.injEq] at h
  rw [argumentsIn, splitBy_cons_of_rel (by simpa using hg) hs, List.map_cons, List.flatMap_cons,
    h.1, h.2]

/-- A word apart from the next one is an argument. -/
theorem argumentsIn_cons_apart {t u : Token} (hg : t.stop ≠ u.start) (ts : List Token) :
    argumentsIn (t :: u :: ts) = t.content :: argumentsIn (u :: ts) := by
  rw [argumentsIn, splitBy_cons_of_not_rel (by simpa using hg), List.map_cons,
    List.flatMap_singleton]
  rfl

theorem argumentsIn_singleton (t : Token) : argumentsIn [t] = [t.content] := by
  have hs : [t].splitBy (fun t u => t.stop == u.start) = [[t]] := rfl
  rw [argumentsIn, hs, List.map_singleton, List.flatMap_singleton]

theorem exists_argumentsIn_cons (t : Token) (ts : List Token) :
    ∃ a as, argumentsIn (t :: ts) = a :: as := by
  obtain ⟨s, ss, hs⟩ := exists_splitBy_cons (fun t u : Token => t.stop == u.start) t ts
  exact ⟨_, _, by rw [argumentsIn, hs, List.map_cons]⟩

theorem argumentsOf_eq_argumentsIn {b : List Token} (h : Ordered b) :
    argumentsOf b = argumentsIn b := by
  induction b with
  | nil => rfl
  | cons t b ih =>
      obtain ⟨ht, hb⟩ := List.pairwise_cons.mp h
      cases b with
      | nil => rw [argumentsOf, argumentsIn_singleton]
      | cons u us =>
          have hle : t.stop ≤ u.start := ht u (.head _)
          have ih' := ih hb
          by_cases hg : t.stop = u.start
          · have hgap : t.gapTo u = 0 := by rw [Token.gapTo, hg, Nat.sub_self]
            obtain ⟨a, as, has⟩ := exists_argumentsIn_cons u us
            rw [argumentsOf, if_pos hgap, ih', has, argumentsIn_cons_glued hg has]
          · have hgap : t.gapTo u ≠ 0 := by rw [Token.gapTo]; omega
            rw [argumentsOf, if_neg hgap, ih', argumentsIn_cons_apart hg]

theorem argumentsIn_ne_nil {b : List Token} (h : b ≠ []) : argumentsIn b ≠ [] := by
  simpa [argumentsIn] using h

theorem Laid.ne_nil {j : Join} {ts : List Token} {gs : List Group} (h : Laid j ts gs) :
    ts ≠ [] ∧ gs ≠ [] := by
  cases h with
  | last _ hb => exact ⟨hb.1, List.cons_ne_nil _ _⟩
  | ended | joined => simp

/-- No group is empty. -/
theorem Laid.arguments_ne_nil {j : Join} {ts : List Token} {gs : List Group} (h : Laid j ts gs) :
    ∀ g ∈ gs, g.arguments ≠ [] := by
  induction h with
  | last _ hb | ended _ hb _ =>
      intro g hg
      rw [List.mem_singleton.mp hg]
      exact argumentsIn_ne_nil hb.1
  | joined _ hb _ _ ih =>
      intro g hg
      rcases List.mem_cons.mp hg with rfl | hg
      · exact argumentsIn_ne_nil hb.1
      · exact ih g hg

/-! ### The two walks over a block -/

/-- A token that can be an argument has no fault, wherever it stands. -/
theorem faultOf_argument {t : Token} (h : t.kind.isArgument = true) (p : Option Token) (l : Bool) :
    faultOf p t l = none := by
  unfold faultOf
  cases hk : t.kind <;> simp_all [Kind.isArgument]

theorem firstError_argument {t : Token} (h : t.kind.isArgument = true) (p : Option Token)
    (ts : List Token) : firstError p (t :: ts) = firstError (some t) ts := by
  rw [firstError, faultOf_argument h]

/-- A block has no fault, and a word stands before what follows it. -/
theorem firstError_block {b : List Token} (hb : IsBlock b) (p : Option Token) (ts : List Token) :
    ∃ u : Token, u.kind.isArgument = true ∧ firstError p (b ++ ts) = firstError (some u) ts := by
  obtain ⟨hne, hb⟩ := hb
  induction b generalizing p with
  | nil => exact absurd rfl hne
  | cons t b ih =>
      have ht : t.kind.isArgument = true := hb t (.head _)
      rw [List.cons_append, firstError_argument ht]
      cases b with
      | nil => exact ⟨t, ht, rfl⟩
      | cons u us => exact ih (some t) (List.cons_ne_nil u us) fun x hx => hb x (.tail _ hx)

/-- After a word, a join is in place unless it is a `&&` or `||` that ends the line. -/
theorem firstError_join {p t : Token} (hp : p.kind.isArgument = true) {j : Join}
    (ht : t.kind = .join j) (ts : List Token) :
    firstError (some p) (t :: ts) = none ↔
      (ts = [] → j = .next) ∧ firstError (some t) ts = none := by
  cases ts with
  | nil => cases j <;> simp [firstError, faultOf, ht, hp]
  | cons u us => simp [firstError, faultOf, ht, hp]

/-- After a join, and at the start of a line, only a word is in place. -/
theorem isArgument_of_firstError {p : Option Token} {t : Token} {ts : List Token}
    (hp : ∀ u ∈ p, u.kind.isArgument = false) (h : firstError p (t :: ts) = none) :
    t.kind.isArgument = true := by
  cases hk : t.kind with
  | word | endOfOptions => rfl
  | unterminated | halfJoin => simp [firstError, faultOf, hk] at h
  | join j =>
      cases p with
      | none => simp [firstError, faultOf, hk] at h
      | some u =>
          obtain ⟨r, hr⟩ : ∃ r, faultOf (some u) t ts.isEmpty = some r := by
            simp only [faultOf, hk, hp u rfl, Bool.false_eq_true, if_false]
            split
            · exact ⟨_, rfl⟩
            · exact ⟨_, rfl⟩
          rw [firstError, hr] at h
          cases h

theorem exists_join_of_firstError {p : Option Token} {t : Token} {ts : List Token}
    (h : firstError p (t :: ts) = none) (ht : t.kind.isArgument = false) :
    ∃ k, t.kind = .join k := by
  cases hk : t.kind with
  | word | endOfOptions => rw [hk] at ht; cases ht
  | unterminated | halfJoin => simp [firstError, faultOf, hk] at h
  | join k => exact ⟨k, rfl⟩

theorem blocks_argument {t : Token} (h : t.kind.isArgument = true) (ts : List Token) :
    blocks (t :: ts) = (t :: (blocks ts).1, (blocks ts).2) := by
  cases hk : t.kind <;> simp_all [blocks, Kind.isArgument]

theorem blocks_append {b : List Token} (hb : ∀ t ∈ b, t.kind.isArgument = true) (ts : List Token) :
    blocks (b ++ ts) = (b ++ (blocks ts).1, (blocks ts).2) := by
  induction b with
  | nil => rfl
  | cons t b ih =>
      rw [List.cons_append, blocks_argument (hb t (.head _)), ih fun x hx => hb x (.tail _ hx)]
      rfl

theorem blocks_join {t : Token} {j : Join} (ht : t.kind = .join j) (ts : List Token) :
    blocks (t :: ts) =
      if j = .next ∧ ts = [] then ([], []) else ([], (j, (blocks ts).1) :: (blocks ts).2) := by
  simp [blocks, ht]

/-- The groups of the blocks of `ts`, the first of which follows `j`. -/
def groupsAfter (j : Join) (ts : List Token) : List Group :=
  ((j, (blocks ts).1) :: (blocks ts).2).map fun (j, b) => ⟨j, argumentsOf b⟩

/-! ### Accepted tokens -/

/-- Tokens that lie well have no fault, and are grouped as they lie. -/
theorem Laid.accepted {j : Join} {ts : List Token} {gs : List Group} (h : Laid j ts gs)
    (ho : Ordered ts) (p : Option Token) : firstError p ts = none ∧ groupsAfter j ts = gs := by
  induction h generalizing p with
  | @last j b hb =>
      obtain ⟨u, -, hu⟩ := firstError_block hb p []
      have hblocks := blocks_append hb.2 []
      rw [List.append_nil] at hu hblocks
      refine ⟨hu, ?_⟩
      rw [groupsAfter, hblocks]
      simp [blocks, argumentsOf_eq_argumentsIn ho]
  | @ended j b e hb he =>
      obtain ⟨u, hu, h⟩ := firstError_block hb p [e]
      have hob : Ordered b := (List.pairwise_append.mp ho).1
      refine ⟨?_, ?_⟩
      · rw [h, firstError_join hu he]
        exact ⟨fun _ => rfl, rfl⟩
      · rw [groupsAfter, blocks_append hb.2, blocks_join he]
        simp [argumentsOf_eq_argumentsIn hob]
  | @joined j k b ts t gs hb ht h ih =>
      obtain ⟨u, hu, hf⟩ := firstError_block hb p (t :: ts)
      obtain ⟨hob, hot, -⟩ := List.pairwise_append.mp ho
      obtain ⟨hts, hgs⟩ := ih (List.pairwise_cons.mp hot).2 (some t)
      have hne : ts ≠ [] := h.ne_nil.1
      refine ⟨?_, ?_⟩
      · rw [hf, firstError_join hu ht]
        exact ⟨fun e => absurd e hne, hts⟩
      · rw [groupsAfter, blocks_append hb.2, blocks_join ht, if_neg fun e => hne e.2]
        simp [argumentsOf_eq_argumentsIn hob, ← hgs, groupsAfter]

/-- Tokens without a fault lie well: `b` is what has been read of a block, and `p` its last word. -/
theorem laid_of_firstError {p : Token} (hp : p.kind.isArgument = true) (j : Join) {b : List Token}
    (hb : IsBlock b) : ∀ {ts : List Token}, firstError (some p) ts = none →
      ∃ gs, Laid j (b ++ ts) gs
  | [], _ => ⟨_, by rw [List.append_nil]; exact .last j hb⟩
  | t :: ts, h => by
      cases ht : t.kind.isArgument with
      | true =>
          rw [firstError_argument ht] at h
          obtain ⟨gs, hgs⟩ := laid_of_firstError ht j (hb.append (isBlock_singleton ht)) h
          exact ⟨gs, by simpa using hgs⟩
      | false =>
          obtain ⟨k, hk⟩ := exists_join_of_firstError h ht
          obtain ⟨hlast, h⟩ := (firstError_join hp hk ts).mp h
          match ts with
          | [] => exact ⟨_, .ended j hb (by rw [hk, hlast rfl])⟩
          | u :: us =>
              -- after a join a new block is opened by its first word
              have hu : u.kind.isArgument = true :=
                isArgument_of_firstError (by simpa using ht) h
              rw [firstError_argument hu] at h
              obtain ⟨gs, hgs⟩ := laid_of_firstError hu k (isBlock_singleton hu) h
              exact ⟨_, .joined j hb hk hgs⟩

/-- **Tokens in order are accepted exactly if they lie well**, and their groups are as they lie. -/
theorem parseTokens_eq_ok_iff {ts : List Token} (ho : Ordered ts) (gs : List Group) :
    parseTokens ts = .ok gs ↔ Grouped ts gs := by
  constructor
  · intro h
    unfold parseTokens at h
    split at h
    · cases h
    next hf =>
    cases h
    cases ts with
    | nil => exact .inl ⟨rfl, rfl⟩
    | cons t ts =>
        have ht : t.kind.isArgument = true := isArgument_of_firstError (by simp) hf
        rw [firstError_argument ht] at hf
        obtain ⟨gs, hgs⟩ := laid_of_firstError ht .next (isBlock_singleton ht) hf
        have hgs' : Group.ofTokens (t :: ts) = gs := (hgs.accepted ho none).2
        rw [hgs']
        exact .inr hgs
  · rintro (⟨rfl, rfl⟩ | h)
    · rfl
    · obtain ⟨hf, hgs⟩ := h.accepted ho none
      have hne : ts.isEmpty = false := by simpa using h.ne_nil.1
      rw [parseTokens, hf, Group.ofTokens, hne]
      exact congrArg Except.ok hgs

theorem ordered_tokenize (line : Text) : Ordered (tokenize line) := (tiles_place [] line).ordered

theorem parse_eq_ok_iff {line : Text} {gs : List Group} :
    parse line = .ok gs ↔ Grouped (tokenize line) gs :=
  parseTokens_eq_ok_iff (ordered_tokenize line) gs

end GitShell
