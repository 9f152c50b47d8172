import GitShell.Proofs.Line.Bare
import GitShell.Proofs.Line.Place
import Mathlib.Algebra.Ring.Nat
import Mathlib.Data.List.Basic
import Mathlib.Logic.Relation

/-!
# Line — Moves

A cursor is moved over the tokens of a line, in any way and as often as one likes (`Reaches`).  It
stays on the line, between the head and the tail, and what it says about the gaps around its token is
what stands there.

* `Cursor.goto_self`: a cursor is the place at its index.
* `Cursor.Move.exists_goto`: every move is a step to some index; `Cursor.Reaches.tokens`: so is every
  sequence of moves, and the line stays.
* `Cursor.findFrom_eq_some`, `Cursor.findFrom_eq_none_iff`: a search to the left stops at the nearest
  place that satisfies it, and passes all places if none does.
* `Tiles.start_eq`: the tokens, with the gaps between them, lie one after the other.
* `Cursor.isSound_of_reaches`: all this holds after any moves (`IsSound`).
-/

namespace GitShell

namespace Cursor

/-! ### Places and indices -/

theorem seek_length (left ts : List Token) : seek left ts ts.length = tail (ts.reverse ++ left) := by
  induction ts generalizing left with
  | nil => rfl
  | cons t ts ih =>
      rw [List.length_cons, seek, ih, List.reverse_cons, List.append_assoc, List.singleton_append]

theorem index_seek (left ts : List Token) (n : Nat) :
    (seek left ts n).index = left.length + min n ts.length := by
  induction ts generalizing left n with
  | nil => simp [seek, index]
  | cons t ts ih =>
      cases n with
      | zero => simp [seek, index]
      | succ n =>
          rw [seek, ih, List.length_cons, List.length_cons]
          omega

theorem tokens_goto (c : Cursor) (i : Int) : (c.goto i).tokens = c.tokens := by
  cases i with
  | ofNat n => exact tokens_seek [] c.tokens n
  | negSucc n => rfl

/-- An index too low is the head, one too high the tail. -/
theorem index_goto (c : Cursor) (i : Int) :
    (c.goto i).index = max (-1) (min i c.tokens.length) := by
  cases i with
  | ofNat n =>
      rw [goto, atIndex, index_seek, List.length_nil, Int.ofNat_eq_natCast]
      omega
  | negSucc n =>
      rw [goto, atIndex, index]
      omega

/-- **A cursor is the place at its index.** -/
theorem goto_self (c : Cursor) : c.goto c.index = c := by
  cases c with
  | head right => rfl
  | on left t right => exact goto_index left t right
  | tail left =>
      have h := seek_length [] left.reverse
      rwa [List.length_reverse, List.reverse_reverse, List.append_nil] at h

theorem index_range (c : Cursor) : -1 ≤ c.index ∧ c.index ≤ c.tokens.length := by
  rw [← c.goto_self, index_goto, tokens_goto]
  omega

/-- There is a token under a cursor that is neither the head nor the tail. -/
theorem isSome_token?_iff (c : Cursor) :
    c.token?.isSome = true ↔ -1 < c.index ∧ c.index < c.tokens.length := by
  cases c with
  | head right => simp [token?, index]
  | on left t right =>
      simp only [token?, Option.isSome_some, index, tokens, List.length_append, List.length_reverse,
        List.length_cons, true_iff]
      omega
  | tail left => simp [token?, index, tokens]

/-- It is the one that the index counts to. -/
theorem token?_eq (c : Cursor) (h : -1 < c.index) : c.token? = c.tokens[c.index.toNat]? := by
  cases c with
  | head right => cases h
  | on left t right => simp [token?, index, tokens]
  | tail left => simp [token?, index, tokens]

/-! ### Single moves -/

theorem index_before (c : Cursor) : c.before.index = max (-1) (c.index - 1) := by
  cases c with
  | head right => rfl
  | on left t right =>
      cases left with
      | nil => rfl
      | cons p left => simp only [before, index, List.length_cons]; omega
  | tail left =>
      cases left with
      | nil => rfl
      | cons p left => simp only [before, index, List.length_cons]; omega

theorem index_after (c : Cursor) : c.after.index = min ↑c.tokens.length (c.index + 1) := by
  cases c with
  | head right =>
      cases right with
      | nil => rfl
      | cons t right => simp only [after, index, tokens, List.length_cons, List.length_nil]; omega
  | on left t right =>
      cases right with
      | nil => simp [after, index, tokens]
      | cons n right =>
          simp only [after, index, tokens, List.length_append, List.length_reverse,
            List.length_cons]
          omega
  | tail left => simp only [after, index, tokens, List.length_reverse]; omega

theorem first_eq (c : Cursor) : c.first = c.goto (if c.tokens = [] then -1 else 0) := by
  rw [first, goto]
  split
  next h => rw [h]; rfl
  next h => rw [h]; rfl

/-- The last place is the last token, or the tail of an empty line. -/
theorem last_cases (c : Cursor) : c.tokens = [] ∧ c.last = tail [] ∨
    ∃ left t, c.tokens = left.reverse ++ [t] ∧ c.last = on left t [] := by
  rcases List.eq_nil_or_concat' c.tokens with h | ⟨us, t, h⟩
  · exact .inl ⟨h, by rw [last, h]; rfl⟩
  · have h' : c.tokens = us.reverse.reverse ++ [t] := by rw [List.reverse_reverse, h]
    exact .inr ⟨us.reverse, t, h', last_of_tokens h'⟩

theorem last_eq (c : Cursor) :
    c.last = c.goto (if c.tokens = [] then c.tokens.length else c.tokens.length - 1) := by
  rcases c.last_cases with ⟨h, hlast⟩ | ⟨left, t, h, hlast⟩
  · rw [hlast, goto, h]
    rfl
  · have htokens : (on left t []).tokens = c.tokens := h.symm
    have hindex : (on left t []).index = ↑c.tokens.length - 1 := by simp [index, h]
    rw [hlast, if_neg (by simp [h]), ← hindex, ← goto_congr htokens, goto_self]

/-- The command of a word is on its line. -/
theorem tokens_of_commandFrom {left right : List Token} {t : Token} {d : Cursor}
    (h : commandFrom left t right = some d) : d.tokens = (on left t right).tokens := by
  induction left generalizing t right with
  | nil =>
      unfold commandFrom at h
      split at h
      · split at h
        · cases h; rfl
        · cases h
      · cases h
  | cons p left ih =>
      unfold commandFrom at h
      split at h
      · split at h
        · cases h; rfl
        · rw [tokens_on_cons]
          exact ih h
      · cases h

theorem tokens_of_currentCommand {c d : Cursor} (h : c.currentCommand = some d) :
    d.tokens = c.tokens := by
  cases c with
  | head | tail => cases h
  | on left t right => exact tokens_of_commandFrom h

/-! ### Searches -/

section
variable {p : Cursor → Bool} {left right : List Token} {t : Token} {d : Cursor}

/-- **What is found** is a place of the line at or before the start that satisfies `p`, and the places
after it do not. -/
theorem findFrom_eq_some (h : findFrom p left t right = some d) :
    d.tokens = (on left t right).tokens ∧ d.token?.isSome = true ∧ p d = true ∧
      d.index ≤ (on left t right).index ∧
      AllSince (d.index + 1) (on left t right) fun e => p e = false := by
  induction left generalizing t right with
  | nil =>
      unfold findFrom at h
      split at h
      next hp =>
        cases h
        exact ⟨rfl, rfl, hp, Int.le_refl _, allSince_of_lt (Int.lt_succ _)⟩
      next => cases h
  | cons u left ih =>
      unfold findFrom at h
      split at h
      next hp =>
        cases h
        exact ⟨rfl, rfl, hp, Int.le_refl _, allSince_of_lt (Int.lt_succ _)⟩
      next hp =>
        obtain ⟨htokens, htoken, hd, hle, hall⟩ := ih h
        have hindex : (on (u :: left) t right).index = (on left u (t :: right)).index + 1 := rfl
        refine ⟨by rw [htokens, tokens_on_cons], htoken, hd, by omega, ?_⟩
        exact (allSince_on_cons (by omega)).mpr ⟨Bool.eq_false_iff.mpr hp, hall⟩

/-- **Nothing is found** exactly if no place up to the start satisfies `p`. -/
theorem findFrom_eq_none_iff :
    findFrom p left t right = none ↔ AllSince 0 (on left t right) fun e => p e = false := by
  induction left generalizing t right with
  | nil =>
      unfold findFrom
      have hindex : (0 : Int) = (on [] t right).index := rfl
      rw [hindex, allSince_on]
      cases p (on [] t right) <;> simp
  | cons u left ih =>
      unfold findFrom
      rw [allSince_on_cons (Int.natCast_nonneg _), ← ih]
      cases p (on (u :: left) t right) <;> simp

end

/-- The places from an index up to the last one. -/
theorem allSince_last {c : Cursor} {left : List Token} {t : Token} (h : c.tokens = left.reverse ++ [t])
    (i : Int) (p : Cursor → Prop) : AllSince i (on left t []) p ↔
      ∀ j : Int, i ≤ j → j < c.tokens.length → p (c.goto j) := by
  have htokens : (on left t []).tokens = c.tokens := h.symm
  have hlength : (c.tokens.length : Int) = (on left t []).index + 1 := by simp [h, index]
  simp only [AllSince, goto_congr htokens, hlength, Int.lt_add_one_iff]

/-- The search for the last place finds the greatest index that satisfies `p`. -/
theorem findLast_eq_some {p : Cursor → Bool} {c d : Cursor} (h : c.findLast p = some d) :
    d.tokens = c.tokens ∧ d.token?.isSome = true ∧ p d = true ∧
      ∀ j : Int, d.index < j → j < c.tokens.length → p (c.goto j) = false := by
  rcases c.last_cases with ⟨hc, hlast⟩ | ⟨left, t, hc, hlast⟩
  · rw [findLast, hlast] at h
    cases h
  · rw [findLast, hlast] at h
    obtain ⟨htokens, htoken, hd, -, hall⟩ := findFrom_eq_some h
    exact ⟨htokens.trans hc.symm, htoken, hd, (allSince_last hc _ _).mp hall⟩

/-- It finds nothing exactly if no place does. -/
theorem findLast_eq_none_iff {p : Cursor → Bool} {c : Cursor} :
    c.findLast p = none ↔ ∀ j : Int, 0 ≤ j → j < c.tokens.length → p (c.goto j) = false := by
  rcases c.last_cases with ⟨hc, hlast⟩ | ⟨left, t, hc, hlast⟩
  · rw [findLast, hlast, hc]
    refine ⟨fun _ j h₀ hj => absurd hj (Int.not_lt.mpr h₀), fun _ => rfl⟩
  · rw [findLast, hlast]
    exact findFrom_eq_none_iff.trans (allSince_last hc 0 _)

/-! ### Sequences of moves -/

/-- One move of a cursor. -/
inductive Move : Cursor → Cursor → Prop where
  | before (c : Cursor) : Move c c.before
  | after (c : Cursor) : Move c c.after
  | goto (c : Cursor) (i : Int) : Move c (c.goto i)
  | first (c : Cursor) : Move c c.first
  | last (c : Cursor) : Move c c.last
  /-- To the command of the word under the cursor, -/
  | command {c d : Cursor} (h : c.currentCommand = some d) : Move c d
  /-- and to the last place that satisfies `p`. -/
  | findLast (p : Cursor → Bool) {c d : Cursor} (h : c.findLast p = some d) : Move c d

/-- Any number of moves. -/
def Reaches : Cursor → Cursor → Prop := Relation.ReflTransGen Move

/-- **A move is a step to some index** of the same line. -/
theorem Move.exists_goto {c d : Cursor} (h : Move c d) : ∃ i, d = c.goto i := by
  have hself {d : Cursor} (htokens : d.tokens = c.tokens) : ∃ i, d = c.goto i :=
    ⟨d.index, by rw [← goto_congr htokens, goto_self]⟩
  cases h with
  | before => exact hself c.tokens_before
  | after => exact hself c.tokens_after
  | goto _ i => exact ⟨i, rfl⟩
  | first => exact ⟨_, c.first_eq⟩
  | last => exact ⟨_, c.last_eq⟩
  | command h => exact hself (tokens_of_currentCommand h)
  | findLast p h => exact hself (findLast_eq_some h).1

theorem Reaches.tokens {c d : Cursor} (h : Reaches c d) : d.tokens = c.tokens := by
  induction h with
  | refl => rfl
  | tail _ h ih =>
      obtain ⟨i, rfl⟩ := h.exists_goto
      rw [tokens_goto, ih]

/-! ### Gaps -/

theorem gapToNext_eq {c : Cursor} {t u : Token} (ht : c.token? = some t)
    (hu : c.after.token? = some u) : c.gapToNext = t.gapTo u := by
  cases c with
  | head | tail => cases ht
  | on left v right =>
      cases right with
      | nil => cases hu
      | cons w right =>
          cases ht
          cases hu
          rfl

/-- The gap after a place is the gap before the next one. -/
theorem gapToPrevious_after (c : Cursor) : c.after.gapToPrevious = c.gapToNext := by
  cases c with
  | head right => cases right <;> rfl
  | on left t right => cases right <;> rfl
  | tail left => rfl

/-- From a token that is not the first, one goes back and forth. -/
theorem after_before {c : Cursor} {t u : Token} (ht : c.before.token? = some t)
    (hu : c.token? = some u) : c.before.after = c := by
  cases c with
  | head | tail => cases hu
  | on left v right =>
      cases left with
      | nil => cases ht
      | cons w left => rfl

/-- Two tokens in a row, by the place of the first one. -/
theorem tokens_of_after {c : Cursor} {t u : Token} (ht : c.token? = some t)
    (hu : c.after.token? = some u) : ∃ us vs, c.tokens = us ++ t :: u :: vs := by
  cases c with
  | head | tail => cases ht
  | on left v right =>
      cases right with
      | nil => cases hu
      | cons w right =>
          cases ht
          cases hu
          exact ⟨_, _, rfl⟩

end Cursor

/-- **Between two tokens in a row** there are only blanks. -/
theorem Tiles.gap_allBlank {source : Text} {n : Nat} {us vs : List Token} {t u : Token}
    (h : Tiles source n (us ++ t :: u :: vs)) : t.stop ≤ u.start ∧
      ((Line.ofText source).slice ⟨t.stop, u.start⟩).allBlank = true ∧
      ((Line.ofText source).slice ⟨t.stop, u.start⟩).length = t.gapTo u := by
  have htail : Tiles source t.stop (u :: vs) := h.after_token
  have hle : t.stop ≤ u.start := htail.after u (.head _)
  have hne : u.start < u.stop := htail.nonempty u (.head _)
  have hin : u.start ≤ source.length :=
    Nat.le_trans (Nat.le_of_lt hne) (htail.inside u (.head _))
  refine ⟨hle, ?_, ?_⟩
  · rw [Text.allBlank, List.all_eq_true]
    intro c hc
    obtain ⟨k, hk⟩ := List.mem_iff_getElem?.mp hc
    rw [slice_ofText, List.getElem?_drop] at hk
    obtain ⟨hlt, hk⟩ : t.stop + k < u.start ∧ source[t.stop + k]? = some c := by
      simpa [List.getElem?_take] using hk
    -- the tokens from `u` on all start after this position
    refine htail.blank (t.stop + k) c (Nat.le_add_right ..) hk fun w hw hcover => ?_
    rcases List.mem_cons.mp hw with rfl | hw
    · omega
    · have := htail.tail.after w hw
      omega
  · rw [slice_ofText, List.length_drop, List.length_take, Nat.min_eq_left hin]
    rfl

/-- **A token starts** as far after the first one as the tokens before it are long, with the gaps after
them. -/
theorem Tiles.start_eq {source : Text} {n : Nat} {us vs : List Token} {t f : Token}
    (h : Tiles source n (us ++ t :: vs)) (hf : (us ++ t :: vs).head? = some f)
    (left : List Token) :
    t.start = f.start + (((Cursor.walkFrom left (us ++ t :: vs)).take us.length).map
      fun d => d.raw.length + d.gapToNext).sum := by
  induction us generalizing n left f with
  | nil =>
      cases hf
      rfl
  | cons u us ih =>
      cases hf
      obtain ⟨v, ws, hv⟩ : ∃ v ws, us ++ t :: vs = v :: ws :=
        List.exists_cons_of_ne_nil (by simp)
      have htail : Tiles source u.stop (us ++ t :: vs) := h.tail
      have hstart := ih htail (by rw [hv]; rfl) (u :: left)
      have hle : u.stop ≤ v.start := htail.after v (by rw [hv]; exact .head _)
      rw [List.cons_append, Cursor.walkFrom, List.length_cons, List.take_succ_cons, List.map_cons,
        List.sum_cons, hstart]
      have hgap : (Cursor.on left u (us ++ t :: vs)).gapToNext = v.start - u.stop := by
        rw [hv]
        rfl
      have hstop : u.stop = u.start + u.raw.length := rfl
      have hraw : (Cursor.on left u (us ++ t :: vs)).raw = u.raw := rfl
      rw [hgap, hraw]
      omega

namespace Cursor

theorem token?_first (c : Cursor) : c.first.token? = c.tokens.head? := by
  rw [first]
  split
  next h => rw [h]; rfl
  next h => rw [h]; rfl

/-! ### After any moves -/

/-- The cursor `z` is at a place of the line, and says what stands there. -/
structure IsSound (line : Text) (z : Cursor) : Prop where
  tokens : z.tokens = tokenize line
  /-- The head has the index -1, and the tail the number of the tokens. -/
  range : -1 ≤ z.index ∧ z.index ≤ z.tokens.length
  /-- Exactly between the head and the tail there is a token under the cursor, -/
  between : z.token?.isSome = true ↔ -1 < z.index ∧ z.index < z.tokens.length
  /-- the one that the index counts to. -/
  counted : -1 < z.index → z.token? = z.tokens[z.index.toNat]?
  /-- A step goes to the place next to this one, where there is one, -/
  before : z.before.index = max (-1) (z.index - 1)
  after : z.after.index = min ↑z.tokens.length (z.index + 1)
  /-- and a jump to the place nearest to the index asked for. -/
  goto : ∀ i, (z.goto i).index = max (-1) (min i z.tokens.length)
  /-- The gap to the next token is made of the blanks between the two, -/
  next : ∀ t u, z.token? = some t → z.after.token? = some u → t.stop ≤ u.start ∧
    z.gapToNext = u.start - t.stop ∧
    ((Line.ofText line).slice ⟨t.stop, u.start⟩).allBlank = true ∧
    ((Line.ofText line).slice ⟨t.stop, u.start⟩).length = z.gapToNext
  previous : ∀ t u, z.before.token? = some t → z.token? = some u → t.stop ≤ u.start ∧
    z.gapToPrevious = u.start - t.stop
  /-- and it is the gap from the next token back. -/
  agree : z.after.gapToPrevious = z.gapToNext
  /-- The tokens before a token, with the gaps after them, are what is between it and the first. -/
  start : ∀ f t, z.first.token? = some f → z.token? = some t →
    t.start = f.start +
      ((z.walk.take z.index.toNat).map fun d => d.raw.length + d.gapToNext).sum
  /-- What is found is the last place that satisfies `p`, -/
  found : ∀ p d, z.findLast p = some d → d.tokens = z.tokens ∧ d.token?.isSome = true ∧
    p d = true ∧ ∀ j : Int, d.index < j → j < z.tokens.length → p (z.goto j) = false
  /-- and nothing is found exactly if there is none. -/
  missed : ∀ p, z.findLast p = none ↔
    ∀ j : Int, 0 ≤ j → j < z.tokens.length → p (z.goto j) = false

section
variable {line : Text} {z : Cursor} {t u f : Token}

/-- The gap after a token is made of the blanks up to the next one. -/
theorem gapToNext_allBlank (h : z.tokens = tokenize line) (ht : z.token? = some t)
    (hu : z.after.token? = some u) : t.stop ≤ u.start ∧ z.gapToNext = u.start - t.stop ∧
      ((Line.ofText line).slice ⟨t.stop, u.start⟩).allBlank = true ∧
      ((Line.ofText line).slice ⟨t.stop, u.start⟩).length = z.gapToNext := by
  have htiles : Tiles line 0 z.tokens := h ▸ tiles_place [] line
  obtain ⟨us, vs, hsplit⟩ := tokens_of_after ht hu
  obtain ⟨hle, hblank, hlength⟩ := (hsplit ▸ htiles).gap_allBlank
  rw [gapToNext_eq ht hu]
  exact ⟨hle, rfl, hblank, hlength⟩

/-- The gap before a token is counted from the end of the one before it. -/
theorem gapToPrevious_eq (h : z.tokens = tokenize line) (ht : z.before.token? = some t)
    (hu : z.token? = some u) : t.stop ≤ u.start ∧ z.gapToPrevious = u.start - t.stop := by
  have hback := after_before ht hu
  rw [← hback] at hu
  obtain ⟨hle, hgap, -⟩ := gapToNext_allBlank (z.tokens_before.trans h) ht hu
  rw [← hgap, ← gapToPrevious_after, hback]
  exact ⟨hle, rfl⟩

theorem start_eq (h : z.tokens = tokenize line) (hf : z.first.token? = some f)
    (ht : z.token? = some t) : t.start = f.start +
      ((z.walk.take z.index.toNat).map fun d => d.raw.length + d.gapToNext).sum := by
  have htiles : Tiles line 0 z.tokens := h ▸ tiles_place [] line
  cases z with
  | head | tail => cases ht
  | on left v right =>
      cases ht
      rw [token?_first] at hf
      have hstart := htiles.start_eq hf []
      rwa [List.length_reverse] at hstart

theorem isSound (h : z.tokens = tokenize line) : z.IsSound line where
  tokens := h
  range := z.index_range
  between := z.isSome_token?_iff
  counted := z.token?_eq
  before := z.index_before
  after := z.index_after
  goto := z.index_goto
  next _ _ := gapToNext_allBlank h
  previous _ _ := gapToPrevious_eq h
  agree := z.gapToPrevious_after
  start _ _ := start_eq h
  found _ _ := findLast_eq_some
  missed _ := findLast_eq_none_iff

end

/-- **After any moves** a cursor is at a place of its line, and says what stands there. -/
theorem isSound_of_reaches {line : Text} {c z : Cursor} (hc : c.tokens = tokenize line)
    (hz : c.Reaches z) : z.IsSound line :=
  isSound (hz.tokens.trans hc)

/-- From the head of a line to its last command, and one token back. -/
theorem isSound_of_reaches_join :
    let line := "log  -- a;diff".toList
    let c := head (tokenize line)
    c.tokens = tokenize line ∧ c.Reaches (c.goto 3) ∧ (c.goto 3).IsSound line := by
  intro line c
  have hc : c.tokens = tokenize line := rfl
  have hlast : c.last.currentCommand = some c.last := by decide +kernel
  have hback : c.last.before = c.goto 3 := by decide +kernel
  have hz : c.Reaches (c.goto 3) := by
    rw [← hback]
    exact ((Relation.ReflTransGen.single (.last c)).tail (.command hlast)).tail (.before c.last)
  exact ⟨hc, hz, isSound_of_reaches hc hz⟩

end Cursor

end GitShell
