import GitShell.Proofs.Chain.Layout
import GitShell.Proofs.Line.Joining
import GitShell.Proofs.Line.Writing

/-!
# Chain — FirstError

Which error a line is rejected for.  A token may have several faults where it stands, each said of
the token, those before it and those after it (`Fault`); they are looked for in a fixed order.

* `firstError_eq_some_iff`: the check stops at the first token with a fault, for the first of its
  faults.
* `parse_eq_error_iff`: so does a line, whose error points at that token; and what stands before the
  token could have been the start of a line that is accepted.
-/

namespace GitShell

/-- What is wrong with a token, given the tokens before and after it in its line. -/
inductive Fault (before : List Token) (t : Token) (after : List Token) : Reason → Prop where
  | unterminated (h : t.kind = .unterminated) : Fault before t after .unterminated
  | halfJoin (h : t.kind = .halfJoin) : Fault before t after (.halfJoin (t.raw ++ t.raw) t.raw)
  | leadingJoin {j : Join} (h : t.kind = .join j) (hb : before = []) :
      Fault before t after (.leadingJoin t.raw)
  /-- Only a `;` may end a line. -/
  | trailingJoin {j : Join} (h : t.kind = .join j) (hj : j ≠ .next) (ha : after = []) :
      Fault before t after (.trailingJoin t.raw)
  | missingWord {j : Join} {p : Token} (h : t.kind = .join j) (hp : before.getLast? = some p)
      (hk : p.kind.isArgument = false) : Fault before t after (.missingWord p.raw t.raw)

/-- The place of a reason in the order in which reasons are looked for. -/
def Reason.order : Reason → Nat
  | .unterminated => 0
  | .halfJoin _ _ => 1
  | .leadingJoin _ => 2
  | .trailingJoin _ => 3
  | .missingWord _ _ => 4

/-- The first fault of a token in that order. -/
def FirstFault (before : List Token) (t : Token) (after : List Token) (r : Reason) : Prop :=
  Fault before t after r ∧ ∀ r', Fault before t after r' → r.order ≤ r'.order

/-! ### One token -/

section
variable {before after : List Token} {t : Token}

/-- A token that can be an argument has no fault. -/
theorem Fault.isArgument_eq_false {r : Reason} (h : Fault before t after r) :
    t.kind.isArgument = false := by
  cases h with
  | unterminated h | halfJoin h | leadingJoin h | trailingJoin h | missingWord h => rw [h]; rfl

theorem faultOf_eq_none_iff :
    faultOf before.getLast? t after.isEmpty = none ↔ ∀ r, ¬ Fault before t after r := by
  constructor
  · intro h r hr
    cases hr with
    | unterminated hk | halfJoin hk => simp [faultOf, hk] at h
    | leadingJoin hk hb => simp [faultOf, hk, hb] at h
    | @trailingJoin j hk hj ha =>
        cases hp : before.getLast? <;> simp [faultOf, hk, ha, hp, hj] at h
    | @missingWord j p hk hp hpk =>
        by_cases hl : (after.isEmpty && j != .next) = true <;> simp [faultOf, hk, hp, hl, hpk] at h
  · intro h
    cases hk : t.kind with
    | word | endOfOptions => simp [faultOf, hk]
    | unterminated => exact absurd (.unterminated hk) (h _)
    | halfJoin => exact absurd (.halfJoin hk) (h _)
    | join j =>
        cases hp : before.getLast? with
        | none => exact absurd (.leadingJoin hk (List.getLast?_eq_none_iff.mp hp)) (h _)
        | some p =>
            have hlast : (after.isEmpty && j != .next) = false :=
              Bool.eq_false_iff.mpr fun hl => by
                simp only [Bool.and_eq_true, List.isEmpty_iff, bne_iff_ne] at hl
                exact h _ (.trailingJoin hk hl.2 hl.1)
            have harg : p.kind.isArgument = true := by
              by_contra hpk
              exact h _ (.missingWord hk hp (by simpa using hpk))
            simp [faultOf, hk, hlast, harg]

/-- A token has one fault at most at each place of the order. -/
theorem Fault.eq_of_order_eq {r r' : Reason} (h : Fault before t after r)
    (h' : Fault before t after r') (ho : r.order = r'.order) : r = r' := by
  cases h <;> cases h' <;> simp_all [Reason.order]

theorem firstFault_of_faultOf {r : Reason}
    (h : faultOf before.getLast? t after.isEmpty = some r) : FirstFault before t after r := by
  cases hk : t.kind with
  | word | endOfOptions => simp [faultOf, hk] at h
  | unterminated =>
      obtain rfl : .unterminated = r := by simpa [faultOf, hk] using h
      exact ⟨.unterminated hk, fun _ _ => Nat.zero_le _⟩
  | halfJoin =>
      obtain rfl : .halfJoin (t.raw ++ t.raw) t.raw = r := by simpa [faultOf, hk] using h
      exact ⟨.halfJoin hk, fun _ h' => by cases h' <;> simp_all [Reason.order]⟩
  | join j =>
      cases hp : before.getLast? with
      | none =>
          obtain rfl : .leadingJoin t.raw = r := by simpa [faultOf, hk, hp] using h
          exact ⟨.leadingJoin hk (List.getLast?_eq_none_iff.mp hp),
            fun _ h' => by cases h' <;> simp_all [Reason.order]⟩
      | some p =>
          by_cases hl : after = [] ∧ j ≠ .next
          · obtain rfl : .trailingJoin t.raw = r := by simpa [faultOf, hk, hp, hl] using h
            exact ⟨.trailingJoin hk hl.2 hl.1,
              fun _ h' => by cases h' <;> simp_all [Reason.order]⟩
          · have hl' : (after.isEmpty && j != .next) = false := by simpa using hl
            cases hpk : p.kind.isArgument with
            | true => simp [faultOf, hk, hp, hl', hpk] at h
            | false =>
                obtain rfl : .missingWord p.raw t.raw = r := by
                  simpa [faultOf, hk, hp, hl', hpk] using h
                exact ⟨.missingWord hk hp hpk,
                  fun _ h' => by cases h' <;> simp_all [Reason.order]⟩

/-- The check of one token finds the first of its faults. -/
theorem faultOf_eq_some_iff {r : Reason} :
    faultOf before.getLast? t after.isEmpty = some r ↔ FirstFault before t after r := by
  refine ⟨firstFault_of_faultOf, fun h => ?_⟩
  cases hf : faultOf before.getLast? t after.isEmpty with
  | none => exact absurd h.1 (faultOf_eq_none_iff.mp hf r)
  | some r' =>
      have h' := firstFault_of_faultOf hf
      have ho : r'.order = r.order := Nat.le_antisymm (h'.2 r h.1) (h.2 r' h'.1)
      rw [h'.1.eq_of_order_eq h.1 ho]

end

/-! ### The tokens of a line -/

/-- The token `t` between `before` and `after` is the first one with a fault, and `e` is the error
that its first fault makes. -/
structure Offends (ts before : List Token) (t : Token) (after : List Token) (e : LineError) :
    Prop where
  tokens : ts = before ++ t :: after
  fault : FirstFault before t after e.reason
  first : ∀ b u a r, ts = b ++ u :: a → Fault b u a r → before.length ≤ b.length
  span : e.span = t.span

/-- Tokens without a fault, before others. -/
def Faultless (us ts : List Token) : Prop :=
  ∀ b u a r, us = b ++ u :: a → ¬ Fault b u (a ++ ts) r

/-- A token among the others is one of the first of them, or comes after those. -/
theorem exists_of_append_eq {us ts b a : List Token} {u : Token} (h : us ++ ts = b ++ u :: a)
    (hb : b.length < us.length) : ∃ c, us = b ++ u :: c ∧ a = c ++ ts := by
  rcases List.append_eq_append_iff.mp h with ⟨c, rfl, -⟩ | ⟨c, rfl, hc⟩
  · rw [List.length_append] at hb
    omega
  · cases c with
    | nil => simp at hb
    | cons x c =>
        rw [List.cons_append, List.cons.injEq] at hc
        exact ⟨c, by rw [hc.1], hc.2⟩

theorem Faultless.concat {us ts : List Token} {t : Token} (h : Faultless us (t :: ts))
    (ht : ∀ r, ¬ Fault us t ts r) : Faultless (us ++ [t]) ts := by
  intro b u a r hus hr
  rcases Nat.lt_or_ge b.length us.length with hb | hb
  · obtain ⟨c, hc, rfl⟩ := exists_of_append_eq hus hb
    exact h b u c r hc (by simpa using hr)
  · obtain ⟨rfl, hta⟩ : us = b ∧ [t] = u :: a := List.append_inj hus (by
      have hlen := congrArg List.length hus
      simp only [List.length_append, List.length_cons, List.length_nil] at hlen
      omega)
    cases hta
    exact ht r hr

/-- **The check stops at the first token with a fault**, for the first of its faults.  The tokens
`us` have been passed. -/
theorem firstError_eq_some_iff {us ts : List Token} (hus : Faultless us ts) (e : LineError) :
    firstError us.getLast? ts = some e ↔ ∃ before t after, Offends (us ++ ts) before t after e := by
  induction ts generalizing us with
  | nil =>
      constructor
      · intro h
        cases h
      · rintro ⟨before, t, after, h⟩
        have htokens : us = before ++ t :: after := (List.append_nil us).symm.trans h.tokens
        have hnone := hus before t after e.reason htokens
        rw [List.append_nil] at hnone
        exact absurd h.fault.1 hnone
  | cons t ts ih =>
      -- a fault before `t` would have been met already
      have hfirst : ∀ b u a r, us ++ t :: ts = b ++ u :: a → Fault b u a r →
          us.length ≤ b.length := by
        intro b u a r heq hr
        refine Nat.le_of_not_lt fun hlt => ?_
        obtain ⟨c, hc, rfl⟩ := exists_of_append_eq heq hlt
        exact hus b u c r hc hr
      cases hf : faultOf us.getLast? t ts.isEmpty with
      | none =>
          have h := ih (hus.concat (faultOf_eq_none_iff.mp hf))
          rw [List.getLast?_concat, List.append_assoc, List.singleton_append] at h
          rw [firstError, hf]
          exact h
      | some r =>
          have hr : FirstFault us t ts r := faultOf_eq_some_iff.mp hf
          rw [firstError, hf]
          constructor
          · rintro ⟨⟩
            exact ⟨us, t, ts, rfl, hr, hfirst, rfl⟩
          · rintro ⟨before, t', after, h⟩
            have hle : before.length ≤ us.length := h.first us t ts r rfl hr.1
            have hge : us.length ≤ before.length := hfirst _ _ _ _ h.tokens h.fault.1
            obtain ⟨rfl, htail⟩ := List.append_inj h.tokens (Nat.le_antisymm hge hle)
            cases htail
            have hreason : some r = some e.reason :=
              hf.symm.trans (faultOf_eq_some_iff.mpr h.fault)
            cases hreason
            exact congrArg some (by rw [← h.span])

theorem faultless_nil (ts : List Token) : Faultless [] ts := by
  simp [Faultless]

/-- A rejected line has a token with a fault. -/
theorem exists_offends {line : Text} {e : LineError} (h : parse line = .error e) :
    ∃ before t after, Offends (tokenize line) before t after e := by
  unfold parse parseTokens at h
  split at h
  next e' he =>
    cases h
    exact (firstError_eq_some_iff (faultless_nil _) e).mp he
  next => cases h

/-- The tokens before the first fault have none. -/
theorem Offends.faultless {ts before after : List Token} {t : Token} {e : LineError}
    (h : Offends ts before t after e) : Faultless before (t :: after) := by
  rintro b u a r rfl hr
  have hle := h.first b u (a ++ t :: after) r (by simp [h.tokens]) hr
  simp only [List.length_append, List.length_cons] at hle
  omega

/-! ### What stands before the error -/

/-- Before a blank a token can be an argument if it could before, and is what it was if not. -/
theorem Token.kind_beforeBlank (n : Nat) (t : Token) :
    (t.beforeBlank n).kind.isArgument = t.kind.isArgument ∧
      ((t.beforeBlank n).kind.isArgument = false → t.kind = (t.beforeBlank n).kind) := by
  unfold beforeBlank Lexeme.beforeBlank
  split
  · split
    · next h =>
        have hk : t.kind = .word := congrArg Lexeme.kind h
        rw [hk]
        exact ⟨rfl, fun h => by cases h⟩
    · exact ⟨rfl, fun _ => rfl⟩
  · exact ⟨rfl, fun _ => rfl⟩

/-- Tokens without a fault have none when a blank and more follows. -/
theorem Faultless.beforeBlank {us ts ts' : List Token} (h : Faultless us ts) (hts : ts' ≠ [])
    (n : Nat) : Faultless (us.map (Token.beforeBlank n)) ts' := by
  intro b' u' a' r hus hr
  obtain ⟨b, s, rfl, rfl, hs⟩ := List.map_eq_append_iff.mp hus
  obtain ⟨u, a, rfl, rfl, rfl⟩ := List.map_eq_cons_iff.mp hs
  have hkind : u.kind = (u.beforeBlank n).kind := (u.kind_beforeBlank n).2 hr.isArgument_eq_false
  cases hr with
  | unterminated hk => exact h b u a _ rfl (.unterminated (hkind.trans hk))
  | halfJoin hk => exact h b u a _ rfl (.halfJoin (hkind.trans hk))
  | leadingJoin hk hb =>
      exact h b u a _ rfl (.leadingJoin (hkind.trans hk) (List.map_eq_nil_iff.mp hb))
  | trailingJoin _ _ ha => exact absurd (List.append_eq_nil_iff.mp ha).2 hts
  | missingWord hk hp hpk =>
      rw [List.getLast?_map] at hp
      obtain ⟨q, hq, rfl⟩ := Option.map_eq_some_iff.mp hp
      rw [(q.kind_beforeBlank n).1] at hpk
      exact h b u a _ rfl (.missingWord (hkind.trans hk) hq hpk)

theorem firstError_eq_none {ts : List Token} (h : Faultless ts []) : firstError none ts = none := by
  cases hf : firstError none ts with
  | none => rfl
  | some e =>
      obtain ⟨b, u, a, ho⟩ := (firstError_eq_some_iff (faultless_nil ts) e).mp hf
      have hnone := h b u a e.reason ho.tokens
      rw [List.append_nil] at hnone
      exact absurd ho.fault.1 hnone

/-- A plain word is one token, which can be an argument. -/
theorem exists_tokenize_bare {w : Text} (hne : w ≠ []) (hw : ∀ c ∈ w, isBare c = true) :
    ∃ t : Token, t.kind.isArgument = true ∧ tokenize w = [t] := by
  have hstop : StopsAt [] := by simp [StopsAt]
  obtain ⟨k, hk, hs⟩ := exists_shape_bare hne hw hstop
  refine ⟨{ Lexeme.literal k w with start := 0 }, hk, ?_⟩
  have h : Piece.pieces (w ++ []) = .lexeme (.literal k w) :: Piece.pieces [] :=
    Piece.pieces_lexeme hs
  rw [List.append_nil] at h
  rw [tokenize, h, Piece.pieces, Piece.place, Piece.place]

/-- **What stands before the first error is the start of an accepted line**: a blank and a plain word
complete it. -/
theorem exists_parse_of_faultless {line : Text} {us vs : List Token} {t : Token}
    (h : tokenize line = us ++ t :: vs) (hus : Faultless us (t :: vs)) {w : Text} (hne : w ≠ [])
    (hw : ∀ c ∈ w, isBare c = true) :
    ∃ gs, parse (line.take t.start ++ ' ' :: w) = .ok gs := by
  obtain ⟨htake, hclosed⟩ := tokenize_take h
  obtain ⟨v, hv, hword⟩ := exists_tokenize_bare hne hw
  rw [parse, parseTokens, tokenize_append_blank hclosed (by decide), htake, hword, List.map_singleton,
    firstError_eq_none]
  · exact ⟨_, rfl⟩
  · refine (hus.beforeBlank (List.cons_ne_nil _ _) _).concat fun r hr => ?_
    have hv' : v.kind.isArgument = false := hr.isArgument_eq_false
    rw [hv] at hv'
    cases hv'

/-- A token without a fault that is not an argument is a join. -/
theorem exists_join_of_faultless {us ts : List Token} (h : Faultless us ts) {p : Token}
    (hp : us.getLast? = some p) (hk : p.kind.isArgument = false) : ∃ j, p.kind = .join j := by
  obtain ⟨b, rfl⟩ := List.getLast?_eq_some_iff.mp hp
  cases hpk : p.kind with
  | word | endOfOptions => simp [hpk, Kind.isArgument] at hk
  | unterminated => exact absurd (.unterminated hpk) (h b p [] _ rfl)
  | halfJoin => exact absurd (.halfJoin hpk) (h b p [] _ rfl)
  | join j => exact ⟨j, rfl⟩

theorem Lexeme.Shape.raw_join {l : Lexeme} {rest : Text} (h : l.Shape rest) {j : Join}
    (hj : l.kind = .join j) : l.raw = j.text := by
  cases h <;> simp_all [literal]

/-- A join that is named as the one before a token is a join. -/
theorem Offends.previous {line : Text} {before after : List Token} {t : Token} {e : LineError}
    (h : Offends (tokenize line) before t after e) {p k : Text} (hr : e.reason = .missingWord p k) :
    ∃ j : Join, p = j.text := by
  obtain ⟨hf, -⟩ := h.fault
  rw [hr] at hf
  cases hf with
  | @missingWord _ q _ hq hk =>
      obtain ⟨j, hj⟩ := exists_join_of_faultless h.faultless hq hk
      have hmem : q ∈ tokenize line := by
        rw [h.tokens]
        exact List.mem_append_left _ (List.mem_of_getLast? hq)
      exact ⟨j, ((tiles_place [] line).shape q hmem).raw_join hj⟩

/-- **The error of a rejected line.**  It is the first fault of the first token that has one, and
points at that token, at the characters of the line that the token was read from.  What it names as
the join before is a join, and the text before the token is the start of an accepted line: a blank
and any plain word complete it. -/
theorem parse_eq_error_iff (line : Text) (e : LineError) :
    parse line = .error e ↔ ∃ before t after, Offends (tokenize line) before t after e ∧
      e.span.start < e.span.stop ∧ e.span.stop ≤ line.length ∧
      (Line.ofText line).slice e.span = t.raw ∧
      (∀ p k, e.reason = .missingWord p k → ∃ j : Join, p = j.text) ∧
      ∀ w, w ≠ [] → (∀ c ∈ w, isBare c = true) →
        ∃ gs, parse (line.take e.span.start ++ ' ' :: w) = .ok gs := by
  have hiff : parse line = .error e ↔
      ∃ before t after, Offends (tokenize line) before t after e := by
    refine Iff.trans ?_ (firstError_eq_some_iff (faultless_nil (tokenize line)) e)
    rw [parse, parseTokens, List.getLast?_nil]
    cases firstError none (tokenize line) <;> simp
  rw [hiff]
  constructor
  · rintro ⟨before, t, after, h⟩
    have htiles : Tiles line 0 (tokenize line) := tiles_place [] line
    have ht : t ∈ tokenize line := by simp [h.tokens]
    refine ⟨before, t, after, h, ?_, ?_, ?_, fun _ _ => h.previous, fun w hne hw => ?_⟩
    · rw [h.span]
      exact htiles.nonempty t ht
    · rw [h.span]
      exact htiles.inside t ht
    · rw [h.span]
      exact htiles.slice t ht
    · rw [h.span]
      exact exists_parse_of_faultless h.tokens h.faultless hne hw
  · rintro ⟨before, t, after, h, -⟩
    exact ⟨before, t, after, h⟩

end GitShell
