import GitShell.Proofs.Chain.Layout
import GitShell.Proofs.Line.Spacing

/-!
# Chain — Spacing

Blanks separate the words of a line and mean nothing else: how many there are, and which, changes
neither the groups nor the error of a line.

* `Alike`: tokens that differ only in their places, as long as the same ones touch; a word and a `--`
  that ends the options count as one kind.
* `Alike.sameResult`: they have the same groups, or the same error at the same token.
* `parse_spacedAnew`: so does a line that is spaced anew, and a line that is followed by blanks.

The check reads the kinds, the characters and the order of tokens, the grouping their contents and
whether they touch; a place is read only for the span of an error.
-/

namespace GitShell

/-! ### Tokens that mean the same -/

/-- Two tokens are read from the same characters and stand for the same text.  They are of one kind, or
both can be arguments. -/
structure Token.Like (t u : Token) : Prop where
  raw : t.raw = u.raw
  content : t.content = u.content
  kind : t.kind = u.kind ∨ t.kind.isArgument = true ∧ u.kind.isArgument = true

/-- Tokens that mean the same in order, where the same ones touch. -/
inductive Alike : List Token → List Token → Prop where
  | nil : Alike [] []
  | cons {t u : Token} {ts us : List Token} (h : t.Like u)
      (hgap : ∀ t' ∈ ts.head?, ∀ u' ∈ us.head?, (t.gapTo t' = 0 ↔ u.gapTo u' = 0))
      (hs : Alike ts us) : Alike (t :: ts) (u :: us)

/-- Two errors for one reason, at the tokens of one index. -/
inductive SameError (ts us : List Token) : LineError → LineError → Prop where
  | mk {i : Nat} {t u : Token} (r : Reason) (ht : ts[i]? = some t) (hu : us[i]? = some u) :
      SameError ts us ⟨t.span, r⟩ ⟨u.span, r⟩

/-- The same groups, or the same error. -/
inductive SameResult (ts us : List Token) :
    Except LineError (List Group) → Except LineError (List Group) → Prop where
  | groups (gs : List Group) : SameResult ts us (.ok gs) (.ok gs)
  | error {e e' : LineError} (h : SameError ts us e e') : SameResult ts us (.error e) (.error e')

theorem Kind.isJoin_of_isArgument {k : Kind} (h : k.isArgument = true) : k.isJoin = false := by
  cases k with
  | join => cases h
  | word | halfJoin | unterminated | endOfOptions => rfl

namespace Token.Like

variable {t u : Token}

theorem isArgument_eq (h : t.Like u) : t.kind.isArgument = u.kind.isArgument := by
  rcases h.kind with heq | ⟨ht, hu⟩
  · rw [heq]
  · rw [ht, hu]

theorem isJoin_eq (h : t.Like u) : t.kind.isJoin = u.kind.isJoin := by
  rcases h.kind with heq | ⟨ht, hu⟩
  · rw [heq]
  · rw [Kind.isJoin_of_isArgument ht, Kind.isJoin_of_isArgument hu]

/-- Only tokens that can be arguments differ in kind. -/
theorem kind_eq (h : t.Like u) (ht : t.kind.isArgument = false) : t.kind = u.kind := by
  refine h.kind.resolve_right fun harg => ?_
  rw [harg.1] at ht
  cases ht

end Token.Like

namespace Alike

variable {ts us : List Token}

theorem isEmpty_eq (h : Alike ts us) : ts.isEmpty = us.isEmpty := by
  cases h with
  | nil | cons => rfl

/-- Tokens that are moved, and perhaps made a `--` that ends the options. -/
theorem map {f : Token → Token} (hf : ∀ t : Token, t.Like (f t))
    (hstart : ∀ t, (f t).start = t.start) (ts : List Token) : Alike ts (ts.map f) := by
  have hgap : ∀ t u, (f t).gapTo (f u) = t.gapTo u := by
    intro t u
    rw [Token.gapTo, Token.gapTo, Token.stop, Token.stop, hstart, hstart, ← (hf t).raw]
  induction ts with
  | nil => exact .nil
  | cons t ts ih =>
      refine .cons (hf t) (fun t' ht' u' hu' => ?_) ih
      rw [List.head?_map] at hu'
      obtain ⟨t'', ht'', rfl⟩ := Option.map_eq_some_iff.mp hu'
      rw [hgap, Option.some.inj (ht'.symm.trans ht'')]

/-- Tokens of the same lexemes, of which the same ones touch. -/
theorem of_lexemes (hlexemes : us.map Token.toLexeme = ts.map Token.toLexeme)
    (htouching : touching us = touching ts) : Alike ts us := by
  induction ts generalizing us with
  | nil =>
      rw [List.map_eq_nil_iff.mp hlexemes]
      exact .nil
  | cons t ts ih =>
      obtain ⟨u, us, rfl, hu, hus⟩ := List.map_eq_cons_iff.mp hlexemes
      have hlike : t.Like u :=
        ⟨congrArg Lexeme.raw hu.symm, congrArg Lexeme.content hu.symm,
          .inl (congrArg Lexeme.kind hu.symm)⟩
      cases ts with
      | nil =>
          rw [List.map_eq_nil_iff.mp hus]
          exact .cons hlike nofun .nil
      | cons t' ts =>
          obtain ⟨u', us, rfl, -, -⟩ := List.map_eq_cons_iff.mp hus
          rw [touching_cons_cons, touching_cons_cons, List.cons.injEq] at htouching
          refine .cons hlike ?_ (ih hus htouching.2)
          rintro _ ⟨⟩ _ ⟨⟩
          have hgap : (u.gapTo u' == 0) = (t.gapTo t' == 0) := htouching.1
          rw [Bool.eq_iff_iff, beq_iff_eq, beq_iff_eq] at hgap
          exact hgap.symm

end Alike

/-! ### The check -/

theorem faultOf_of_like {p q : Option Token} (hpq : Option.Rel Token.Like p q) {t u : Token}
    (h : t.Like u) (last : Bool) : faultOf p t last = faultOf q u last := by
  cases ht : t.kind.isArgument with
  | true =>
      have hu : u.kind.isArgument = true := h.isArgument_eq.symm.trans ht
      rw [faultOf_argument ht, faultOf_argument hu]
  | false =>
      unfold faultOf
      rw [h.kind_eq ht, h.raw]
      cases hpq with
      | none => rfl
      | some hpq => simp only [hpq.isArgument_eq, hpq.raw]

/-- **Tokens that are alike have the same error**, or none. -/
theorem Alike.sameError {ts us : List Token} (h : Alike ts us) {p q : Option Token}
    (hpq : Option.Rel Token.Like p q) :
    Option.Rel (SameError ts us) (firstError p ts) (firstError q us) := by
  induction h generalizing p q with
  | nil => exact .none
  | @cons t u ts us h _ hs ih =>
      rw [firstError, firstError, faultOf_of_like hpq h, hs.isEmpty_eq]
      cases faultOf q u us.isEmpty with
      | some r => exact .some (.mk r (List.getElem?_cons_zero ..) (List.getElem?_cons_zero ..))
      | none =>
          have hrest := ih (.some h)
          cases hts : firstError (some t) ts <;>
            cases hus : firstError (some u) us <;> rw [hts, hus] at hrest
          · exact .none
          · cases hrest
          · cases hrest
          · cases hrest with
            | some he =>
                obtain ⟨r, ht, hu⟩ := he
                exact .some (.mk r (List.getElem?_cons_succ.trans ht)
                  (List.getElem?_cons_succ.trans hu))

/-! ### The groups -/

theorem argumentsOf_eq_nil_iff {b : List Token} : argumentsOf b = [] ↔ b = [] := by
  constructor
  · intro h
    match b with
    | [] => rfl
    | [t] => cases h
    | t :: u :: ts =>
        rw [argumentsOf] at h
        split at h
        · split at h <;> cases h
        · cases h
  · rintro rfl
    rfl

/-- A further word in front of blocks with the same arguments. -/
theorem argumentsOf_cons_congr {t u : Token} {b c : List Token} (h : t.content = u.content)
    (hgap : ∀ t' ∈ b.head?, ∀ u' ∈ c.head?, (t.gapTo t' = 0 ↔ u.gapTo u' = 0))
    (hbc : argumentsOf b = argumentsOf c) : argumentsOf (t :: b) = argumentsOf (u :: c) := by
  have hnil : b = [] ↔ c = [] := by
    rw [← argumentsOf_eq_nil_iff, hbc, argumentsOf_eq_nil_iff]
  cases b with
  | nil =>
      obtain rfl : c = [] := hnil.mp rfl
      rw [argumentsOf, argumentsOf, h]
  | cons t' b =>
      cases c with
      | nil => cases hnil.mpr rfl
      | cons u' c =>
          rw [argumentsOf, argumentsOf, hbc, h]
          exact if_congr (hgap t' rfl u' rfl) rfl rfl

theorem isJoin_eq_false_iff {k : Kind} : k.isJoin = false ↔ ¬ ∃ j, k = .join j := by
  cases k <;> simp [Kind.isJoin]

theorem blocks_of_not_join {t : Token} (h : t.kind.isJoin = false) (ts : List Token) :
    blocks (t :: ts) = (t :: (blocks ts).1, (blocks ts).2) := by
  cases hk : t.kind with
  | join => rw [hk] at h; cases h
  | word | halfJoin | unterminated | endOfOptions => simp [blocks, hk]

/-- The first block starts with the first token, or is empty. -/
theorem mem_head?_of_blocks {ts : List Token} {t : Token} (h : t ∈ (blocks ts).1.head?) :
    t ∈ ts.head? := by
  cases ts with
  | nil => cases h
  | cons u us =>
      by_cases hu : ∃ j, u.kind = .join j
      · obtain ⟨j, hj⟩ := hu
        rw [blocks_join hj] at h
        split at h <;> cases h
      · rw [blocks_of_not_join (isJoin_eq_false_iff.mpr hu)] at h
        exact h

/-- A join ends a block. -/
theorem groupsAfter_join {t : Token} {k : Join} (ht : t.kind = .join k) (j : Join)
    (ts : List Token) : groupsAfter j (t :: ts) =
      ⟨j, []⟩ :: if k = .next ∧ ts = [] then [] else groupsAfter k ts := by
  rw [groupsAfter, blocks_join ht]
  split
  · rfl
  · rfl

/-- Every other token goes to the front of the first block. -/
theorem groupsAfter_of_not_join {t : Token} (ht : t.kind.isJoin = false) (j : Join)
    (ts : List Token) : groupsAfter j (t :: ts) =
      ⟨j, argumentsOf (t :: (blocks ts).1)⟩ :: (groupsAfter j ts).tail := by
  rw [groupsAfter, blocks_of_not_join ht]
  rfl

/-- **Tokens that are alike have the same groups.** -/
theorem Alike.groupsAfter_eq {ts us : List Token} (h : Alike ts us) (j : Join) :
    groupsAfter j ts = groupsAfter j us := by
  induction h generalizing j with
  | nil => rfl
  | @cons t u ts us h hgap hs ih =>
      by_cases hk : ∃ k, t.kind = .join k
      · obtain ⟨k, ht⟩ := hk
        have hu : u.kind = .join k := by
          rw [← h.kind_eq (by rw [ht]; rfl), ht]
        have hnil : ts = [] ↔ us = [] := by
          rw [← List.isEmpty_iff, hs.isEmpty_eq, List.isEmpty_iff]
        rw [groupsAfter_join ht, groupsAfter_join hu, ih k]
        simp only [hnil]
      · have ht : t.kind.isJoin = false := isJoin_eq_false_iff.mpr hk
        have hu : u.kind.isJoin = false := by rw [← h.isJoin_eq, ht]
        have hfirst : argumentsOf (blocks ts).1 = argumentsOf (blocks us).1 :=
          congrArg Group.arguments (List.cons.inj (ih j)).1
        have hblock : argumentsOf (t :: (blocks ts).1) = argumentsOf (u :: (blocks us).1) :=
          argumentsOf_cons_congr h.content (fun t' ht' u' hu' =>
            hgap t' (mem_head?_of_blocks ht') u' (mem_head?_of_blocks hu')) hfirst
        rw [groupsAfter_of_not_join ht, groupsAfter_of_not_join hu, hblock, ih j]

/-- **Tokens that are alike have the same result.** -/
theorem Alike.sameResult {ts us : List Token} (h : Alike ts us) :
    SameResult ts us (parseTokens ts) (parseTokens us) := by
  have herror := h.sameError .none
  have hgroups : Group.ofTokens ts = Group.ofTokens us := by
    rw [Group.ofTokens, Group.ofTokens, h.isEmpty_eq]
    exact congrArg (ite _ []) (h.groupsAfter_eq .next)
  rw [parseTokens, parseTokens, hgroups]
  cases hts : firstError none ts <;> cases hus : firstError none us <;> rw [hts, hus] at herror
  · exact .groups _
  · cases herror
  · cases herror
  · cases herror with
    | some he => exact .error he

/-! ### Lines -/

theorem Token.like_beforeBlank (n : Nat) (t : Token) : t.Like (t.beforeBlank n) := by
  unfold beforeBlank Lexeme.beforeBlank
  split
  · split
    next h =>
      have hkind : t.kind = .word := congrArg Lexeme.kind h
      have hraw : t.raw = ['-', '-'] := congrArg Lexeme.raw h
      have hcontent : t.content = ['-', '-'] := congrArg Lexeme.content h
      exact ⟨hraw, hcontent, .inr ⟨by rw [hkind]; rfl, rfl⟩⟩
    next => exact ⟨rfl, rfl, .inl rfl⟩
  · exact ⟨rfl, rfl, .inl rfl⟩

theorem Token.start_beforeBlank (n : Nat) (t : Token) : (t.beforeBlank n).start = t.start := by
  unfold beforeBlank
  split <;> rfl

/-- Blanks at the end of a closed line make a `--` before them end the options, and no more. -/
theorem tokenize_append_blanks {line b : Text} (h : line.Closed) (hb : b.allBlank = true)
    (hne : b ≠ []) :
    tokenize (line ++ b) = (tokenize line).map (Token.beforeBlank line.length) := by
  obtain ⟨c, b, rfl⟩ := List.exists_cons_of_ne_nil hne
  obtain ⟨hc, hb⟩ : isBlank c = true ∧ Text.allBlank b = true := by
    simpa [Text.allBlank] using hb
  have hnone : tokenize b = [] := by
    have hplace := Piece.place_blanks hb 0 []
    rw [List.append_nil, Piece.pieces, Piece.place] at hplace
    exact hplace
  rw [tokenize_append_blank h hc, hnone, List.map_nil, List.append_nil]

theorem parse_append_blanks {line b : Text} (h : line.Closed) (hb : b.allBlank = true) :
    parse (line ++ b) = parse line := by
  by_cases hne : b = []
  · rw [hne, List.append_nil]
  · have hlike := Token.like_beforeBlank line.length
    have hstart := Token.start_beforeBlank line.length
    have hspan : ∀ t, (Token.beforeBlank line.length t).span = t.span := by
      intro t
      rw [Token.span, Token.span, Token.stop, Token.stop, hstart, ← (hlike t).raw]
    have hresult := (Alike.map hlike hstart (tokenize line)).sameResult
    rw [parse, parse, tokenize_append_blanks h hb hne]
    generalize parseTokens (tokenize line) = x at *
    generalize parseTokens ((tokenize line).map _) = y at *
    cases hresult with
    | groups gs => rfl
    | error he =>
        obtain ⟨r, ht, hu⟩ := he
        rw [List.getElem?_map, ht, Option.map_some] at hu
        rw [← Option.some.inj hu, hspan]

/-- **Blanks only separate.**  A line that is spaced anew has the same lexemes, of which the same
touch, and the same groups, or an error for the same reason at the token of the same index.  Blanks
after a line in which no quote and no escape is open change nothing but a `--` before them, which
ends the options then. -/
theorem parse_spacedAnew (line : Text) :
    (∀ line', IsSpacedAnew line line' →
      (tokenize line').map Token.toLexeme = (tokenize line).map Token.toLexeme ∧
        touching (tokenize line') = touching (tokenize line) ∧
        SameResult (tokenize line) (tokenize line') (parse line) (parse line')) ∧
    (line.Closed → ∀ b : Text, b.allBlank = true →
      (b ≠ [] →
        tokenize (line ++ b) = (tokenize line).map (Token.beforeBlank line.length)) ∧
      parse (line ++ b) = parse line) := by
  refine ⟨fun line' h => ?_, fun h b hb => ?_⟩
  · obtain ⟨hlexemes, htouching⟩ := tokenize_spacedAnew h
    exact ⟨hlexemes, htouching, (Alike.of_lexemes hlexemes htouching).sameResult⟩
  · exact ⟨tokenize_append_blanks h hb, parse_append_blanks h hb⟩

/-- A line with other blanks, a line feed after its `--` among them, and a line that ends in a `--`. -/
theorem parse_spacedAnew_operands :
    IsSpacedAnew "add  'x'y -- z;".toList "\tadd 'x'y\t--\nz;".toList ∧
      parse "\tadd 'x'y\t--\nz;".toList =
        .ok [⟨.next, ["add", "xy", "--", "z"].map String.toList⟩] ∧
      Text.Closed "add --".toList ∧ parse "add -- \n".toList = parse "add --".toList := by
  have htokens : tokenize "add  'x'y -- z;".toList =
      [⟨.literal .word "add".toList, 0⟩, ⟨⟨.word, "'x'".toList, "x".toList, true⟩, 5⟩,
        ⟨.literal .word "y".toList, 8⟩, ⟨.literal .endOfOptions "--".toList, 10⟩,
        ⟨.literal .word "z".toList, 13⟩, ⟨.literal (.join .next) ";".toList, 14⟩] := by
    decide +kernel
  have hrest : Spaced 15 (tokenize "add  'x'y -- z;".toList) "add 'x'y\t--\nz;".toList := by
    rw [htokens]
    refine @Spaced.cons _ _ _ [' '] _ (by decide) (by decide) ?_
    refine @Spaced.cons _ _ _ [] _ (by decide) (by decide) ?_
    refine @Spaced.cons _ _ _ ['\t'] _ (by decide) (by decide) ?_
    refine @Spaced.cons _ _ _ ['\n'] _ (by decide) (by decide) ?_
    refine @Spaced.cons _ _ _ [] _ (by decide) (by decide) ?_
    exact @Spaced.cons _ _ _ [] _ (by decide) (by decide) .nil
  have hspaced : IsSpacedAnew "add  'x'y -- z;".toList "\tadd 'x'y\t--\nz;".toList :=
    @IsSpacedAnew.mk _ ['\t'] _ (by decide) hrest
  have hparse : parse "add  'x'y -- z;".toList =
      .ok [⟨.next, ["add", "xy", "--", "z"].map String.toList⟩] := by decide +kernel
  have hclosed : Text.Closed "add --".toList := by decide +kernel
  obtain ⟨-, -, hresult⟩ := (parse_spacedAnew "add  'x'y -- z;".toList).1 _ hspaced
  rw [hparse] at hresult
  generalize parse "\tadd 'x'y\t--\nz;".toList = result at *
  refine ⟨hspaced, ?_, hclosed, ?_⟩
  · cases hresult
    rfl
  · exact ((parse_spacedAnew "add --".toList).2 hclosed " \n".toList (by decide)).2

end GitShell
