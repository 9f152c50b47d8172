import GitShell.Proofs.Chain.Sequence
import GitShell.Proofs.Editing.Agreement
import GitShell.Proofs.Editing.LastWord
import GitShell.Proofs.Editing.Replacement
import GitShell.Proofs.Line.Verbatim

/-!
# Editing — Insertion

What a line means after a candidate has been accepted.  Candidates are texts of any kind, such as
the names of files, and are inserted as they are, without quotes and escapes.

* `tokenize_take_append`: the completed line has the tokens before the last one, and those of the
  candidate.
* `Laid.exists_last`: the last word of a line ends the last argument of its last group.
* `completed_means_offered_iff`: so the candidate stands in that argument in place of what was typed
  exactly if it escapes all characters that end words.
* `completed_in_two_words`: the name of a file with a blank does not.
-/

namespace GitShell

/-! ### The tokens of a completed line -/

/-- **Of a line that is cut before a token and goes on like it**, the tokens before the cut stay,
and what follows has its own. -/
theorem tokenize_take_append {line c : Text} {us vs : List Token} {t : Token}
    (h : tokenize line = us ++ t :: vs) (hc : t.raw <+: c) :
    tokenize (line.take t.start ++ c) = us ++ (tokenize c).map (Token.shift t.start) := by
  have htiles : Tiles line 0 (us ++ t :: vs) := h ▸ tiles_place [] line
  have hmem : t ∈ us ++ t :: vs := by simp
  have hlen : (line.take t.start).length = t.start := by
    have h₁ := htiles.nonempty t hmem
    have h₂ := htiles.inside t hmem
    rw [List.length_take]
    omega
  obtain ⟨htake, -⟩ := tokenize_take h
  -- the candidate starts with the character that the token starts with
  have hhead : (line.drop t.start).head? = c.head? := by
    obtain ⟨d, r, hraw, -⟩ := (htiles.shape t hmem).not_blank
    obtain ⟨s, rfl⟩ := hc
    rw [htiles.drop_start, hraw]
    rfl
  have happ := tokenize_append (x := line.take t.start) c (f := id) (fun _ => ⟨rfl, rfl⟩)
    (fun _ _ _ => rfl) fun u hu hstop => by
      rw [htake] at hu
      rw [hlen] at hstop
      have hshape := htiles.shape u (List.mem_append_left _ hu)
      rw [hstop] at hshape
      exact hshape.of_head_eq hhead
  rw [happ, htake, hlen, List.map_id]

/-! ### The last argument -/

/-- A word that touches no word before it is an argument. -/
theorem argumentsIn_concat_apart {us : List Token} {t : Token}
    (h : ∀ u ∈ us.getLast?, u.stop ≠ t.start) :
    argumentsIn (us ++ [t]) = argumentsIn us ++ [t.content] := by
  have hgap : ∀ u ∈ us.getLast?, (u.stop == t.start) = false := fun u hu => by
    simpa using h u hu
  rw [argumentsIn, List.splitBy_append_cons [] hgap, List.map_append, ← argumentsIn,
    ← argumentsIn, argumentsIn_singleton]

/-- The last word of a block ends its last argument. -/
theorem exists_argumentsIn_concat (us : List Token) (n : Nat) :
    ∃ as glued, ∀ t : Token, t.start = n → argumentsIn (us ++ [t]) = as ++ [glued ++ t.content] := by
  induction us with
  | nil => exact ⟨[], [], fun t _ => argumentsIn_singleton t⟩
  | cons u us ih =>
      obtain ⟨as, glued, ih⟩ := ih
      cases us with
      | nil =>
          by_cases hu : u.stop = n
          · refine ⟨[], u.content, fun t ht => ?_⟩
            exact argumentsIn_cons_glued (hu.trans ht.symm) (argumentsIn_singleton t)
          · refine ⟨[u.content], [], fun t ht => ?_⟩
            rw [List.singleton_append, argumentsIn_cons_apart (ht ▸ hu), argumentsIn_singleton]
            rfl
      | cons v us =>
          by_cases hu : u.stop = v.start
          · cases as with
            | nil =>
                refine ⟨[], u.content ++ glued, fun t ht => ?_⟩
                rw [List.append_assoc]
                exact argumentsIn_cons_glued hu (ih t ht)
            | cons a as =>
                exact ⟨(u.content ++ a) :: as, glued, fun t ht => argumentsIn_cons_glued hu (ih t ht)⟩
          · refine ⟨u.content :: as, glued, fun t ht => ?_⟩
            have h := argumentsIn_cons_apart hu (us ++ [t])
            rw [← List.cons_append, ih t ht] at h
            exact h

/-- The word `t` after `us` stands directly after a word. -/
def Touches (us : List Token) (t : Token) : Prop :=
  ∃ u ∈ us.getLast?, u.kind.isArgument = true ∧ u.stop = t.start

/-- What is before a join does not touch what is after it. -/
theorem touches_append_join {e : Token} (he : e.kind.isArgument = false) (b us : List Token)
    (t : Token) : Touches (b ++ e :: us) t ↔ Touches us t := by
  cases us with
  | nil => simp [Touches, he]
  | cons u us => simp [Touches, List.getLast?_cons_cons]

/-- The groups `gs` of a line that ends in the word `t` after `us`, with `c` in place of what the
word stands for: it ends the last argument of the last group, after what is directly before it. -/
def Replaced (us : List Token) (t : Token) (gs : List Group) (c : Text) (gs' : List Group) : Prop :=
  ∃ before j as glued, gs = before ++ [⟨j, as ++ [glued ++ t.content]⟩] ∧
    gs' = before ++ [⟨j, as ++ [glued ++ c]⟩] ∧ (¬ Touches us t → glued = [])

theorem Replaced.unique {us : List Token} {t : Token} {gs gs₁ gs₂ : List Group} {c : Text}
    (h₁ : Replaced us t gs c gs₁) (h₂ : Replaced us t gs c gs₂) : gs₁ = gs₂ := by
  obtain ⟨b₁, j₁, as₁, glued₁, hgs, rfl, -⟩ := h₁
  obtain ⟨b₂, j₂, as₂, glued₂, hgs', rfl, -⟩ := h₂
  rw [hgs] at hgs'
  obtain ⟨rfl, hg⟩ := List.append_inj' hgs' rfl
  simp only [List.cons.injEq, Group.mk.injEq, and_true] at hg
  obtain ⟨rfl, has⟩ := hg
  obtain ⟨rfl, ha⟩ := List.append_inj' has rfl
  simp only [List.cons.injEq, and_true, List.append_cancel_right_eq] at ha
  rw [ha]

/-- **The last word of a line** ends the last argument of its last group, and another word in its
place does so too. -/
theorem Laid.exists_last {j : Join} {ts us : List Token} {gs : List Group} {t : Token}
    (h : Laid j ts gs) (hts : ts = us ++ [t]) (ht : t.kind.isArgument = true) :
    ∀ t' : Token, t'.kind.isArgument = true → t'.start = t.start →
      ∃ gs', Replaced us t gs t'.content gs' ∧ Laid j (us ++ [t']) gs' := by
  intro t' ht' hstart
  induction h generalizing us with
  | @last j b hb =>
      subst hts
      have hblock : IsBlock (us ++ [t']) := by
        refine ⟨by simp, List.forall_mem_append.mpr ⟨fun u hu => ?_, by simpa using ht'⟩⟩
        exact hb.2 u (List.mem_append_left _ hu)
      by_cases htouch : Touches us t
      · obtain ⟨as, glued, has⟩ := exists_argumentsIn_concat us t.start
        refine ⟨[⟨j, as ++ [glued ++ t'.content]⟩],
          ⟨[], j, as, glued, by rw [has t rfl]; rfl, rfl, fun h => absurd htouch h⟩, ?_⟩
        rw [← has t' hstart]
        exact .last j hblock
      · -- all words of the block are arguments, so nothing touches
        have hapart : ∀ u ∈ us.getLast?, u.stop ≠ t.start := fun u hu hstop =>
          htouch ⟨u, hu, hb.2 u (List.mem_append_left _ (List.mem_of_getLast? hu)), hstop⟩
        refine ⟨[⟨j, argumentsIn us ++ [t'.content]⟩],
          ⟨[], j, argumentsIn us, [], by rw [argumentsIn_concat_apart hapart]; rfl, rfl,
            fun _ => rfl⟩, ?_⟩
        rw [← argumentsIn_concat_apart (hstart ▸ hapart)]
        exact .last j hblock
  | @ended j b e hb he =>
      obtain ⟨-, heq⟩ := List.append_inj' hts rfl
      rw [← List.singleton_inj.mp heq, he] at ht
      cases ht
  | @joined j k b ts e gs hb he hl ih =>
      -- the word is among the tokens after the join
      rcases List.eq_nil_or_concat' ts with rfl | ⟨us', u, rfl⟩
      · exact absurd rfl hl.ne_nil.1
      rw [← List.cons_append, ← List.append_assoc] at hts
      obtain ⟨rfl, heq⟩ := List.append_inj' hts rfl
      obtain rfl : u = t := List.singleton_inj.mp heq
      obtain ⟨gs', ⟨before, i, as, glued, rfl, rfl, hglued⟩, hl'⟩ := ih rfl
      have he' : e.kind.isArgument = false := by rw [he]; rfl
      refine ⟨_, ⟨⟨j, argumentsIn b⟩ :: before, i, as, glued, rfl, rfl, ?_⟩, ?_⟩
      · rwa [touches_append_join he']
      · rw [List.append_assoc]
        exact .joined j hb he hl'

/-! ### What the words stand for -/

/-- The arguments of the groups, one after the other, are what the words stand for. -/
theorem Laid.flatten_arguments {j : Join} {ts : List Token} {gs : List Group} (h : Laid j ts gs) :
    (gs.flatMap (·.arguments)).flatten =
      (ts.filter (·.kind.isArgument)).flatMap (·.content) := by
  have hblock : ∀ {b : List Token}, IsBlock b →
      (argumentsIn b).flatten = (b.filter (·.kind.isArgument)).flatMap (·.content) := by
    intro b hb
    have hflatten := List.flatten_splitBy (fun t u : Token => t.stop == u.start) b
    rw [List.filter_eq_self.mpr hb.2, argumentsIn, ← List.flatMap_def]
    conv_rhs => rw [← hflatten, ← List.flatMap_id, List.flatMap_assoc]
    rfl
  induction h with
  | last j hb => simpa using hblock hb
  | @ended j b e hb he =>
      have he' : e.kind.isArgument = false := by rw [he]; rfl
      simpa [he'] using hblock hb
  | @joined j k b ts e gs hb he _ ih =>
      have he' : e.kind.isArgument = false := by rw [he]; rfl
      rw [List.flatMap_cons, List.flatten_append, hblock hb, ih]
      simp [he']

/-- What the words of a line with two parts stand for. -/
theorem flatMap_content_append_shift (us : List Token) (c : Text) (n : Nat) :
    ((us ++ (tokenize c).map (Token.shift n)).filter (·.kind.isArgument)).flatMap (·.content) =
      (us.filter (·.kind.isArgument)).flatMap (·.content) ++ meant c := by
  have hc : ((tokenize c).filter (·.kind.isArgument)).flatMap (·.content) = meant c :=
    flatMap_content_place 0 _
  rw [List.filter_append, List.flatMap_append, List.filter_map, List.flatMap_map, ← hc]
  rfl

/-! ### The groups of a completed line -/

section
variable {line c : Text} {us : List Token} {t : Token} {gs : List Group}

/-- **Another text in place of the last word** stands in the last argument instead of the word
exactly if it escapes all characters that end words. -/
theorem parse_replaced_iff (hp : parse line = .ok gs) (hts : tokenize line = us ++ [t])
    (ht : t.kind.isArgument = true) (hc : t.raw <+: c) :
    (∃ gs', Replaced us t gs c gs' ∧ parse (line.take t.start ++ c) = .ok gs') ↔
      OnlyEscaped endsWord c := by
  have hlaid : Laid .next (us ++ [t]) gs := by
    rcases parse_eq_ok_iff.mp hp with ⟨hnil, -⟩ | h
    · simp [hts] at hnil
    · rwa [hts] at h
  have hcompleted := tokenize_take_append (hts : tokenize line = us ++ t :: []) hc
  obtain ⟨gs', hreplaced, hlaid'⟩ :=
    hlaid.exists_last rfl ht ⟨.literal .word c, t.start⟩ rfl rfl
  constructor
  · rintro ⟨gs'', hreplaced', hparse⟩
    obtain rfl := hreplaced.unique hreplaced'
    rw [parse_eq_ok_iff, hcompleted] at hparse
    -- all characters of the arguments come from the words, in the completed line and in the
    -- groups that were asked for
    have hwords : (gs'.flatMap (·.arguments)).flatten =
        (us.filter (·.kind.isArgument)).flatMap (·.content) ++ meant c := by
      rcases hparse with ⟨-, rfl⟩ | h
      · exact absurd rfl hlaid'.ne_nil.2
      · rw [h.flatten_arguments, flatMap_content_append_shift]
    have hasked : (gs'.flatMap (·.arguments)).flatten =
        (us.filter (·.kind.isArgument)).flatMap (·.content) ++ c := by
      rw [hlaid'.flatten_arguments]
      simp [Lexeme.literal, Kind.isArgument]
    exact (meant_eq_self_iff c).mp (List.append_cancel_left (hwords.symm.trans hasked))
  · intro hword
    have htiles : Tiles line 0 (us ++ t :: []) := hts ▸ tiles_place [] line
    have hne : c ≠ [] := fun hnil => by
      rw [hnil, List.prefix_nil] at hc
      exact (htiles.shape t (by simp)).raw_ne_nil hc
    refine ⟨gs', hreplaced, ?_⟩
    rw [parse_eq_ok_iff, hcompleted, tokenize_of_onlyEscaped hne hword]
    refine .inr ?_
    simpa [Token.shift] using hlaid'

end

/-! ### What is completed -/

/-- What is completed is the last word of the line. -/
theorem Plan.exists_last_word {line : Text} {p : Plan} (h : Plan.ofLine line = some p) :
    ∃ us t, tokenize line = us ++ [t] ∧ t.kind.isArgument = true ∧ p.start = t.start ∧
      p.typed = t.raw := by
  cases hline : line.endsInWord with
  | false =>
      rw [ofLine_eq_none hline] at h
      cases h
  | true =>
      obtain ⟨left, t, hts, -⟩ := exists_last_of_endsInWord hline
      rw [ofLine_eq hline hts] at h
      obtain ⟨s, hs, rfl⟩ := Option.map_eq_some_iff.mp h
      refine ⟨left.reverse, t, hts, ?_, rfl, rfl⟩
      cases ht : t.kind.isArgument with
      | true => rfl
      | false =>
          rw [ofToken_of_not_argument ht] at hs
          cases hs

/-- A line with the groups `gs` is completed with what was offered, the last word replaced by it,
exactly if the candidate escapes all characters that end words. -/
def MeansOffered (line : Text) (gs : List Group) (d : Completion) : Prop :=
  ∃ us t, tokenize line = us ++ [t] ∧ t.start = d.start ∧ ∀ c ∈ d.candidates,
    (∃ gs', Replaced us t gs c gs' ∧ parse (line.take d.start ++ c) = .ok gs') ↔
      OnlyEscaped endsWord c

/-- **A completed line means what was offered** exactly if the candidate escapes all characters
that end words, whatever the metadata answers. -/
theorem completed_means_offered_iff {m : Type → Type} [Monad m] [LawfulMonad m] (M : Metadata m)
    {line : Text} {gs : List Group} (h : parse line = .ok gs) (limit : Nat) :
    ∃ answer : m {r : Option Completion // ∀ d ∈ r, MeansOffered line gs d},
      completeAt M line limit = (·.val) <$> answer := by
  cases hp : Plan.ofLine line with
  | none =>
      rw [completeAt_eq_none M hp]
      exact ⟨pure ⟨none, by simp⟩, by rw [map_pure]⟩
  | some p =>
      have hmeans : ∀ found, ∀ d ∈ p.completion limit found, MeansOffered line gs d := by
        intro found d hd
        obtain ⟨candidates, -, rfl⟩ := Option.map_eq_some_iff.mp hd
        obtain ⟨us, t, hts, ht, hstart, htyped⟩ := Plan.exists_last_word hp
        refine ⟨us, t, hts, hstart.symm, fun c hc => ?_⟩
        have hcontinues : t.raw <+: c := htyped ▸ (mem_of_mem_narrow hc).2
        rw [hstart]
        exact parse_replaced_iff h hts ht hcontinues
      refine ⟨(fun found => ⟨p.completion limit found, hmeans found⟩) <$>
        p.source.candidates M p.typed limit, ?_⟩
      rw [completeAt_eq M hp, Functor.map_map]

/-- Two files that are not staged. -/
def twoFiles : Metadata Id :=
  Snapshot.metadata ⟨[], [], [], [], ["bd.txt".toList, "b c.txt".toList], []⟩

/-- The argument starts with a quoted piece, and a line with one more group stands before it. -/
theorem completed_means_offered_iff_glued :
    parse "log; add 'a'b".toList =
        .ok [⟨.next, ["log".toList]⟩, ⟨.next, ["add".toList, "ab".toList]⟩] ∧
      MeansOffered "log; add 'a'b".toList
        [⟨.next, ["log".toList]⟩, ⟨.next, ["add".toList, "ab".toList]⟩]
        ⟨12, ["bd.txt".toList, "b c.txt".toList]⟩ := by
  have h : parse "log; add 'a'b".toList =
      .ok [⟨.next, ["log".toList]⟩, ⟨.next, ["add".toList, "ab".toList]⟩] := by decide +kernel
  have hcompletion : (completeAt twoFiles "log; add 'a'b".toList 9).run =
      some ⟨12, ["bd.txt".toList, "b c.txt".toList]⟩ := by decide +kernel
  obtain ⟨answer, hanswer⟩ := completed_means_offered_iff twoFiles h 9
  have hrun := (congrArg Id.run hanswer).symm.trans hcompletion
  rw [Id.run_map] at hrun
  exact ⟨h, answer.run.property _ hrun⟩

/-- **The name of a file with a blank** is offered as it is, and is then two arguments. -/
theorem completed_in_two_words :
    let line := "add my".toList
    let name := "my file.txt".toList
    let M : Metadata Id := Snapshot.metadata ⟨[], [], [], [], [name], []⟩
    parse line = .ok [⟨.next, ["add".toList, "my".toList]⟩] ∧
      (completeAt M line 9).run = some ⟨4, [name]⟩ ∧
      parse (line.take 4 ++ name) =
        .ok [⟨.next, ["add".toList, "my".toList, "file.txt".toList]⟩] ∧
      parse (line.take 4 ++ name) ≠ .ok [⟨.next, ["add".toList, name]⟩] := by
  decide +kernel

end GitShell
