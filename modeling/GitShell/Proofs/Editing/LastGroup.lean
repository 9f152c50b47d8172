import GitShell.Proofs.Chain.FirstError
import GitShell.Proofs.Editing.LastWord
import GitShell.Proofs.Line.Bare

/-!
# Editing — LastGroup

The completer looks at tokens, the parser makes arguments of them.  Where the last group of a line
is written without quotes the two see the same, so the arguments of this group alone decide what
the line is completed to.

* `completeArguments`: what the arguments of a group and the text typed after them are completed to.
* `Offers`: a source of candidates against the question that it asks.
* `Source.offer_ofArguments`: what arguments are completed to is what their source offers.
* `Laid.exists_last_block`: the last group of a line is its last block of words.
* `completeAt_eq_completeArguments`: the completion of a line is that of its last group.
-/

namespace GitShell

/-! ### What arguments are completed to -/

section
variable {m : Type → Type} [Monad m] (M : Metadata m) (limit : Nat)

/-- What the metadata is asked for the arguments of the command `a`, after the arguments `as`. -/
def argumentQuestion (a : Text) (as : List Text) : Option (Text → Nat → m (List Text)) :=
  if a = "add".toList then some M.unstagedFiles
  else if a ∈ ["checkout".toList, "switch".toList, "merge".toList, "rebase".toList,
      "branch".toList, "cherry-pick".toList] then some M.branchNames
  else if a = "diff".toList ∨ a = "restore".toList then
    if "--staged".toList ∈ as ∨ "--cached".toList ∈ as then some M.stagedFiles
    else some M.unstagedFiles
  else if a = "reset".toList ∨ a = "rm".toList ∧ "--cached".toList ∈ as then some M.stagedFiles
  else none

/-- The candidates for the text `p` typed after the arguments of a group, if any: for the first
argument the commands, unless it is one; for an option, as long as no `--` is given, the options of
the command; for a path the files; else what the command takes. -/
def completeArguments : List Text → Text → m (Option (List Text))
  | [], p => do
    if ← M.isCommand p then return none
    return some (narrow (← M.commandNames) p limit)
  | a :: as, p =>
    if optionShaped p = true ∧ "--".toList ∉ a :: as then do
      let options ← M.optionPrefixes a
      return if options = [] then none else some (narrow options p limit)
    else if "./".toList <+: p then
      return some (narrow (← M.filePaths p limit) p limit)
    else
      match argumentQuestion M a as with
      | some ask => return some (narrow (← ask p limit) p limit)
      | none => return none

/-- Where the candidates for the text `p` typed after the arguments of a group come from. -/
def Source.ofArguments : List Text → Text → Option Source
  | [], _ => some .commands
  | a :: as, p =>
    if optionShaped p = true ∧ "--".toList ∉ a :: as then some (.options a)
    else if "./".toList <+: p then some .files
    else argumentSource a fun flags => as.any flags.contains

/-- The candidates of the source, narrowed to the text `p`. -/
def Source.offer (p : Text) (s : Source) : m (Option (List Text)) :=
  Option.map (narrow · p limit) <$> s.candidates M p limit

end

/-- What the source offers, if there is one, is what the question is answered with. -/
def Offers {m : Type → Type} [Monad m] (M : Metadata m) (limit : Nat) (p : Text)
    (o : Option Source) (q : Option (Text → Nat → m (List Text))) : Prop :=
  o.elim (pure none) (Source.offer M limit p) =
    q.elim (pure none) fun ask => return some (narrow (← ask p limit) p limit)

namespace Offers

variable {m : Type → Type} [Monad m] {M : Metadata m} {limit : Nat} {p : Text}

/-- A source that has one question asks it. -/
theorem listed [LawfulMonad m] {s : Source} {ask : Text → Nat → m (List Text)}
    (h : s.candidates M p limit = some <$> ask p limit) : Offers M limit p (some s) (some ask) := by
  rw [Offers, Option.elim_some, Option.elim_some, Source.offer, h, Functor.map_map,
    ← bind_pure_comp]
  rfl

theorem ite {c : Prop} [Decidable c] {o o' : Option Source}
    {q q' : Option (Text → Nat → m (List Text))} (h : Offers M limit p o q)
    (h' : Offers M limit p o' q') : Offers M limit p (if c then o else o') (if c then q else q') := by
  split
  · exact h
  · exact h'

end Offers

theorem any_contains_iff {flags as : List Text} :
    (as.any flags.contains) = true ↔ ∃ flag ∈ flags, flag ∈ as := by
  rw [List.any_eq_true]
  constructor
  · rintro ⟨a, ha, hflag⟩
    exact ⟨a, List.contains_iff_mem.mp hflag, ha⟩
  · rintro ⟨flag, hflag, ha⟩
    exact ⟨flag, ha, List.contains_iff_mem.mpr hflag⟩

section
variable {m : Type → Type} [Monad m] [LawfulMonad m] (M : Metadata m) (limit : Nat) (p : Text)

/-- For a command name that is complete nothing is offered. -/
theorem Source.offer_commands :
    commands.offer M limit p = completeArguments M limit [] p := by
  rw [offer, candidates, completeArguments, map_bind]
  refine bind_congr fun known => ?_
  cases known with
  | true => simp
  | false => simp

theorem Source.offer_options (a : Text) : (options a).offer M limit p = (do
    let options ← M.optionPrefixes a
    return if options = [] then none else some (narrow options p limit)) := by
  rw [offer, candidates, map_bind]
  refine bind_congr fun options => ?_
  cases options <;> simp

/-- What a command takes is asked from the source of its arguments: both go through the commands in
one order. -/
theorem Source.offers_argumentSource (a : Text) (as : List Text) :
    Offers M limit p (argumentSource a fun flags => as.any flags.contains)
      (argumentQuestion M a as) := by
  have hstaged : (as.any ["--staged".toList, "--cached".toList].contains) = true ↔
      "--staged".toList ∈ as ∨ "--cached".toList ∈ as := by
    simp only [any_contains_iff, List.mem_cons, List.not_mem_nil, or_false, exists_eq_or_imp,
      exists_eq_left]
  have hcached : (as.any ["--cached".toList].contains) = true ↔ "--cached".toList ∈ as := by
    simp only [any_contains_iff, List.mem_singleton, exists_eq_left]
  unfold argumentSource argumentQuestion
  simp only [hstaged, hcached, List.contains_iff_mem]
  rw [ite_or (a = "reset".toList)]
  have hstagedFiles : Offers M limit p (some .staged) (some M.stagedFiles) := .listed rfl
  have hunstagedFiles : Offers M limit p (some .unstaged) (some M.unstagedFiles) := .listed rfl
  exact .ite hunstagedFiles (.ite (.listed rfl) (.ite (.ite hstagedFiles hunstagedFiles)
    (.ite hstagedFiles (.ite hstagedFiles rfl))))

/-- **What arguments are completed to** is what the source of their candidates offers. -/
theorem Source.offer_ofArguments (as : List Text) :
    (ofArguments as p).elim (pure none) (offer M limit p) = completeArguments M limit as p := by
  cases as with
  | nil => exact offer_commands M limit p
  | cons a as =>
      rw [ofArguments, completeArguments]
      by_cases hoption : optionShaped p = true ∧ "--".toList ∉ a :: as
      · rw [if_pos hoption, if_pos hoption]
        exact offer_options M limit p a
      rw [if_neg hoption, if_neg hoption]
      by_cases hpath : "./".toList <+: p
      · have hfiles : Offers M limit p (some .files) (some M.filePaths) := .listed rfl
        rw [if_pos hpath, if_pos hpath]
        exact hfiles
      rw [if_neg hpath, if_neg hpath, offers_argumentSource]
      cases argumentQuestion M a as <;> rfl

end

/-! ### The last block of a line -/

/-- The words at the end of a line, after its last join. -/
def wordsAtEnd (ts : List Token) : List Token :=
  (ts.reverse.takeWhile (·.kind.isArgument)).reverse

theorem wordsAtEnd_append {before block : List Token} (hblock : IsBlock block)
    (hbefore : ∀ p ∈ before.getLast?, p.kind.isJoin = true) :
    wordsAtEnd (before ++ block) = block := by
  have hnone : before.reverse.takeWhile (·.kind.isArgument) = [] := by
    rcases List.eq_nil_or_concat' before with rfl | ⟨b, p, rfl⟩
    · rfl
    · have hp : p.kind.isArgument = false := by
        have hjoin := hbefore p (by simp)
        cases hk : p.kind <;> simp_all [Kind.isJoin, Kind.isArgument]
      rw [List.reverse_concat, List.takeWhile_cons_of_neg (by simp [hp])]
  rw [wordsAtEnd, List.reverse_append, List.takeWhile_append_of_pos, hnone, List.append_nil,
    List.reverse_reverse]
  exact fun t ht => hblock.2 t (List.mem_reverse.mp ht)

/-- **The last group** of tokens that no `;` ends is the last block, and a join stands before it. -/
theorem Laid.exists_last_block {j : Join} {ts : List Token} {gs : List Group} (h : Laid j ts gs)
    (hts : ∀ t ∈ ts.getLast?, t.kind ≠ .join .next) :
    ∃ before block k init, ts = before ++ block ∧ gs = init ++ [⟨k, argumentsIn block⟩] ∧
      IsBlock block ∧ ∀ p ∈ before.getLast?, p.kind.isJoin = true := by
  induction h with
  | @last j b hb => exact ⟨[], b, j, [], rfl, rfl, hb, nofun⟩
  | @ended j b e hb he => exact absurd he (hts e (by simp))
  | @joined j k b ts t gs hb ht hl ih =>
      have hlast : (b ++ t :: ts).getLast? = ts.getLast? := by
        rw [List.append_cons, List.getLast?_append_of_ne_nil _ hl.ne_nil.1]
      obtain ⟨before, block, i, init, rfl, rfl, hblock, hjoin⟩ := ih (hlast ▸ hts)
      refine ⟨b ++ t :: before, block, i, ⟨j, argumentsIn b⟩ :: init, by simp, rfl, hblock, ?_⟩
      intro p hp
      cases before with
      | nil =>
          have heq : t = p := by simpa using hp
          rw [← heq, ht]
          rfl
      | cons u us => exact hjoin p (by simpa [List.getLast?_cons_cons] using hp)

/-- A line that ends in no blank and in no `;` ends in another token than `;`. -/
theorem kind_ne_of_getLast? {line : Text} {us : List Token} {t : Token}
    (hts : tokenize line = us ++ [t]) (hstop : t.stop = line.length)
    (hline : line.getLast? ≠ some ';') : t.kind ≠ .join .next := by
  intro hk
  have htiles : Tiles line 0 (us ++ t :: []) := hts ▸ tiles_place [] line
  have hraw := (htiles.shape t (by simp)).raw_join hk
  have hdrop := htiles.drop_start
  rw [hstop, List.drop_length, List.append_nil, hraw] at hdrop
  rw [← List.take_append_drop t.start line, hdrop] at hline
  exact hline (by simp [Join.text])

/-! ### Bare words and their arguments -/

/-- Bare words are an argument each. -/
theorem Tiles.argumentsIn_of_bare {source : Text} {n : Nat} {us block : List Token}
    (h : Tiles source n (us ++ block)) (hbare : ∀ t ∈ block, t.toLexeme.IsBare) :
    argumentsIn block = block.map (·.content) := by
  induction block generalizing us with
  | nil => rfl
  | cons t ts ih =>
      obtain ⟨ht, hts⟩ := List.forall_mem_cons.mp hbare
      cases ts with
      | nil => exact argumentsIn_singleton t
      | cons u vs =>
          have hapart := (h.apart_of_bare ht (hts u (.head _))).1
          have htail : Tiles source n ((us ++ [t]) ++ u :: vs) := by simpa using h
          rw [argumentsIn_cons_apart hapart, ih htail hts]
          rfl

/-- The first word of a block is a command. -/
theorem commandPosition_of_block {before : List Token} {c : Token} (hc : c.kind.isArgument = true)
    (hbefore : ∀ p ∈ before.getLast?, p.kind.isJoin = true) :
    commandPosition before.reverse c = true := by
  rcases List.eq_nil_or_concat' before with rfl | ⟨b, p, rfl⟩
  · rw [List.reverse_nil, commandPosition_first, hc]
  · rw [List.reverse_concat, commandPosition_after_join (hbefore p (by simp)), hc]

/-- Each further word of a block belongs to the command. -/
theorem governs_of_block {l us : List Token} {c t : Token} (hc : commandPosition l c = true)
    (hus : ∀ u ∈ us ++ [t], u.kind.isArgument = true) :
    Governs l c (t :: us.reverse) (us.reverse ++ c :: l) t := by
  induction us using List.reverseRecOn generalizing t with
  | nil => exact .word (hus t (by simp)) (.command hc)
  | append_singleton us u ih =>
      rw [List.reverse_concat]
      exact .word (hus t (by simp)) (ih fun v hv => hus v (List.mem_append_left _ hv))

/-- If the `--` among words are what ends the options, no token ends them where no word is `--`. -/
theorem optionsAllowed_iff_not_mem {c t : Token} {us : List Token} (ht : t.kind = .word)
    (hus : ∀ w ∈ c :: us, w.kind = .endOfOptions ↔ w.content = "--".toList) :
    (((t :: us.reverse) ++ [c]).all fun w => w.kind != .endOfOptions) = true ↔
      "--".toList ∉ (c :: us).map (·.content) := by
  have hword : t.kind ≠ .endOfOptions := by
    rw [ht]
    exact nofun
  calc (((t :: us.reverse) ++ [c]).all fun w => w.kind != .endOfOptions) = true
      ↔ ∀ w ∈ (t :: us.reverse) ++ [c], w.kind ≠ .endOfOptions := by
        simp only [List.all_eq_true, bne_iff_ne]
    _ ↔ ∀ w ∈ c :: us, w.kind ≠ .endOfOptions := by
        rw [List.cons_append, List.forall_mem_cons, and_iff_right hword, List.forall_mem_append,
          List.forall_mem_singleton, List.forall_mem_cons, and_comm]
        simp only [List.mem_reverse]
    _ ↔ ∀ w ∈ c :: us, w.content ≠ "--".toList :=
        forall₂_congr fun w hw => not_congr (hus w hw)
    _ ↔ "--".toList ∉ (c :: us).map (·.content) := by
        rw [List.mem_map, not_exists]
        exact forall_congr' fun w => not_and.symm

/-- Tokens after a command offer what their contents offer as arguments, if the `--` among them end
the options. -/
theorem Source.ofWords_eq_ofArguments {c t : Token} {us : List Token} (ht : t.kind = .word)
    (hus : ∀ w ∈ c :: us, w.kind = .endOfOptions ↔ w.content = "--".toList) :
    ofWords c (t :: us.reverse) t = ofArguments ((c :: us).map (·.content)) t.raw := by
  have hoption : optionAmong c (t :: us.reverse) t = true ↔
      optionShaped t.raw = true ∧ "--".toList ∉ (c :: us).map (·.content) := by
    rw [optionAmong, Bool.and_eq_true, optionsAllowed_iff_not_mem ht hus, ht]
    simp
  have hseen (flags : List Text) :
      ((t :: us.reverse).tail.any fun w => flags.contains w.content) =
        (us.map (·.content)).any flags.contains := by
    rw [List.tail_cons, List.any_reverse, List.any_map]
    rfl
  rw [ofWords, if_neg (by simp), List.map_cons, ofArguments]
  simp only [hseen, hoption, List.map_cons, List.isPrefixOf_iff_prefix]

/-! ### The completion of a line -/

section
variable {line : Text} {before : List Group} {j : Join} {as : List Text} {p : Text}

theorem laid_of_parse_concat {g : Group} (h : parse line = .ok (before ++ [g])) :
    Laid .next (tokenize line) (before ++ [g]) := by
  rcases parse_eq_ok_iff.mp h with ⟨-, hnil⟩ | hlaid
  · simp at hnil
  · exact hlaid

/-- A line with tokens that ends in no blank ends in a word. -/
theorem endsInWord_of_tokenize (hts : tokenize line ≠ [])
    (hend : ∀ c ∈ line.getLast?, isBlank c = false ∧ c ≠ ';') : line.endsInWord = true := by
  rcases List.eq_nil_or_concat' line with rfl | ⟨init, last, rfl⟩
  · exact absurd ((tiles_place [] []).eq_nil (Nat.le_refl 0)) hts
  · simp [Text.endsInWord, (hend last (by simp)).1]

/-- The last group of a line, written without quotes, is a word for each argument. -/
theorem exists_words_of_last_group (h : parse line = .ok (before ++ [⟨j, as ++ [p]⟩]))
    (hend : ∀ c ∈ line.getLast?, isBlank c = false ∧ c ≠ ';')
    (hbare : ∀ t ∈ wordsAtEnd (tokenize line), t.quoted = false) :
    ∃ b ws t, tokenize line = b ++ (ws ++ [t]) ∧ t.stop = line.length ∧ t.kind = .word ∧
      as = ws.map (·.content) ∧ p = t.raw ∧ (∀ w ∈ ws ++ [t], w.toLexeme.IsBare) ∧
      ∀ e ∈ b.getLast?, e.kind.isJoin = true := by
  have hlaid := laid_of_parse_concat h
  have hword := endsInWord_of_tokenize hlaid.ne_nil.1 hend
  obtain ⟨left, t, hts, hstop⟩ := exists_last_of_endsInWord hword
  have hnext : t.kind ≠ .join .next :=
    kind_ne_of_getLast? hts hstop fun hlast => (hend _ hlast).2 rfl
  obtain ⟨b, block, k, gs, hblock, hgs, hwords, hjoin⟩ :=
    hlaid.exists_last_block (by simpa [hts] using hnext)
  -- the block ends in the last token of the line
  obtain ⟨ws, u, rfl⟩ := (List.eq_nil_or_concat' block).resolve_left hwords.1
  obtain rfl : u = t := by
    have hlast := congrArg List.getLast? (hblock.symm.trans hts)
    simpa using hlast
  have hbareWords : ∀ w ∈ ws ++ [u], w.toLexeme.IsBare := by
    rw [hblock, wordsAtEnd_append hwords hjoin] at hbare
    exact fun w hw => ⟨hwords.2 w hw, hbare w hw⟩
  have htiles : Tiles line 0 (b ++ (ws ++ [u])) := hblock ▸ tiles_place [] line
  have hshape : u.toLexeme.Shape [] := by
    rw [← List.drop_length (l := line), ← hstop]
    exact htiles.shape u (by simp)
  have hu : u.toLexeme.IsBare := hbareWords u (by simp)
  obtain ⟨-, hargs⟩ := List.append_inj' hgs rfl
  simp only [List.cons.injEq, Group.mk.injEq, and_true] at hargs
  rw [htiles.argumentsIn_of_bare hbareWords, List.map_append] at hargs
  obtain ⟨has, hp⟩ := List.append_inj' hargs.2 rfl
  refine ⟨b, ws, u, hblock, hstop, hshape.kind_of_bare hu, has, ?_, hbareWords, hjoin⟩
  rw [← hshape.content_of_bare hu]
  simpa using hp

/-- Where the candidates for the last of some bare words come from. -/
theorem Source.ofToken_of_bare {b ws : List Token} {t : Token}
    (htiles : Tiles line 0 (b ++ (ws ++ [t]))) (ht : t.kind = .word)
    (hbare : ∀ w ∈ ws ++ [t], w.toLexeme.IsBare) (hb : ∀ e ∈ b.getLast?, e.kind.isJoin = true) :
    ofToken (b ++ ws).reverse t = ofArguments (ws.map (·.content)) t.raw := by
  cases ws with
  | nil =>
      have hcommand := commandPosition_of_block (hbare t (by simp)).1 hb
      rw [List.append_nil, (Governs.command hcommand).ofToken]
      rfl
  | cons c us =>
      have hcommand := commandPosition_of_block (hbare c (by simp)).1 hb
      have hgoverns : Governs b.reverse c (t :: us.reverse) (us.reverse ++ c :: b.reverse) t :=
        governs_of_block hcommand fun u hu => (hbare u (List.mem_cons_of_mem _ hu)).1
      have hleft : (b ++ c :: us).reverse = us.reverse ++ c :: b.reverse := by simp
      rw [hleft, hgoverns.ofToken, ofWords_eq_ofArguments ht (htiles.endOfOptions_iff hbare)]

variable {m : Type → Type} [Monad m] [LawfulMonad m] (M : Metadata m)

/-- **The last group decides.**  If a line that is accepted ends in a group without quotes, what it
is completed to depends on the arguments of this group alone. -/
theorem completeAt_eq_completeArguments (h : parse line = .ok (before ++ [⟨j, as ++ [p]⟩]))
    (hend : ∀ c ∈ line.getLast?, isBlank c = false ∧ c ≠ ';')
    (hbare : ∀ t ∈ wordsAtEnd (tokenize line), t.quoted = false) (limit : Nat) :
    completeAt M line limit =
      Option.map (Completion.mk (line.length - p.length)) <$> completeArguments M limit as p := by
  obtain ⟨b, ws, t, hts, hstop, ht, rfl, rfl, hwords, hb⟩ :=
    exists_words_of_last_group h hend hbare
  have htiles : Tiles line 0 (b ++ (ws ++ [t])) := hts ▸ tiles_place [] line
  have hline := endsInWord_of_tokenize (laid_of_parse_concat h).ne_nil.1 hend
  have hleft : tokenize line = (b ++ ws).reverse.reverse ++ [t] := by simpa using hts
  have hplan := Plan.ofLine_eq hline hleft
  rw [Source.ofToken_of_bare htiles ht hwords hb] at hplan
  have hstart : t.start = line.length - t.raw.length := by
    rw [← hstop, Token.stop, Nat.add_sub_cancel]
  rw [← Source.offer_ofArguments]
  cases hs : Source.ofArguments (ws.map (·.content)) t.raw with
  | none =>
      rw [hs] at hplan
      rw [completeAt_eq_none M hplan, Option.elim_none, map_pure]
      rfl
  | some s =>
      rw [hs] at hplan
      rw [completeAt_eq M hplan, Option.elim_some, Source.offer, Functor.map_map, ← hstart]
      simp only [Option.map_map]
      rfl

end

/-- Two staged files and one that is not. -/
def twoStaged : Metadata Id :=
  Snapshot.metadata ⟨[], [], [], ["lexer.rs".toList, "parser.rs".toList], ["main.rs".toList], []⟩

/-- The flag that asks for staged files is seen behind a `--`, and the quotes of another group do
not matter. -/
theorem completeAt_after_operands :
    parse "log 'x'; diff -- --cached par".toList = .ok ([⟨.next, ["log".toList, "x".toList]⟩] ++
      [⟨.next, ["diff".toList, "--".toList, "--cached".toList] ++ ["par".toList]⟩]) ∧
      (completeAt twoStaged "log 'x'; diff -- --cached par".toList 10).run =
        some ⟨26, ["parser.rs".toList]⟩ := by
  have h : parse "log 'x'; diff -- --cached par".toList =
      .ok ([⟨.next, ["log".toList, "x".toList]⟩] ++
        [⟨.next, ["diff".toList, "--".toList, "--cached".toList] ++ ["par".toList]⟩]) := by
    decide +kernel
  have hend : ∀ c ∈ "log 'x'; diff -- --cached par".toList.getLast?,
      isBlank c = false ∧ c ≠ ';' := by
    intro c hc
    cases hc
    decide
  have hcomplete := completeAt_eq_completeArguments twoStaged h hend (by decide +kernel) 10
  exact ⟨h, (congrArg Id.run hcomplete).trans (by decide +kernel)⟩

end GitShell
