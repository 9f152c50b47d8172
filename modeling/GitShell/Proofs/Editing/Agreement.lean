import GitShell.Proofs.Chain.FirstError
import GitShell.Proofs.Editing.Painting

/-!
# Editing — Agreement

Painting and parsing are two walks over the tokens of a line.  The one looks to the left of each
token, the other opens a group at each join, and they agree.

* `Laid.commandsFrom`: the tokens in command position are those that open the groups.
* `Laid.joins`: the joins are those of the groups, and perhaps a final `;`.
* `annotate_agrees_parse`: so an accepted line shows its groups (`ShowsGroups`), and a rejected one
  its error (`ShowsError`), whatever the metadata answers.
* `commandMarks_eq_iff`: a group is painted as known by the first of the pieces its name is written
  in, which is the name exactly if the other pieces stand for nothing.
-/

namespace GitShell

/-! ### Where the groups open -/

/-- The arguments of the group are written by the token `t` and words directly after it. -/
def Opens (ts : List Token) (t : Token) (g : Group) : Prop :=
  ∃ b, t :: b <:+: ts ∧ IsBlock (t :: b) ∧ g.arguments = argumentsIn (t :: b)

theorem Opens.mono {ts us : List Token} {t : Token} {g : Group} (h : Opens ts t g)
    (hts : ts <:+: us) : Opens us t g := by
  obtain ⟨b, hb, hg⟩ := h
  exact ⟨b, hb.trans hts, hg⟩

/-- The name of a group starts with what its first token stands for. -/
theorem Opens.name {ts : List Token} {t : Token} {g : Group} (h : Opens ts t g) :
    ∃ more, g.name? = some (t.content ++ more) := by
  obtain ⟨b, -, -, hg⟩ := h
  obtain ⟨s, ss, hs⟩ := exists_splitBy_cons (fun t u : Token => t.stop == u.start) t b
  exact ⟨s.flatMap (·.content), by rw [Group.name?, hg, argumentsIn, hs]; rfl⟩

/-- The words after a word are no commands. -/
theorem commandsFrom_words {p : Token} (hp : p.kind.isArgument = true) {b : List Token}
    (hb : ∀ t ∈ b, t.kind.isArgument = true) (left ts : List Token) :
    commandsFrom (p :: left) (b ++ ts) = commandsFrom (b.reverse ++ p :: left) ts := by
  induction b generalizing p left with
  | nil => rfl
  | cons t b ih =>
      rw [List.cons_append, commandsFrom_of_not (commandPosition_after_word hp),
        ih (hb t (.head _)) (fun u hu => hb u (.tail _ hu)), List.reverse_cons, List.append_assoc,
        List.singleton_append]

/-- Of a block only the first word is a command. -/
theorem commandsFrom_block {left : List Token} (hleft : ∀ p ∈ left.head?, p.kind.isJoin = true)
    {t : Token} {b : List Token} (hb : IsBlock (t :: b)) (ts : List Token) :
    commandsFrom left (t :: b ++ ts) = t :: commandsFrom (b.reverse ++ t :: left) ts := by
  have ht : t.kind.isArgument = true := hb.2 t (.head _)
  have hc : commandPosition left t = true := by
    cases left with
    | nil => rw [commandPosition_first, ht]
    | cons p left => rw [commandPosition_after_join (hleft p rfl), ht]
  rw [List.cons_append, commandsFrom_of_command hc,
    commandsFrom_words ht fun u hu => hb.2 u (.tail _ hu)]

theorem commandsFrom_join {t : Token} {j : Join} (ht : t.kind = .join j) (left ts : List Token) :
    commandsFrom left (t :: ts) = commandsFrom (t :: left) ts :=
  commandsFrom_of_not (by simp [commandPosition, ht, Kind.isArgument])

/-- **The tokens in command position open the groups**, one each, in order. -/
theorem Laid.commandsFrom {j : Join} {ts : List Token} {gs : List Group} (h : Laid j ts gs)
    {left : List Token} (hleft : ∀ p ∈ left.head?, p.kind.isJoin = true) :
    List.Forall₂ (Opens ts) (commandsFrom left ts) gs := by
  induction h generalizing left with
  | last j hb =>
      obtain ⟨t, b, rfl⟩ := List.exists_cons_of_ne_nil hb.1
      have hc := commandsFrom_block hleft hb []
      rw [List.append_nil] at hc
      rw [hc]
      exact .cons ⟨b, List.infix_rfl, hb, rfl⟩ .nil
  | @ended j b e hb he =>
      obtain ⟨t, b, rfl⟩ := List.exists_cons_of_ne_nil hb.1
      rw [commandsFrom_block hleft hb, commandsFrom_join he]
      exact .cons ⟨b, (List.prefix_append _ _).isInfix, hb, rfl⟩ .nil
  | @joined j k b ts e gs hb he _ ih =>
      obtain ⟨t, b, rfl⟩ := List.exists_cons_of_ne_nil hb.1
      have hts : ts <:+: t :: b ++ e :: ts :=
        ((List.suffix_cons e ts).trans (List.suffix_append _ _)).isInfix
      have he' : ∀ p ∈ (e :: (b.reverse ++ t :: left)).head?, p.kind.isJoin = true := by
        rintro p ⟨⟩
        rw [he]
        rfl
      rw [commandsFrom_block hleft hb, commandsFrom_join he]
      exact .cons ⟨b, (List.prefix_append _ _).isInfix, hb, rfl⟩
        ((ih he').imp fun _ _ ho => ho.mono hts)

/-! ### Where the joins are -/

theorem filter_isJoin_block {b : List Token} (hb : IsBlock b) :
    b.filter (·.kind.isJoin) = [] := by
  refine List.filter_eq_nil_iff.mpr fun t ht => ?_
  have h := hb.2 t ht
  cases hk : t.kind <;> simp_all [Kind.isArgument, Kind.isJoin]

/-- **The joins among the tokens** are those of the groups after the first, in order, and perhaps a
final `;`. -/
theorem Laid.joins {j : Join} {ts : List Token} {gs : List Group} (h : Laid j ts gs) :
    ∃ final, (final = [] ∨ final = [Join.next]) ∧
      .join j :: (ts.filter (·.kind.isJoin)).map (·.kind) =
        (gs.map (·.join) ++ final).map Kind.join := by
  induction h with
  | last j hb => exact ⟨[], .inl rfl, by rw [filter_isJoin_block hb]; rfl⟩
  | @ended j b e hb he =>
      refine ⟨[.next], .inr rfl, ?_⟩
      rw [List.filter_append, filter_isJoin_block hb]
      simp [he, Kind.isJoin]
  | @joined j k b ts e gs hb he _ ih =>
      obtain ⟨final, hfinal, hjoins⟩ := ih
      refine ⟨final, hfinal, ?_⟩
      rw [List.map_cons, List.cons_append, List.map_cons, ← hjoins, List.filter_append,
        filter_isJoin_block hb]
      simp [he, Kind.isJoin]

/-- There are only words and joins. -/
theorem Laid.kinds {j : Join} {ts : List Token} {gs : List Group} (h : Laid j ts gs) :
    ∀ t ∈ ts, t.kind.isArgument = true ∨ t.kind.isJoin = true := by
  induction h with
  | last j hb => exact fun t ht => .inl (hb.2 t ht)
  | @ended j b e hb he =>
      intro t ht
      rcases List.mem_append.mp ht with ht | ht
      · exact .inl (hb.2 t ht)
      · rw [List.mem_singleton.mp ht, he]
        exact .inr rfl
  | @joined j k b ts e gs hb he _ ih =>
      intro t ht
      rcases List.mem_append.mp ht with ht | ht
      · exact .inl (hb.2 t ht)
      · rcases List.mem_cons.mp ht with rfl | ht
        · rw [he]
          exact .inr rfl
        · exact ih t ht

/-! ### Accepted lines -/

/-- Neither half a join nor part of a string that the line does not close. -/
def Category.isFinished : Category → Bool
  | .halfJoin | .unterminatedQuote | .unterminatedContent => false
  | _ => true

theorem isFinished_of_mem_categories {k : Kind} {c : Category} (hc : c ∈ k.categories)
    (hh : k ≠ .halfJoin) (hu : k ≠ .unterminated) : c.isFinished = true := by
  cases c with
  | halfJoin | unterminatedQuote | unterminatedContent => cases k <;> simp_all [Kind.categories]
  | _ => rfl

/-- The painted parts of a line with the tokens `ts` show its groups. -/
structure ShowsGroups (ts : List Token) (gs : List Group) (parts : List (Span × Category)) : Prop
    where
  finished : ∀ a ∈ parts, a.2.isFinished = true
  /-- What is painted as a command, known or not, opens the groups in order, and the name of each
  group starts with what the token there stands for. -/
  commands : List.Forall₂
    (fun s g => ∃ t, t.span = s ∧ Opens ts t g ∧ ∃ name, g.name? = some name ∧ t.content <+: name)
    (commandSpans parts) gs
  /-- What is painted as a join are the joins among the tokens; they are those of the groups after
  the first, in order, and perhaps a final `;`. -/
  joins : joinSpans parts = (ts.filter (·.kind.isJoin)).map Token.span ∧
    ∃ final, (final = [] ∨ final = [Join.next]) ∧ (ts.filter (·.kind.isJoin)).map (·.kind) =
      ((gs.map (·.join)).tail ++ final).map Kind.join

theorem ShowsGroups.of_laid {ts : List Token} {gs : List Group} (h : Laid .next ts gs)
    (answers : List Bool) : ShowsGroups ts gs (paintFrom [] ts answers) := by
  refine ⟨fun a ha => ?_, ?_, joinSpans_paintFrom .., ?_⟩
  · obtain ⟨t, ht, hc⟩ := exists_kind_of_mem ha
    refine isFinished_of_mem_categories hc (fun hk => ?_) fun hk => ?_
    · simpa [hk, Kind.isArgument, Kind.isJoin] using h.kinds t ht
    · simpa [hk, Kind.isArgument, Kind.isJoin] using h.kinds t ht
  · rw [commandSpans_paintFrom, List.forall₂_map_left_iff]
    refine (h.commandsFrom (by simp)).imp fun t g ho => ⟨t, rfl, ho, ?_⟩
    obtain ⟨more, hname⟩ := ho.name
    exact ⟨_, hname, List.prefix_append _ _⟩
  · obtain ⟨final, hfinal, hjoins⟩ := h.joins
    obtain ⟨g, gs, rfl⟩ := List.exists_cons_of_ne_nil h.ne_nil.2
    exact ⟨final, hfinal, (List.cons.inj hjoins).2⟩

theorem showsGroups_of_parse {line : Text} {gs : List Group} (h : parse line = .ok gs)
    (answers : List Bool) : ShowsGroups (tokenize line) gs (painted line answers) := by
  rw [painted]
  rcases parse_eq_ok_iff.mp h with ⟨hts, rfl⟩ | h
  · rw [hts]
    exact ⟨by simp [paintFrom], .nil, rfl, [], .inl rfl, rfl⟩
  · exact .of_laid h answers

/-! ### Rejected lines -/

/-- The painted parts of a line show its error. -/
inductive ShowsError (parts : List (Span × Category)) (e : LineError) : Prop where
  /-- A malformed token is the first half join, -/
  | halfJoin {before after : List (Span × Category)} (hr : e.reason.isMalformed = true)
      (hparts : parts = before ++ (e.span, .halfJoin) :: after)
      (first : ∀ a ∈ before, a.2.isFinished = true)
  /-- or an open quote that ends the line, -/
  | quote {before : List (Span × Category)} (hr : e.reason.isMalformed = true)
      (hparts : parts = before ++ [(e.span, .unterminatedQuote)])
      (first : ∀ a ∈ before, a.2.isFinished = true)
  /-- or an open quote and what follows it. -/
  | content {before : List (Span × Category)} {q c : Span} (hr : e.reason.isMalformed = true)
      (hparts : parts = before ++ [(q, .unterminatedQuote), (c, .unterminatedContent)])
      (first : ∀ a ∈ before, a.2.isFinished = true)
      (touch : q.stop = c.start) (hspan : e.span = ⟨q.start, c.stop⟩)
  /-- A token that is only out of place is a join. -/
  | join (hr : e.reason.isMalformed = false) (hmem : (e.span, .join) ∈ parts)

/-- Before the first fault nothing is painted as unfinished. -/
theorem Faultless.isFinished {us ts left : List Token} (h : Faultless us ts)
    (answers : List Bool) : ∀ a ∈ paintFrom left us answers, a.2.isFinished = true := by
  intro a ha
  obtain ⟨u, hu, hc⟩ := exists_kind_of_mem ha
  obtain ⟨b, c, hbc⟩ := List.append_of_mem hu
  exact isFinished_of_mem_categories hc (fun hk => h b u c _ hbc (.halfJoin hk))
    fun hk => h b u c _ hbc (.unterminated hk)

theorem showsError_of_parse {line : Text} {e : LineError} (h : parse line = .error e)
    (answers : List Bool) : ShowsError (painted line answers) e := by
  obtain ⟨before, t, after, ho⟩ := exists_offends h
  obtain ⟨more, hparts⟩ := exists_paintFrom_append [] before (t :: after) answers
  have hc : commandPosition (before.reverse ++ []) t = false := by
    simp [commandPosition, ho.fault.1.isArgument_eq_false]
  rw [← ho.tokens, ← painted, paintFrom, hc] at hparts
  have hfirst : ∀ a ∈ paintFrom [] before answers, a.2.isFinished = true :=
    ho.faultless.isFinished answers
  have hjoin : ∀ {j : Join}, t.kind = .join j → (e.span, .join) ∈ painted line answers := by
    intro j hk
    rw [hparts, ho.span]
    simp [paintToken, hk]
  have hfault := ho.fault.1
  generalize hreason : e.reason = r at hfault
  cases hfault with
  | halfJoin hk =>
      have hshown : painted line answers = paintFrom [] before answers ++
          (e.span, .halfJoin) :: paintFrom (t :: (before.reverse ++ [])) after more := by
        rw [hparts, ho.span]
        simp [paintToken, hk]
      exact .halfJoin (by rw [hreason]; rfl) hshown hfirst
  | unterminated hk =>
      have hmalformed : e.reason.isMalformed = true := by rw [hreason]; rfl
      have htiles : Tiles line 0 (tokenize line) := tiles_place [] line
      have hpos : t.start < t.stop := htiles.nonempty t (by simp [ho.tokens])
      obtain rfl : after = [] := nothing_after_open_quote ho.tokens hk
      rw [if_neg Bool.false_ne_true, paintFrom, List.append_nil] at hparts
      rcases paintToken_open_quote hk hpos with hquote | ⟨q, c, hquote, htouch, hspan⟩
      · rw [hquote, ← ho.span] at hparts
        exact .quote hmalformed hparts hfirst
      · rw [hquote] at hparts
        exact .content hmalformed hparts hfirst htouch (ho.span.trans hspan)
  | leadingJoin hk => exact .join (by rw [hreason]; rfl) (hjoin hk)
  | trailingJoin hk => exact .join (by rw [hreason]; rfl) (hjoin hk)
  | missingWord hk => exact .join (by rw [hreason]; rfl) (hjoin hk)

/-! ### All lines -/

/-- Some command names are known, and nothing else. -/
def knowing (names : List Text) : Metadata Id := Snapshot.metadata ⟨names, [], [], [], [], []⟩

theorem knowing_isCommand (names : List Text) (name : Text) :
    ((knowing names).isCommand name).run = names.contains name := rfl

section
variable {m : Type → Type} [Monad m] [LawfulMonad m] (M : Metadata m)

/-- **Painting and parsing agree** on every line, for all metadata.  The metadata is asked about the
tokens in command position, in order, and whatever it answers, an accepted line shows its groups
and a rejected one shows its error. -/
theorem annotate_agrees_parse (line : Text) :
    annotate M line =
        painted line <$> (commandTokens line).mapM (fun t => M.isCommand t.content) ∧
      ∀ answers, match parse line with
        | .ok gs => ShowsGroups (tokenize line) gs (painted line answers)
        | .error e => ShowsError (painted line answers) e := by
  refine ⟨annotateFrom_eq M [] (tokenize line), fun answers => ?_⟩
  cases h : parse line with
  | ok gs => exact showsGroups_of_parse h answers
  | error e => exact showsError_of_parse h answers

end

/-- A name in two pieces and a `--` before the final `;`; and a string that is left open where a
command would stand. -/
theorem annotate_agrees_parse_pieces :
    (annotate (knowing ["log".toList]) "log 'a b' && sta'tus' --;".toList =
          painted "log 'a b' && sta'tus' --;".toList [true, false] ∧
        ShowsGroups (tokenize "log 'a b' && sta'tus' --;".toList)
          [⟨.next, ["log".toList, "a b".toList]⟩, ⟨.and, ["status".toList, "--".toList]⟩]
          (painted "log 'a b' && sta'tus' --;".toList [true, false])) ∧
      ShowsError (painted "log; 'a b".toList [true]) ⟨⟨5, 9⟩, .unterminated⟩ := by
  have hlog := annotate_agrees_parse (knowing ["log".toList]) "log 'a b' && sta'tus' --;".toList
  have hopen := annotate_agrees_parse (knowing ["log".toList]) "log; 'a b".toList
  have hgroups : parse "log 'a b' && sta'tus' --;".toList = .ok
      [⟨.next, ["log".toList, "a b".toList]⟩, ⟨.and, ["status".toList, "--".toList]⟩] := by
    decide +kernel
  have herror : parse "log; 'a b".toList = .error ⟨⟨5, 9⟩, .unterminated⟩ := by decide +kernel
  have hasked : commandTokens "log 'a b' && sta'tus' --;".toList =
      [⟨.literal .word "log".toList, 0⟩, ⟨.literal .word "sta".toList, 13⟩] := by decide +kernel
  rw [hgroups] at hlog
  rw [herror] at hopen
  refine ⟨⟨hlog.1.trans ?_, hlog.2 _⟩, hopen.2 _⟩
  rw [hasked]
  rfl

/-! ### Names in pieces -/

theorem opens_of_parse {line : Text} {gs : List Group} (hp : parse line = .ok gs) :
    List.Forall₂ (Opens (tokenize line)) (commandTokens line) gs := by
  rcases parse_eq_ok_iff.mp hp with ⟨hts, rfl⟩ | h
  · rw [commandTokens, hts]
    exact .nil
  · exact h.commandsFrom (by simp)

theorem commandMarks_annotate (M : Metadata Id) (line : Text) :
    commandMarks (annotate M line).run =
      (commandTokens line).map fun t => (M.isCommand t.content).run := by
  have h := congrArg Id.run (commandMarks_annotateFrom M [] (tokenize line))
  rw [List.idRun_mapM] at h
  exact h

/-- Texts are told apart by the metadata that know one command. -/
theorem forall₂_name_iff {ts : List Token} {gs : List Group} :
    (∀ M : Metadata Id, List.Forall₂ (fun t g => ∃ name, g.name? = some name ∧
        (M.isCommand t.content).run = (M.isCommand name).run) ts gs) ↔
      List.Forall₂ (fun t g => g.name? = some t.content) ts gs := by
  constructor
  · intro h
    induction ts generalizing gs with
    | nil =>
        cases h (knowing [])
        exact .nil
    | cons t ts ih =>
        -- what knows this content alone knows the name only if they are the same
        cases h (knowing [t.content]) with
        | cons hname _ =>
            obtain ⟨name, hname, hknown⟩ := hname
            have hcontent : t.content = name := by
              simpa [knowing_isCommand, eq_comm] using hknown
            refine .cons (by rw [hname, hcontent]) (ih fun M => ?_)
            cases h M with
            | cons _ htail => exact htail
  · exact fun h M => h.imp fun t g hg => ⟨t.content, hg, rfl⟩

/-- **A command is painted by the first piece of its name.**  The metadata, in any monad, is asked
about the tokens that open the groups, and the marks are its answers.  So the marks tell, of all
metadata, whether they know the names of the groups exactly if each name is what the first of its
pieces stands for. -/
theorem commandMarks_eq_iff {line : Text} {gs : List Group} (hp : parse line = .ok gs) :
    List.Forall₂ (Opens (tokenize line)) (commandTokens line) gs ∧
      (∀ {m : Type → Type} [Monad m] [LawfulMonad m] (M : Metadata m),
        commandMarks <$> annotate M line =
          (commandTokens line).mapM fun t => M.isCommand t.content) ∧
      ((∀ M : Metadata Id, List.Forall₂
          (fun known g => ∃ name, g.name? = some name ∧ known = (M.isCommand name).run)
          (commandMarks (annotate M line).run) gs) ↔
        List.Forall₂ (fun t g => g.name? = some t.content) (commandTokens line) gs) := by
  refine ⟨opens_of_parse hp, fun M => commandMarks_annotateFrom M [] (tokenize line), ?_⟩
  simp only [commandMarks_annotate, List.forall₂_map_left_iff]
  exact forall₂_name_iff

/-- Two commands whose names are in one piece each, the second followed by a piece that stands for
nothing. -/
theorem commandMarks_eq_iff_empty_piece :
    parse "log; status''".toList = .ok [⟨.next, ["log".toList]⟩, ⟨.next, ["status".toList]⟩] ∧
      commandMarks (annotate (knowing ["log".toList]) "log; status''".toList).run = [true, false] ∧
      ∀ M : Metadata Id, List.Forall₂
        (fun known g => ∃ name, Group.name? g = some name ∧ known = (M.isCommand name).run)
        (commandMarks (annotate M "log; status''".toList).run)
        [⟨.next, ["log".toList]⟩, ⟨.next, ["status".toList]⟩] := by
  have hp : parse "log; status''".toList =
      .ok [⟨.next, ["log".toList]⟩, ⟨.next, ["status".toList]⟩] := by decide +kernel
  have hnames : commandTokens "log; status''".toList =
      [⟨.literal .word "log".toList, 0⟩, ⟨.literal .word "status".toList, 5⟩] := by decide +kernel
  obtain ⟨-, hmarks, hiff⟩ := commandMarks_eq_iff hp
  have hlog := congrArg Id.run (hmarks (knowing ["log".toList]))
  rw [Id.run_map, hnames] at hlog
  refine ⟨hp, hlog.trans rfl, hiff.mpr ?_⟩
  rw [hnames]
  exact .cons rfl (.cons rfl .nil)

/-- A known command written in two pieces is painted as an unknown one. -/
theorem unknown_mark_of_known_name :
    parse "sta\"tus\"".toList = .ok [⟨.next, ["status".toList]⟩] ∧
      ((knowing ["status".toList]).isCommand "status".toList).run = true ∧
      (annotate (knowing ["status".toList]) "sta\"tus\"".toList).run =
        [(⟨0, 3⟩, .unknownCommand), (⟨3, 8⟩, .quotedWord)] := by
  decide +kernel

end GitShell
