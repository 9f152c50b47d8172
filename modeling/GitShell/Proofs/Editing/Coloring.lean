import GitShell.Proofs.Editing.Painting
import GitShell.Proofs.Line.Tiling
import GitShell.Proofs.Text.Coloring

/-!
# Editing — Coloring

Painting a line adds sequences to it, and changes nothing else.

* `map_fst_paintFrom`: the painted parts are those of the tokens (`Token.parts`), whatever the
  metadata answer.
* `partition_parts`: the parts of a line do not overlap, and cover what its tokens cover.
* `colors_paintSpans`: so what is painted is the line, with sequences.
* `coloring_keeps_text`: a line, the report of an error and the prompt are the same in color.
-/

namespace GitShell

/-! ### The parts of a line -/

/-- A position is in a span. -/
def Span.Covers (s : Span) (i : Nat) : Prop := s.start ≤ i ∧ i < s.stop

/-- The parts of a token that are painted: an open quote, and what follows it if there is more. -/
def Token.parts (t : Token) : List Span :=
  if t.kind = .unterminated then
    ⟨t.start, t.start + 1⟩ :: if t.raw.length ≤ 1 then [] else [⟨t.start + 1, t.stop⟩]
  else [t.span]

/-- The painted parts of a line. -/
def partSpans (line : Text) : List Span := (tokenize line).flatMap Token.parts

/-- The spans are a partition of what the tokens of a line cover. -/
structure IsPartition (line : Text) (spans : List Span) : Prop where
  nonempty : ∀ s ∈ spans, s.start < s.stop
  /-- They are in order, and no two of them overlap. -/
  ordered : spans.Pairwise fun s u => s.stop ≤ u.start
  inside : ∀ s ∈ spans, s.stop ≤ line.length
  covers : ∀ i, (∃ s ∈ spans, s.Covers i) ↔ ∃ t ∈ tokenize line, t.span.Covers i

section
variable {left ts : List Token} {t : Token} {known : Bool}

theorem map_fst_paintToken : (paintToken known left t).map (·.1) = t.parts := by
  cases hk : t.kind with
  | word | endOfOptions | join | halfJoin => simp [paintToken, Token.parts, hk]
  | unterminated =>
      simp only [paintToken, Token.parts, hk, if_true, List.map_cons, apply_ite (List.map _)]
      rfl

/-- **The painted parts do not depend on the answers** of the metadata. -/
theorem map_fst_paintFrom (left ts : List Token) (answers : List Bool) :
    (paintFrom left ts answers).map (·.1) = ts.flatMap Token.parts := by
  induction ts generalizing left answers with
  | nil => rfl
  | cons t ts ih =>
      rw [paintFrom]
      split <;> rw [List.map_append, map_fst_paintToken, ih, List.flatMap_cons]

/-- A token is painted in one part or in two. -/
theorem Token.parts_cases (h : t.start < t.stop) : t.parts = [t.span] ∨
    ∃ n, t.start < n ∧ n < t.stop ∧ t.parts = [⟨t.start, n⟩, ⟨n, t.stop⟩] := by
  rw [parts]
  split
  · rw [stop] at h
    by_cases hlen : t.raw.length ≤ 1
    · left
      have hone : t.start + 1 = t.stop := by rw [stop]; omega
      rw [if_pos hlen, hone]
      rfl
    · right
      rw [if_neg hlen]
      exact ⟨t.start + 1, by omega, by rw [stop]; omega, rfl⟩
  · exact .inl rfl

theorem Token.isPartition_parts (h : t.start < t.stop) :
    (∀ s ∈ t.parts, t.start ≤ s.start ∧ s.start < s.stop ∧ s.stop ≤ t.stop) ∧
      t.parts.Pairwise (fun s u => s.stop ≤ u.start) ∧
      ∀ i, (∃ s ∈ t.parts, s.Covers i) ↔ t.span.Covers i := by
  rcases parts_cases h with hp | ⟨n, hstart, hstop, hp⟩
  · rw [hp]
    refine ⟨?_, List.pairwise_singleton .., by simp⟩
    rintro s hs
    rw [List.mem_singleton.mp hs]
    exact ⟨Nat.le_refl _, h, Nat.le_refl _⟩
  · rw [hp]
    refine ⟨?_, by simp, fun i => ?_⟩
    · simp only [List.forall_mem_cons, List.not_mem_nil, false_imp_iff, implies_true, and_true]
      omega
    · simp only [List.mem_cons, List.not_mem_nil, or_false, exists_eq_or_imp, exists_eq_left,
        Span.Covers, Token.span]
      omega

end

/-- **The parts of a line** do not overlap, and cover what its tokens cover. -/
theorem isPartition_partSpans (line : Text) : IsPartition line (partSpans line) := by
  have htiles : Tiles line 0 (tokenize line) := tiles_place [] line
  have hparts := fun t ht => Token.isPartition_parts (htiles.nonempty t ht)
  refine ⟨fun s hs => ?_, ?_, fun s hs => ?_, fun i => ?_⟩
  · obtain ⟨t, ht, hs⟩ := List.mem_flatMap.mp hs
    exact ((hparts t ht).1 s hs).2.1
  · refine List.pairwise_flatMap.mpr ⟨fun t ht => (hparts t ht).2.1, ?_⟩
    refine htiles.ordered.imp_of_mem fun {t u} ht hu htu s hs r hr => ?_
    have h₁ := ((hparts t ht).1 s hs).2.2
    have h₂ := ((hparts u hu).1 r hr).1
    omega
  · obtain ⟨t, ht, hs⟩ := List.mem_flatMap.mp hs
    exact Nat.le_trans ((hparts t ht).1 s hs).2.2 (htiles.inside t ht)
  · constructor
    · rintro ⟨s, hs, hi⟩
      obtain ⟨t, ht, hs⟩ := List.mem_flatMap.mp hs
      exact ⟨t, ht, ((hparts t ht).2.2 i).mp ⟨s, hs, hi⟩⟩
    · rintro ⟨t, ht, hi⟩
      obtain ⟨s, hs, hi⟩ := ((hparts t ht).2.2 i).mpr hi
      exact ⟨s, List.mem_flatMap.mpr ⟨t, ht, hs⟩, hi⟩

/-! ### The painted line -/

theorem escape_not_mem_slice {source : Text} (h : escape ∉ source) (s : Span) :
    escape ∉ (Line.ofText source).slice s := by
  rw [slice_ofText]
  exact fun hm => h (List.mem_of_mem_take (List.mem_of_mem_drop hm))

/-- **What is painted from a position on** is the line from there on, with sequences. -/
theorem colors_paintSpans {source : Text} (h : escape ∉ source) {n : Nat}
    {parts : List (Span × Category)} (hafter : ∀ a ∈ parts, n ≤ a.1.start)
    (hne : ∀ a ∈ parts, a.1.start < a.1.stop)
    (hordered : parts.Pairwise fun a b => a.1.stop ≤ b.1.start) :
    Colors (paintSpans (Line.ofText source) n parts) (source.drop n) := by
  induction parts generalizing n with
  | nil =>
      have hrest : paintSpans (Line.ofText source) n [] = source.drop n := by
        rw [paintSpans, slice_ofText, Line.length, Line.ofText, List.take_length]
      rw [hrest]
      exact colors_self fun hm => h (List.mem_of_mem_drop hm)
  | cons a parts ih =>
      obtain ⟨s, category⟩ := a
      obtain ⟨hs, hparts⟩ := List.pairwise_cons.mp hordered
      have hgap := colors_self (escape_not_mem_slice h ⟨n, s.start⟩)
      have hpart := colors_paint category.hue (escape_not_mem_slice h s)
      have hrest := ih hs (fun b hb => hne b (.tail _ hb)) hparts
      have hsource : source.drop n = (Line.ofText source).slice ⟨n, s.start⟩ ++
          (Line.ofText source).slice s ++ source.drop s.stop := by
        rw [List.append_assoc,
          slice_append_drop source (Nat.le_of_lt (hne (s, category) (.head _))),
          slice_append_drop source (hafter (s, category) (.head _))]
      rw [hsource]
      exact (hgap.append hpart).append hrest

/-- A line is painted as itself, whatever the answers are. -/
theorem strip_painted {line : Text} (h : escape ∉ line) (answers : List Bool) :
    strip (paintSpans (Line.ofText line) 0 (painted line answers)) = line := by
  have hspans : (painted line answers).map (·.1) = partSpans line := map_fst_paintFrom ..
  have hparts := isPartition_partSpans line
  rw [← hspans] at hparts
  have hcolors : Colors (paintSpans (Line.ofText line) 0 (painted line answers)) (line.drop 0) :=
    colors_paintSpans h (fun _ _ => Nat.zero_le _) (List.forall_mem_map.mp hparts.nonempty)
      (List.pairwise_map.mp hparts.ordered)
  rw [hcolors.strip_eq, List.drop_zero]

/-- **Color never changes text.**  Whatever the metadata answer, in any monad, the parts of a line
are a partition of what its tokens cover; without color the line is shown as it is; and in color it
is the same line with sequences, if it has no escape character of its own.  So are the report of an
error and the prompt. -/
theorem coloring_keeps_text :
    (∀ {m : Type → Type} [Monad m] [LawfulMonad m] (M : Metadata m) (line : Text),
      (∃ answer : m {parts : List (Span × Category) // parts.map (·.1) = partSpans line},
          annotate M line = (·.val) <$> answer) ∧
        highlight M line false = pure line ∧
        (escape ∉ line → strip <$> highlight M line true = (fun _ => line) <$> annotate M line)) ∧
      (∀ line, IsPartition line (partSpans line)) ∧
      (∀ (e : LineError) (source : Text), escape ∉ e.reason.message → escape ∉ source →
        strip (e.report source true) = e.report source false) ∧
      ∀ (status : Option RepositoryStatus) (exitCode : Int),
        (∀ s ∈ status, escape ∉ s.branch) →
          strip (prompt status exitCode true) = prompt status exitCode false := by
  refine ⟨fun {m} _ _ M line => ⟨?_, rfl, fun h => ?_⟩, isPartition_partSpans,
    fun e source hm hs => (LineError.colors_report hm hs).strip_eq,
    fun status exitCode h => (colors_prompt h exitCode).strip_eq⟩
  · refine ⟨(fun answers => ⟨painted line answers, map_fst_paintFrom ..⟩) <$>
      (commandTokens line).mapM fun t => M.isCommand t.content, ?_⟩
    rw [annotate, annotateFrom_eq, Functor.map_map]
    rfl
  · have hhighlight : highlight M line true =
        paintSpans (Line.ofText line) 0 <$> annotate M line := by
      rw [highlight, if_pos rfl, bind_pure_comp]
    rw [hhighlight, annotate, annotateFrom_eq, Functor.map_map, Functor.map_map, Functor.map_map]
    exact congrArg (· <$> _) (funext fun answers => strip_painted h answers)

/-- A line with what looks like the end of a sequence, and with a quote that it leaves open. -/
theorem coloring_keeps_text_open_quote :
    escape ∉ "add [1m 'é".toList ∧
      strip (highlight (m := Id) (Snapshot.metadata ⟨["add".toList], [], [], [], [], []⟩)
        "add [1m 'é".toList true).run = "add [1m 'é".toList ∧
      IsPartition "add [1m 'é".toList [⟨0, 3⟩, ⟨4, 7⟩, ⟨8, 9⟩, ⟨9, 10⟩] ∧
      strip (LineError.report ⟨⟨8, 10⟩, .unterminated⟩ "add [1m 'é".toList true) =
        "| error> unterminated string\n|\n| add [1m 'é\n|         ^^\n".toList ∧
      strip (prompt (some ⟨"main".toList, 2, 1⟩) (-1) true) = "gitline(main|●2+1)[-1]> ".toList := by
  obtain ⟨hline, hparts, hreport, hprompt⟩ := coloring_keeps_text
  have h : escape ∉ "add [1m 'é".toList := by decide
  refine ⟨h, ?_, ?_, ?_, ?_⟩
  · exact (hline (m := Id) (Snapshot.metadata ⟨["add".toList], [], [], [], [], []⟩) _).2.2 h
  · have hspans : partSpans "add [1m 'é".toList = [⟨0, 3⟩, ⟨4, 7⟩, ⟨8, 9⟩, ⟨9, 10⟩] := by
      decide +kernel
    rw [← hspans]
    exact hparts _
  · rw [hreport _ _ (by decide) h]
    decide
  · rw [hprompt _ _ (by decide)]
    decide

end GitShell
