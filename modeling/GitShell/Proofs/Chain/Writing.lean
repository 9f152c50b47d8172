import GitShell.Proofs.Chain.Layout
import GitShell.Proofs.Line.Writing

/-!
# Chain — Writing

The ways to write a line: written arguments with blanks between them, joins with or without blanks
around them, and perhaps a `;` at the end (`WrittenLine`).

* `WrittenGroup.exists_block`: a written command is scanned as a block of its arguments.
* `parse_written`: every written line is read back as the groups that were meant, and every list of
  groups that a line can have is written by some line.
-/

namespace GitShell

/-! ### Written lines -/

/-- A text of blank characters, perhaps none. -/
structure Blanks where
  text : Text
  blank : text.allBlank = true

/-- At least one blank character. -/
structure Gap extends Blanks where
  ne : text ≠ []

/-- A command, as it is written: arguments with blanks between them. -/
structure WrittenGroup where
  first : WrittenWord
  more : List (Gap × WrittenWord)

namespace WrittenGroup

def text (g : WrittenGroup) : Text := g.first.text ++ g.more.flatMap fun p => p.1.text ++ p.2.text

def arguments (g : WrittenGroup) : List Text := g.first.content :: g.more.map (·.2.content)

end WrittenGroup

/-- A join, as it is written. -/
structure WrittenJoin where
  before : Blanks
  join : Join
  after : Blanks

def WrittenJoin.text (j : WrittenJoin) : Text := j.before.text ++ (j.join.text ++ j.after.text)

/-- A line, as it is written: commands with joins between them. -/
structure WrittenLine where
  leading : Blanks
  first : WrittenGroup
  more : List (WrittenJoin × WrittenGroup)
  /-- The blanks before a final `;`, if there is one. -/
  final : Option Blanks
  trailing : Blanks

namespace WrittenLine

/-- The text after the last command. -/
def ending (l : WrittenLine) : Text :=
  match l.final with
  | none => l.trailing.text
  | some b => b.text ++ (Join.next.text ++ l.trailing.text)

def text (l : WrittenLine) : Text :=
  l.leading.text ++ (l.first.text ++ ((l.more.flatMap fun p => p.1.text ++ p.2.text) ++ l.ending))

/-- The groups that are meant. -/
def groups (l : WrittenLine) : List Group :=
  ⟨.next, l.first.arguments⟩ :: l.more.map fun p => ⟨p.1.join, p.2.arguments⟩

end WrittenLine

/-! ### Every group can be written -/

def Blanks.none : Blanks := ⟨[], rfl⟩

def Gap.space : Gap := ⟨⟨[' '], by decide⟩, List.cons_ne_nil _ _⟩

theorem WrittenGroup.exists_arguments_eq {as : List Text} (h : as ≠ []) :
    ∃ g : WrittenGroup, g.arguments = as := by
  obtain ⟨a, as, rfl⟩ := List.exists_cons_of_ne_nil h
  refine ⟨⟨.ofText a, as.map fun a => (.space, .ofText a)⟩, ?_⟩
  simp [arguments, Function.comp_def, WrittenWord.content_ofText]

theorem WrittenLine.exists_groups_eq {as : List Text} {gs : List Group} (ha : as ≠ [])
    (h : ∀ g ∈ gs, g.arguments ≠ []) : ∃ l : WrittenLine, l.groups = ⟨.next, as⟩ :: gs := by
  obtain ⟨g, hg⟩ := WrittenGroup.exists_arguments_eq ha
  obtain ⟨more, hmore⟩ : ∃ more : List (WrittenJoin × WrittenGroup),
      (more.map fun p => (⟨p.1.join, p.2.arguments⟩ : Group)) = gs := by
    induction gs with
    | nil => exact ⟨[], rfl⟩
    | cons k gs ih =>
        obtain ⟨hk, hgs⟩ := List.forall_mem_cons.mp h
        obtain ⟨w, hw⟩ := WrittenGroup.exists_arguments_eq hk
        obtain ⟨more, hmore⟩ := ih hgs
        exact ⟨(⟨.none, k.join, .none⟩, w) :: more, by rw [List.map_cons, hmore, hw]⟩
  exact ⟨⟨.none, g, more, none, .none⟩, by rw [groups, hg, hmore]⟩

theorem WrittenLine.arguments_ne_nil (l : WrittenLine) : ∀ g ∈ l.groups, g.arguments ≠ [] := by
  rw [groups, List.forall_mem_cons, List.forall_mem_map]
  exact ⟨List.cons_ne_nil _ _, fun _ _ => List.cons_ne_nil _ _⟩

/-! ### Blanks and joins -/

namespace Piece

theorem exists_place_join (j : Join) (n : Nat) (rest : Text) : ∃ t : Token, t.kind = .join j ∧
    place n (pieces (j.text ++ rest)) = t :: place t.stop (pieces rest) := by
  refine ⟨{ Lexeme.literal (.join j) j.text with start := n }, rfl, ?_⟩
  have h : pieces (j.text ++ rest) = .lexeme (.literal (.join j) j.text) :: pieces rest :=
    pieces_lexeme (.join j rest)
  rw [h, place]
  rfl

end Piece

theorem stopsAt_nil : StopsAt [] := by
  simp [StopsAt]

theorem stopsAt_blanks {t rest : Text} (ht : t.allBlank = true) (hr : StopsAt rest) :
    StopsAt (t ++ rest) := by
  cases t with
  | nil => exact hr
  | cons c t =>
      have hc : isBlank c = true := List.all_eq_true.mp ht c (.head _)
      simp [StopsAt, endsWord, hc]

theorem stopsAt_join (j : Join) (rest : Text) : StopsAt (j.text ++ rest) := by
  cases j <;> simp [StopsAt, Join.text, endsWord]

theorem WrittenLine.stopsAt_ending (l : WrittenLine) : StopsAt l.ending := by
  unfold ending
  cases l.final with
  | none => simpa using stopsAt_blanks l.trailing.blank stopsAt_nil
  | some b => exact stopsAt_blanks b.blank (stopsAt_join .next _)

/-! ### The tokens of a command -/

theorem Run.isChain {n m : Nat} {b : List Token} (h : Run n b m) :
    b.IsChain fun t u => (t.stop == u.start) = true := by
  induction h with
  | nil => exact .nil
  | cons _ _ h ih =>
      cases h with
      | nil => exact .singleton _
      | cons hn => exact List.isChain_cons_cons.mpr ⟨by simpa using hn.symm, ih⟩

/-- A run is one argument, if what comes after it does not touch it. -/
theorem Run.argumentsIn_append {n m : Nat} {b c : List Token} (h : Run n b m) (hne : b ≠ [])
    (hc : ∀ u ∈ c.head?, u.start ≠ m) :
    argumentsIn (b ++ c) = b.flatMap (·.content) :: argumentsIn c := by
  have hgap : ∀ t ∈ b.getLast?, ∀ u ∈ c.head?, (t.stop == u.start) = false := by
    intro t ht u hu
    have hm : t.stop = m := h.stop_getLast t ht
    simpa [hm] using (hc u hu).symm
  rw [argumentsIn, List.splitBy_append hgap, List.splitBy_of_isChain hne h.isChain]
  rfl

/-- **A written command is scanned as a block of its arguments.** -/
theorem WrittenGroup.exists_block (g : WrittenGroup) {rest : Text} (hr : StopsAt rest) (n : Nat) :
    ∃ b m, Piece.place n (Piece.pieces (g.text ++ rest)) = b ++ Piece.place m (Piece.pieces rest) ∧
      IsBlock b ∧ (∀ t ∈ b.head?, t.start = n) ∧ argumentsIn b = g.arguments := by
  obtain ⟨first, more⟩ := g
  induction more generalizing first n with
  | nil =>
      obtain ⟨b, m, hp, hrun, hne, hc⟩ := first.exists_run hr n
      refine ⟨b, m, by simpa [text] using hp, ⟨hne, hrun.isArgument⟩, hrun.start_head, ?_⟩
      have h := hrun.argumentsIn_append (c := []) hne (by simp)
      rw [List.append_nil] at h
      rw [h, hc]
      rfl
  | cons p more ih =>
      obtain ⟨s, w⟩ := p
      have hs : StopsAt (s.text ++ (text ⟨w, more⟩ ++ rest)) := by
        obtain ⟨c, t, hct⟩ := List.exists_cons_of_ne_nil s.ne
        have hc : isBlank c = true := List.all_eq_true.mp s.blank c (hct ▸ List.mem_cons_self)
        rw [hct]
        simp [StopsAt, endsWord, hc]
      obtain ⟨b, m, hp, hrun, hne, hc⟩ := first.exists_run hs n
      obtain ⟨b', m', hp', hb', hstart, harg⟩ := ih (m + s.text.length) w
      refine ⟨b ++ b', m', ?_, ⟨by simp [hne], ?_⟩, ?_, ?_⟩
      · have htext : text ⟨first, (s, w) :: more⟩ ++ rest =
            first.text ++ (s.text ++ (text ⟨w, more⟩ ++ rest)) := by simp [text]
        rw [htext, hp, Piece.place_blanks s.blank, hp', List.append_assoc]
      · exact List.forall_mem_append.mpr ⟨hrun.isArgument, hb'.2⟩
      · rw [List.head?_append_of_ne_nil _ hne]
        exact hrun.start_head
      · -- the gap keeps the first argument apart from the second
        have hlen : 0 < s.text.length := List.length_pos_iff.mpr s.ne
        have htouch : ∀ u ∈ b'.head?, u.start ≠ m := fun u hu => by
          rw [hstart u hu]
          omega
        rw [hrun.argumentsIn_append hne htouch, hc, harg]
        rfl

/-! ### The tokens of a line -/

/-- What ends a line is no token, or a `;`. -/
theorem WrittenLine.place_ending (l : WrittenLine) (n : Nat) :
    Piece.place n (Piece.pieces l.ending) = [] ∨
      ∃ t : Token, t.kind = .join .next ∧ Piece.place n (Piece.pieces l.ending) = [t] := by
  have hblank : ∀ n, Piece.place n (Piece.pieces l.trailing.text) = [] := fun n => by
    have h := Piece.place_blanks l.trailing.blank n []
    rw [List.append_nil] at h
    rw [h, Piece.pieces, Piece.place]
  unfold ending
  cases l.final with
  | none => exact .inl (hblank n)
  | some b =>
      obtain ⟨t, ht, hp⟩ := Piece.exists_place_join .next (n + b.text.length) l.trailing.text
      exact .inr ⟨t, ht, by simp only [Piece.place_blanks b.blank, hp, hblank]⟩

/-- A command and what is written after it lie as blocks and joins. -/
theorem WrittenLine.laid (l : WrittenLine) (more : List (WrittenJoin × WrittenGroup))
    (g : WrittenGroup) (j : Join) (n : Nat) :
    Laid j (Piece.place n (Piece.pieces
        (g.text ++ ((more.flatMap fun p => p.1.text ++ p.2.text) ++ l.ending))))
      (⟨j, g.arguments⟩ :: more.map fun p => ⟨p.1.join, p.2.arguments⟩) := by
  induction more generalizing g j n with
  | nil =>
      obtain ⟨b, m, hp, hb, -, harg⟩ := g.exists_block l.stopsAt_ending n
      rw [List.flatMap_nil, List.nil_append, hp, ← harg]
      rcases l.place_ending m with h | ⟨t, ht, h⟩
      · rw [h, List.append_nil]
        exact .last j hb
      · rw [h]
        exact .ended j hb ht
  | cons p more ih =>
      obtain ⟨k, h⟩ := p
      generalize htail : (more.flatMap fun p => p.1.text ++ p.2.text) ++ l.ending = tail at ih
      have htext : ((k, h) :: more).flatMap (fun p => p.1.text ++ p.2.text) ++ l.ending =
          k.before.text ++ (k.join.text ++ (k.after.text ++ (h.text ++ tail))) := by
        simp [WrittenJoin.text, ← htail]
      have hs : StopsAt (k.before.text ++ (k.join.text ++ (k.after.text ++ (h.text ++ tail)))) :=
        stopsAt_blanks k.before.blank (stopsAt_join k.join _)
      obtain ⟨b, m, hp, hb, -, harg⟩ := g.exists_block hs n
      obtain ⟨t, ht, hp'⟩ := Piece.exists_place_join k.join (m + k.before.text.length)
        (k.after.text ++ (h.text ++ tail))
      rw [htext, hp, ← harg, Piece.place_blanks k.before.blank, hp',
        Piece.place_blanks k.after.blank]
      exact .joined j hb ht (ih h k.join _)

/-- A written line is scanned as its groups. -/
theorem WrittenLine.grouped (l : WrittenLine) : Grouped (tokenize l.text) l.groups := by
  rw [tokenize, text, Piece.place_blanks l.leading.blank]
  exact .inr (l.laid l.more l.first .next _)

/-- **Every line can be written and read back**: however the groups are written, the line is read
as those groups, and every list of groups can be written that a line can have, the first as after
`;` and none of them empty. -/
theorem parse_written :
    (∀ l : WrittenLine, parse l.text = .ok l.groups) ∧
      ∀ gs : List Group, (∃ l : WrittenLine, l.groups = gs) ↔
        gs.head?.map (·.join) = some .next ∧ ∀ g ∈ gs, g.arguments ≠ [] := by
  constructor
  · intro l
    refine parse_eq_ok_iff.mpr (.inr ?_)
    rw [tokenize, WrittenLine.text, Piece.place_blanks l.leading.blank]
    exact l.laid l.more l.first .next _
  · intro gs
    constructor
    · rintro ⟨l, rfl⟩
      exact ⟨rfl, l.arguments_ne_nil⟩
    · rintro ⟨hj, h⟩
      match gs, hj with
      | ⟨j, as⟩ :: gs, hj =>
          obtain rfl : j = .next := by simpa using hj
          obtain ⟨ha, hgs⟩ := List.forall_mem_cons.mp h
          exact WrittenLine.exists_groups_eq ha hgs

end GitShell
