import GitShell.Editing.Editor
import GitShell.Proofs.Editing.LastWord
import GitShell.Proofs.Text.OrderedSet

/-!
# Editing — Replacement

Accepting a candidate only adds to what is typed: it takes the place of the last token before the
cursor, and continues it.

* `Plan.last_token`: what is completed is the last token, and it ends where the text ends.
* `complete_offered`: so the editor offers nothing, or what continues this token (`Offered`),
  whatever the metadata answers.
-/

namespace GitShell

/-! ### The last token -/

/-- **What is completed is the last token**, and it ends where the text ends. -/
theorem Plan.last_token {line : Text} {p : Plan} (h : Plan.ofLine line = some p) :
    ∃ before t, line = before ++ t.raw ∧ (tokenize line).getLast? = some t ∧
      t.start = before.length ∧ p.start = t.start ∧ p.typed = t.raw := by
  cases hline : line.endsInWord with
  | false =>
      rw [ofLine_eq_none hline] at h
      cases h
  | true =>
      obtain ⟨left, t, hts, hstop⟩ := exists_last_of_endsInWord hline
      rw [ofLine_eq hline hts] at h
      obtain ⟨s, -, rfl⟩ := Option.map_eq_some_iff.mp h
      have htiles : Tiles line 0 (left.reverse ++ t :: []) := hts ▸ tiles_place [] line
      have hraw : line.drop t.start = t.raw := by
        rw [htiles.drop_start, hstop, List.drop_length, List.append_nil]
      refine ⟨line.take t.start, t, ?_, ?_, ?_, rfl, rfl⟩
      · rw [← hraw, List.take_append_drop]
      · rw [hts, List.getLast?_concat]
      · rw [Token.stop] at hstop
        rw [List.length_take]
        omega

/-! ### What is offered -/

/-- The completion `d` at the byte position `pos` of a line is about the token `t`, and `offer` are
the candidates with the byte position that they replace the line from. -/
structure Replaces (line : Text) (pos : Nat) (d : Completion) (offer : Nat × List Text)
    (before after : Text) (t : Token) : Prop where
  /-- The characters of the token are the last ones before the cursor, -/
  cursor : line.splitAtByte pos = some (before ++ t.raw, after)
  /-- it is the last token there, -/
  last : (tokenize (before ++ t.raw)).getLast? = some t
  place : t.start = before.length
  /-- and what is replaced is this token. -/
  start : d.start = t.start
  offset : offer.1 = before.byteLength ∧ offer.1 = (Line.ofText line).byteOffset t.start
  candidates : offer.2 = d.candidates
  continues : ∀ u ∈ offer.2, t.raw <+: u

/-- What is offered at the byte position `pos` of a line for the completion `c` of the text before
this position: candidates, at most `limit`, and the byte position that they replace the line
from. -/
structure Offered (line : Text) (pos limit : Nat) (c : Option Completion)
    (offer : Nat × List Text) : Prop where
  /-- The replaced part starts between two characters, not after the cursor. -/
  boundary : offer.1 ≤ pos ∧ ∃ a b, line.splitAtByte offer.1 = some (a, b)
  /-- Without a completion nothing is offered or replaced. -/
  nothing : c = none → offer = (pos, [])
  something : ∀ d ∈ c, ∃ before after t, Replaces line pos d offer before after t
  sorted : offer.2.Pairwise ShorterFirst
  few : offer.2.length ≤ limit

/-- How a completion of the text before the cursor is shown. -/
def shownAt (typed : Text) : Option Completion → Nat × List Text
  | none => (typed.byteLength, [])
  | some c => (Text.byteLength (typed.take c.start), c.candidates)

section
variable {line typed after : Text} {pos : Nat}

theorem offered_nothing (h : line.splitAtByte pos = some (typed, after)) (limit : Nat) :
    Offered line pos limit none (shownAt typed none) := by
  obtain ⟨-, rfl⟩ := Text.eq_of_splitAtByte h
  exact ⟨⟨Nat.le_refl _, typed, after, h⟩, fun _ => rfl, by simp, .nil, Nat.zero_le _⟩

/-- Whatever is found, what is offered of it continues the last token. -/
theorem offered_completion (h : line.splitAtByte pos = some (typed, after)) {p : Plan}
    (hp : Plan.ofLine typed = some p) (limit : Nat) (found : Option (List Text)) :
    Offered line pos limit (p.completion limit found)
      (shownAt typed (p.completion limit found)) := by
  cases found with
  | none => exact offered_nothing h limit
  | some found =>
      obtain ⟨before, t, rfl, hlast, hplace, hstart, htyped⟩ := Plan.last_token hp
      obtain ⟨rfl, rfl⟩ := Text.eq_of_splitAtByte h
      have htake : (before ++ t.raw).take p.start = before := by
        rw [hstart, hplace, List.take_left]
      have hoffset : (Line.ofText (before ++ t.raw ++ after)).byteOffset t.start =
          before.byteLength := by
        rw [Line.byteOffset_ofText, hplace, List.append_assoc, List.take_left]
      rw [Plan.completion, Option.map_some, shownAt, htake]
      refine ⟨⟨?_, before, t.raw ++ after, ?_⟩, nofun, ?_, pairwise_narrow ..,
        length_narrow_le ..⟩
      · rw [Text.byteLength_append]
        exact Nat.le_add_right _ _
      · rw [List.append_assoc]
        exact Text.splitAtByte_append _ _
      · rintro d ⟨⟩
        refine ⟨before, after, t, h, hlast, hplace, hstart, ⟨rfl, hoffset.symm⟩, rfl,
          fun u hu => ?_⟩
        rw [← htyped]
        exact (mem_of_mem_narrow hu).2

end

section
variable {m : Type → Type} [Monad m] [LawfulMonad m] {line typed after : Text} {pos : Nat}

theorem Editor.complete_eq (e : Editor m) (h : line.splitAtByte pos = some (typed, after)) :
    e.complete line pos = shownAt typed <$> completeAt e.metadata typed e.limit := by
  rw [Editor.complete, h, ← bind_pure_comp]
  refine bind_congr fun c => ?_
  cases c <;> rfl

/-- **Accepting a candidate never deletes or changes typed text.**  Whatever the metadata answers,
the editor offers what continues the last token before the cursor, in its place, or nothing. -/
theorem complete_offered (e : Editor m) (h : line.splitAtByte pos = some (typed, after)) :
    ∃ answer : m {r : Option Completion × (Nat × List Text) // Offered line pos e.limit r.1 r.2},
      completeAt e.metadata typed e.limit = (·.val.1) <$> answer ∧
        e.complete line pos = (·.val.2) <$> answer := by
  rw [e.complete_eq h]
  cases hp : Plan.ofLine typed with
  | none =>
      rw [completeAt_eq_none e.metadata hp, map_pure]
      exact ⟨pure ⟨(none, shownAt typed none), offered_nothing h e.limit⟩, by rw [map_pure],
        by rw [map_pure]⟩
  | some p =>
      rw [completeAt_eq e.metadata hp, Functor.map_map]
      have hoffered := offered_completion h hp e.limit
      refine ⟨(fun found => ⟨(p.completion e.limit found,
        shownAt typed (p.completion e.limit found)), hoffered found⟩) <$>
          p.source.candidates e.metadata p.typed e.limit, ?_, ?_⟩
      · rw [Functor.map_map]
      · rw [Functor.map_map]

end

/-- Some branches, one of them found twice. -/
def branchEditor : Editor Id :=
  ⟨Snapshot.metadata ⟨[], [], ["féminin".toList, "main".toList, "fée".toList, "fée".toList], [], [],
    []⟩, false, 2⟩

/-- The line has characters of two bytes before the cursor, and more text after it. -/
theorem complete_offered_branch :
    Text.splitAtByte 20 "log é; checkout fé rest".toList =
        some ("log é; checkout fé".toList, " rest".toList) ∧
      Offered "log é; checkout fé rest".toList 20 2
        (some ⟨16, ["fée".toList, "féminin".toList]⟩) (17, ["fée".toList, "féminin".toList]) := by
  have h : Text.splitAtByte 20 "log é; checkout fé rest".toList =
      some ("log é; checkout fé".toList, " rest".toList) := by decide
  have hcompletion : (completeAt branchEditor.metadata "log é; checkout fé".toList 2).run =
      some ⟨16, ["fée".toList, "féminin".toList]⟩ := by decide +kernel
  have hoffer : (branchEditor.complete "log é; checkout fé rest".toList 20).run =
      (17, ["fée".toList, "féminin".toList]) := by decide +kernel
  obtain ⟨answer, hcompleted, hcomplete⟩ := complete_offered branchEditor h
  have hoffered := answer.run.property
  have h₁ := (congrArg Id.run hcompleted).symm.trans hcompletion
  have h₂ := (congrArg Id.run hcomplete).symm.trans hoffer
  rw [Id.run_map] at h₁ h₂
  rw [h₁, h₂] at hoffered
  exact ⟨h, hoffered⟩

end GitShell
