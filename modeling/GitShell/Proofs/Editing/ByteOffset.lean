import GitShell.Proofs.Editing.Replacement

/-!
# Editing — ByteOffset

Lines are cut at positions that count characters, and kept and shown in an encoding that counts bytes.
A line has a table of the bytes where its characters start; the editor looks for them one by one.

* `isValid_byteOffset`: the table has no position inside a character.
* `extract_byteOffset`: what is between two of its positions is what is between the two characters.
* `Text.startByte_eq_byteOffset`: the editor finds what is in the table.
* `positions_agree`: so characters and bytes can be counted alike, past the end of the line too.
-/

namespace GitShell

/-! ### The length of an encoding -/

theorem Text.utf8ByteSize_ofList (t : Text) : (String.ofList t).utf8ByteSize = t.byteLength := by
  induction t with
  | nil => rfl
  | cons c r ih =>
      rw [← List.singleton_append, String.ofList_append, String.utf8ByteSize_append, ih,
        ← String.singleton_eq_ofList, String.utf8ByteSize_singleton, byteLength_append]
      rfl

theorem Text.size_utf8Encode (t : Text) : t.utf8Encode.size = t.byteLength := by
  rw [← t.utf8ByteSize_ofList, ← String.toByteArray_ofList]
  rfl

theorem Text.byteLength_le_of_prefix {t u : Text} (h : t <+: u) : t.byteLength ≤ u.byteLength := by
  obtain ⟨v, rfl⟩ := h
  rw [byteLength_append]
  exact Nat.le_add_right ..

/-! ### Slices -/

section
variable (t : Text) {i j k : Nat}

/-- Positions past the end stand for the end. -/
theorem slice_min : (Line.ofText t).slice ⟨i, j⟩ =
    (t.take (min j t.length)).drop (min i t.length) := by
  rw [slice_ofText, ← List.take_eq_take_min]
  rcases Nat.le_total i t.length with h | h
  · rw [Nat.min_eq_left h]
  · have hlen : (t.take j).length ≤ t.length := List.length_take_le' ..
    rw [Nat.min_eq_right h, List.drop_of_length_le hlen,
      List.drop_of_length_le (Nat.le_trans hlen h)]

/-- Slices side by side are one slice. -/
theorem slice_append_slice (hij : i ≤ j) (hjk : j ≤ k) :
    (Line.ofText t).slice ⟨i, j⟩ ++ (Line.ofText t).slice ⟨j, k⟩ =
      (Line.ofText t).slice ⟨i, k⟩ := by
  have h := slice_append_drop (t.take k) hij
  rwa [slice_ofText, List.take_take, Nat.min_eq_left hjk] at h

/-! ### The bytes of a slice -/

theorem byteOffset_le (h : i ≤ j) :
    (Line.ofText t).byteOffset i ≤ (Line.ofText t).byteOffset j := by
  rw [Line.byteOffset_ofText, Line.byteOffset_ofText]
  exact Text.byteLength_le_of_prefix (List.take_prefix_take_left h)

/-- **The byte position of a character position** is between two characters, or at an end. -/
theorem isValid_byteOffset (i : Nat) :
    String.Pos.Raw.IsValid (String.ofList t) ⟨(Line.ofText t).byteOffset i⟩ := by
  rw [String.Pos.Raw.isValid_iff_exists_append]
  refine ⟨String.ofList (t.take i), String.ofList (t.drop i), ?_, ?_⟩
  · rw [← String.ofList_append, List.take_append_drop]
  · rw [String.rawEndPos, Text.utf8ByteSize_ofList, Line.byteOffset_ofText]

/-- **The bytes between two byte positions** encode the characters between the two positions. -/
theorem extract_byteOffset (h : i ≤ j) :
    (String.ofList t).toByteArray.extract ((Line.ofText t).byteOffset i)
      ((Line.ofText t).byteOffset j) = ((Line.ofText t).slice ⟨i, j⟩).utf8Encode := by
  generalize hs : (Line.ofText t).slice ⟨i, j⟩ = s
  have hsplit : t = t.take i ++ (s ++ t.drop j) := by
    rw [← hs, slice_append_drop t h, List.take_append_drop]
  have htake : t.take j = t.take i ++ s := by
    rw [← hs, slice_ofText]
    have hi : t.take i = (t.take j).take i := by rw [List.take_take, Nat.min_eq_left h]
    rw [hi, List.take_append_drop]
  have hencode : (String.ofList t).toByteArray =
      (t.take i).utf8Encode ++ (s.utf8Encode ++ (t.drop j).utf8Encode) := by
    rw [String.toByteArray_ofList, ← List.utf8Encode_append, ← List.utf8Encode_append, ← hsplit]
  rw [hencode, Line.byteOffset_ofText, Line.byteOffset_ofText, htake, Text.byteLength_append,
    ← Text.size_utf8Encode, ← Text.size_utf8Encode, ← Nat.add_zero (t.take i).utf8Encode.size,
    Nat.add_assoc, Nat.zero_add, ByteArray.extract_append_size_add,
    ByteArray.extract_append_eq_left rfl]

end

/-! ### Looking for a character -/

namespace Text

/-- The characters of a text that starts at byte `n`, each with the byte where it starts. -/
def charIndices (n : Nat) : Text → List (Nat × Char)
  | [] => []
  | c :: r => (n, c) :: charIndices (n + c.utf8Size) r

/-- The byte where the character at a position starts; the end of the text if there is none. -/
def startByte (t : Text) (i : Nat) : Nat := ((t.charIndices 0)[i]?.map (·.1)).getD t.byteLength

theorem byteTable_eq (n : Nat) (t : Text) :
    byteTable n t = (t.charIndices n).map (·.1) ++ [n + t.byteLength] := by
  induction t generalizing n with
  | nil => rfl
  | cons c r ih => rw [byteTable, ih, charIndices, byteLength, Nat.add_assoc]; rfl

theorem length_charIndices (n : Nat) (t : Text) : (t.charIndices n).length = t.length := by
  induction t generalizing n with
  | nil => rfl
  | cons c r ih => rw [charIndices, List.length_cons, ih, List.length_cons]

/-- A character starts where the table says. -/
theorem fst_charIndices (t : Text) {i : Nat} (h : i < t.length) :
    (t.charIndices 0)[i]?.map (·.1) = some ((Line.ofText t).byteOffset i) := by
  have htable := getElem?_byteTable 0 t i (Nat.le_of_lt h)
  rwa [byteTable_eq, List.getElem?_append_left (by rwa [List.length_map, length_charIndices]),
    List.getElem?_map, Nat.zero_add, ← Line.byteOffset_ofText] at htable

/-- **The editor finds what is in the table**, and the end where there is no character. -/
theorem startByte_eq_byteOffset (t : Text) (i : Nat) :
    t.startByte i = (Line.ofText t).byteOffset i := by
  rcases Nat.lt_or_ge i t.length with h | h
  · rw [startByte, t.fst_charIndices h, Option.getD_some]
  · rw [startByte, List.getElem?_eq_none (by rwa [length_charIndices]), Line.byteOffset_ofText,
      List.take_of_length_le h]
    rfl

end Text

/-- How a completion of a text is shown, with the byte position looked for. -/
def shownFrom (typed : Text) : Option Completion → Nat × List Text
  | none => (typed.byteLength, [])
  | some c => (typed.startByte c.start, c.candidates)

theorem shownAt_eq_shownFrom (typed : Text) : shownAt typed = shownFrom typed := by
  funext r
  cases r with
  | none => rfl
  | some c => rw [shownAt, shownFrom, Text.startByte_eq_byteOffset, Line.byteOffset_ofText]

/-- **Positions in characters and in bytes agree.**  The byte position of a character position is the
length of the encoding of what is before it.  A slice has the characters between two positions, and
its bytes are those between their byte positions, both of which are between characters and in order.
Slices side by side are one slice.  The editor, which looks for the character, finds its byte position,
and hands it over with the candidates. -/
theorem positions_agree (t : Text) {i j k : Nat} (hij : i ≤ j) (hjk : j ≤ k) :
    (Line.ofText t).byteOffset i = (String.ofList (t.take (min i t.length))).utf8ByteSize ∧
      (Line.ofText t).slice ⟨i, j⟩ = (t.take (min j t.length)).drop (min i t.length) ∧
      (Line.ofText t).slice ⟨i, j⟩ ++ (Line.ofText t).slice ⟨j, k⟩ =
        (Line.ofText t).slice ⟨i, k⟩ ∧
      (∀ n, String.Pos.Raw.IsValid (String.ofList t) ⟨(Line.ofText t).byteOffset n⟩) ∧
      (Line.ofText t).byteOffset i ≤ (Line.ofText t).byteOffset j ∧
      (String.ofList t).toByteArray.extract ((Line.ofText t).byteOffset i)
        ((Line.ofText t).byteOffset j) = ((Line.ofText t).slice ⟨i, j⟩).utf8Encode ∧
      (i < t.length → (t.charIndices 0)[i]?.map (·.1) = some ((Line.ofText t).byteOffset i)) ∧
      ∀ (m : Type → Type) [Monad m] [LawfulMonad m] (e : Editor m),
        e.complete t t.byteLength = shownFrom t <$> completeAt e.metadata t e.limit := by
  refine ⟨?_, slice_min t, slice_append_slice t hij hjk, isValid_byteOffset t, byteOffset_le t hij,
    extract_byteOffset t hij, t.fst_charIndices, fun m _ _ e => ?_⟩
  · rw [Text.utf8ByteSize_ofList, Line.byteOffset_ofText, ← List.take_eq_take_min]
  · have h : t.splitAtByte t.byteLength = some (t, []) := by
      rw [← Text.splitAtByte_append t [], List.append_nil]
    rw [e.complete_eq h, shownAt_eq_shownFrom]

/-- Characters of one to four bytes, a position past the end, and branches to complete to. -/
theorem positions_agree_mixed :
    let t := "log €😀é; checkout fé".toList
    5 ≤ 18 ∧ 18 ≤ 30 ∧ (Line.ofText t).byteOffset 5 = 7 ∧ (Line.ofText t).byteOffset 18 = 24 ∧
      (Line.ofText t).slice ⟨5, 18⟩ ++ (Line.ofText t).slice ⟨18, 30⟩ =
        "😀é; checkout fé".toList ∧
      (String.ofList t).toByteArray.extract 7 24 = "😀é; checkout ".toList.utf8Encode ∧
      (Text.charIndices 0 t)[5]?.map (·.1) = some 7 ∧
      (branchEditor.complete t (Text.byteLength t)).run = (24, ["fée".toList, "féminin".toList]) := by
  intro t
  have hi : (Line.ofText t).byteOffset 5 = 7 := by decide
  have hj : (Line.ofText t).byteOffset 18 = 24 := by decide
  have hslice : (Line.ofText t).slice ⟨5, 18⟩ = "😀é; checkout ".toList := by decide
  have hcompletion : (completeAt branchEditor.metadata t branchEditor.limit).run =
      some ⟨18, ["fée".toList, "féminin".toList]⟩ := by decide +kernel
  obtain ⟨-, -, happend, -, -, hextract, hindex, hcomplete⟩ :=
    positions_agree t (i := 5) (j := 18) (k := 30) (by decide) (by decide)
  rw [hi, hj, hslice] at hextract
  rw [hi] at hindex
  refine ⟨by decide, by decide, hi, hj, ?_, hextract, hindex (by decide), ?_⟩
  · rw [happend]
    decide
  · rw [hcomplete Id branchEditor, Id.run_map, hcompletion]
    decide

end GitShell
