import GitShell.Proofs.Chain.FirstError

/-!
# Chain — Report

The report of a rejected line has four lines, and the carets in the last of them stand below the
characters of the token that is wrong.

* `Offends.not_mem_message`: a message quotes only characters of the line, so it takes up one line.
* `LineError.getElem?_carets`: where the carets stand.
* `report_points_at_token`: both together, for every line that is rejected.
-/

namespace GitShell

/-! ### The message -/

/-- The texts of the line that a reason quotes. -/
def Reason.quoted : Reason → List Text
  | .unterminated => []
  | .halfJoin expected got => [expected, got]
  | .leadingJoin join | .trailingJoin join => [join]
  | .missingWord previous join => [previous, join]

/-- A message has a line feed only in a text that it quotes. -/
theorem Reason.not_mem_message {r : Reason} (h : ∀ q ∈ r.quoted, '\n' ∉ q) : '\n' ∉ r.message := by
  cases r with
  | unterminated => decide
  | halfJoin expected got =>
      have he : '\n' ∉ expected := h expected (by simp [quoted])
      have hg : '\n' ∉ got := h got (by simp [quoted])
      have hto : '\n' ∉ "expected '".toList ++ expected ++ "' but got '".toList :=
        List.not_mem_append (List.not_mem_append (by decide) he) (by decide)
      exact List.not_mem_append (List.not_mem_append hto hg) (by decide)
  | leadingJoin join | trailingJoin join =>
      have hj : '\n' ∉ join := h join (by simp [quoted])
      exact List.not_mem_append (List.not_mem_append (by decide) hj) (by decide)
  | missingWord previous join =>
      have hp : '\n' ∉ previous := h previous (by simp [quoted])
      have hj : '\n' ∉ join := h join (by simp [quoted])
      have hto : '\n' ∉ "expected a string after '".toList ++ previous ++ "' but got '".toList :=
        List.not_mem_append (List.not_mem_append (by decide) hp) (by decide)
      exact List.not_mem_append (List.not_mem_append hto hj) (by decide)

/-- What a fault quotes is made of the token and the one before it. -/
theorem Fault.exists_raw_of_quoted {before after : List Token} {t : Token} {r : Reason}
    (h : Fault before t after r) {q : Text} (hq : q ∈ r.quoted) {c : Char} (hc : c ∈ q) :
    ∃ u ∈ before ++ [t], c ∈ u.raw := by
  have ht : t ∈ before ++ [t] := List.mem_append_right _ (List.mem_singleton_self t)
  cases h with
  | unterminated => cases hq
  | halfJoin =>
      refine ⟨t, ht, ?_⟩
      rcases List.mem_pair.mp hq with rfl | rfl
      · exact (List.mem_append.mp hc).elim id id
      · exact hc
  | leadingJoin | trailingJoin =>
      obtain rfl := List.mem_singleton.mp hq
      exact ⟨t, ht, hc⟩
  | @missingWord j p _ hp =>
      rcases List.mem_pair.mp hq with rfl | rfl
      · exact ⟨p, List.mem_append_left _ (List.mem_of_getLast? hp), hc⟩
      · exact ⟨t, ht, hc⟩

/-- A token holds characters of its line only. -/
theorem mem_of_mem_raw {line : Text} {t : Token} (ht : t ∈ tokenize line) {c : Char}
    (hc : c ∈ t.raw) : c ∈ line := by
  have htiles : Tiles line 0 (tokenize line) := tiles_place [] line
  rw [← htiles.slice t ht, slice_ofText] at hc
  exact List.mem_of_mem_take (List.mem_of_mem_drop hc)

/-- **The message of a line without a line feed has none**. -/
theorem Offends.not_mem_message {line : Text} {before after : List Token} {t : Token}
    {e : LineError} (h : Offends (tokenize line) before t after e) (hl : '\n' ∉ line) :
    '\n' ∉ e.reason.message := by
  refine Reason.not_mem_message fun q hq hc => ?_
  obtain ⟨u, hu, hr⟩ := h.fault.1.exists_raw_of_quoted hq hc
  refine hl (mem_of_mem_raw (t := u) ?_ hr)
  rw [h.tokens, ← List.singleton_append, ← List.append_assoc]
  exact List.mem_append_left _ hu

/-! ### The carets -/

namespace LineError

variable {s : Span}

/-- Below the characters of the span, and only there, stand carets. -/
theorem getElem?_carets (h : s.start < s.stop) (j : Nat) :
    (carets s)[j]? = some '^' ↔ s.start ≤ j ∧ j < s.stop := by
  have hlength : max s.length 1 = s.stop - s.start := by rw [Span.length]; omega
  rw [carets, hlength, List.getElem?_append, List.length_replicate]
  split
  next hj =>
    rw [List.getElem?_replicate, if_pos hj]
    exact iff_of_false (by decide) (by omega)
  next hj =>
    rw [List.getElem?_replicate]
    split
    next => exact iff_of_true rfl (by omega)
    next => exact iff_of_false nofun (by omega)

/-- There are as many as the span has characters. -/
theorem count_carets (h : s.start < s.stop) : (carets s).count '^' = s.length := by
  have hlength : max s.length 1 = s.length := by rw [Span.length]; omega
  rw [carets, hlength, List.count_append, List.count_replicate_self, List.count_replicate]
  simp

theorem getLast?_carets (s : Span) : (carets s).getLast? = some '^' := by
  have hne : max s.length 1 ≠ 0 := by omega
  rw [carets, List.getLast?_append, List.getLast?_replicate, if_neg hne]
  rfl

theorem not_mem_carets (s : Span) : '\n' ∉ carets s := by
  simp [carets]

end LineError

/-- The span of an error has the length of the token that is wrong. -/
theorem Offends.length_span {ts before after : List Token} {t : Token} {e : LineError}
    (h : Offends ts before t after e) : e.span.length = t.raw.length := by
  rw [h.span]
  exact Nat.add_sub_cancel_left ..

/-! ### The report -/

/-- **The report points at the token that is wrong.**  It has four lines, each starting with a bar:
the message, nothing, the line as it is, and one in which carets stand below the characters of the
error's span, and nothing after the last of them.  The span is that of the first token with a fault,
so there is a caret for each character of the token. -/
theorem report_points_at_token {line : Text} {e : LineError} (hp : parse line = .error e)
    (hl : '\n' ∉ line) : ∃ last : Text,
      let lines := ["| error> ".toList ++ e.reason.message, "|".toList, "| ".toList ++ line, last]
      e.report line false = lines.flatMap Text.line ∧
        (∀ l ∈ lines, l.head? = some '|' ∧ '\n' ∉ l) ∧
        (∀ j, last[j + 2]? = some '^' ↔ j < line.length ∧ e.span.start ≤ j ∧ j < e.span.stop) ∧
        last.getLast? = some '^' ∧
        ∃ before t after, Offends (tokenize line) before t after e ∧
          (Line.ofText line).slice e.span = t.raw ∧ t.raw ≠ [] ∧ last.count '^' = t.raw.length := by
  obtain ⟨before, t, after, h⟩ := exists_offends hp
  have htiles : Tiles line 0 (tokenize line) := tiles_place [] line
  have ht : t ∈ tokenize line := by simp [h.tokens]
  have hne : e.span.start < e.span.stop := by
    rw [h.span]
    exact htiles.nonempty t ht
  have hin : e.span.stop ≤ line.length := by
    rw [h.span]
    exact htiles.inside t ht
  have hlength : e.span.length = t.raw.length := h.length_span
  refine ⟨"| ".toList ++ LineError.carets e.span, ?_, ?_, fun j => ?_, ?_,
    before, t, after, h, ?_, ?_, ?_⟩
  · simp [LineError.report, LineError.bar, paintIf]
  · simp [h.not_mem_message hl, hl, LineError.not_mem_carets]
  · have hj : ("| ".toList ++ LineError.carets e.span)[j + 2]? =
        (LineError.carets e.span)[j]? := rfl
    rw [hj, LineError.getElem?_carets hne]
    omega
  · rw [List.getLast?_append, LineError.getLast?_carets]
    rfl
  · rw [h.span]
    exact htiles.slice t ht
  · exact List.ne_nil_of_length_pos (by rw [← hlength, Span.length]; omega)
  · rw [List.count_append, LineError.count_carets hne, hlength]
    exact Nat.zero_add _

/-- The quote of `é && 'ü` is not closed: it stands at the sixth character, whatever the characters
before it take in bytes. -/
theorem report_points_at_open_quote :
    let line := "é && 'ü".toList
    let e : LineError := ⟨⟨5, 7⟩, .unterminated⟩
    parse line = .error e ∧ '\n' ∉ line ∧ ∃ last : Text,
      e.report line false = ["| error> unterminated string".toList, "|".toList,
        "| é && 'ü".toList, last].flatMap Text.line ∧
      (∀ j, last[j + 2]? = some '^' ↔ j < 7 ∧ 5 ≤ j ∧ j < 7) ∧ last.getLast? = some '^' ∧
        last.count '^' = 2 := by
  have hp : parse "é && 'ü".toList = .error ⟨⟨5, 7⟩, .unterminated⟩ := by
    decide +kernel
  have hl : '\n' ∉ "é && 'ü".toList := by decide
  obtain ⟨last, hreport, -, hcarets, hlast, before, t, after, h, -, -, hcount⟩ :=
    report_points_at_token hp hl
  exact ⟨hp, hl, last, hreport, hcarets, hlast, hcount.trans h.length_span.symm⟩

end GitShell
