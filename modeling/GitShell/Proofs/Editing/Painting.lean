import GitShell.Editing.Highlight
import GitShell.Proofs.Line.Command

/-!
# Editing — Painting

What a line is painted as, apart from the questions that painting it asks.  The metadata is asked
about the words in command position only, from left to right, and the answers alone then decide the
painted parts (`paintFrom`).

* `annotateFrom_eq`: asking and painting is asking for all these words, and then painting.
* `commandMarks_annotateFrom`: the words painted as commands show exactly these answers.
* `commandSpans_paintFrom`, `joinSpans_paintFrom`: which tokens are painted as commands and as
  joins.
* `exists_kind_of_mem`: a part is painted only in a category of the kind of some token.

All of it holds in every lawful monad, so the metadata may remember, or change its mind.
-/

namespace GitShell

/-! ### The questions -/

/-- The tokens in command position among those that follow `left`. -/
def commandsFrom (left : List Token) : List Token → List Token
  | [] => []
  | t :: ts =>
    if commandPosition left t then t :: commandsFrom (t :: left) ts else commandsFrom (t :: left) ts

/-- The tokens of a line in command position. -/
def commandTokens (line : Text) : List Token := commandsFrom [] (tokenize line)

section
variable {left ts : List Token} {t : Token}

theorem commandsFrom_of_command (h : commandPosition left t = true) :
    commandsFrom left (t :: ts) = t :: commandsFrom (t :: left) ts := by
  rw [commandsFrom, if_pos h]

theorem commandsFrom_of_not (h : commandPosition left t = false) :
    commandsFrom left (t :: ts) = commandsFrom (t :: left) ts := by
  rw [commandsFrom, h]
  rfl

end

/-! ### The parts, once the answers are known -/

/-- The category of a word after `left`, if `known` says whether it names a command. -/
def wordCategory (known : Bool) (left : List Token) (t : Token) : Category :=
  if commandPosition left t then if known then .knownCommand else .unknownCommand
  else if t.kind = .word ∧ optionShaped t.raw = true ∧ optionsAllowedAt left t = true then .option
  else if t.quoted then .quotedWord
  else .argument

/-- The categories of the parts of a token of some kind. -/
def Kind.categories : Kind → List Category
  | .join _ => [.join]
  | .halfJoin => [.halfJoin]
  | .unterminated => [.unterminatedQuote, .unterminatedContent]
  | .word | .endOfOptions =>
    [.knownCommand, .unknownCommand, .quotedWord, .option, .argument]

/-- The painted parts of a token after `left`. -/
def paintToken (known : Bool) (left : List Token) (t : Token) : List (Span × Category) :=
  match t.kind with
  | .join _ => [(t.span, .join)]
  | .halfJoin => [(t.span, .halfJoin)]
  | .unterminated => (⟨t.start, t.start + 1⟩, .unterminatedQuote) ::
      if t.raw.length ≤ 1 then [] else [(⟨t.start + 1, t.stop⟩, .unterminatedContent)]
  | .word | .endOfOptions => [(t.span, wordCategory known left t)]

/-- The painted parts of the tokens that follow `left`; `answers` are about the commands among
them. -/
def paintFrom (left : List Token) : List Token → (answers : List Bool) → List (Span × Category)
  | [], _ => []
  | t :: ts, answers =>
    if commandPosition left t then
      paintToken (answers.headD false) left t ++ paintFrom (t :: left) ts answers.tail
    else paintToken false left t ++ paintFrom (t :: left) ts answers

/-- The painted parts of a line. -/
def painted (line : Text) (answers : List Bool) : List (Span × Category) :=
  paintFrom [] (tokenize line) answers

section
variable {m : Type → Type} [Monad m] [LawfulMonad m] (M : Metadata m) {left ts : List Token}
  {t : Token}

theorem categorize_word (ht : t.kind.isArgument = true) (right : List Token) :
    categorize M left t right =
      if commandPosition left t then
        (fun known => wordCategory known left t) <$> M.isCommand t.content
      else pure (wordCategory false left t) := by
  cases hk : t.kind with
  | join | halfJoin | unterminated => rw [hk] at ht; cases ht
  | word | endOfOptions =>
      cases h : commandPosition left t with
      | true =>
          simp [categorize, wordCategory, Cursor.isJoin, Cursor.kind?, Cursor.token?,
            Cursor.isCommand, Kind.isJoin, h, hk]
      | false =>
          by_cases ho : optionShaped t.raw = true ∧ optionsAllowedAt left t = true <;>
            by_cases hq : t.quoted = true <;>
            simp [categorize, wordCategory, Cursor.isJoin, Cursor.kind?, Cursor.token?,
              Cursor.isCommand, Cursor.isOption, Cursor.optionsAllowed, Kind.isJoin, h, hk, ho, hq]

/-- A word in command position is asked about, and no other token is. -/
theorem annotateToken_eq (left : List Token) (t : Token) (right : List Token) :
    annotateToken M left t right =
      if commandPosition left t then
        (fun known => paintToken known left t) <$> M.isCommand t.content
      else pure (paintToken false left t) := by
  cases hk : t.kind with
  | word | endOfOptions =>
      have ht : t.kind.isArgument = true := by rw [hk]; rfl
      rw [annotateToken, if_neg (by simp [hk]), categorize_word M ht]
      split <;> simp [paintToken, hk]
  | join | halfJoin | unterminated =>
      have h : commandPosition left t = false := by simp [commandPosition, hk, Kind.isArgument]
      rw [if_neg (by simp [h])]
      simp [annotateToken, categorize, paintToken, Cursor.isJoin, Cursor.kind?, Cursor.token?,
        Kind.isJoin, hk]

/-- **Asking and painting** is asking about the words in command position, in order, and painting
by the answers. -/
theorem annotateFrom_eq (left ts : List Token) :
    annotateFrom M left ts =
      paintFrom left ts <$> (commandsFrom left ts).mapM fun t => M.isCommand t.content := by
  induction ts generalizing left with
  | nil => simp [annotateFrom, commandsFrom, paintFrom]
  | cons t ts ih =>
      rw [annotateFrom, annotateToken_eq, ih (t :: left), commandsFrom]
      split
      next h => simp [paintFrom, h]
      next h => simp [paintFrom, h]

end

/-! ### What is painted as a command -/

/-- Whether a command is painted as known; nothing for a part that is no command. -/
def Category.known? : Category → Option Bool
  | .knownCommand => some true
  | .unknownCommand => some false
  | _ => none

/-- The parts that are painted as commands, in order, each with whether as a known one. -/
def commandParts (parts : List (Span × Category)) : List (Span × Bool) :=
  parts.filterMap fun a => a.2.known?.map (a.1, ·)

def commandSpans (parts : List (Span × Category)) : List Span := (commandParts parts).map (·.1)

def commandMarks (parts : List (Span × Category)) : List Bool := (commandParts parts).map (·.2)

/-- The parts that are painted as joins, in order. -/
def joinSpans (parts : List (Span × Category)) : List Span :=
  (parts.filter (·.2 == .join)).map (·.1)

theorem commandParts_append (as bs : List (Span × Category)) :
    commandParts (as ++ bs) = commandParts as ++ commandParts bs :=
  List.filterMap_append

theorem joinSpans_append (as bs : List (Span × Category)) :
    joinSpans (as ++ bs) = joinSpans as ++ joinSpans bs := by
  simp [joinSpans]

section
variable {left ts : List Token} {t : Token} {known : Bool}

theorem known?_wordCategory : (wordCategory known left t).known? =
    if commandPosition left t then some known else none := by
  unfold wordCategory
  split
  · cases known <;> rfl
  · split
    · rfl
    · split <;> rfl

theorem wordCategory_mem : wordCategory known left t ∈ Kind.word.categories := by
  unfold wordCategory
  split
  · cases known <;> decide
  · split
    · decide
    · split <;> decide

theorem paintToken_word (ht : t.kind.isArgument = true) :
    paintToken known left t = [(t.span, wordCategory known left t)] := by
  cases hk : t.kind <;> simp_all [paintToken, Kind.isArgument]

theorem commandParts_paintToken : commandParts (paintToken known left t) =
    if commandPosition left t then [(t.span, known)] else [] := by
  cases hk : t.kind with
  | word | endOfOptions =>
      have ht : t.kind.isArgument = true := by rw [hk]; rfl
      simp only [paintToken_word ht, commandParts, List.filterMap_cons, known?_wordCategory,
        List.filterMap_nil]
      cases commandPosition left t <;> rfl
  | join | halfJoin =>
      simp [paintToken, commandPosition, commandParts, Category.known?, Kind.isArgument, hk]
  | unterminated =>
      simp only [paintToken, commandPosition, commandParts, Kind.isArgument, hk]
      split <;> rfl

theorem joinSpans_paintToken : joinSpans (paintToken known left t) =
    if t.kind.isJoin then [t.span] else [] := by
  cases hk : t.kind with
  | word | endOfOptions =>
      have ht : t.kind.isArgument = true := by rw [hk]; rfl
      have hne : wordCategory known left t ≠ .join := fun h => by
        have hmem := @wordCategory_mem left t known
        rw [h] at hmem
        revert hmem
        decide
      simp [paintToken_word ht, joinSpans, hne, Kind.isJoin]
  | join | halfJoin => simp [paintToken, joinSpans, Kind.isJoin, hk]
  | unterminated =>
      simp only [paintToken, joinSpans, Kind.isJoin, hk]
      split <;> rfl

/-- The commands are painted over the tokens in command position. -/
theorem commandSpans_paintFrom (left ts : List Token) (answers : List Bool) :
    commandSpans (paintFrom left ts answers) = (commandsFrom left ts).map Token.span := by
  unfold commandSpans
  induction ts generalizing left answers with
  | nil => rfl
  | cons t ts ih =>
      cases h : commandPosition left t <;>
        simp [paintFrom, commandsFrom, commandParts_append, commandParts_paintToken, ih, h]

/-- The joins are painted over the joins. -/
theorem joinSpans_paintFrom (left ts : List Token) (answers : List Bool) :
    joinSpans (paintFrom left ts answers) = (ts.filter (·.kind.isJoin)).map Token.span := by
  induction ts generalizing left answers with
  | nil => rfl
  | cons t ts ih =>
      cases h : commandPosition left t <;> cases hj : t.kind.isJoin <;>
        simp [paintFrom, joinSpans_append, joinSpans_paintToken, ih, h, hj]

end

section
variable {m : Type → Type} [Monad m] [LawfulMonad m] (M : Metadata m)

/-- **The parts painted as commands show what the metadata said** about the words in command
position, in order; and it is asked about nothing else. -/
theorem commandMarks_annotateFrom (left ts : List Token) :
    commandMarks <$> annotateFrom M left ts =
      (commandsFrom left ts).mapM fun t => M.isCommand t.content := by
  induction ts generalizing left with
  | nil => simp [annotateFrom, commandsFrom, commandMarks, commandParts]
  | cons t ts ih =>
      have hmarks : ∀ (known : Bool) (bs : List (Span × Category)),
          commandMarks (paintToken known left t ++ bs) =
            if commandPosition left t then known :: commandMarks bs else commandMarks bs := by
        intro known bs
        rw [commandMarks, commandParts_append, commandParts_paintToken]
        split <;> rfl
      rw [annotateFrom, annotateToken_eq, commandsFrom]
      cases h : commandPosition left t with
      | true => simp [← ih (t :: left), hmarks, h]
      | false => simp [← ih (t :: left), hmarks, h]

end

/-! ### What else is painted -/

section
variable {left ts us : List Token} {t : Token} {known : Bool} {a : Span × Category}

theorem mem_paintFrom {answers : List Bool} (h : a ∈ paintFrom left ts answers) :
    ∃ t ∈ ts, ∃ known l, a ∈ paintToken known l t := by
  induction ts generalizing left answers with
  | nil => cases h
  | cons t ts ih =>
      rw [paintFrom] at h
      split at h
      all_goals
        rcases List.mem_append.mp h with h | h
        · exact ⟨t, .head _, _, _, h⟩
        · obtain ⟨u, hu, h⟩ := ih h
          exact ⟨u, .tail _ hu, h⟩

/-- The painted parts of tokens and others after them. -/
theorem exists_paintFrom_append (left ts us : List Token) (answers : List Bool) :
    ∃ more, paintFrom left (ts ++ us) answers =
      paintFrom left ts answers ++ paintFrom (ts.reverse ++ left) us more := by
  induction ts generalizing left answers with
  | nil => exact ⟨answers, rfl⟩
  | cons t ts ih =>
      rw [List.cons_append, paintFrom, paintFrom, List.reverse_cons, List.append_assoc,
        List.singleton_append]
      split
      · obtain ⟨more, hmore⟩ := ih (t :: left) answers.tail
        exact ⟨more, by rw [hmore, List.append_assoc]⟩
      · obtain ⟨more, hmore⟩ := ih (t :: left) answers
        exact ⟨more, by rw [hmore, List.append_assoc]⟩

/-- The parts of a token are in the categories of its kind. -/
theorem mem_categories (h : a ∈ paintToken known left t) : a.2 ∈ t.kind.categories := by
  cases hk : t.kind with
  | word | endOfOptions =>
      have ht : t.kind.isArgument = true := by rw [hk]; rfl
      rw [paintToken_word ht, List.mem_singleton] at h
      rw [h]
      exact wordCategory_mem
  | join | halfJoin =>
      simp only [paintToken, hk, List.mem_singleton] at h
      rw [h]
      exact .head _
  | unterminated =>
      simp only [paintToken, hk, List.mem_cons] at h
      rcases h with rfl | h
      · exact .head _
      · split at h
        · cases h
        · rw [List.mem_singleton.mp h]
          exact .tail _ (.head _)

/-- So a part in a category of one kind only tells the kind of a token. -/
theorem exists_kind_of_mem {answers : List Bool} (h : a ∈ paintFrom left ts answers) :
    ∃ t ∈ ts, a.2 ∈ t.kind.categories := by
  obtain ⟨t, ht, known, l, h⟩ := mem_paintFrom h
  exact ⟨t, ht, mem_categories h⟩

/-- An open quote is painted in one part, or in two that touch. -/
theorem paintToken_open_quote (hk : t.kind = .unterminated) (hpos : t.start < t.stop) :
    paintToken known left t = [(t.span, .unterminatedQuote)] ∨
      ∃ q c : Span, paintToken known left t =
          [(q, .unterminatedQuote), (c, .unterminatedContent)] ∧
        q.stop = c.start ∧ t.span = ⟨q.start, c.stop⟩ := by
  by_cases hlen : t.raw.length ≤ 1
  · have hspan : t.span = ⟨t.start, t.start + 1⟩ := by
      rw [Token.stop] at hpos
      rw [Token.span, Token.stop]
      congr
      omega
    exact .inl (by simp [paintToken, hk, hlen, hspan])
  · exact .inr ⟨⟨t.start, t.start + 1⟩, ⟨t.start + 1, t.stop⟩, by simp [paintToken, hk, hlen],
      rfl, rfl⟩

end

end GitShell
