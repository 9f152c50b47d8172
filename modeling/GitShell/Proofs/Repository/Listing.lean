import GitShell.Proofs.Chain.Writing
import GitShell.Proofs.Text.ByteOrder
import GitShell.Proofs.Text.Lines
import GitShell.Repository.Query

/-!
# Repository — Listing

How git lists aliases, one on a line among lines of other scopes (`AliasListing`), and that they are
read back from the list.

* `ListLine.ofLine_read`: one line is read as its alias, and the line of another scope as nothing.
* `find?_foldl_add`: of several aliases of one name and scope, the last one stays.
* `ofText_listing`: so a list is read as the last command of each name, in each scope.
-/

namespace GitShell

/-! ### Lists -/

/-- Blank characters on one line, at least one. -/
structure InlineGap extends Gap where
  unbroken : '\n' ∉ text

/-- An alias as git lists it. -/
structure ListedAlias extends AliasEntry where
  afterScope : InlineGap
  afterName : InlineGap
  isName : Repository.isAliasName name = true
  /-- There is a command, -/
  ne : command ≠ []
  /-- on the same line, -/
  unbroken : '\n' ∉ command
  /-- and it starts and ends in no blank. -/
  starts : ∀ c ∈ command.head?, isBlank c = false
  ends : ∀ c ∈ command.getLast?, isBlank c = false

/-- The key of the alias and its command. -/
def ListedAlias.setting (a : ListedAlias) : Text :=
  AliasEntry.keyStart ++ (a.name ++ (a.afterName.text ++ a.command))

def ListedAlias.text (a : ListedAlias) : Text :=
  a.scope.name ++ (a.afterScope.text ++ a.setting)

/-- A text starts with the name of the scope and a blank. -/
def Scope.Opens (s : Scope) (t : Text) : Prop := ∃ c r, isBlank c = true ∧ t = s.name ++ c :: r

/-- A line of another scope, whatever it says. -/
structure ForeignLine where
  text : Text
  unbroken : '\n' ∉ text
  foreign : ∀ s : Scope, ¬ s.Opens text

/-- A line of a list. -/
inductive ListLine where
  | listed (a : ListedAlias)
  | foreign (l : ForeignLine)

namespace ListLine

def text : ListLine → Text
  | listed a => a.text
  | foreign l => l.text

/-- The alias on the line, if there is one. -/
def entry? : ListLine → Option AliasEntry
  | listed a => some a.toAliasEntry
  | foreign _ => none

end ListLine

/-- A list of aliases, as git prints it. -/
structure AliasListing where
  lines : List ListLine
  /-- A last line that is not ended, if there is one. -/
  unended : Option ListLine

namespace AliasListing

def text (l : AliasListing) : Text :=
  (l.lines.map ListLine.text).flatMap Text.line ++ (l.unended.map ListLine.text).getD []

/-- The aliases of the list, in order. -/
def entries (l : AliasListing) : List AliasEntry :=
  (l.lines ++ l.unended.toList).filterMap ListLine.entry?

end AliasListing

/-! ### Reading a line -/

/-- A gap starts with a blank. -/
theorem Gap.exists_cons (g : Gap) : ∃ c r, g.text = c :: r ∧ isBlank c = true := by
  obtain ⟨c, r, hg⟩ := List.exists_cons_of_ne_nil g.ne
  exact ⟨c, r, hg, List.all_eq_true.mp g.blank c (by simp [hg])⟩

namespace AliasEntry

/-- A word is read with the blanks after it. -/
theorem afterWord_append (w : Text) (g : Gap) {t : Text} (ht : ∀ c ∈ t.head?, isBlank c = false) :
    afterWord w (w ++ (g.text ++ t)) = some t := by
  obtain ⟨c, r, hg, hc⟩ := g.exists_cons
  have hblank : (g.text ++ t).head?.any isBlank = true := by simp [hg, hc]
  rw [afterWord, if_pos (List.isPrefixOf_iff_prefix.mpr (List.prefix_append _ _)), List.drop_left,
    if_pos hblank, Text.trimStart_append g.blank ht]

/-- Without the word, or without a blank after it, nothing is read. -/
theorem afterWord_eq_none {w t : Text} (h : ¬ ∃ c r, isBlank c = true ∧ t = w ++ c :: r) :
    afterWord w t = none := by
  rw [afterWord]
  split
  next hp =>
    obtain ⟨u, rfl⟩ := List.isPrefixOf_iff_prefix.mp hp
    rw [List.drop_left]
    cases u with
    | nil => rfl
    | cons c r => exact if_neg fun hc => h ⟨c, r, by simpa using hc, rfl⟩
  next => rfl

/-- **The key and the command** are cut at the blanks after the name. -/
theorem readKey_setting (a : ListedAlias) (scope : Scope) :
    readKey scope a.setting = some ⟨scope, a.name, a.command⟩ := by
  obtain ⟨hne, hname⟩ := Repository.isAliasName_iff.mp a.isName
  obtain ⟨c, r, hg, hc⟩ := a.afterName.exists_cons
  have hbreak : (!isBlank c) = false := by rw [hc]; rfl
  have hname' : ∀ c ∈ a.name, (!isBlank c) = true := fun c hmem => by rw [hname c hmem]; rfl
  have htake : (a.name ++ (a.afterName.text ++ a.command)).takeWhile (!isBlank ·) = a.name := by
    rw [List.takeWhile_append_of_pos hname', hg, List.cons_append, List.takeWhile_cons, hbreak]
    exact List.append_nil _
  have hdrop : (a.name ++ (a.afterName.text ++ a.command)).dropWhile (!isBlank ·) =
      a.afterName.text ++ a.command := by
    rw [List.dropWhile_append_of_pos hname', hg, List.cons_append, List.dropWhile_cons, hbreak]
    rfl
  have hlength : 2 ≤ (a.afterName.text ++ a.command).length := by
    have h₁ := List.length_pos_iff.mpr a.afterName.ne
    have h₂ := List.length_pos_iff.mpr a.ne
    rw [List.length_append]
    omega
  have htrim : Text.trim (a.afterName.text ++ a.command) = a.command := by
    rw [Text.trim, Text.trimStart_append a.afterName.blank a.starts,
      Text.trimEnd_of_getLast? a.ends]
  rw [readKey, ListedAlias.setting,
    if_pos (List.isPrefixOf_iff_prefix.mpr (List.prefix_append _ _)), List.drop_left]
  simp only [htake, hdrop, htrim]
  exact if_pos (by rw [decide_eq_true hlength, Bool.and_true]; simpa using hne)

end AliasEntry

/-- No text starts with the names of two scopes. -/
theorem Scope.eq_of_opens {s s' : Scope} {t : Text} (h : s.Opens t) (h' : s'.Opens t) : s = s' := by
  obtain ⟨c, r, -, rfl⟩ := h
  obtain ⟨d, u, -, h'⟩ := h'
  match s, s' with
  | .repository, .repository | .user, .user => rfl
  | .repository, .user =>
      have hhead : some 'l' = some 'g' := congrArg List.head? h'
      cases hhead
  | .user, .repository =>
      have hhead : some 'g' = some 'l' := congrArg List.head? h'
      cases hhead

theorem ListedAlias.opens (a : ListedAlias) : a.scope.Opens a.text := by
  obtain ⟨c, r, hg, hc⟩ := a.afterScope.exists_cons
  exact ⟨c, r ++ a.setting, hc, by rw [text, hg, List.cons_append]⟩

/-- A listed alias is read from its line. -/
theorem ListedAlias.ofLine_text (a : ListedAlias) :
    AliasEntry.ofLine a.text = some a.toAliasEntry := by
  have hstart : ∀ c ∈ a.setting.head?, isBlank c = false := by
    rintro c ⟨⟩
    decide
  have hread : AliasEntry.afterWord a.scope.name a.text = some a.setting :=
    AliasEntry.afterWord_append a.scope.name a.afterScope.toGap hstart
  have hother : ∀ s, s ≠ a.scope → AliasEntry.afterWord s.name a.text = none := fun s hs =>
    AliasEntry.afterWord_eq_none fun h => hs (Scope.eq_of_opens h a.opens)
  rw [AliasEntry.ofLine]
  cases hscope : a.scope with
  | repository =>
      rw [hscope] at hread
      rw [hread]
      exact (AliasEntry.readKey_setting a _).trans (by rw [← hscope])
  | user =>
      rw [hscope] at hread hother
      rw [hother .repository nofun, hread]
      exact (AliasEntry.readKey_setting a _).trans (by rw [← hscope])

theorem AliasEntry.ofLine_eq_none {t : Text} (h : ∀ s : Scope, ¬ s.Opens t) :
    AliasEntry.ofLine t = none := by
  rw [AliasEntry.ofLine, afterWord_eq_none (h .repository), afterWord_eq_none (h .user)]
  rfl

theorem ListedAlias.not_mem_text (a : ListedAlias) : '\n' ∉ a.text := by
  have hname : '\n' ∉ a.name := Repository.not_mem_of_isAliasName a.isName
  have hscope : '\n' ∉ a.scope.name := by cases a.scope <;> decide
  have hsetting : '\n' ∉ a.setting :=
    List.not_mem_append (by decide) (List.not_mem_append hname
      (List.not_mem_append a.afterName.unbroken a.unbroken))
  exact List.not_mem_append hscope (List.not_mem_append a.afterScope.unbroken hsetting)

/-- Its command is the end of the line, so there is no carriage return. -/
theorem ListedAlias.withoutReturn_text (a : ListedAlias) : a.text.withoutReturn = a.text := by
  have hlast : a.text.getLast? = a.command.getLast? := by
    rw [text, setting]
    simp only [← List.append_assoc]
    exact List.getLast?_append_of_ne_nil _ a.ne
  refine Text.withoutReturn_of_getLast? fun h => ?_
  have hblank : isBlank '\r' = false := a.ends _ (hlast ▸ h)
  exact absurd hblank (by decide)

namespace ListLine

theorem not_mem_text (l : ListLine) : '\n' ∉ l.text := by
  cases l with
  | listed a => exact a.not_mem_text
  | foreign l => exact l.unbroken

/-- **One line** is read as its alias, with or without a carriage return at its end. -/
theorem ofLine_read (l : ListLine) {t : Text} (ht : t = l.text ∨ t = l.text.withoutReturn) :
    AliasEntry.ofLine t = l.entry? := by
  cases l with
  | listed a =>
      have htext : t = a.text := ht.elim id (·.trans a.withoutReturn_text)
      rw [htext]
      exact a.ofLine_text
  | foreign l =>
      refine AliasEntry.ofLine_eq_none fun s h => l.foreign s ?_
      rcases ht with rfl | rfl
      · exact h
      · -- the carriage return was behind the blank
        obtain ⟨c, r, hc, hr⟩ := h
        rcases l.text.eq_withoutReturn_or with hsame | hreturn
        · exact ⟨c, r, hc, hsame.trans hr⟩
        · refine ⟨c, r ++ ['\r'], hc, hreturn.trans ?_⟩
          exact (congrArg (· ++ ['\r']) hr).trans (by simp)

theorem filterMap_ofLine (read : Text → Text)
    (hread : ∀ t, read t = t ∨ read t = t.withoutReturn) (ls : List ListLine) :
    (ls.map fun l => read l.text).filterMap AliasEntry.ofLine = ls.filterMap entry? := by
  rw [List.filterMap_map]
  exact List.filterMap_congr fun l _ => l.ofLine_read (hread l.text)

end ListLine

/-- **The lines of a list** are read as its aliases. -/
theorem AliasListing.filterMap_ofLine_lines (l : AliasListing) :
    l.text.lines.filterMap AliasEntry.ofLine = l.entries := by
  have hlines : ∀ t ∈ l.lines.map ListLine.text, '\n' ∉ t :=
    List.forall_mem_map.mpr fun line _ => line.not_mem_text
  have hended := ListLine.filterMap_ofLine Text.withoutReturn (fun _ => .inr rfl) l.lines
  have hunended : ((l.unended.map ListLine.text).getD []).lines.filterMap AliasEntry.ofLine =
      l.unended.toList.filterMap ListLine.entry? := by
    cases l.unended with
    | none => rfl
    | some line =>
        rw [Option.map_some, Option.getD_some, Option.toList_some,
          ← ListLine.filterMap_ofLine id fun _ => .inl rfl]
        by_cases hempty : line.text = []
        · have hnone : AliasEntry.ofLine [] = none := rfl
          simp [hempty, Text.lines, hnone]
        · rw [Text.lines_of_not_mem line.not_mem_text hempty]
          rfl
  rw [text, Text.lines_flatMap_line_append_of_not_mem hlines, List.filterMap_append, List.map_map,
    entries, List.filterMap_append, hunended]
  exact congrArg (· ++ _) hended

/-! ### Collecting the aliases -/

/-- The two are about one name in one scope. -/
def AliasEntry.Same (e e' : AliasEntry) : Prop := e.scope = e'.scope ∧ e.name = e'.name

/-- The last of the entries for its name and scope. -/
def AliasEntry.IsLast (e : AliasEntry) (es : List AliasEntry) : Prop :=
  ∃ before after, es = before ++ e :: after ∧ ∀ e' ∈ after, ¬ e'.Same e

theorem AliasEntry.isLast_concat {e e' : AliasEntry} {es : List AliasEntry} :
    e.IsLast (es ++ [e']) ↔ e = e' ∨ ¬ e'.Same e ∧ e.IsLast es := by
  constructor
  · rintro ⟨before, after, hes, hafter⟩
    rcases List.eq_nil_or_concat' after with rfl | ⟨init, last, rfl⟩
    · obtain ⟨-, hlast⟩ := List.append_inj' hes rfl
      exact .inl (List.cons.inj hlast).1.symm
    · rw [← List.cons_append, ← List.append_assoc] at hes
      obtain ⟨rfl, hlast⟩ := List.append_inj' hes rfl
      cases hlast
      exact .inr ⟨hafter e' (by simp), before, init, rfl, fun x hx => hafter x (by simp [hx])⟩
  · rintro (rfl | ⟨hother, before, after, rfl, hafter⟩)
    · exact ⟨es, [], rfl, nofun⟩
    · refine ⟨before, after ++ [e'], by simp, fun x hx => ?_⟩
      rcases List.mem_append.mp hx with hx | hx
      · exact hafter x hx
      · rwa [List.mem_singleton.mp hx]

namespace Aliases

theorem inScope_add (a : Aliases) (e : AliasEntry) (s : Scope) :
    (a.add e).inScope s =
      if e.scope = s then (a.inScope s).insert e.name e.command else a.inScope s := by
  rw [add]
  cases e.scope <;> cases s <;> rfl

/-- An entry is found under its name and scope, and leaves all others. -/
theorem find?_inScope_add (a : Aliases) (e : AliasEntry) (s : Scope) (name : Text) :
    ((a.add e).inScope s).find? name =
      if e.scope = s ∧ e.name = name then some e.command else (a.inScope s).find? name := by
  rw [inScope_add]
  by_cases hs : e.scope = s
  · rw [if_pos hs, Dictionary.find?_insert]
    exact if_congr ⟨fun h => ⟨hs, h.symm⟩, fun h => h.2.symm⟩ rfl rfl
  · rw [if_neg hs, if_neg fun h => hs h.1]

/-- **Of several aliases** of one name and scope, the last one stays. -/
theorem find?_foldl_add (es : List AliasEntry) (s : Scope) (name command : Text) :
    ((es.foldl add empty).inScope s).find? name = some command ↔
      AliasEntry.IsLast ⟨s, name, command⟩ es := by
  induction es using List.reverseRecOn with
  | nil =>
      refine iff_of_false (by cases s <;> nofun) ?_
      rintro ⟨before, after, hes, -⟩
      simp at hes
  | append_singleton es e ih =>
      rw [List.foldl_concat, find?_inScope_add, AliasEntry.isLast_concat]
      by_cases hsame : e.scope = s ∧ e.name = name
      · obtain ⟨rfl, rfl⟩ := hsame
        rw [if_pos ⟨rfl, rfl⟩, Option.some_inj]
        constructor
        · rintro rfl
          exact .inl rfl
        · rintro (h | ⟨hother, -⟩)
          · exact (congrArg AliasEntry.command h).symm
          · exact absurd ⟨rfl, rfl⟩ hother
      · rw [if_neg hsame, ih]
        refine ⟨fun h => .inr ⟨hsame, h⟩, fun h => ?_⟩
        rcases h with rfl | h
        · exact absurd ⟨rfl, rfl⟩ hsame
        · exact h.2

theorem mem_keys_foldl_add (es : List AliasEntry) (s : Scope) (name : Text) :
    name ∈ ((es.foldl add empty).inScope s).keys ↔ ∃ e ∈ es, e.scope = s ∧ e.name = name := by
  induction es using List.reverseRecOn with
  | nil => cases s <;> simp [empty, inScope, Dictionary.keys]
  | append_singleton es e ih =>
      rw [List.foldl_concat, inScope_add]
      split
      next hs =>
        rw [Dictionary.keys_insert, Text.mem_insertNew, ih]
        grind
      next hs =>
        rw [ih]
        grind

theorem pairwise_keys_foldl_add (es : List AliasEntry) (s : Scope) :
    ((es.foldl add empty).inScope s).keys.Pairwise (· < ·) := by
  induction es using List.reverseRecOn with
  | nil => cases s <;> exact .nil
  | append_singleton es e ih =>
      rw [List.foldl_concat, inScope_add]
      split
      · rw [Dictionary.keys_insert]
        exact Text.decides_le.pairwise_insertNew _ ih
      · exact ih

/-- **A list of aliases is read back.**  Each scope has the names that are listed for it, in their
order, each with the last command that is listed for it; and all names are in one list, in their
order. -/
theorem ofText_listing (l : AliasListing) :
    (∀ s, ((ofText l.text).inScope s).keys.Pairwise (·.bytes < ·.bytes) ∧
      ∀ name command, ((ofText l.text).inScope s).find? name = some command ↔
        AliasEntry.IsLast ⟨s, name, command⟩ l.entries) ∧
    (ofText l.text).names.Pairwise (·.bytes < ·.bytes) ∧
    ∀ name, name ∈ (ofText l.text).names ↔ ∃ e ∈ l.entries, e.name = name := by
  have hread : ofText l.text = l.entries.foldl add empty := by
    rw [ofText, l.filterMap_ofLine_lines]
  have hbytes {ts : List Text} (h : ts.Pairwise (· < ·)) : ts.Pairwise (·.bytes < ·.bytes) :=
    h.imp Text.bytes_lt_bytes_iff.mpr
  rw [hread]
  refine ⟨fun s => ⟨hbytes (pairwise_keys_foldl_add _ s), find?_foldl_add _ s⟩,
    hbytes (Text.decides_le.pairwise_sortedSet _), fun name => ?_⟩
  rw [names, Text.mem_sortedSet, List.mem_append]
  have hrepository := mem_keys_foldl_add l.entries .repository name
  have huser := mem_keys_foldl_add l.entries .user name
  refine (or_congr hrepository huser).trans ?_
  constructor
  · rintro (⟨e, he, -, hname⟩ | ⟨e, he, -, hname⟩) <;> exact ⟨e, he, hname⟩
  · rintro ⟨e, he, hname⟩
    cases hscope : e.scope with
    | repository => exact .inl ⟨e, he, hscope, hname⟩
    | user => exact .inr ⟨e, he, hscope, hname⟩

/-- A line of the system's scope, and two of one alias; the last line is not ended. -/
example :
    let gap : InlineGap := ⟨⟨⟨[' '], by decide⟩, by decide⟩, by decide⟩
    let first : ListedAlias := {
      scope := .repository, name := "st".toList, command := "status".toList
      afterScope := gap, afterName := gap, isName := by decide
      ne := by decide, unbroken := by decide
      starts := by rintro _ ⟨⟩; rfl
      ends := by rintro _ ⟨⟩; rfl }
    let second : ListedAlias := { first with
      command := "status -s".toList
      ne := by decide, unbroken := by decide
      starts := by rintro _ ⟨⟩; rfl
      ends := by rintro _ ⟨⟩; rfl }
    let other : ForeignLine := {
      text := "system alias.st log".toList, unbroken := by decide
      foreign := by rintro (_ | _) ⟨c, r, -, h⟩ <;> cases h }
    let list : AliasListing := ⟨[.foreign other, .listed first], some (.listed second)⟩
    list.text = "system alias.st log\nlocal alias.st status\nlocal alias.st status -s".toList ∧
      list.entries = [first.toAliasEntry, second.toAliasEntry] ∧
      ((ofText list.text).inScope .repository).find? "st".toList = some "status -s".toList := by
  decide

end Aliases

end GitShell
