import GitShell.Host.Files
import Mathlib.Data.List.Basic
import Mathlib.Data.List.Induction

/-!
# Host — Places

What stands where in a tree of files.  There are no links, so a path names one place however much of
it is there (`placeOf`), and the text of a file is what stands at this place (`textAt`).

* `FileTree.eq_placeOf_of_resolve`: a path that leads anywhere leads to its place.
* `FileTree.Grows`: a tree with more directories; `KeepsDirectories.resolve`: paths lead where they
  led before.
* `FileTree.resolve_withoutSlashes_iff`: to a directory a path leads with slashes at its end too.
-/

namespace GitShell

/-! ### Places -/

/-- The place that names lead to from a directory, whether they are there or not. -/
def placeFrom (here : Place) : List Text → Place
  | [] => here
  | name :: rest =>
    if name = [] ∨ name = ['.'] then placeFrom here rest
    else if name = ['.', '.'] then placeFrom here.dropLast rest
    else placeFrom (here ++ [name]) rest

theorem placeFrom_append (here : Place) (ns ms : List Text) :
    placeFrom here (ns ++ ms) = placeFrom (placeFrom here ns) ms := by
  fun_induction placeFrom here ns with
  | case1 here => rfl
  | case2 here name rest hn ih => rw [List.cons_append, placeFrom, if_pos hn, ih]
  | case3 here rest hn ih => rw [List.cons_append, placeFrom, if_neg hn, if_pos rfl, ih]
  | case4 here name rest hn hu ih => rw [List.cons_append, placeFrom, if_neg hn, if_neg hu, ih]

/-- The place of a path. -/
def placeOf (here : Place) (path : Text) : Place :=
  placeFrom (if Path.isAbsolute path then [] else here) (Path.names path)

/-- A slash in a path ends a name. -/
theorem Path.names_append_slash (v w : Text) : names (v ++ '/' :: w) = names v ++ names w := by
  induction v with
  | nil => rfl
  | cons c r ih =>
      rw [List.cons_append, names, names, ih]
      split
      · rfl
      · obtain ⟨n, ns, hns⟩ := List.exists_cons_of_ne_nil (names_ne_nil r)
        rw [hns]
        rfl

/-- A slash at the end of a path is followed by an empty name. -/
theorem Path.names_concat_slash (w : Text) : names (w ++ ['/']) = names w ++ [[]] :=
  names_append_slash w []

/-- Of a path with one more character the slashes at the end are those of the path, if the
character is a slash after a name. -/
theorem Path.withoutSlashes_concat (q : Text) (c : Char) :
    withoutSlashes (q ++ [c]) = q ++ [c] ∨
      c = '/' ∧ q ≠ [] ∧ withoutSlashes (q ++ [c]) = withoutSlashes q := by
  by_cases hc : c = '/'
  · subst hc
    by_cases hq : q.reverse.dropWhile (· = '/') = []
    · left
      simp [withoutSlashes, hq]
    · refine .inr ⟨rfl, ?_, ?_⟩
      · rintro rfl
        exact hq rfl
      · simp [withoutSlashes, hq]
  · left
    simp [withoutSlashes, hc]

theorem Path.withoutSlashes_of_getLast {path : Text} (h : path.getLast? ≠ some '/') :
    withoutSlashes path = path := by
  rcases List.eq_nil_or_concat' path with rfl | ⟨q, c, rfl⟩
  · rfl
  · rcases withoutSlashes_concat q c with hw | ⟨rfl, -, -⟩
    · exact hw
    · exact absurd (List.getLast?_concat ..) h

namespace FileTree

/-- The text of the file at a place; empty if there is none. -/
def textAt (t : FileTree) (p : Place) : Text :=
  match t.find? p with
  | some (.file content _) => content
  | _ => []

section
variable {t t' : FileTree} {here p : Place} {path : Text}

/-- A name with more after it has to be that of a directory. -/
theorem walk_cons_iff {name : Text} {rest : List Text} (hn : ¬ (name = [] ∨ name = ['.']))
    (hu : name ≠ ['.', '.']) (hr : rest ≠ []) : t.walk here (name :: rest) = .ok p ↔
      t.find? (here ++ [name]) = some .directory ∧ t.walk (here ++ [name]) rest = .ok p := by
  have hempty : rest.isEmpty = false := by simpa using hr
  rw [walk, if_neg hn, if_neg hu, hempty, if_neg Bool.false_ne_true]
  split <;> simp_all

theorem eq_placeFrom_of_walk {names : List Text} (h : t.walk here names = .ok p) :
    p = placeFrom here names := by
  fun_induction placeFrom here names with
  | case1 here => cases h; rfl
  | case2 here name rest hn ih =>
      rw [walk, if_pos hn] at h
      exact ih h
  | case3 here rest hn ih =>
      rw [walk, if_neg hn, if_pos rfl] at h
      exact ih h
  | case4 here name rest hn hu ih =>
      by_cases hr : rest = []
      · subst hr
        rw [walk, if_neg hn, if_neg hu] at h
        cases h
        rfl
      · exact ih ((walk_cons_iff hn hu hr).mp h).2

/-- The paths that can be walked. -/
theorem checkPath_eq_ok_iff : checkPath path = .ok () ↔
    Path.nul ∉ path ∧ path ≠ [] ∧ path.byteLength < Path.pathLimit := by
  rw [checkPath]
  split
  next hnul => simp_all
  next hnul =>
    split
    next hempty => simp_all
    next hempty => split <;> simp_all

theorem checkPath_of_resolve (h : t.resolve here path = .ok p) : checkPath path = .ok () := by
  rw [resolve] at h
  cases hc : checkPath path with
  | error e => rw [hc] at h; cases h
  | ok => rfl

theorem resolve_eq (h : checkPath path = .ok ()) :
    t.resolve here path = t.walk (if Path.isAbsolute path then [] else here) (Path.names path) := by
  rw [resolve, h]
  rfl

theorem eq_placeOf_of_resolve (h : t.resolve here path = .ok p) : p = placeOf here path := by
  rw [resolve_eq (checkPath_of_resolve h)] at h
  exact eq_placeFrom_of_walk h

/-! ### Putting an entry -/

theorem find?_root (t : FileTree) : t.find? [] = some .directory := rfl

theorem ne_root_of_find? (h : t.find? p ≠ some .directory) : p ≠ [] := by
  rintro rfl
  exact h t.find?_root

theorem ne_root_of_absent (h : t.find? p = none) : p ≠ [] :=
  ne_root_of_find? (t := t) (by simp [h])

theorem find?_put (t : FileTree) (hp : p ≠ []) (e : Entry) (q : Place) :
    (t.put p e).find? q = if q = p then some e else t.find? q := by
  have hfilter : q ≠ p → (t.entries.filter fun r => r.1 != p).lookup q = t.entries.lookup q := by
    intro hq
    induction t.entries with
    | nil => rfl
    | cons r entries ih =>
        by_cases hr : r.1 = p
        · have hqr : (q == r.1) = false := by simpa [hr] using hq
          rw [List.filter_cons_of_neg (by simpa using hr), ih, List.lookup_cons, hqr]
        · rw [List.filter_cons_of_pos (by simpa using hr), List.lookup_cons, List.lookup_cons, ih]
  by_cases hq : q = p
  · simp [find?, put, hp, hq]
  · rw [if_neg hq, find?, find?, put, List.lookup_cons]
    have hqp : (q == p) = false := by simpa using hq
    rw [hqp, hfilter hq]

/-! ### Trees with more directories -/

/-- The second tree has the entries of the first, and perhaps more directories. -/
def Grows (t t' : FileTree) : Prop :=
  ∀ q, t'.find? q = t.find? q ∨ t.find? q = none ∧ t'.find? q = some .directory

namespace Grows

theorem refl (t : FileTree) : t.Grows t := fun _ => .inl rfl

theorem trans {t₁ : FileTree} (h : t.Grows t₁) (h' : t₁.Grows t') : t.Grows t' := by
  intro q
  rcases h' q with hq | ⟨hn, hd⟩
  · rw [hq]
    exact h q
  · rcases h q with hq | ⟨-, hd'⟩
    · exact .inr ⟨hq ▸ hn, hd⟩
    · rw [hn] at hd'
      cases hd'

/-- No file changes. -/
theorem textAt_eq (h : t.Grows t') (q : Place) : t'.textAt q = t.textAt q := by
  rcases h q with hq | ⟨hn, hd⟩
  · rw [textAt, textAt, hq]
  · rw [textAt, textAt, hn, hd]

end Grows

/-- The directories of the first tree are directories of the second. -/
def KeepsDirectories (t t' : FileTree) : Prop :=
  ∀ q, t.find? q = some .directory → t'.find? q = some .directory

theorem Grows.keepsDirectories (h : t.Grows t') : t.KeepsDirectories t' := by
  intro q hd
  rcases h q with hq | ⟨hn, -⟩
  · rw [hq, hd]
  · rw [hd] at hn
    cases hn

/-- What can be walked to stays so as long as the directories stay. -/
theorem KeepsDirectories.walk (hk : t.KeepsDirectories t') {names : List Text}
    (h : t.walk here names = .ok p) : t'.walk here names = .ok p := by
  fun_induction placeFrom here names with
  | case1 here => exact h
  | case2 here name rest hn ih =>
      rw [FileTree.walk, if_pos hn] at h ⊢
      exact ih h
  | case3 here rest hn ih =>
      rw [FileTree.walk, if_neg hn, if_pos rfl] at h ⊢
      exact ih h
  | case4 here name rest hn hu ih =>
      by_cases hr : rest = []
      · subst hr
        rw [FileTree.walk, if_neg hn, if_neg hu] at h ⊢
        exact h
      · rw [walk_cons_iff hn hu hr] at h ⊢
        exact ⟨hk _ h.1, ih h.2⟩

theorem KeepsDirectories.resolve (hk : t.KeepsDirectories t') (h : t.resolve here path = .ok p) :
    t'.resolve here path = .ok p := by
  have hc := checkPath_of_resolve h
  rw [resolve_eq hc] at h ⊢
  exact hk.walk h

/-! ### Slashes at the end -/

/-- An empty name at the end changes nothing for a directory. -/
theorem walk_concat_empty_iff (hp : t.find? p = some .directory) (names : List Text) :
    t.walk here (names ++ [[]]) = .ok p ↔ t.walk here names = .ok p := by
  fun_induction placeFrom here names with
  | case1 here => rfl
  | case2 here name rest hn ih => rwa [List.cons_append, walk, if_pos hn, walk, if_pos hn]
  | case3 here rest hn ih =>
      rwa [List.cons_append, walk, if_neg hn, if_pos rfl, walk, if_neg hn, if_pos rfl]
  | case4 here name rest hn hu ih =>
      rw [List.cons_append, walk_cons_iff hn hu (by simp), ih]
      by_cases hr : rest = []
      · subst hr
        rw [walk, walk, if_neg hn, if_neg hu]
        simp only [List.isEmpty_nil, if_true, Except.ok.injEq, and_iff_right_iff_imp]
        rintro rfl
        exact hp
      · rw [walk_cons_iff hn hu hr]

theorem checkPath_of_append {x y : Text} (hx : x ≠ []) (h : checkPath (x ++ y) = .ok ()) :
    checkPath x = .ok () := by
  rw [checkPath_eq_ok_iff, Text.byteLength_append] at h
  obtain ⟨hnul, -, hlength⟩ := h
  exact checkPath_eq_ok_iff.mpr
    ⟨fun hm => hnul (List.mem_append_left y hm), hx, Nat.lt_of_le_of_lt (Nat.le_add_right ..) hlength⟩

theorem resolve_concat_slash_iff (hp : t.find? p = some .directory) {q : Text} (hq : q ≠ [])
    (hc : checkPath (q ++ ['/']) = .ok ()) :
    t.resolve here (q ++ ['/']) = .ok p ↔ t.resolve here q = .ok p := by
  obtain ⟨c, r, rfl⟩ := List.exists_cons_of_ne_nil hq
  have habsolute : Path.isAbsolute (c :: r ++ ['/']) = Path.isAbsolute (c :: r) := by
    by_cases h : c = '/' <;> simp [Path.isAbsolute, h]
  rw [resolve_eq hc, resolve_eq (checkPath_of_append hq hc), habsolute, Path.names_concat_slash,
    walk_concat_empty_iff hp]

/-- The slashes at the end of a path change nothing for a directory. -/
theorem resolve_withoutSlashes_iff (hp : t.find? p = some .directory)
    (hc : checkPath path = .ok ()) :
    t.resolve here (Path.withoutSlashes path) = .ok p ↔ t.resolve here path = .ok p := by
  induction path using List.reverseRecOn with
  | nil => rfl
  | append_singleton q c ih =>
      rcases Path.withoutSlashes_concat q c with hw | ⟨rfl, hq, hw⟩
      · rw [hw]
      · rw [hw, resolve_concat_slash_iff hp hq hc, ih (checkPath_of_append hq hc)]

theorem isDirectory_iff : t.isDirectory here path = true ↔
    ∃ p, t.resolve here path = .ok p ∧ t.find? p = some .directory := by
  rw [isDirectory, at?]
  cases hr : t.resolve here path with
  | error e => simp [bind, Except.bind]
  | ok p =>
      simp only [bind, Except.bind, Except.ok.injEq, exists_eq_left']
      cases hf : t.find? p with
      | none => simp [throw, throwThe, MonadExceptOf.throw]
      | some e => cases e <;> simp [pure, Except.pure]

theorem listAt_eq_ok_iff {entries : List (Text × Bool)} : t.listAt here path = .ok entries ↔
    t.isDirectory here path = true ∧ entries = t.list (placeOf here path) := by
  rw [listAt, isDirectory_iff]
  cases hr : t.resolve here path with
  | error e => simp [bind, Except.bind]
  | ok p =>
      obtain rfl := eq_placeOf_of_resolve hr
      simp only [bind, Except.bind, Except.ok.injEq, exists_eq_left']
      cases hf : t.find? (placeOf here path) with
      | none => simp [throw, throwThe, MonadExceptOf.throw]
      | some e => cases e <;> simp [throw, throwThe, MonadExceptOf.throw, pure, Except.pure, eq_comm]

end

end FileTree

end GitShell
