import GitShell.Proofs.Host.Places

/-!
# Host — Tree

A list of entries is a tree if each of them has a name of its own in a directory (`IsTree`).  What a
directory lists is then what stands below it, and a path goes on by one name from any directory that
it leads to, however it came there.

* `FileTree.isTree_empty`, `FileTree.IsTree.put`: trees, entry by entry; so `FileTree.isTree_nested`.
* `FileTree.IsTree.mem_list_iff`: what a directory lists.
* `FileTree.walk_append`: after a directory the walk goes on as from there.
* `FileTree.resolve_child`: a name and a slash more lead to the directory of this name, unless the
  path is too long.
-/

namespace GitShell

namespace Path

/-- A text that an entry of a directory can be named. -/
structure IsName (name : Text) : Prop where
  nonempty : name ≠ []
  notHere : name ≠ ['.']
  notUp : name ≠ ['.', '.']
  slash : '/' ∉ name
  nul : nul ∉ name

/-- Without a slash a path is one name. -/
theorem names_of_not_mem {name : Text} (h : '/' ∉ name) : names name = [name] := by
  induction name with
  | nil => rfl
  | cons c r ih =>
      rw [List.mem_cons, not_or] at h
      rw [names, if_neg (Ne.symm h.1), ih h.2]

/-- The last slash of a path ends a name, and what follows it is read on its own. -/
theorem exists_names {d : Text} (hd : d.getLast? = some '/') :
    ∃ ns, ∀ x, names (d ++ x) = ns ++ names x := by
  obtain ⟨q, rfl⟩ := List.getLast?_eq_some_iff.mp hd
  refine ⟨names q, fun x => ?_⟩
  rw [List.append_assoc, List.singleton_append, names_append_slash]

theorem isAbsolute_append {d : Text} (hd : d.getLast? = some '/') (x : Text) :
    isAbsolute (d ++ x) = isAbsolute d := by
  cases d with
  | nil => cases hd
  | cons c d => by_cases h : c = '/' <;> simp [isAbsolute, h]

end Path

namespace FileTree

/-! ### Trees -/

/-- One entry stands at a place, and each has a name in a directory. -/
structure IsTree (t : FileTree) : Prop where
  nodup : (t.entries.map Prod.fst).Nodup
  placed : ∀ p e, (p, e) ∈ t.entries →
    ∃ q name, p = q ++ [name] ∧ Path.IsName name ∧ t.find? q = some .directory

theorem isTree_empty : IsTree ⟨[]⟩ := ⟨List.nodup_nil, nofun⟩

section
variable {t : FileTree} {here p : Place} {name : Text} {e : Entry}

theorem mem_iff_lookup {entries : List (Place × Entry)} (h : (entries.map Prod.fst).Nodup) :
    (p, e) ∈ entries ↔ entries.lookup p = some e := by
  induction entries with
  | nil => simp
  | cons r entries ih =>
      obtain ⟨q, f⟩ := r
      rw [List.map_cons, List.nodup_cons] at h
      rw [List.mem_cons, List.lookup_cons, ih h.2]
      by_cases hq : p = q
      · subst hq
        have habsent : entries.lookup p ≠ some e := fun hp =>
          h.1 (List.mem_map.mpr ⟨(p, e), (ih h.2).mpr hp, rfl⟩)
        simp [habsent, eq_comm]
      · have hbeq : (p == q) = false := by simpa using hq
        simp [hq, hbeq]

theorem IsTree.mem_iff (h : t.IsTree) : (p, e) ∈ t.entries ↔ p ≠ [] ∧ t.find? p = some e := by
  cases p with
  | nil =>
      refine iff_of_false (fun hroot => ?_) fun hroot => hroot.1 rfl
      obtain ⟨q, n, hq, -⟩ := h.placed [] e hroot
      exact List.append_ne_nil_of_right_ne_nil q (List.cons_ne_nil n []) hq.symm
  | cons n p =>
      rw [mem_iff_lookup h.nodup, and_iff_right (List.cons_ne_nil n p)]
      rfl

/-- **Every entry** has a name in a directory. -/
theorem IsTree.parent (h : t.IsTree) (he : t.find? (p ++ [name]) = some e) :
    Path.IsName name ∧ t.find? p = some .directory := by
  obtain ⟨q, n, hq, hname, hdirectory⟩ :=
    h.placed _ e (h.mem_iff.mpr ⟨by simp, he⟩)
  obtain ⟨rfl, rfl⟩ := List.append_singleton_inj.mp hq
  exact ⟨hname, hdirectory⟩

theorem IsTree.put (h : t.IsTree) (hname : Path.IsName name) (hp : t.find? p = some .directory)
    (hfree : t.find? (p ++ [name]) ≠ some .directory) : (t.put (p ++ [name]) e).IsTree := by
  have hfind {q : Place} (hq : t.find? q = some .directory) :
      (t.put (p ++ [name]) e).find? q = some .directory := by
    rw [find?_put _ (by simp), if_neg (by rintro rfl; exact hfree hq), hq]
  constructor
  · rw [FileTree.put, List.map_cons, List.nodup_cons]
    refine ⟨fun hm => ?_, h.nodup.sublist (List.filter_sublist.map _)⟩
    obtain ⟨r, hr, hplace⟩ := List.mem_map.mp hm
    simpa [hplace] using (List.mem_filter.mp hr).2
  · intro q f hq
    rcases List.mem_cons.mp hq with hq | hq
    · cases hq
      exact ⟨p, name, rfl, hname, hfind hp⟩
    · obtain ⟨r, n, hr, hn, hdirectory⟩ := h.placed q f (List.mem_filter.mp hq).1
      exact ⟨r, n, hr, hn, hfind hdirectory⟩

/-- **A directory lists** what stands below it. -/
theorem IsTree.mem_list_iff (h : t.IsTree) {entry : Text × Bool} : entry ∈ t.list p ↔
    ∃ e, t.find? (p ++ [entry.1]) = some e ∧ e.isDirectory = entry.2 := by
  have hmem {e : Entry} : (p ++ [entry.1], e) ∈ t.entries ↔
      t.find? (p ++ [entry.1]) = some e := by
    rw [h.mem_iff, and_iff_right (by simp)]
  simp only [list, List.mem_filterMap, Prod.exists, ← hmem]
  constructor
  · rintro ⟨q, e, hq, hentry⟩
    split at hentry
    next n hn =>
      split at hentry
      next hp =>
        cases hentry
        obtain ⟨r, rfl⟩ := List.getLast?_eq_some_iff.mp hn
        rw [List.dropLast_concat] at hp
        exact ⟨e, hp ▸ hq, rfl⟩
      next => cases hentry
    next => cases hentry
  · rintro ⟨e, hq, he⟩
    exact ⟨_, e, hq, by simp [he]⟩

/-! ### Walking on -/

/-- **After a directory** the walk goes on as from there. -/
theorem walk_append {names rest : List Text} (h : t.walk here (names ++ [[]]) = .ok p)
    (hr : rest ≠ []) : t.walk here (names ++ rest) = t.walk p rest := by
  fun_induction placeFrom here names with
  | case1 here => cases h; rfl
  | case2 here name names hn ih =>
      rw [List.cons_append, walk, if_pos hn] at h ⊢
      exact ih h
  | case3 here names hn ih =>
      rw [List.cons_append, walk, if_neg hn, if_pos rfl] at h ⊢
      exact ih h
  | case4 here name names hn hu ih =>
      rw [List.cons_append, walk_cons_iff hn hu (by simp)] at h
      have hempty : (names ++ rest).isEmpty = false := by simp [hr]
      rw [List.cons_append, walk, if_neg hn, if_neg hu, hempty, if_neg Bool.false_ne_true, h.1]
      exact ih h.2

/-- After the path of a directory that ends in a slash the walk goes on as from this directory. -/
theorem resolve_append {d x : Text} (hslash : d.getLast? = some '/')
    (hd : t.resolve here d = .ok p) (hcheck : checkPath (d ++ x) = .ok ()) :
    t.resolve here (d ++ x) = t.walk p (Path.names x) := by
  obtain ⟨ns, hns⟩ := Path.exists_names hslash
  rw [resolve_eq (checkPath_of_resolve hd), ← List.append_nil d, hns,
    Path.isAbsolute_append hslash] at hd
  rw [resolve_eq hcheck, hns, Path.isAbsolute_append hslash]
  exact walk_append hd (Path.names_ne_nil x)

/-- **A name and a slash more** lead to the directory of this name. -/
theorem resolve_child {d : Text} (hslash : d.getLast? = some '/')
    (hd : t.resolve here d = .ok p) (hname : Path.IsName name)
    (hfind : t.find? (p ++ [name]) = some .directory)
    (hlength : Text.byteLength (d ++ name ++ ['/']) < Path.pathLimit) :
    t.resolve here (d ++ name ++ ['/']) = .ok (p ++ [name]) := by
  obtain ⟨hnul, hne, -⟩ := checkPath_eq_ok_iff.mp (checkPath_of_resolve hd)
  have hcheck : checkPath (d ++ name ++ ['/']) = .ok () := by
    have hne' : Path.nul ≠ '/' := by decide
    exact checkPath_eq_ok_iff.mpr ⟨by simp [hnul, hname.nul, hne'], by simp, hlength⟩
  have hhere : ¬ (name = [] ∨ name = ['.']) := not_or.mpr ⟨hname.nonempty, hname.notHere⟩
  rw [List.append_assoc] at hcheck ⊢
  rw [resolve_append hslash hd hcheck, Path.names_concat_slash, Path.names_of_not_mem hname.slash]
  exact (walk_cons_iff hhere hname.notUp (by simp)).mpr ⟨hfind, rfl⟩

end

/-! ### Nested directories -/

/-- Directories of one name, each in the one before it, and an empty file in the last one. -/
def nested (name : Text) (depth : Nat) (file : Text) : FileTree :=
  (directories depth).put (List.replicate depth name ++ [file]) (.file [] false)
where
  directories : Nat → FileTree
    | 0 => ⟨[]⟩
    | n + 1 => (directories n).put (List.replicate (n + 1) name) .directory

section
variable {name file : Text}

theorem find?_directories_of_lt {n : Nat} {p : Place} (h : n < p.length) :
    (nested.directories name n).find? p = none := by
  induction n with
  | zero =>
      cases p with
      | nil => cases h
      | cons => rfl
  | succ n ih =>
      rw [nested.directories, find?_put _ (by simp), if_neg, ih (by omega)]
      rintro rfl
      simp at h

theorem find?_directories {n k : Nat} (h : k ≤ n) :
    (nested.directories name n).find? (List.replicate k name) = some .directory := by
  induction n with
  | zero =>
      obtain rfl : k = 0 := by omega
      rfl
  | succ n ih =>
      rw [nested.directories, find?_put _ (by simp)]
      split
      next => rfl
      next hne => exact ih (Nat.le_of_lt_succ (Nat.lt_of_le_of_ne h fun hk => hne (by rw [hk])))

theorem isTree_directories (hname : Path.IsName name) (n : Nat) :
    (nested.directories name n).IsTree := by
  induction n with
  | zero => exact isTree_empty
  | succ n ih =>
      rw [nested.directories, List.replicate_succ']
      refine ih.put hname (find?_directories (Nat.le_refl n)) ?_
      rw [find?_directories_of_lt (by simp)]
      exact nofun

theorem isTree_nested (hname : Path.IsName name) (hfile : Path.IsName file) (n : Nat) :
    (nested name n file).IsTree := by
  refine (isTree_directories hname n).put hfile (find?_directories (Nat.le_refl n)) ?_
  rw [find?_directories_of_lt (by simp)]
  exact nofun

theorem find?_nested (name : Text) (n : Nat) (file : Text) :
    (nested name n file).find? (List.replicate n name ++ [file]) = some (.file [] false) := by
  rw [nested, find?_put _ (by simp), if_pos rfl]

theorem find?_nested_directory (file : Text) {k n : Nat} (h : k ≤ n) :
    (nested name n file).find? (List.replicate k name) = some .directory := by
  rw [nested, find?_put _ (by simp), if_neg, find?_directories h]
  intro heq
  have hlength := congrArg List.length heq
  simp at hlength
  omega

theorem length_list_nested_le (name : Text) (n : Nat) (file : Text) (p : Place) :
    ((nested name n file).list p).length ≤ n + 1 := by
  have hput (t : FileTree) (p : Place) (e : Entry) :
      (t.put p e).entries.length ≤ t.entries.length + 1 :=
    Nat.succ_le_succ (List.length_filter_le ..)
  have hdirectories : (nested.directories name n).entries.length ≤ n := by
    induction n with
    | zero => exact Nat.le_refl 0
    | succ n ih => exact Nat.le_trans (hput ..) (Nat.succ_le_succ ih)
  have hnested : (nested name n file).entries.length ≤ n + 1 :=
    Nat.le_trans (hput ..) (Nat.succ_le_succ hdirectories)
  exact Nat.le_trans (List.length_filterMap_le ..) hnested

end

end FileTree

end GitShell
