import GitShell.Proofs.Host.Tree
import GitShell.Proofs.Session.Snapshot

/-!
# Repository — Paths

The candidates for a typed path: what stands in its directory, each with that directory before it and
a directory with a slash after it.

* `Path.directoryPart_append`: the directory of a path ends at its last slash.
* `Repository.mem_filePaths_iff`: the candidates are the entries of the directory, if it can be
  listed.
* `Host.HasEntry.exists_name`: a candidate that ends in a slash is a directory, and
  `Host.canList_child_iff`: it can be listed in turn, unless its path is too long, with that of the
  working directory before it (`Host.Fits`).
* `Host.canList_start`: `./` leads to where programs are started.
-/

namespace GitShell

namespace Path

/-- A typed path is that of its directory, and a text without a slash. -/
theorem exists_eq_append {typed : Text} (h : '/' ∈ typed) :
    ∃ d rest, typed = d ++ rest ∧ d.getLast? = some '/' ∧ '/' ∉ rest := by
  obtain ⟨us, vs, hsplit, hus⟩ := List.eq_append_cons_of_mem (List.mem_reverse.mpr h)
  refine ⟨vs.reverse ++ ['/'], us.reverse, ?_, List.getLast?_concat .., by simpa using hus⟩
  rw [← List.reverse_reverse typed, hsplit]
  simp

theorem dropWhile_reverse {rest : Text} (h : '/' ∉ rest) (us : Text) :
    (rest.reverse ++ us).dropWhile (· ≠ '/') = us.dropWhile (· ≠ '/') := by
  refine List.dropWhile_append_of_pos fun c hc => ?_
  rw [List.mem_reverse] at hc
  exact decide_eq_true fun hslash => h (hslash ▸ hc)

/-- The directory of a path ends at its last slash. -/
theorem directoryPart_append {d rest : Text} (hd : d.getLast? = some '/') (hrest : '/' ∉ rest) :
    directoryPart (d ++ rest) = some d := by
  obtain ⟨q, rfl⟩ := List.getLast?_eq_some_iff.mp hd
  rw [directoryPart, List.reverse_append, dropWhile_reverse hrest]
  simp

theorem directoryPart_of_not_mem {path : Text} (h : '/' ∉ path) : directoryPart path = none := by
  rw [directoryPart, ← List.append_nil path.reverse, dropWhile_reverse h]
  rfl

theorem nul_not_mem_append {p x : Text} (hp : nul ∉ p) (hx : nul ∉ x) : nul ∉ p ++ x :=
  fun h => (List.mem_append.mp h).elim hp hx

theorem child_append (w p x : Text) : child w (p ++ x) = child w p ++ x := by
  rw [child, child]
  split
  · rfl
  · rw [List.append_assoc]
  · rw [List.append_assoc, List.cons_append]

theorem join_append (w : Text) {d : Text} (hd : d.getLast? = some '/') (x : Text) :
    join w (d ++ x) = join w d ++ x := by
  rw [join, join, isAbsolute_append hd]
  split
  · rfl
  · exact child_append w d x

theorem exists_join_eq (w path : Text) : ∃ v, join w path = v ++ path := by
  rw [join]
  split
  · exact ⟨[], rfl⟩
  · exact ⟨child w [], child_append w [] path⟩

theorem getLast?_join (w : Text) {d : Text} (hd : d.getLast? = some '/') :
    (join w d).getLast? = some '/' := by
  obtain ⟨v, hv⟩ := exists_join_eq w d
  have hne : d ≠ [] := List.ne_nil_of_mem (List.mem_of_getLast? hd)
  rw [hv, List.getLast?_append_of_ne_nil v hne, hd]

end Path

/-- The text of an entry: its directory, its name, and a slash for a directory. -/
def entryText (directory name : Text) (e : Entry) : Text :=
  directory ++ name ++ if e.isDirectory then ['/'] else []

theorem entryText_of_ne {directory name : Text} {e : Entry} (he : e ≠ .directory) :
    entryText directory name e = directory ++ name := by
  cases e with
  | directory => exact absurd rfl he
  | file | garbled | setting | sink => exact List.append_nil _

/-- Only the text of a directory ends in a slash. -/
theorem eq_directory_of_slash {directory name : Text} {e : Entry} (hname : Path.IsName name)
    (h : (entryText directory name e).getLast? = some '/') : e = .directory := by
  by_contra he
  rw [entryText_of_ne he, List.getLast?_append_of_ne_nil _ hname.nonempty] at h
  exact hname.slash (List.mem_of_getLast? h)

namespace Host

/-- The place of a typed path. -/
def placeAt (h : Host) (path : Text) : Place := placeOf h.directory (h.joined path)

/-- The typed path leads to a directory. -/
def CanList (h : Host) (path : Text) : Prop := h.files.isDirectory h.directory (h.joined path) = true

/-- The typed path, with that of the working directory before it, is one that the system takes. -/
def Fits (h : Host) (path : Text) : Prop := Text.byteLength (h.joined path) < Path.pathLimit

instance (h : Host) (path : Text) : Decidable (h.Fits path) := inferInstanceAs (Decidable (_ < _))

/-- The text is that of an entry of the directory at a path. -/
def HasEntry (h : Host) (directory t : Text) : Prop :=
  ∃ name e, h.files.find? (h.placeAt directory ++ [name]) = some e ∧ t = entryText directory name e

section
variable {h : Host} {path : Text}

theorem joined_append (h : Host) {d : Text} (hd : d.getLast? = some '/') (x : Text) :
    h.joined (d ++ x) = h.joined d ++ x :=
  Path.join_append _ hd x

theorem getLast?_joined (h : Host) {d : Text} (hd : d.getLast? = some '/') :
    (h.joined d).getLast? = some '/' :=
  Path.getLast?_join _ hd

theorem Fits.byteLength_lt (hfits : h.Fits path) : path.byteLength < Path.pathLimit := by
  obtain ⟨v, hv⟩ := Path.exists_join_eq h.workingDirectory.path path
  rw [Fits, joined, hv, Text.byteLength_append] at hfits
  exact Nat.lt_of_le_of_lt (Nat.le_add_left ..) hfits

theorem CanList.resolve (hc : h.CanList path) :
    h.files.resolve h.directory (h.joined path) = .ok (h.placeAt path) ∧
      h.files.find? (h.placeAt path) = some .directory := by
  obtain ⟨p, hr, hd⟩ := FileTree.isDirectory_iff.mp hc
  obtain rfl : p = h.placeAt path := FileTree.eq_placeOf_of_resolve hr
  exact ⟨hr, hd⟩

theorem CanList.fits (hc : h.CanList path) : h.Fits path :=
  (FileTree.checkPath_eq_ok_iff.mp (FileTree.checkPath_of_resolve hc.resolve.1)).2.2

theorem placeAt_child (h : Host) {d name : Text} (hd : d.getLast? = some '/')
    (hname : Path.IsName name) : h.placeAt (d ++ name ++ ['/']) = h.placeAt d ++ [name] := by
  have hjoin := h.getLast?_joined hd
  obtain ⟨ns, hns⟩ := Path.exists_names hjoin
  have hnames : Path.names (h.joined d) = ns ++ [[]] := by
    rw [← List.append_nil (h.joined d), hns, Path.names]
  rw [placeAt, placeAt, List.append_assoc, h.joined_append hd, placeOf, placeOf,
    Path.isAbsolute_append hjoin, hns, hnames, Path.names_concat_slash,
    Path.names_of_not_mem hname.slash]
  simp [placeFrom_append, placeFrom, hname.nonempty, hname.notHere, hname.notUp]

/-- **A directory in a directory** that can be listed can be listed too, unless its path is too
long. -/
theorem canList_child_iff {d name : Text} (hd : d.getLast? = some '/') (hc : h.CanList d)
    (hname : Path.IsName name)
    (hfind : h.files.find? (h.placeAt d ++ [name]) = some .directory) :
    h.CanList (d ++ name ++ ['/']) ↔ h.Fits (d ++ name ++ ['/']) := by
  refine ⟨CanList.fits, fun hfits => FileTree.isDirectory_iff.mpr ⟨_, ?_, hfind⟩⟩
  rw [Fits, List.append_assoc, h.joined_append hd, ← List.append_assoc] at hfits
  rw [List.append_assoc, h.joined_append hd, ← List.append_assoc]
  exact FileTree.resolve_child (h.getLast?_joined hd) hc.resolve.1 hname hfind hfits

theorem HasEntry.isPrefix {directory t : Text} (ht : h.HasEntry directory t) : directory <+: t := by
  obtain ⟨name, e, -, rfl⟩ := ht
  rw [entryText, List.append_assoc]
  exact List.prefix_append ..

/-- **A candidate that ends in a slash** is a directory. -/
theorem HasEntry.exists_name (htree : h.files.IsTree) {directory t : Text}
    (ht : h.HasEntry directory t) (hslash : t.getLast? = some '/') :
    ∃ name, t = directory ++ name ++ ['/'] ∧ Path.IsName name ∧
      h.files.find? (h.placeAt directory ++ [name]) = some .directory := by
  obtain ⟨name, e, he, rfl⟩ := ht
  have hname := (htree.parent he).1
  obtain rfl := eq_directory_of_slash hname hslash
  exact ⟨name, rfl, hname, he⟩

end

/-! ### The working directory -/

theorem startPlace_eq_ok_iff {h : Host} {p : Place} : h.startPlace = .ok p ↔
    h.files.resolve h.directory h.workingDirectory.path = .ok p ∧
      h.files.find? p = some .directory := by
  rw [startPlace]
  cases hr : h.files.resolve h.directory h.workingDirectory.path with
  | error e => simp [bind, Except.bind]
  | ok q =>
      simp only [bind, Except.bind, Except.ok.injEq]
      cases hf : h.files.find? q with
      | none =>
          refine iff_of_false nofun ?_
          rintro ⟨rfl, hd⟩
          cases hf.symm.trans hd
      | some e =>
          by_cases he : e = .directory
          · subst he
            exact ⟨fun hp => ⟨Except.ok.inj hp, Except.ok.inj hp ▸ hf⟩, fun hp => congrArg _ hp.1⟩
          · refine iff_of_false (fun hp => ?_) ?_
            · cases e <;> first | exact he rfl | cases hp
            · rintro ⟨rfl, hd⟩
              exact he (Option.some.inj (hf.symm.trans hd))

/-- **Typed paths start** where programs are started, if its path is not too long. -/
theorem canList_start {h : Host} {p : Place} (hp : h.startPlace = .ok p)
    (hfits : h.Fits "./".toList) :
    h.CanList "./".toList ∧ h.placeAt "./".toList = p := by
  obtain ⟨hr, hd⟩ := startPlace_eq_ok_iff.mp hp
  obtain ⟨hnul, hne, -⟩ := FileTree.checkPath_eq_ok_iff.mp (FileTree.checkPath_of_resolve hr)
  -- the path of the working directory with a slash at its end
  obtain ⟨q, hq, hslash, hends⟩ : ∃ q, h.joined "./".toList = q ++ "./".toList ∧
      q.getLast? = some '/' ∧
        (q = h.workingDirectory.path ∨ q = h.workingDirectory.path ++ ['/']) := by
    rw [joined, Path.join, if_neg (by decide), Path.child]
    split
    next hlast => exact absurd (List.getLast?_eq_none_iff.mp hlast) hne
    next hlast => exact ⟨_, rfl, hlast, .inl rfl⟩
    next => exact ⟨h.workingDirectory.path ++ ['/'], by simp, List.getLast?_concat .., .inr rfl⟩
  have hnul' : Path.nul ∉ q := by
    rcases hends with rfl | rfl
    · exact hnul
    · exact Path.nul_not_mem_append hnul (by decide)
  have hcheck : FileTree.checkPath (q ++ "./".toList) = .ok () :=
    FileTree.checkPath_eq_ok_iff.mpr ⟨Path.nul_not_mem_append hnul' (by decide), by simp, hq ▸ hfits⟩
  have hresolve : h.files.resolve h.directory q = .ok p := by
    rcases hends with rfl | rfl
    · exact hr
    · refine (FileTree.resolve_concat_slash_iff hd hne ?_).mpr hr
      exact FileTree.checkPath_of_append (by simp) hcheck
  have hstart : h.files.resolve h.directory (h.joined "./".toList) = .ok p := by
    rw [hq, FileTree.resolve_append hslash hresolve hcheck]
    rfl
  exact ⟨FileTree.isDirectory_iff.mpr ⟨p, hstart, hd⟩, (FileTree.eq_placeOf_of_resolve hstart).symm⟩

/-! ### Paths of many slashes -/

section
variable {h : Host}

theorem byteLength_slashes (n : Nat) : Text.byteLength (List.replicate n '/') = n := by
  induction n with
  | zero => rfl
  | succ n ih =>
      rw [List.replicate_succ, Text.byteLength, ih, Nat.add_comm]
      rfl

theorem getLast?_slashes (n : Nat) :
    ("./".toList ++ List.replicate n '/').getLast? = some '/' := by
  cases n with
  | zero => rfl
  | succ n => rw [List.replicate_succ', ← List.append_assoc, List.getLast?_concat]

/-- A path of many slashes leads to the working directory. -/
theorem canList_slashes (hc : h.CanList "./".toList) {n : Nat}
    (hn : (h.joined "./".toList).byteLength + n < Path.pathLimit) :
    h.CanList ("./".toList ++ List.replicate n '/') ∧
      h.placeAt ("./".toList ++ List.replicate n '/') = h.placeAt "./".toList := by
  induction n with
  | zero => exact ⟨hc, rfl⟩
  | succ n ih =>
      obtain ⟨hlist, hplace⟩ := ih (by omega)
      have hdirectory := hlist.resolve
      have hjoin : h.joined ("./".toList ++ List.replicate (n + 1) '/') =
          h.joined ("./".toList ++ List.replicate n '/') ++ ['/'] := by
        rw [List.replicate_succ', ← List.append_assoc, h.joined_append (getLast?_slashes n)]
      obtain ⟨hnul, hne, -⟩ :=
        FileTree.checkPath_eq_ok_iff.mp (FileTree.checkPath_of_resolve hdirectory.1)
      have hcheck : FileTree.checkPath (h.joined ("./".toList ++ List.replicate n '/') ++ ['/']) =
          .ok () := by
        refine FileTree.checkPath_eq_ok_iff.mpr ⟨Path.nul_not_mem_append hnul (by decide),
          List.append_ne_nil_of_left_ne_nil hne _, ?_⟩
        rw [← hjoin, h.joined_append rfl, Text.byteLength_append, byteLength_slashes]
        exact hn
      have hresolve := (FileTree.resolve_concat_slash_iff hdirectory.2 hne hcheck).mpr hdirectory.1
      rw [← hjoin] at hresolve
      refine ⟨FileTree.isDirectory_iff.mpr ⟨_, hresolve, hdirectory.2⟩, ?_⟩
      rw [placeAt, ← FileTree.eq_placeOf_of_resolve hresolve, hplace]

end

end Host

namespace Repository

theorem answer_filePaths_of_not_mem (h : Host) {typed : Text} (hslash : '/' ∉ typed) :
    h.answer (filePaths typed) = [] := by
  rw [Host.answer, filePaths, run_get_bind, Path.directoryPart_of_not_mem hslash]
  rfl

section
variable {h : Host} {d rest : Text}

/-- The candidates for a path with a slash are made of the entries of a listing. -/
theorem exists_entries (h : Host) (hd : d.getLast? = some '/') (hrest : '/' ∉ rest) :
    ∃ entries : List (Text × Bool),
      (∀ entry, entry ∈ entries ↔ h.CanList d ∧ entry ∈ h.files.list (h.placeAt d)) ∧
      entries.length ≤ (h.files.list (h.placeAt d)).length ∧
      h.answer (filePaths (d ++ rest)) = entries.map fun (name, isDirectory) =>
        d ++ name ++ if isDirectory then ['/'] else [] := by
  rw [Host.answer, filePaths, run_get_bind, Path.directoryPart_append hd hrest]
  dsimp only
  cases hlist : h.files.listAt h.directory (h.joined d) with
  | ok entries =>
      obtain ⟨hc, rfl⟩ := FileTree.listAt_eq_ok_iff.mp hlist
      exact ⟨_, fun entry => (and_iff_right hc).symm, Nat.le_refl _, rfl⟩
  | error e =>
      have hc : ¬ h.CanList d := fun hc => by
        rw [FileTree.listAt_eq_ok_iff.mpr ⟨hc, rfl⟩] at hlist
        cases hlist
      exact ⟨[], fun entry => iff_of_false List.not_mem_nil fun he => hc he.1, Nat.zero_le _, rfl⟩

/-- **The candidates** are the entries of the directory, if it can be listed. -/
theorem mem_filePaths_iff (htree : h.files.IsTree) (hd : d.getLast? = some '/')
    (hrest : '/' ∉ rest) {t : Text} :
    t ∈ h.answer (filePaths (d ++ rest)) ↔ h.CanList d ∧ h.HasEntry d t := by
  obtain ⟨entries, hmem, -, hanswer⟩ := exists_entries h hd hrest
  simp only [hanswer, List.mem_map, hmem, htree.mem_list_iff, Host.HasEntry, entryText]
  constructor
  · rintro ⟨⟨name, b⟩, ⟨hc, e, he, rfl⟩, rfl⟩
    exact ⟨hc, name, e, he, rfl⟩
  · rintro ⟨hc, name, e, he, rfl⟩
    exact ⟨(name, e.isDirectory), ⟨hc, e, he, rfl⟩, rfl⟩

theorem length_filePaths_le (h : Host) (hd : d.getLast? = some '/') (hrest : '/' ∉ rest) :
    (h.answer (filePaths (d ++ rest))).length ≤ (h.files.list (h.placeAt d)).length := by
  obtain ⟨entries, -, hlength, hanswer⟩ := exists_entries h hd hrest
  rwa [hanswer, List.length_map]

end

end Repository

end GitShell
