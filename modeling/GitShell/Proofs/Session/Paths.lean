import GitShell.Proofs.Editing.Enumeration
import GitShell.Proofs.Repository.Paths

/-!
# Session — Paths

A path is completed to one in the same directory, and what ends in a slash can be completed again, to
the entries of that directory.  So from `./` one comes to everything below the working directory, as
far as the paths of the directories on the way, with that of the working directory before them, are
not too long for the system.

* `Shell.exists_of_mem_offered`: what is offered is an entry of the directory of the typed path.
* `Shell.canList_of_mem_offered`: what is offered with a slash at its end can be listed in turn, if its
  path is not too long; `Shell.offered_of_not_fits`: else nothing is offered for it.
* `Shell.reached_iff`: what one comes to from `./`.
* `Shell.paths_walk_tree`: all of it, with the order and the limit.
-/

namespace GitShell

/-- The path from the working directory to a directory below it. -/
def Path.below (names : List Text) : Text := "./".toList ++ names.flatMap (· ++ ['/'])

theorem Path.below_concat (names : List Text) (name : Text) :
    below (names ++ [name]) = below names ++ name ++ ['/'] := by
  simp [below]

theorem Path.getLast?_below (names : List Text) : (below names).getLast? = some '/' := by
  rcases List.eq_nil_or_concat' names with rfl | ⟨ns, name, rfl⟩
  · rfl
  · rw [below_concat, List.getLast?_concat]

theorem Path.byteLength_below_le (n : Nat) :
    2 * n ≤ Text.byteLength (below (List.replicate n ['d'])) := by
  induction n with
  | zero => exact Nat.zero_le _
  | succ n ih =>
      rw [List.replicate_succ', below_concat, Text.byteLength_append, Text.byteLength_append]
      have hname : Text.byteLength ['d'] = 1 := rfl
      have hslash : Text.byteLength ['/'] = 1 := rfl
      omega

/-- The paths on the way are shorter. -/
theorem Host.Fits.of_concat {h : Host} {names : List Text} {name : Text}
    (hfits : h.Fits (Path.below (names ++ [name]))) : h.Fits (Path.below names) := by
  rw [Fits, Path.below_concat, List.append_assoc, h.joined_append (Path.getLast?_below names),
    Text.byteLength_append] at hfits
  exact Nat.lt_of_le_of_lt (Nat.le_add_right ..) hfits

namespace Shell

/-- What is offered for a typed path. -/
def offered (v : Verbosity) (sh : Shell) (typed : Text) (limit : Nat) : List Text :=
  (((metadata v).filePaths typed limit).run sh).1

/-- The texts with `P` are offered for a typed path, by the number of characters and then byte by
byte, up to the limit; and the question leaves everything as it is. -/
def Offers (v : Verbosity) (sh : Shell) (typed : Text) (P : Text → Prop) : Prop :=
  ∃ all : List Text, all.Pairwise Precedes ∧ (∀ t, t ∈ all ↔ P t) ∧
    ∀ limit, ((metadata v).filePaths typed limit).run sh = (all.take limit, sh)

/-- The texts that one comes to from `./`, when what ends in a slash is completed again. -/
inductive Reached (v : Verbosity) (sh : Shell) (limit : Nat) : Text → Prop where
  | start : Reached v sh limit "./".toList
  | next {r t : Text} (hr : Reached v sh limit r) (hslash : r.getLast? = some '/')
      (ht : t ∈ offered v sh r limit) : Reached v sh limit t

section
variable {v : Verbosity} {sh : Shell} {limit : Nat} {p : Place} {d rest r t typed : Text}

theorem offered_eq : offered v sh typed limit =
    narrow (sh.host.answer (Repository.filePaths typed)) typed limit := by
  rw [offered, metadata_filePaths, Host.answer]

theorem offers_of_mem_iff {P : Text → Prop}
    (h : ∀ t, t ∈ sh.host.answer (Repository.filePaths typed) ∧ typed <+: t ↔ P t) :
    Offers v sh typed P := by
  have hall := enumerates_enumeration (sh.host.answer (Repository.filePaths typed)) typed
  refine ⟨_, hall.increasing, fun t => (hall.mem_iff t).trans (h t), fun limit => ?_⟩
  rw [metadata_filePaths, ← narrow_of_enumerates hall, Host.answer]

/-- **What is offered** is an entry of the directory of the typed path. -/
theorem exists_of_mem_offered (htree : sh.host.files.IsTree) (h : t ∈ offered v sh typed limit) :
    ∃ d rest, typed = d ++ rest ∧ d.getLast? = some '/' ∧ '/' ∉ rest ∧ sh.host.CanList d ∧
      sh.host.HasEntry d t := by
  rw [offered_eq] at h
  have hmem := (mem_of_mem_narrow h).1
  by_cases hslash : '/' ∈ typed
  · obtain ⟨d, rest, rfl, hd, hrest⟩ := Path.exists_eq_append hslash
    exact ⟨d, rest, rfl, hd, hrest, (Repository.mem_filePaths_iff htree hd hrest).mp hmem⟩
  · rw [Repository.answer_filePaths_of_not_mem _ hslash] at hmem
    cases hmem

/-- For a path that ends in a slash all entries of its directory continue it. -/
theorem mem_filePaths_iff_of_slash (htree : sh.host.files.IsTree) (hd : d.getLast? = some '/') :
    t ∈ sh.host.answer (Repository.filePaths d) ∧ d <+: t ↔
      sh.host.CanList d ∧ sh.host.HasEntry d t := by
  have hmem := Repository.mem_filePaths_iff htree hd List.not_mem_nil (t := t)
  rw [List.append_nil] at hmem
  rw [hmem]
  exact ⟨And.left, fun h => ⟨h, h.2.isPrefix⟩⟩

/-- **For a path that ends in a slash** all entries of its directory are offered, if the limit cuts
nothing off. -/
theorem mem_offered_iff (htree : sh.host.files.IsTree) (hd : d.getLast? = some '/')
    (hlimit : (sh.host.files.list (sh.host.placeAt d)).length ≤ limit) :
    t ∈ offered v sh d limit ↔ sh.host.CanList d ∧ sh.host.HasEntry d t := by
  have hlength := Repository.length_filePaths_le sh.host hd (List.not_mem_nil (a := '/'))
  rw [List.append_nil] at hlength
  rw [offered_eq, mem_narrow_iff (hlength.trans hlimit), mem_filePaths_iff_of_slash htree hd]

/-- Nothing is offered for a path that is too long. -/
theorem offered_of_not_fits (htree : sh.host.files.IsTree) (hd : d.getLast? = some '/')
    (hlong : ¬ sh.host.Fits d) : offered v sh d limit = [] := by
  rw [List.eq_nil_iff_forall_not_mem]
  intro t ht
  rw [offered_eq] at ht
  exact hlong ((mem_filePaths_iff_of_slash htree hd).mp (mem_of_mem_narrow ht)).1.fits

/-- **A directory that is offered** can be listed, if its path is not too long. -/
theorem canList_of_mem_offered (htree : sh.host.files.IsTree) (h : r ∈ offered v sh typed limit)
    (hslash : r.getLast? = some '/') :
    sh.host.files.find? (sh.host.placeAt r) = some .directory ∧
      (sh.host.CanList r ↔ sh.host.Fits r) := by
  obtain ⟨d, rest, -, hd, -, hc, he⟩ := exists_of_mem_offered htree h
  obtain ⟨name, rfl, hname, hfind⟩ := he.exists_name htree hslash
  exact ⟨by rw [Host.placeAt_child _ hd hname, hfind], Host.canList_child_iff hd hc hname hfind⟩

/-! ### Below the working directory -/

theorem canList_below (htree : sh.host.files.IsTree) (hstart : sh.host.startPlace = .ok p)
    (names : List Text) (hfind : sh.host.files.find? (p ++ names) = some .directory)
    (hfits : sh.host.Fits (Path.below names)) :
    sh.host.CanList (Path.below names) ∧ sh.host.placeAt (Path.below names) = p ++ names := by
  induction names using List.reverseRecOn with
  | nil =>
      rw [List.append_nil]
      exact Host.canList_start hstart hfits
  | append_singleton names name ih =>
      rw [← List.append_assoc] at hfind ⊢
      obtain ⟨hname, hparent⟩ := htree.parent hfind
      obtain ⟨hc, hplace⟩ := ih hparent hfits.of_concat
      have hd := Path.getLast?_below names
      rw [← hplace] at hfind
      rw [Path.below_concat] at hfits ⊢
      exact ⟨(Host.canList_child_iff hd hc hname hfind).mpr hfits,
        by rw [Host.placeAt_child _ hd hname, hplace]⟩

/-- The text is that of something below the working directory, which is at `p`, with a path to its
directory that is not too long. -/
def Below (sh : Shell) (p : Place) (t : Text) : Prop :=
  ∃ names name e, sh.host.files.find? (p ++ names ++ [name]) = some e ∧
    sh.host.Fits (Path.below names) ∧ t = entryText (Path.below names) name e

/-- The entries of a directory below the working directory. -/
theorem below_of_hasEntry (htree : sh.host.files.IsTree) (hstart : sh.host.startPlace = .ok p)
    {names : List Text} (hfind : sh.host.files.find? (p ++ names) = some .directory)
    (hc : sh.host.CanList (Path.below names)) (ht : sh.host.HasEntry (Path.below names) t) :
    sh.Below p t := by
  obtain ⟨name, e, he, rfl⟩ := ht
  rw [(canList_below htree hstart names hfind hc.fits).2] at he
  exact ⟨names, name, e, he, hc.fits, rfl⟩

/-- **One comes only** to what is below the working directory. -/
theorem Reached.eq_or_below (htree : sh.host.files.IsTree) (hstart : sh.host.startPlace = .ok p)
    (h : Reached v sh limit t) : t = "./".toList ∨ sh.Below p t := by
  induction h with
  | start => exact .inl rfl
  | @next r t _ hslash ht ih =>
      obtain ⟨d, rest, rfl, hd, hrest, hc, he⟩ := exists_of_mem_offered htree ht
      -- the directory of what ends in a slash is all of it
      obtain rfl : rest = [] := by
        by_contra hne
        rw [List.getLast?_append_of_ne_nil _ hne] at hslash
        exact hrest (List.mem_of_getLast? hslash)
      rw [List.append_nil] at ih
      obtain ⟨names, rfl, hfind⟩ : ∃ names, d = Path.below names ∧
          sh.host.files.find? (p ++ names) = some .directory := by
        rcases ih with rfl | ⟨names, name, e, hfind, -, rfl⟩
        · exact ⟨[], rfl, by rw [List.append_nil]; exact (Host.startPlace_eq_ok_iff.mp hstart).2⟩
        · obtain rfl := eq_directory_of_slash (htree.parent hfind).1 hd
          exact ⟨names ++ [name], (Path.below_concat ..).symm, by rwa [← List.append_assoc]⟩
      exact .inr (below_of_hasEntry htree hstart hfind hc he)

/-- What is below is offered for the path of its directory, if the limit cuts nothing off. -/
theorem mem_offered_below (v : Verbosity) (htree : sh.host.files.IsTree)
    (hstart : sh.host.startPlace = .ok p)
    (hlimit : ∀ names, (sh.host.files.list (p ++ names)).length ≤ limit)
    {names : List Text} {name : Text} {e : Entry}
    (hfind : sh.host.files.find? (p ++ names ++ [name]) = some e)
    (hfits : sh.host.Fits (Path.below names)) :
    entryText (Path.below names) name e ∈ offered v sh (Path.below names) limit := by
  obtain ⟨hc, hplace⟩ := canList_below htree hstart names (htree.parent hfind).2 hfits
  rw [mem_offered_iff htree (Path.getLast?_below names) (by rw [hplace]; exact hlimit names)]
  exact ⟨hc, name, e, by rw [hplace, hfind], rfl⟩

theorem reached_below (v : Verbosity) (htree : sh.host.files.IsTree)
    (hstart : sh.host.startPlace = .ok p)
    (hlimit : ∀ names, (sh.host.files.list (p ++ names)).length ≤ limit) (names : List Text)
    (hfind : sh.host.files.find? (p ++ names) = some .directory)
    (hfits : sh.host.Fits (Path.below names)) : Reached v sh limit (Path.below names) := by
  induction names using List.reverseRecOn with
  | nil => exact .start
  | append_singleton names name ih =>
      rw [← List.append_assoc] at hfind
      have hparent : Reached v sh limit (Path.below names) :=
        ih (htree.parent hfind).2 hfits.of_concat
      rw [Path.below_concat]
      exact .next hparent (Path.getLast?_below names)
        (mem_offered_below v htree hstart hlimit hfind hfits.of_concat)

/-- **One comes to** all that is below the working directory, if the limit cuts nothing off. -/
theorem reached_iff (v : Verbosity) (htree : sh.host.files.IsTree)
    (hstart : sh.host.startPlace = .ok p)
    (hlimit : ∀ names, (sh.host.files.list (p ++ names)).length ≤ limit) :
    Reached v sh limit t ↔ t = "./".toList ∨ sh.Below p t := by
  refine ⟨Reached.eq_or_below htree hstart, ?_⟩
  rintro (rfl | ⟨names, name, e, hfind, hfits, rfl⟩)
  · exact .start
  · exact .next (reached_below v htree hstart hlimit names (htree.parent hfind).2 hfits)
      (Path.getLast?_below names) (mem_offered_below v htree hstart hlimit hfind hfits)

/-- The text of an entry tells its directory. -/
theorem entryText_inj {d d' name name' : Text} {e e' : Entry} (hd : d.getLast? = some '/')
    (hd' : d'.getLast? = some '/') (hname : Path.IsName name) (hname' : Path.IsName name')
    (h : entryText d name e = entryText d' name' e') : d = d' := by
  have hkind : e = .directory ↔ e' = .directory :=
    ⟨fun he => eq_directory_of_slash hname' (by rw [← h, he]; exact List.getLast?_concat ..),
      fun he => eq_directory_of_slash hname (by rw [h, he]; exact List.getLast?_concat ..)⟩
  have heq : d ++ name = d' ++ name' := by
    by_cases he : e = .directory
    · rw [he, hkind.mp he] at h
      exact List.append_cancel_right h
    · rwa [entryText_of_ne he, entryText_of_ne (mt hkind.mpr he)] at h
  have hpart := Path.directoryPart_append hd hname.slash
  rw [heq, Path.directoryPart_append hd' hname'.slash] at hpart
  exact (Option.some.inj hpart).symm

/-- So one does not come to what is too deep. -/
theorem fits_of_reached (htree : sh.host.files.IsTree) (hstart : sh.host.startPlace = .ok p)
    {names : List Text} {name : Text} {e : Entry}
    (hfind : sh.host.files.find? (p ++ names ++ [name]) = some e)
    (h : Reached v sh limit (entryText (Path.below names) name e)) :
    sh.host.Fits (Path.below names) := by
  have hname := (htree.parent hfind).1
  rcases h.eq_or_below htree hstart with h | ⟨names', name', e', hfind', hfits, h⟩
  · simp [entryText, Path.below, hname.nonempty] at h
  · rwa [entryText_inj (Path.getLast?_below names) (Path.getLast?_below names') hname
      (htree.parent hfind').1 h]

end

/-! ### All of it -/

/-- **Completing paths walks the tree of files.**  For a typed path the entries of its directory that
continue it are offered, the first by the number of characters and then byte by byte.  What is offered
with a slash at its end is a directory, and for it the entries of this directory are offered in turn,
unless its path, with that of the working directory before it, is too long for the system.  So from
`./` one comes to all that is below the working directory, as far as the paths of the directories are
not too long, if the limit cuts nothing off. -/
theorem paths_walk_tree (v : Verbosity) {sh : Shell} (htree : sh.host.files.IsTree) :
    (∀ typed : Text, '/' ∈ typed → ∃ d rest, typed = d ++ rest ∧ d.getLast? = some '/' ∧
      '/' ∉ rest ∧ Offers v sh typed fun t =>
        sh.host.CanList d ∧ sh.host.HasEntry d t ∧ typed <+: t) ∧
    (∀ typed limit r, r ∈ offered v sh typed limit → r.getLast? = some '/' →
      sh.host.files.find? (sh.host.placeAt r) = some .directory ∧
      Offers v sh r (fun t => sh.host.Fits r ∧ sh.host.HasEntry r t) ∧
      ∀ t, sh.host.HasEntry r t → r <+: t) ∧
    ∀ p, sh.host.startPlace = .ok p →
      ∀ limit, (∀ names, (sh.host.files.list (p ++ names)).length ≤ limit) →
        ∀ t, Reached v sh limit t ↔ t = "./".toList ∨ sh.Below p t := by
  refine ⟨fun typed hslash => ?_, fun typed limit r hr hslash => ?_,
    fun p hstart limit hlimit t => reached_iff v htree hstart hlimit⟩
  · obtain ⟨d, rest, rfl, hd, hrest⟩ := Path.exists_eq_append hslash
    refine ⟨d, rest, rfl, hd, hrest, offers_of_mem_iff fun t => ?_⟩
    rw [Repository.mem_filePaths_iff htree hd hrest, and_assoc]
  · obtain ⟨hdirectory, hlist⟩ := canList_of_mem_offered htree hr hslash
    refine ⟨hdirectory, offers_of_mem_iff fun t => ?_, fun t => Host.HasEntry.isPrefix⟩
    rw [mem_filePaths_iff_of_slash htree hslash, hlist]

/-- A file `main.rs` in `/src/src`, with `/src` as the working directory. -/
def withSource : Host :=
  { withBranches with
    workingDirectory := ⟨["src".toList], "/src".toList⟩
    files := FileTree.nested "src".toList 2 "main.rs".toList }

/-- From `./` one comes to the file, in two steps. -/
theorem paths_walk_tree_source :
    let sh := start withSource
    sh.host.files.IsTree ∧ sh.host.startPlace = .ok ["src".toList] ∧
      (∀ names, (sh.host.files.list (["src".toList] ++ names)).length ≤ 3) ∧
      offered .debug sh "./s".toList 1 = ["./src/".toList] ∧
      Offers .debug sh "./src/".toList (sh.host.HasEntry "./src/".toList) ∧
      Reached .debug sh 3 "./src/main.rs".toList := by
  intro sh
  have htree : sh.host.files.IsTree :=
    FileTree.isTree_nested ⟨by decide, by decide, by decide, by decide, by decide⟩
      ⟨by decide, by decide, by decide, by decide, by decide⟩ 2
  have hstart : sh.host.startPlace = .ok ["src".toList] := by decide +kernel
  have hlimit names : (sh.host.files.list (["src".toList] ++ names)).length ≤ 3 :=
    FileTree.length_list_nested_le ..
  have hoffered : offered .debug sh "./s".toList 1 = ["./src/".toList] := by decide +kernel
  obtain ⟨-, hagain, hreached⟩ := paths_walk_tree .debug htree
  refine ⟨htree, hstart, hlimit, hoffered, ?_, ?_⟩
  · have hfits : sh.host.Fits "./src/".toList := by decide
    have hsource := (hagain "./s".toList 1 "./src/".toList (by rw [hoffered]; exact .head _) rfl).2.1
    simpa only [hfits, true_and] using hsource
  · exact (hreached _ hstart 3 hlimit _).mpr
      (.inr ⟨["src".toList], "main.rs".toList, .file [] false, by decide, by decide, rfl⟩)

/-- A name of 100 characters. -/
def longName : Text := List.replicate 100 's'

theorem isName_longName : Path.IsName longName where
  nonempty := by simp [longName]
  notHere h := by simpa [longName] using congrArg List.length h
  notUp h := by simpa [longName] using congrArg List.length h
  slash := by simp [longName]
  nul := by simp [longName, Path.nul]

/-- **Without a bound on the paths** neither is so.  With many slashes in it the path of a directory
is too long, and nothing is offered for it.  And to a file in a deep directory one does not come. -/
theorem not_paths_walk_tree_too_long :
    (let sh := start { withBranches with
        workingDirectory := ⟨[], ['.']⟩
        files := FileTree.nested longName 1 ['x'] }
      let typed := "./".toList ++ List.replicate 4000 '/'
      let r := typed ++ longName ++ ['/']
      sh.host.files.IsTree ∧ r ∈ offered .debug sh typed 250 ∧ r.getLast? = some '/' ∧
        sh.host.HasEntry r (r ++ ['x']) ∧ offered .debug sh r 250 = []) ∧
    (let sh := start { withBranches with files := FileTree.nested ['d'] 2048 ['x'] }
      let names := List.replicate 2048 ['d']
      sh.host.files.IsTree ∧ sh.host.files.find? (names ++ [['x']]) = some (.file [] false) ∧
        ∀ limit, ¬ Reached .debug sh limit (Path.below names ++ ['x'])) := by
  have hfile : Path.IsName ['x'] := ⟨by decide, by decide, by decide, by decide, by decide⟩
  constructor
  · intro sh typed r
    have htree : sh.host.files.IsTree := FileTree.isTree_nested isName_longName hfile 1
    have hslash : typed.getLast? = some '/' := Host.getLast?_slashes 4000
    have hslash' : r.getLast? = some '/' := List.getLast?_concat ..
    obtain ⟨hc, hplace⟩ : sh.host.CanList typed ∧ sh.host.placeAt typed = [] :=
      Host.canList_slashes (h := sh.host) rfl (by decide)
    have hplace' : sh.host.placeAt r = [longName] := by
      rw [Host.placeAt_child sh.host hslash isName_longName, hplace, List.nil_append]
    have hlong : ¬ sh.host.Fits r := fun hfits => by
      have hlength := hfits.byteLength_lt
      simp only [r, typed, Text.byteLength_append, Host.byteLength_slashes] at hlength
      exact absurd hlength (by decide)
    refine ⟨htree, ?_, hslash', ?_, offered_of_not_fits htree hslash' hlong⟩
    · rw [mem_offered_iff htree hslash ((FileTree.length_list_nested_le ..).trans (by decide))]
      refine ⟨hc, longName, .directory, ?_, rfl⟩
      rw [hplace]
      exact FileTree.find?_nested_directory ['x'] (Nat.le_refl 1)
    · refine ⟨['x'], .file [] false, ?_, (List.append_nil _).symm⟩
      rw [hplace']
      exact FileTree.find?_nested longName 1 ['x']
  · intro sh names
    have hname : Path.IsName ['d'] := ⟨by decide, by decide, by decide, by decide, by decide⟩
    have htree : sh.host.files.IsTree := FileTree.isTree_nested hname hfile 2048
    have hfind : sh.host.files.find? (names ++ [['x']]) = some (.file [] false) :=
      FileTree.find?_nested ['d'] 2048 ['x']
    refine ⟨htree, hfind, fun limit h => ?_⟩
    have hentry : entryText (Path.below names) ['x'] (.file [] false) = Path.below names ++ ['x'] :=
      entryText_of_ne nofun
    rw [← hentry] at h
    have hlength := (fits_of_reached htree (p := []) (by decide) hfind h).byteLength_lt
    exact absurd (Nat.lt_of_le_of_lt (Path.byteLength_below_le 2048) hlength) (by decide)

end Shell

end GitShell
