import GitShell.Text.Basic
import GitShell.Text.ClusterClass

/-!
# Text — Cluster

A reader takes some sequences for one character: a letter with its marks, a syllable, a flag, joined
pictures.  A text is cut into such clusters from left to right.  Whether a character joins the cluster
before it depends on what that cluster ends in, which is kept as a context.

* `flatten_clusters`: nothing of the text is lost.
* `ne_nil_of_mem_clusters`: no cluster is empty.
-/

namespace GitShell

/-- What of a joined picture the text ends in. -/
inductive PictureEnd where
  | none
  /-- A picture, possibly with marks. -/
  | picture
  /-- Such a picture and a joiner. -/
  | joined
deriving DecidableEq

/-- What of a conjunct the text ends in. -/
inductive ConjunctEnd where
  | none
  /-- A consonant, possibly with marks. -/
  | consonant
  /-- A consonant with marks, one of which is a linker. -/
  | linked
deriving DecidableEq

/-- What a text ends in. -/
structure ClusterContext where
  /-- The class of the last character. -/
  last : ClusterClass
  /-- The regional letters at the end are odd in number. -/
  halfFlag : Bool
  picture : PictureEnd
  conjunct : ConjunctEnd
deriving DecidableEq

namespace ClusterContext

/-- Nothing joins the start of a text, as nothing joins a control. -/
def start : ClusterContext := ⟨.control, false, .none, .none⟩

def nextPicture : PictureEnd → ClusterClass → PictureEnd
  | _, .picture => .picture
  | .picture, .extend | .picture, .linker | .picture, .nonJoiner => .picture
  | .picture, .joiner => .joined
  | _, _ => .none

def nextConjunct : ConjunctEnd → ClusterClass → ConjunctEnd
  | _, .consonant => .consonant
  | .consonant, .linker | .linked, .linker => .linked
  | e, .extend | e, .joiner => e
  | _, _ => .none

/-- The context after one more character. -/
def next (x : ClusterContext) (k : ClusterClass) : ClusterContext :=
  ⟨k, k == .regional && !x.halfFlag, nextPicture x.picture k, nextConjunct x.conjunct k⟩

/-- A character of a class joins the cluster before it. -/
def joins (x : ClusterContext) (k : ClusterClass) : Bool :=
  match x.last, k with
  | .carriageReturn, .lineFeed => true
  | .carriageReturn, _ | .lineFeed, _ | .control, _ => false
  | _, .carriageReturn | _, .lineFeed | _, .control => false
  | .hangulInitial, .hangulInitial | .hangulInitial, .hangulVowel => true
  | .hangulInitial, .hangulOpen | .hangulInitial, .hangulClosed => true
  | .hangulOpen, .hangulVowel | .hangulOpen, .hangulFinal => true
  | .hangulVowel, .hangulVowel | .hangulVowel, .hangulFinal => true
  | .hangulClosed, .hangulFinal | .hangulFinal, .hangulFinal => true
  | _, .extend | _, .linker | _, .nonJoiner | _, .joiner | _, .spacing => true
  | .leading, _ => true
  | _, .consonant => x.conjunct == .linked
  | .joiner, .picture => x.picture == .joined
  | .regional, .regional => x.halfFlag
  | _, _ => false

theorem joins_start (k : ClusterClass) : start.joins k = false := by cases k <;> rfl

end ClusterContext

namespace Text

/-- The characters that join the cluster before the text, and the clusters after them. -/
def clustersFrom (x : ClusterContext) : Text → Text × List Text
  | [] => ([], [])
  | c :: r =>
    let k := clusterClass c
    let (here, later) := clustersFrom (x.next k) r
    if x.joins k then (c :: here, later) else ([], (c :: here) :: later)

/-- The clusters of a text, in order. -/
def clusters (t : Text) : List Text := (clustersFrom .start t).2

theorem append_flatten_clustersFrom (x : ClusterContext) (t : Text) :
    (clustersFrom x t).1 ++ (clustersFrom x t).2.flatten = t := by
  induction t generalizing x with
  | nil => rfl
  | cons c r ih =>
    have h := ih (x.next (clusterClass c))
    by_cases hj : x.joins (clusterClass c) <;> simpa [clustersFrom, hj] using h

theorem flatten_clusters (t : Text) : (clusters t).flatten = t := by
  cases t with
  | nil => rfl
  | cons c r =>
    have h := append_flatten_clustersFrom .start (c :: r)
    simpa [clusters, clustersFrom, ClusterContext.joins_start] using h

theorem ne_nil_of_mem_clustersFrom {x : ClusterContext} {t g : Text}
    (h : g ∈ (clustersFrom x t).2) : g ≠ [] := by
  induction t generalizing x with
  | nil => simp [clustersFrom] at h
  | cons c r ih =>
    by_cases hj : x.joins (clusterClass c)
    · simp only [clustersFrom, hj, if_true] at h
      exact ih h
    · simp only [clustersFrom, hj, Bool.false_eq_true, if_false, List.mem_cons] at h
      rcases h with rfl | h
      · simp
      · exact ih h

theorem ne_nil_of_mem_clusters {t g : Text} (h : g ∈ clusters t) : g ≠ [] :=
  ne_nil_of_mem_clustersFrom h

example : clusters "e\u0301x".toList = ["e\u0301".toList, ['x']] := by decide

end Text

end GitShell
