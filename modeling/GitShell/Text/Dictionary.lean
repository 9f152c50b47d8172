import GitShell.Text.Order

/-!
# Text — Dictionary

Values under texts: a list of pairs sorted by key, each key once.  Putting a value under a key that
is there replaces the value.

* `find?_cons`: the first pair with a key has its value.
* `find?_insert`: what is found under a key after putting a value under one.
* `keys_insert`: the keys are an ordered set.
-/

namespace GitShell

/-- Values by key, in the order of the keys. -/
abbrev Dictionary (α : Type) := List (Text × α)

namespace Dictionary

variable {α : Type}

/-- The value under a key. -/
def find? (d : Dictionary α) (key : Text) : Option α := d.lookup key

/-- Puts a value under a key. -/
def insert (d : Dictionary α) (key : Text) (value : α) : Dictionary α :=
  match d with
  | [] => [(key, value)]
  | (k, v) :: rest =>
    if key = k then (key, value) :: rest
    else if Text.le key k then (key, value) :: (k, v) :: rest
    else (k, v) :: insert rest key value

def keys (d : Dictionary α) : List Text := d.map (·.1)

theorem find?_cons (a : Text) (v : α) (d : Dictionary α) (k : Text) :
    find? ((a, v) :: d) k = if k = a then some v else d.find? k := by
  rw [find?, List.lookup_cons]
  by_cases h : k = a
  · simp [h]
  · have hb : (k == a) = false := by simpa using h
    rw [hb, if_neg h]
    rfl

theorem find?_insert (d : Dictionary α) (key : Text) (value : α) (k : Text) :
    (d.insert key value).find? k = if k = key then some value else d.find? k := by
  induction d with
  | nil => exact find?_cons key value [] k
  | cons p rest ih =>
      obtain ⟨a, v⟩ := p
      rw [insert, find?_cons]
      by_cases ha : key = a
      · rw [if_pos ha, find?_cons, ha]
        by_cases hk : k = a <;> simp only [hk, if_true, if_false]
      · rw [if_neg ha]
        cases Text.le key a with
        | true => rw [if_pos rfl, find?_cons, find?_cons]
        | false =>
            rw [if_neg Bool.false_ne_true, find?_cons, ih]
            by_cases hk : k = key
            · rw [if_neg fun h => ha (hk.symm.trans h), if_pos hk, if_pos hk]
            · rw [if_neg hk, if_neg hk]

theorem keys_insert (d : Dictionary α) (key : Text) (value : α) :
    (d.insert key value).keys = Text.insertNew Text.le key d.keys := by
  induction d with
  | nil => rfl
  | cons p rest ih =>
      obtain ⟨k, v⟩ := p
      rw [insert]
      change _ = Text.insertNew Text.le key (k :: keys rest)
      rw [Text.insertNew]
      by_cases hk : key = k
      · rw [if_pos hk, if_pos hk, hk]
        rfl
      · rw [if_neg hk, if_neg hk]
        split
        · rfl
        · exact congrArg (k :: ·) ih

end Dictionary

end GitShell
