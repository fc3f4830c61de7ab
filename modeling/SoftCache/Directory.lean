/-!
# Directories

A directory is a list of keys with what they stand for. Keys are looked up by the first entry, and
replacing an entry leaves it in its place.
-/

namespace SoftCache

/-- Keys and what they stand for, in order. -/
abbrev Directory (κ α : Type) := List (κ × α)

namespace Directory

variable {κ α : Type} [DecidableEq κ]

/-- What a key stands for. -/
def find (d : Directory κ α) (key : κ) : Option α :=
  (List.find? (fun entry => entry.1 = key) d).map (·.2)

/-- The directory without a key. -/
def erase (d : Directory κ α) (key : κ) : Directory κ α :=
  List.filter (fun entry => entry.1 ≠ key) d

/-- The directory in which a key of it stands for something else. -/
def modify (d : Directory κ α) (key : κ) (new : α) : Directory κ α :=
  List.map (fun entry => if entry.1 = key then (key, new) else entry) d

/-- The directory with a new key, put in front of the first one that comes after it. -/
def insertBefore (after : κ → Bool) (key : κ) (new : α) : Directory κ α → Directory κ α
  | [] => [(key, new)]
  | entry :: rest =>
    if after entry.1 then (key, new) :: entry :: rest else entry :: insertBefore after key new rest

/-- The directory in which a key stands for something, whether it did so before or not. -/
def set (d : Directory κ α) (key : κ) (new : α) : Directory κ α :=
  if (d.find key).isSome then d.modify key new else List.append d [(key, new)]

/-! ## What is found afterwards -/

/-- Nothing is found in an empty directory. -/
@[simp] theorem find_nil (key : κ) : find ([] : Directory κ α) key = none := rfl

/-- The first entry with the key is found. -/
theorem find_cons (entry : κ × α) (rest : Directory κ α) (key : κ) :
    find (entry :: rest) key = if entry.1 = key then some entry.2 else find rest key := by
  by_cases here : entry.1 = key <;> simp [find, here]

/-- To erase a key is to leave out each entry with it. -/
theorem erase_cons (entry : κ × α) (rest : Directory κ α) (key : κ) :
    erase (entry :: rest) key =
      if entry.1 = key then erase rest key else entry :: erase rest key := by
  by_cases here : entry.1 = key <;> simp [erase, here]

/-- To modify a key is to give each entry with it the new value. -/
theorem modify_cons (entry : κ × α) (rest : Directory κ α) (key : κ) (new : α) :
    modify (entry :: rest) key new =
      (if entry.1 = key then (key, new) else entry) :: modify rest key new := rfl

/-- A key that was erased is not found, and any other is found as before. -/
theorem find_erase (d : Directory κ α) (key other : κ) :
    (d.erase key).find other = if key = other then none else d.find other := by
  induction d with
  | nil => simp [erase]
  | cons entry rest ih =>
    rw [erase_cons]
    by_cases here : entry.1 = key
    · subst here
      rw [if_pos rfl, ih, find_cons]
      split <;> rfl
    · by_cases same : entry.1 = other
      · subst same
        simp [find_cons, here, Ne.symm here]
      · simp [find_cons, here, same, ih]

/-- A key that is there is found with the new value, and any other as before. -/
theorem find_modify (d : Directory κ α) (key other : κ) (new : α) :
    (d.modify key new).find other =
      if key = other then (d.find other).map fun _ => new else d.find other := by
  induction d with
  | nil => simp [modify]
  | cons entry rest ih =>
    rw [modify_cons]
    by_cases here : entry.1 = key
    · subst here
      by_cases same : entry.1 = other <;> simp [find_cons, same, ih]
    · by_cases same : entry.1 = other
      · subst same
        simp [find_cons, here, Ne.symm here]
      · simp [find_cons, here, same, ih]

/-- A key that is put in its place is found there, if it was not in the directory. -/
theorem find_insertBefore (after : κ → Bool) (d : Directory κ α) (key other : κ) (new : α)
    (absent : d.find key = none) :
    (insertBefore after key new d).find other = if key = other then some new else d.find other := by
  induction d with
  | nil => simp [insertBefore, find_cons]
  | cons entry rest ih =>
    simp only [find_cons] at absent
    split at absent
    · contradiction
    · next away =>
      simp only [insertBefore]
      split
      · simp [find_cons]
      · by_cases same : entry.1 = other
        · subst same
          simp [find_cons, Ne.symm away]
        · simpa [find_cons, same] using ih absent

omit [DecidableEq κ] in
/-- What is put before nothing stands at the end. -/
theorem insertBefore_last (d : Directory κ α) (key : κ) (new : α) :
    insertBefore (fun _ => false) key new d = List.append d [(key, new)] := by
  induction d with
  | nil => rfl
  | cons entry rest ih => exact congrArg (entry :: ·) ih

/-- A key that was set is found with the new value, and any other as before. -/
theorem find_set (d : Directory κ α) (key other : κ) (new : α) :
    (d.set key new).find other = if key = other then some new else d.find other := by
  unfold set
  split
  · next there =>
    rw [find_modify]
    obtain ⟨old, found⟩ := Option.isSome_iff_exists.mp there
    by_cases same : key = other
    · subst same
      simp [found]
    · simp [same]
  · next absent =>
    rw [← insertBefore_last]
    exact find_insertBefore _ d key other new (by simpa using absent)

end Directory

end SoftCache
