import Mathlib.Data.List.Nodup
import SoftCache.Directory

/-!
# Directories without repetition

What the operations on a directory do to it as a list, where no key is there twice. A key that is
found stands in one place (`split_of_find`), and changing or erasing it touches that place only.
-/

open scoped List

namespace SoftCache.Directory

variable {κ α : Type} [DecidableEq κ]

/-- A key that is found has an entry. -/
theorem mem_of_find {d : Directory κ α} {key : κ} {a : α} (found : d.find key = some a) :
    (key, a) ∈ d := by
  obtain ⟨entry, hentry, rfl⟩ := Option.map_eq_some_iff.mp found
  have hkey : entry.1 = key := by simpa using List.find?_some hentry
  exact hkey ▸ List.mem_of_find?_eq_some hentry

/-- A key that is not found has no entry. -/
theorem not_mem_of_find {d : Directory κ α} {key : κ} (missing : d.find key = none) :
    key ∉ d.map Prod.fst := by
  intro hkey
  obtain ⟨entry, hentry, rfl⟩ := List.mem_map.mp hkey
  have := List.find?_eq_none.mp (Option.map_eq_none_iff.mp missing) entry hentry
  simp at this

/-- An entry is what is found for its key, if no key is there twice. -/
theorem find_of_mem {d : Directory κ α} (distinct : (d.map Prod.fst).Nodup) {key : κ} {a : α}
    (h : (key, a) ∈ d) : d.find key = some a := by
  cases found : d.find key with
  | none => exact absurd (List.mem_map_of_mem (f := Prod.fst) h) (not_mem_of_find found)
  | some b =>
    have heq := List.inj_on_of_nodup_map distinct (mem_of_find found) h rfl
    cases heq
    rfl

/-- A key is found just if it has an entry. -/
theorem isSome_find_iff {d : Directory κ α} {key : κ} :
    (d.find key).isSome ↔ key ∈ d.map Prod.fst := by
  cases found : d.find key with
  | none => simpa using not_mem_of_find found
  | some a => simpa using List.mem_map_of_mem (f := Prod.fst) (mem_of_find found)

/-- Changing or erasing a key that is not there does nothing. -/
theorem modify_eq_self {d : Directory κ α} {key : κ} (absent : key ∉ d.map Prod.fst) (new : α) :
    d.modify key new = d := by
  conv_rhs => rw [← List.map_id d]
  refine List.map_congr_left fun entry hentry => ?_
  rw [id_eq, if_neg]
  rintro rfl
  exact absent (List.mem_map_of_mem hentry)

/-- To erase a key that is not there changes nothing. -/
theorem erase_eq_self {d : Directory κ α} {key : κ} (absent : key ∉ d.map Prod.fst) :
    d.erase key = d := by
  rw [erase, List.filter_eq_self]
  intro entry hentry
  rw [decide_eq_true_iff]
  rintro rfl
  exact absent (List.mem_map_of_mem hentry)

/-- A key that is found stands in one place. -/
theorem split_of_find {d : Directory κ α} (distinct : (d.map Prod.fst).Nodup) {key : κ} {a : α}
    (found : d.find key = some a) :
    ∃ before after, d = before ++ (key, a) :: after ∧
      (∀ new, d.modify key new = before ++ (key, new) :: after) ∧
        d.erase key = before ++ after := by
  obtain ⟨before, after, rfl⟩ := List.append_of_mem (mem_of_find found)
  rw [List.map_append, List.map_cons, List.nodup_append, List.nodup_cons] at distinct
  have hbefore : key ∉ List.map Prod.fst before := fun h =>
    distinct.2.2 key h key List.mem_cons_self rfl
  have hafter : key ∉ List.map Prod.fst after := distinct.2.1.1
  refine ⟨before, after, rfl, fun new => ?_, ?_⟩
  · have hmodify : modify (before ++ (key, a) :: after) key new =
        modify before key new ++ (key, new) :: modify after key new := by
      simp [modify]
    rw [hmodify, modify_eq_self hbefore, modify_eq_self hafter]
  · have herase :
        erase (before ++ (key, a) :: after) key = erase before key ++ erase after key := by
      simp [erase]
    rw [herase, erase_eq_self hbefore, erase_eq_self hafter]

/-- Changing a key to what it stands for does nothing. -/
theorem modify_of_find {d : Directory κ α} (distinct : (d.map Prod.fst).Nodup) {key : κ} {a : α}
    (found : d.find key = some a) : d.modify key a = d := by
  obtain ⟨before, after, hd, hmodify, -⟩ := split_of_find distinct found
  rw [hmodify, ← hd]

/-- What a directory comes to is what one of its entries comes to and what the others do. -/
theorem flatMap_perm_erase {β : Type} {d : Directory κ α} (distinct : (d.map Prod.fst).Nodup)
    {key : κ} {a : α} (found : d.find key = some a) (f : κ × α → List β) :
    d.flatMap f ~ f (key, a) ++ (d.erase key).flatMap f := by
  obtain ⟨before, after, hd, -, herase⟩ := split_of_find distinct found
  rw [herase, hd, ← List.flatMap_cons]
  exact List.perm_middle.flatMap_right f

/-- A changed directory comes to what the new entry comes to and what the others do. -/
theorem flatMap_modify_perm {β : Type} {d : Directory κ α} (distinct : (d.map Prod.fst).Nodup)
    {key : κ} {a : α} (found : d.find key = some a) (new : α) (f : κ × α → List β) :
    (d.modify key new).flatMap f ~ f (key, new) ++ (d.erase key).flatMap f := by
  obtain ⟨before, after, -, hmodify, herase⟩ := split_of_find distinct found
  rw [herase, hmodify, ← List.flatMap_cons]
  exact List.perm_middle.flatMap_right f

/-- An entry of a changed directory is the new one or was there before. -/
theorem mem_of_mem_modify {d : Directory κ α} {key : κ} {new : α} {entry : κ × α}
    (h : entry ∈ d.modify key new) : entry = (key, new) ∨ entry ∈ d := by
  obtain ⟨old, hold, rfl⟩ := List.mem_map.mp h
  split
  · exact .inl rfl
  · exact .inr hold

/-- An entry of a directory that a key was set in is the new one or was there before. -/
theorem mem_of_mem_set {d : Directory κ α} {key : κ} {new : α} {entry : κ × α}
    (h : entry ∈ d.set key new) : entry = (key, new) ∨ entry ∈ d := by
  rw [set] at h
  split at h
  · exact mem_of_mem_modify h
  · exact (List.mem_append.mp h).symm.imp_left List.mem_singleton.mp

/-- A key that a directory does not have is put last. -/
theorem set_of_absent {d : Directory κ α} {key : κ} (absent : key ∉ d.map Prod.fst) (new : α) :
    d.set key new = d ++ [(key, new)] := by
  have hnone : d.find key = none := by
    cases found : d.find key with
    | none => rfl
    | some a => exact absurd (List.mem_map_of_mem (f := Prod.fst) (mem_of_find found)) absent
  rw [set, hnone]
  rfl

/-- A key that was erased is not in the directory. -/
theorem not_mem_erase (d : Directory κ α) (key : κ) : key ∉ (d.erase key).map Prod.fst := by
  intro hkey
  obtain ⟨entry, hentry, hfst⟩ := List.mem_map.mp hkey
  have hne := (List.mem_filter.mp hentry).2
  simp [hfst] at hne

/-- What is kept by its key is found as before. -/
theorem find_filter {test : κ → Bool} {key : κ} (hkey : test key = true) (d : Directory κ α) :
    find (List.filter (fun entry => test entry.1) d) key = d.find key := by
  induction d with
  | nil => rfl
  | cons entry rest ih =>
    rw [find_cons, List.filter_cons]
    split
    · rw [find_cons, ih]
    · next hentry =>
      rw [ih, if_neg]
      rintro rfl
      exact hentry hkey

/-- What is found by its key in a part of a directory is found there in the whole. -/
theorem find_of_find_filter {test : κ → Bool} {d : Directory κ α} {key : κ} {a : α}
    (found : find (List.filter (fun entry => test entry.1) d) key = some a) :
    d.find key = some a := by
  have hmem := List.mem_filter.mp (mem_of_find found)
  rwa [find_filter hmem.2] at found

/-- What is found in a changed directory is what was found there, changed if it is for the key. -/
theorem find_modify_eq_map (d : Directory κ α) (key other : κ) (new : α) :
    (d.modify key new).find other =
      (d.find other).map fun old => if key = other then new else old := by
  rw [find_modify]
  split
  · rfl
  · exact Option.map_id'.symm

/-- What is found when everything in a directory has been changed. -/
theorem find_map (f : α → α) (d : Directory κ α) (key : κ) :
    find (List.map (fun entry => (entry.1, f entry.2)) d) key = (d.find key).map f := by
  induction d with
  | nil => rfl
  | cons entry rest ih =>
    rw [List.map_cons, find_cons, find_cons, ih]
    split <;> rfl

/-- Changing an entry changes no key. -/
@[simp] theorem keys_modify (d : Directory κ α) (key : κ) (new : α) :
    (d.modify key new).map Prod.fst = d.map Prod.fst := by
  rw [modify, List.map_map]
  refine List.map_congr_left fun entry _ => ?_
  by_cases hkey : entry.1 = key <;> simp [hkey]

omit [DecidableEq κ] in
/-- A new key is one more. -/
theorem insertBefore_perm (after : κ → Bool) (key : κ) (new : α) (d : Directory κ α) :
    insertBefore after key new d ~ (key, new) :: d := by
  induction d with
  | nil => exact .rfl
  | cons entry rest ih =>
    unfold insertBefore
    split
    · exact .rfl
    · exact (ih.cons _).trans (.swap _ _ _)

end SoftCache.Directory
