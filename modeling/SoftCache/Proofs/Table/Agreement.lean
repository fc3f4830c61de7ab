import Mathlib.Data.List.Rotate
import SoftCache.Proofs.Table.Passes
import SoftCache.Proofs.Table.Replacing
import SoftCache.Proofs.Table.Sweeping

/-!
# All that is read of a table agrees

A table is asked for a key, an entry or a value in several ways, each of which finds out for itself
what is live. They all answer what the live entries say (`Table.Sound.agrees`), whatever is stale,
and a walk from where the cursor points turns them round (`Table.turns_randomEntries`).
-/

open scoped List

namespace SoftCache

variable {K V : Type}

namespace Table

variable {t : Table K V} {r : Reclaimer}

/-! ## Walks from where the cursor points -/

/-- The live entries in the buckets below that of the number. -/
def entriesBelow (t : Table K V) (r : Reclaimer) (i : Nat) : List (Entry K V) :=
  liveEntries r (t.buckets.toList.take i).flatten

/-- The live entries, beginning with the bucket that the cursor points at. -/
structure Turns (t : Table K V) (r : Reclaimer)
    (step : Step (Table K V) (Notice K V) (List (Entry K V))) : Prop where
  /-- The cursor points at a bucket. -/
  target_lt : t.cursor.target t.capacity < t.capacity
  /-- What lies below that bucket comes first in the table. -/
  below : t.entriesBelow r (t.cursor.target t.capacity) <+: t.entries r
  /-- It comes last here, and the rest is in the order of the table. -/
  turned : step.result =
    (t.entries r).rotate (t.entriesBelow r (t.cursor.target t.capacity)).length
  /-- The cursor moves on by one. -/
  position : step.state.cursor.position =
    (t.cursor.position + 1) % t.cursor.fractions.length
  /-- Nothing else is changed. -/
  state : step.state = { t with cursor := step.state.cursor }
  /-- The reclaimer stays as it is. -/
  reclaimer : step.reclaimer = r
  /-- Nothing is announced. -/
  notices : step.notices = []

/-- The live entries of slots and of others are listed one after the other. -/
theorem liveEntries_append (r : Reclaimer) (first second : List (Slot K V)) :
    liveEntries r (first ++ second) = liveEntries r first ++ liveEntries r second := by
  simp [liveEntries]

/-- The live entries are those below a bucket and those from it on. -/
theorem entries_split (t : Table K V) (r : Reclaimer) (i : Nat) :
    t.entries r = t.entriesBelow r i ++ liveEntries r (t.buckets.toList.drop i).flatten := by
  rw [entriesBelow, ← liveEntries_append, ← List.flatten_append, List.take_append_drop]
  rfl

/-- The live entries are turned round to where the cursor points. -/
theorem turns_randomEntries (pos : 0 < t.capacity) : t.Turns r (t.randomEntries r) where
  target_lt := t.cursor.target_lt pos
  below := ⟨_, (t.entries_split r _).symm⟩
  turned := by
    rw [t.entries_split r (t.cursor.target t.capacity), List.rotate_append_length_eq, entriesBelow,
      ← liveEntries_append, ← List.flatten_append]
    rfl
  position := rfl
  state := rfl
  reclaimer := rfl
  notices := rfl

variable [DecidableEq K] [Hashed K] [DecidableEq V]

/-! ## Answers -/

/-- A table of which all that is read agrees with its live entries. -/
structure Agrees (t : Table K V) (r : Reclaimer) : Prop where
  /-- Just the keys of live entries are said to be there. -/
  containsKey : ∀ key, t.containsKey r key = true ↔ key ∈ (t.entries r).map Prod.fst
  /-- Just for these something is found. -/
  found : ∀ key, (t.lookup r key).result.isSome = true ↔ key ∈ (t.entries r).map Prod.fst
  /-- No key is there twice. -/
  distinct : ((t.entries r).map Prod.fst).Nodup
  /-- What is found for a key is the value that it has, null or not. -/
  lookup : ∀ key value, (t.lookup r key).result = some value ↔ (key, value) ∈ t.entries r
  /-- Just live entries are said to be there. -/
  containsEntry : ∀ key value,
    (t.containsEntry r key value).result = true ↔ (key, value) ∈ t.entries r
  /-- Just these can be removed. -/
  removes : ∀ key value,
    (t.removeIf r key (· == value)).result.isSome = true ↔ (key, value) ∈ t.entries r
  /-- If an entry is removed, it is gone, and all others are left. -/
  removed : ∀ key value,
    let step := t.removeIf r key (· == value)
    t.entries r ~ step.state.entries step.reclaimer ++
      if step.result.isSome then [(key, value)] else []
  /-- Just the values of live entries are said to be there, null or not. -/
  containsValue : ∀ value, t.containsValue r value = true ↔ value ∈ (t.entries r).map Prod.snd
  /-- As many are counted as there are. -/
  length : (t.length r).result = (t.entries r).length
  /-- Beginning from where the cursor points, they are turned round. -/
  turns : t.Turns r (t.randomEntries r)
  /-- These are as many. -/
  length_turned : (t.randomEntries r).result.length = (t.length r).result

/-- What is read of a sound table agrees, if it has no key that it excludes and nothing is stale in
the epoch of its last sweep. -/
theorem Sound.agrees (h : t.Sound) (issued : r.Issued t.payloads) (full : t.Full)
    (quiet : t.sweptEpoch = r.epoch → t.stale r = []) : t.Agrees r := by
  have hadmits := full.admits (r := r)
  have hlookup : ∀ key value, (t.lookup r key).result = some value ↔ (key, value) ∈ t.entries r :=
    fun _ _ => h.result_lookup_iff hadmits
  have hkeys : ∀ key, (∃ value, (key, value) ∈ t.entries r) ↔ key ∈ (t.entries r).map Prod.fst := by
    simp
  have hturns := turns_randomEntries (t := t) (r := r) h.capacity_pos
  have hremoved : ∀ key value found,
      (t.removeIf r key (· == value)).result = some found ↔
        (key, found) ∈ t.entries r ∧ found = value := fun key value found =>
    (h.result_removeIf_iff hadmits issued).trans (and_congr_right fun _ => beq_iff_eq)
  constructor
  case containsKey => exact fun key => (h.containsKey_iff hadmits).trans (hkeys key)
  case found =>
    intro key
    rw [Option.isSome_iff_exists, ← hkeys]
    exact exists_congr (hlookup key)
  case distinct => exact h.nodup_entries r
  case lookup => exact hlookup
  case containsEntry =>
    intro key value
    rw [← hlookup]
    exact beq_iff_eq
  case removes =>
    intro key value
    simp only [Option.isSome_iff_exists, hremoved]
    exact ⟨fun ⟨found, hentry, heq⟩ => heq ▸ hentry, fun hentry => ⟨value, hentry, rfl⟩⟩
  case removed =>
    intro key value step
    refine (h.entries_removeIf key hadmits issued _).trans (.of_eq (congrArg _ ?_))
    rcases hresult : step.result with _ | found
    · rfl
    · -- What is removed has the value that was asked for.
      obtain ⟨-, rfl⟩ := (hremoved key value found).mp hresult
      rfl
  case containsValue => exact fun value => containsValue_iff.trans (by simp)
  case length => exact h.result_length issued quiet
  case turns => exact hturns
  case length_turned => rw [hturns.turned, List.length_rotate, h.result_length issued quiet]

end Table

end SoftCache
