import Mathlib.Data.List.Perm.Subperm
import SoftCache.Proofs.Table.Copying

/-!
# What registrations clear

Registering payloads one after the other puts them behind those that are live, and the budget then
takes the oldest of all of them, as many as are too many in the end (`Reclaimer.Renews`). So what is
lost of what was live is known beforehand: `Reclaimer.doomed` are the oldest live payloads, as many
as a number of registrations brings over the budget.
-/

namespace SoftCache

variable {K V α : Type}

namespace Reclaimer

variable {r r' r'' : Reclaimer} {fresh later : List Nat} {payload : Nat}

/-- How many payloads are too many once `n` more were registered. -/
def overrun (r : Reclaimer) (n : Nat) : Nat :=
  match r.budget with
  | none => 0
  | some budget => r.live.length + n - budget

/-- The live payloads that `n` registrations clear: the oldest. -/
def doomed (r : Reclaimer) (n : Nat) : List Nat :=
  r.live.take (r.overrun n)

/-- What one registration clears is what is too much for one payload more. -/
theorem overflow_eq (r : Reclaimer) : r.overflow = r.overrun 1 := rfl

/-- Without registrations there are not too many. -/
theorem Orderly.overrun_zero (h : r.Orderly) : r.overrun 0 = 0 := by
  unfold overrun
  split
  · rfl
  · next budget hbudget => exact Nat.sub_eq_zero_of_le (h.within budget hbudget)

/-- If there is a live payload, then one registration does not clear more than the live payloads. -/
theorem Orderly.overrun_one_le (h : r.Orderly) (there : payload ∈ r.live) :
    r.overrun 1 ≤ r.live.length := by
  have hpos := List.length_pos_of_mem there
  unfold overrun
  split
  · exact Nat.zero_le _
  · next budget hbudget =>
    have hwithin := h.within budget hbudget
    omega

/-- The more is registered, the more is cleared. -/
theorem doomed_subset (r : Reclaimer) {n n' : Nat} (h : n ≤ n') : r.doomed n ⊆ r.doomed n' := by
  have hle : r.overrun n ≤ r.overrun n' := by
    unfold overrun
    split <;> omega
  exact (List.take_sublist_take_left hle).subset

/-- A reclaimer after the payloads given, and no others, were registered. -/
structure Renews (r r' : Reclaimer) (fresh : List Nat) : Prop where
  /-- The reclaimer is orderly. -/
  orderly : r'.Orderly
  /-- It has the same budget. -/
  budget : r'.budget = r.budget
  /-- Numbers grow. -/
  next : r.next ≤ r'.next
  /-- The payloads are new. -/
  new : ∀ payload ∈ fresh, r.next ≤ payload
  /-- Of all payloads the oldest are cleared. -/
  live : r'.live = (r.live ++ fresh).drop (r.overrun fresh.length)

namespace Renews

/-- Nothing has been registered. -/
theorem refl (h : r.Orderly) : r.Renews r [] where
  orderly := h
  budget := rfl
  next := le_rfl
  new := List.forall_mem_nil _
  live := by rw [List.length_nil, h.overrun_zero, List.append_nil, List.drop_zero]

/-- One payload has been registered. -/
theorem register (h : r.Orderly) : r.Renews r.register [r.next] where
  orderly := h.register
  budget := budget_register r
  next := by
    rw [next_register]
    exact Nat.le_succ _
  new := List.forall_mem_singleton.mpr le_rfl
  live := by
    rw [List.length_singleton, ← overflow_eq]
    exact h.toFiled.live_register

/-- What is too many in the end is what was too many first and what became too many then. -/
theorem overrun_add (h : r.Renews r' fresh) (n : Nat) :
    r.overrun (fresh.length + n) = r.overrun fresh.length + r'.overrun n ∧
      r.overrun fresh.length ≤ (r.live ++ fresh).length := by
  have hlength := congrArg List.length h.live
  rw [List.length_drop, List.length_append] at hlength
  rw [List.length_append]
  simp only [overrun, h.budget] at hlength ⊢
  cases hbudget : r.budget with
  | none => simp
  | some budget =>
    rw [hbudget] at hlength
    dsimp only at hlength ⊢
    omega

/-- Payloads are registered and then others. -/
theorem trans (h : r.Renews r' fresh) (h' : r'.Renews r'' later) :
    r.Renews r'' (fresh ++ later) where
  orderly := h'.orderly
  budget := h'.budget.trans h.budget
  next := h.next.trans h'.next
  new := List.forall_mem_append.mpr
    ⟨h.new, fun payload hp => h.next.trans (h'.new payload hp)⟩
  live := by
    obtain ⟨hsum, hle⟩ := h.overrun_add later.length
    rw [h'.live, h.live, List.length_append, hsum, ← List.append_assoc,
      ← List.drop_append_of_le_length hle, List.drop_drop]

/-- If no more is too many than was live, then what is live is what was live and not doomed, and
all that is new. -/
theorem live_of_room (h : r.Renews r' fresh) (room : r.overrun fresh.length ≤ r.live.length) :
    r'.live = r.live.drop (r.overrun fresh.length) ++ fresh := by
  rw [h.live, List.drop_append_of_le_length room]

/-- New payloads that are all live leave room for no more than was live to be cleared. -/
theorem room (h : r.Renews r' fresh) (nodup : fresh.Nodup) (live : fresh ⊆ r'.live) :
    r.overrun fresh.length ≤ r.live.length := by
  obtain ⟨-, hle⟩ := h.overrun_add 0
  have hfresh := (nodup.subperm live).length_le
  rw [h.live, List.length_drop] at hfresh
  rw [List.length_append] at hle hfresh
  omega

/-- What has been handed out before and is live was live before. -/
theorem mem_live_of_lt (h : r.Renews r' fresh) (old : payload < r.next)
    (there : payload ∈ r'.live) :
    payload ∈ r.live := by
  rw [h.live] at there
  refine (List.mem_append.mp (List.mem_of_mem_drop there)).resolve_right fun hfresh => ?_
  exact (h.new payload hfresh).not_gt old

/-- Of what was live the payloads that are doomed go, and all others stay. -/
theorem mem_live_iff (h : r.Renews r' fresh) (old : r.Orderly)
    (room : r.overrun fresh.length ≤ r.live.length) (there : payload ∈ r.live) :
    payload ∈ r'.live ↔ payload ∉ r.doomed fresh.length := by
  have hnew : payload ∉ fresh := fun hp => (old.live_lt there).not_ge (h.new payload hp)
  have hnodup := old.nodup_live
  have hsplit := List.take_append_drop (r.overrun fresh.length) r.live
  rw [← hsplit, List.nodup_append] at hnodup
  rw [← hsplit, List.mem_append] at there
  rw [h.live_of_room room, List.mem_append, or_iff_left hnew]
  exact ⟨fun hkept hdoomed => hnodup.2.2 payload hdoomed payload hkept rfl,
    fun hspared => there.resolve_left hspared⟩

end Renews

end Reclaimer

/-! ## What holders register -/

/-- To make a holder registers its payload and nothing else. -/
theorem Held.renews_of {r : Reclaimer} (h : r.Orderly) (s : Strength) (content : Option α) :
    r.Renews (of s content r).reclaimer (of s content r).holder.payloads := by
  cases content with
  | none => exact .refl h
  | some content =>
    cases s with
    | strong => exact .refl h
    | reclaimable => exact .register h

/-- To hold a content once more registers its payload and nothing else. -/
theorem Held.renews_again {r : Reclaimer} (h : r.Orderly) (holder : Holder α) :
    r.Renews (again holder r).reclaimer (again holder r).holder.payloads := by
  cases holder with
  | null => exact .refl h
  | strong content => exact .refl h
  | reclaimable payload content => exact renews_of h .reclaimable _

namespace Table

/-- Copying the slots of a bucket registers the payloads of the copies. -/
theorem renews_copyBucket {r : Reclaimer} (h : r.Orderly) (l : List (Slot K V)) :
    r.Renews (copyBucket r l).reclaimer ((copyBucket r l).copies.flatMap Slot.payloads) := by
  induction l generalizing r with
  | nil => exact .refl h
  | cons slot rest ih =>
    unfold copyBucket
    split
    · exact ih h
    · have hkey := Held.renews_again h slot.key
      have hslot := hkey.trans (Held.renews_again hkey.orderly slot.value)
      exact hslot.trans (ih hslot.orderly)

/-- To copy buckets registers the payloads of the copies. -/
theorem renews_copyBuckets {r : Reclaimer} (h : r.Orderly) (l : List (List (Slot K V))) :
    r.Renews (copyBuckets r l).reclaimer
      ((copyBuckets r l).copies.flatten.flatMap Slot.payloads) := by
  induction l generalizing r with
  | nil => exact .refl h
  | cons bucket rest ih =>
    have hfirst := renews_copyBucket h bucket
    have hall := hfirst.trans (ih hfirst.orderly)
    rw [← List.flatMap_append, ← List.flatten_cons] at hall
    exact hall

/-- A copy of a table registers the payloads that it has. -/
theorem renews_copy {r : Reclaimer} (h : r.Orderly) (t : Table K V) :
    r.Renews (t.copy r).reclaimer (t.copy r).result.payloads :=
  renews_copyBuckets h t.buckets.toList

end Table

end SoftCache
