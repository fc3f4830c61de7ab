import SoftCache.LogLine

/-!
# The memory reclaimer

Payloads that may be given up under memory pressure are registered with a reclaimer and known to it
by a number. Its registry is a queue with a *handle* for each registration, the oldest first. A
payload is *live* until it is cleared or released. It is *cleared* by a pass while something still
holds it, and *released* when its holder lets it go.

A pass takes handles from the front of the registry and clears the payloads of those that are live.
The handle of a released payload stays behind, where it does no harm, until a pass takes it or the
registry is compacted. With a budget, a registration that leaves more handles than the budget
compacts the registry, and if it is over the budget even then, a pass clears as many payloads as are
too many. Each pass that clears something starts a new epoch, so that a table can tell whether it
may have lost something since it last looked.
-/

namespace SoftCache

/-- A registry of payloads that can be cleared. -/
structure Reclaimer where
  /-- How many payloads may be live at once. -/
  budget : Option Nat
  /-- How many passes have cleared something. -/
  epoch : Nat
  /-- The handles of registered payloads, the oldest first. -/
  registry : List Nat
  /-- The payloads that are held and not cleared, the oldest first. -/
  live : List Nat
  /-- The number of the next payload. -/
  next : Nat
deriving DecidableEq

namespace Reclaimer

/-- A reclaimer without payloads. -/
def ofBudget (budget : Option Nat) : Reclaimer :=
  ⟨budget, 0, [], [], 0⟩

/-- Whether the payload has been neither cleared nor released. -/
def isLive (r : Reclaimer) (payload : Nat) : Bool :=
  r.live.contains payload

/-! ## Compaction -/

/-- The reclaimer without the handles of payloads that are not live any more. -/
def compact (r : Reclaimer) : Reclaimer :=
  { r with registry := r.registry.filter r.isLive }

/-- The number of live payloads, counted by their handles. -/
def tracked (r : Reclaimer) : Nat :=
  r.compact.registry.length

/-! ## Passes -/

/-- Handles that a pass has taken from a registry. -/
structure Taken where
  /-- The payloads to clear, the oldest first. -/
  cleared : List Nat
  /-- The handles that are left. -/
  left : List Nat

/-- Takes handles from the front of a registry until as many as the limit have a live payload, or
there are no more. -/
def take (isLive : Nat → Bool) : Nat → List Nat → Taken
  | 0, registry => ⟨[], registry⟩
  | _ + 1, [] => ⟨[], []⟩
  | limit + 1, handle :: rest =>
    if isLive handle then
      let others := take isLive limit rest
      { others with cleared := handle :: others.cleared }
    else take isLive (limit + 1) rest

/-- What a pass over at most `limit` live payloads takes. -/
def oldest (r : Reclaimer) (limit : Nat) : Taken :=
  take r.isLive limit r.registry

/-- How many payloads a pass over at most `limit` of them clears. -/
def clearable (r : Reclaimer) (limit : Nat) : Nat :=
  (r.oldest limit).cleared.length

/-- A pass: clears the oldest live payloads, at most `limit` of them. -/
def clear (r : Reclaimer) (limit : Nat) : Reclaimer :=
  { r with
    registry := (r.oldest limit).left
    live := r.live.filter fun payload => !(r.oldest limit).cleared.contains payload
    epoch := if r.clearable limit = 0 then r.epoch else r.epoch + 1 }

/-- What a pass writes to the log. -/
def clearLog (r : Reclaimer) (limit : Nat) : List LogLine :=
  if r.clearable limit = 0 then [] else [.cleared (r.clearable limit)]

/-! ## Registrations and releases -/

/-- How many handles are over the budget. -/
def excess (r : Reclaimer) : Nat :=
  match r.budget with
  | none => 0
  | some budget => r.registry.length - budget

/-- The reclaimer with one more live payload, which has the number `r.next`, before it looks at its
budget. -/
def enrol (r : Reclaimer) : Reclaimer :=
  { r with
    registry := r.registry ++ [r.next]
    live := r.live ++ [r.next]
    next := r.next + 1 }

/-- The reclaimer, compacted if it has more handles than the budget allows. -/
def tidy (r : Reclaimer) : Reclaimer :=
  if r.excess = 0 then r else r.compact

/-- Registers a payload under the number `r.next` and clears what is then over the budget. -/
def register (r : Reclaimer) : Reclaimer :=
  r.enrol.tidy.clear r.enrol.tidy.excess

/-- What a registration writes to the log. -/
def registerLog (r : Reclaimer) : List LogLine :=
  r.enrol.tidy.clearLog r.enrol.tidy.excess

/-- Forgets payloads that nothing holds any more. Their handles stay behind. -/
def release (r : Reclaimer) (payloads : List Nat) : Reclaimer :=
  { r with live := r.live.filter fun payload => !payloads.contains payload }

/-- The reclaimer in a diagnostic text. -/
def literal (r : Reclaimer) : String :=
  partialRecord "MemoryReclaimer" [field "budget" r.budget, field "epoch" r.epoch]

/-! ## Laws of passes, registrations and releases -/

/-- A payload is tested to be live just if it is one of the live payloads. -/
theorem isLive_iff {r : Reclaimer} {payload : Nat} :
    r.isLive payload = true ↔ payload ∈ r.live := by
  simp [isLive]

/-- A pass clears live payloads from the front of the registry, at most as many as the limit. -/
theorem cleared_take (isLive : Nat → Bool) (limit : Nat) (registry : List Nat) :
    (take isLive limit registry).cleared = (registry.filter isLive).take limit := by
  induction registry generalizing limit with
  | nil => cases limit <;> rfl
  | cons handle rest ih =>
    cases limit with
    | zero => rfl
    | succ limit =>
      by_cases hlive : isLive handle = true
      · simp [take, hlive, ih]
      · simp [take, hlive, ih]

/-- A pass leaves the handles of the live payloads that it does not clear. -/
theorem filter_left_take (isLive : Nat → Bool) (limit : Nat) (registry : List Nat) :
    (take isLive limit registry).left.filter isLive = (registry.filter isLive).drop limit := by
  induction registry generalizing limit with
  | nil => cases limit <;> rfl
  | cons handle rest ih =>
    cases limit with
    | zero => rfl
    | succ limit =>
      by_cases hlive : isLive handle = true
      · simp [take, hlive, ih]
      · simp [take, hlive, ih]

/-- A pass leaves the handles at the back of the registry. -/
theorem left_take_suffix (isLive : Nat → Bool) (limit : Nat) (registry : List Nat) :
    (take isLive limit registry).left <:+ registry := by
  induction registry generalizing limit with
  | nil => cases limit <;> exact List.suffix_refl []
  | cons handle rest ih =>
    cases limit with
    | zero => exact List.suffix_refl _
    | succ limit =>
      by_cases hlive : isLive handle = true
      · simp only [take, if_pos hlive]
        exact (ih limit).trans (List.suffix_cons handle rest)
      · simp only [take, if_neg hlive]
        exact (ih (limit + 1)).trans (List.suffix_cons handle rest)

/-- A pass clears the oldest of the payloads whose handles are live, at most as many as it may. -/
theorem clearable_eq (r : Reclaimer) (limit : Nat) : r.clearable limit = min limit r.tracked := by
  rw [clearable, oldest, cleared_take, List.length_take]
  rfl

/-- A pass leaves the budget as it is. -/
@[simp] theorem budget_clear (r : Reclaimer) (limit : Nat) :
    (r.clear limit).budget = r.budget := rfl

/-- A pass hands out no number. -/
@[simp] theorem next_clear (r : Reclaimer) (limit : Nat) : (r.clear limit).next = r.next := rfl

/-- A pass starts an epoch if it clears something. -/
theorem epoch_clear (r : Reclaimer) (limit : Nat) :
    (r.clear limit).epoch = if r.clearable limit = 0 then r.epoch else r.epoch + 1 := rfl

/-- A pass makes nothing live. -/
theorem mem_live_of_clear {r : Reclaimer} {limit payload : Nat}
    (h : payload ∈ (r.clear limit).live) : payload ∈ r.live :=
  (List.mem_filter.mp h).1

/-- A pass that clears nothing leaves the live payloads as they are. -/
theorem live_clear_of_clearable {r : Reclaimer} {limit : Nat} (h : r.clearable limit = 0) :
    (r.clear limit).live = r.live := by
  have hnil : (r.oldest limit).cleared = [] := List.length_eq_zero_iff.mp h
  refine List.filter_eq_self.mpr fun payload _ => ?_
  rw [hnil]
  rfl

/-- A pass over no payloads does nothing. -/
theorem clear_zero (r : Reclaimer) : r.clear 0 = r := by
  have hclearable : r.clearable 0 = 0 := by
    rw [clearable_eq, Nat.zero_min]
  have hleft : (r.oldest 0).left = r.registry := by
    unfold oldest
    cases r.registry <;> rfl
  have hlive : (r.clear 0).live = r.live := live_clear_of_clearable hclearable
  have hepoch : (r.clear 0).epoch = r.epoch := by
    rw [epoch_clear, if_pos hclearable]
  calc r.clear 0 = ⟨r.budget, (r.clear 0).epoch, (r.oldest 0).left, (r.clear 0).live, r.next⟩ := rfl
    _ = r := by rw [hepoch, hleft, hlive]

/-- Compaction concerns the registry only. -/
@[simp] theorem live_tidy (r : Reclaimer) : r.tidy.live = r.live := by
  unfold tidy
  split <;> rfl

/-- To tidy up leaves the budget as it is. -/
@[simp] theorem budget_tidy (r : Reclaimer) : r.tidy.budget = r.budget := by
  unfold tidy
  split <;> rfl

/-- To tidy up hands out no number. -/
@[simp] theorem next_tidy (r : Reclaimer) : r.tidy.next = r.next := by
  unfold tidy
  split <;> rfl

/-- To tidy up begins no epoch. -/
@[simp] theorem epoch_tidy (r : Reclaimer) : r.tidy.epoch = r.epoch := by
  unfold tidy
  split <;> rfl

/-- A registration leaves the budget as it is. -/
@[simp] theorem budget_register (r : Reclaimer) : r.register.budget = r.budget := by
  simp [register, enrol]

/-- A registration hands out one number. -/
@[simp] theorem next_register (r : Reclaimer) : r.register.next = r.next + 1 := by
  simp [register, enrol]

/-- A registration makes at most its own payload live. -/
theorem mem_live_of_register {r : Reclaimer} {payload : Nat} (h : payload ∈ r.register.live) :
    payload ∈ r.live ∨ payload = r.next := by
  have henrolled : payload ∈ r.live ++ [r.next] := by
    have := mem_live_of_clear h
    rwa [live_tidy] at this
  simpa using henrolled

/-- Without a budget a registration does nothing but register. -/
theorem register_of_budget {r : Reclaimer} (h : r.budget = none) : r.register = r.enrol := by
  have hexcess : r.enrol.excess = 0 := by
    simp [excess, enrol, h]
  have htidy : r.enrol.tidy = r.enrol := if_pos hexcess
  rw [register, htidy, hexcess, clear_zero]

/-- Releasing takes away just the payloads named. -/
theorem mem_live_release {r : Reclaimer} {payloads : List Nat} {payload : Nat} :
    payload ∈ (r.release payloads).live ↔ payload ∈ r.live ∧ payload ∉ payloads := by
  simp [release]

end Reclaimer

end SoftCache
