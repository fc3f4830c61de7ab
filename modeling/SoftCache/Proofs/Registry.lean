import Mathlib.Data.List.Nodup
import SoftCache.Reclaimer

/-!
# The registry of a reclaimer

A reclaimer is `Filed` if its registry has the handles of the live payloads in the order in which
they were registered, whatever other handles are left behind between them. A pass then clears the
oldest live payloads (`Reclaimer.Filed.live_clear`). It is `Orderly` if the live payloads are within
the budget as well. A registration then clears the oldest payload if there are just as many as the
budget allows, and nothing otherwise (`Reclaimer.Orderly.live_register`).

What holders do with a reclaimer is a list of events, registrations and releases, that can be
replayed.
-/

namespace SoftCache.Reclaimer

/-- A reclaimer whose registry has the handles of its live payloads, in order. -/
structure Filed (r : Reclaimer) : Prop where
  /-- Handles are in the order of registration. -/
  sorted : r.registry.Pairwise (· < ·)
  /-- They have been handed out. -/
  below : ∀ handle ∈ r.registry, handle < r.next
  /-- The live payloads are those whose handles are live. -/
  handles : r.registry.filter r.isLive = r.live

/-- A reclaimer that is filed and within its budget. -/
structure Orderly (r : Reclaimer) : Prop extends r.Filed where
  /-- There are not more live payloads than the budget allows. -/
  within : ∀ budget, r.budget = some budget → r.live.length ≤ budget

variable {r : Reclaimer} {limit payload : Nat}

/-! ## What is in a registry -/

namespace Filed

/-- The live payloads are in the registry in its order. -/
theorem live_sublist (h : r.Filed) : r.live.Sublist r.registry :=
  h.handles ▸ List.filter_sublist

/-- The live payloads are in the order of registration. -/
theorem sorted_live (h : r.Filed) : r.live.Pairwise (· < ·) :=
  h.sorted.sublist h.live_sublist

/-- No payload is live twice. -/
theorem nodup_live (h : r.Filed) : r.live.Nodup :=
  h.sorted_live.imp Nat.ne_of_lt

/-- The live payloads have been handed out. -/
theorem live_lt (h : r.Filed) (hp : payload ∈ r.live) : payload < r.next :=
  h.below payload (h.live_sublist.subset hp)

/-- A live payload has one handle. -/
theorem count_registry (h : r.Filed) (hp : payload ∈ r.live) : r.registry.count payload = 1 :=
  List.count_eq_one_of_mem (h.sorted.imp Nat.ne_of_lt) (h.live_sublist.subset hp)

/-- The live payloads are those that are counted. -/
theorem tracked_eq (h : r.Filed) : r.tracked = r.live.length :=
  congrArg List.length h.handles

/-! ## Passes -/

/-- A pass clears the oldest live payloads. -/
theorem cleared_eq (h : r.Filed) (limit : Nat) : (r.oldest limit).cleared = r.live.take limit := by
  rw [oldest, cleared_take, h.handles]

/-- A pass that clears nothing finds no payloads or may clear none. -/
theorem clearable_eq_zero_iff (h : r.Filed) :
    r.clearable limit = 0 ↔ limit = 0 ∨ r.live = [] := by
  rw [clearable, h.cleared_eq, List.length_eq_zero_iff, List.take_eq_nil_iff]

/-- What a pass leaves live is what was live and is not cleared. -/
theorem mem_live_clear (h : r.Filed) :
    payload ∈ (r.clear limit).live ↔ payload ∈ r.live ∧ payload ∉ r.live.take limit := by
  rw [clear, List.mem_filter, h.cleared_eq]
  simp

/-- A pass leaves all but the oldest payloads. -/
theorem live_clear (h : r.Filed) (limit : Nat) : (r.clear limit).live = r.live.drop limit := by
  have hnodup := h.nodup_live
  rw [← List.take_append_drop limit r.live, List.nodup_append] at hnodup
  have hcleared : (r.live.take limit).filter (fun p => !(r.live.take limit).contains p) = [] := by
    rw [List.filter_eq_nil_iff]
    simp
  have hleft : (r.live.drop limit).filter (fun p => !(r.live.take limit).contains p) =
      r.live.drop limit := by
    rw [List.filter_eq_self]
    intro p hp
    have habsent : p ∉ r.live.take limit := fun htake => hnodup.2.2 p htake p hp rfl
    simpa using habsent
  calc (r.clear limit).live
    _ = r.live.filter (fun p => !(r.live.take limit).contains p) := by rw [clear, h.cleared_eq]
    _ = (r.live.take limit ++ r.live.drop limit).filter
          (fun p => !(r.live.take limit).contains p) := by rw [List.take_append_drop]
    _ = r.live.drop limit := by rw [List.filter_append, hcleared, hleft, List.nil_append]

/-- A pass leaves the registry in order. -/
theorem clear (h : r.Filed) (limit : Nat) : (r.clear limit).Filed := by
  have hsuffix := left_take_suffix r.isLive limit r.registry
  refine ⟨h.sorted.sublist hsuffix.sublist, fun handle hhandle => ?_, ?_⟩
  · exact h.below handle (hsuffix.subset hhandle)
  · -- Of the handles that are left, those that were live still are.
    have hleft : (r.oldest limit).left.filter r.isLive = (r.clear limit).live := by
      rw [oldest, filter_left_take, h.handles, h.live_clear]
    rw [← hleft]
    refine List.filter_congr fun handle hhandle => ?_
    rw [Bool.eq_iff_iff, isLive_iff, isLive_iff, ← hleft, List.mem_filter, isLive_iff]
    exact and_iff_right hhandle

/-! ## Compaction, registrations and releases -/

/-- A registry that is compacted is in order. -/
theorem compact (h : r.Filed) : r.compact.Filed := by
  refine ⟨h.sorted.filter _, fun handle hhandle => ?_, ?_⟩
  · exact h.below handle (List.mem_filter.mp hhandle).1
  · show (r.registry.filter r.isLive).filter r.isLive = r.live
    rw [List.filter_filter, ← h.handles]
    simp only [Bool.and_self]

/-- A registry that is tidied up is in order. -/
theorem tidy (h : r.Filed) : r.tidy.Filed := by
  unfold Reclaimer.tidy
  split
  · exact h
  · exact h.compact

/-- The new payload comes last. -/
theorem enrol (h : r.Filed) : r.enrol.Filed := by
  have hlive : ∀ handle ∈ r.registry, r.enrol.isLive handle = r.isLive handle := by
    intro handle hhandle
    have hne : handle ≠ r.next := Nat.ne_of_lt (h.below handle hhandle)
    rw [Bool.eq_iff_iff, isLive_iff, isLive_iff]
    simp [Reclaimer.enrol, hne]
  have hnew : r.enrol.isLive r.next = true :=
    isLive_iff.mpr (List.mem_append_right _ (List.mem_singleton_self _))
  constructor
  case sorted =>
    refine List.pairwise_append.mpr ⟨h.sorted, List.pairwise_singleton _ _, fun p hp q hq => ?_⟩
    rw [List.mem_singleton.mp hq]
    exact h.below p hp
  case below =>
    intro handle hhandle
    show handle < r.next + 1
    rcases List.mem_append.mp hhandle with hold | hnew
    · exact Nat.lt_succ_of_lt (h.below handle hold)
    · rw [List.mem_singleton.mp hnew]
      exact Nat.lt_succ_self _
  case handles =>
    show (r.registry ++ [r.next]).filter r.enrol.isLive = r.live ++ [r.next]
    rw [List.filter_append, List.filter_congr hlive, h.handles]
    simp [hnew]

/-- A release leaves the registry in order. -/
theorem release (h : r.Filed) (payloads : List Nat) : (r.release payloads).Filed := by
  refine ⟨h.sorted, h.below, ?_⟩
  show r.registry.filter (r.release payloads).isLive =
    r.live.filter fun payload => !payloads.contains payload
  rw [← h.handles, List.filter_filter]
  refine List.filter_congr fun handle _ => ?_
  rw [Bool.eq_iff_iff, isLive_iff, mem_live_release, Bool.and_eq_true, isLive_iff]
  simp [and_comm]

end Filed

/-! ## Within the budget -/

/-- A new reclaimer is orderly. -/
theorem orderly_ofBudget (budget : Option Nat) : (ofBudget budget).Orderly :=
  ⟨⟨.nil, List.forall_mem_nil _, rfl⟩, fun _ _ => Nat.zero_le _⟩

/-- How many payloads a registration clears. -/
def overflow (r : Reclaimer) : Nat :=
  match r.budget with
  | none => 0
  | some budget => r.live.length + 1 - budget

/-- A registration puts the new payload last and then clears the oldest that are too many. -/
theorem Filed.live_register (h : r.Filed) :
    r.register.live = (r.live ++ [r.next]).drop r.overflow := by
  rw [register, h.enrol.tidy.live_clear, live_tidy]
  cases hbudget : r.budget with
  | none =>
    have hexcess : r.enrol.tidy.excess = 0 := by
      rw [excess, budget_tidy]
      simp [Reclaimer.enrol, hbudget]
    rw [hexcess, overflow, hbudget]
    rfl
  | some budget =>
    have henrolled : r.enrol.budget = some budget := hbudget
    have hlength : r.enrol.live.length = r.live.length + 1 := List.length_append
    have hoverflow : r.overflow = r.live.length + 1 - budget := by
      rw [overflow, hbudget]
    have hexcess : r.enrol.tidy.excess = r.overflow := by
      rw [hoverflow]
      unfold Reclaimer.tidy
      split
      · next hfew =>
        -- There are no more live payloads than handles, so there are none too many.
        have hle := h.enrol.live_sublist.length_le
        rw [hfew]
        simp only [excess, henrolled] at hfew
        omega
      · have hhandles : r.enrol.compact.registry.length = r.enrol.live.length := h.enrol.tracked_eq
        simp only [excess, show r.enrol.compact.budget = some budget from hbudget]
        omega
    rw [hexcess]
    rfl

namespace Orderly

/-- A pass leaves a reclaimer orderly. -/
theorem clear (h : r.Orderly) (limit : Nat) : (r.clear limit).Orderly where
  toFiled := h.toFiled.clear limit
  within budget hbudget := by
    rw [h.live_clear, List.length_drop]
    have hle := h.within budget hbudget
    omega

/-- A reclaimer whose registry is compacted stays orderly. -/
theorem compact (h : r.Orderly) : r.compact.Orderly :=
  ⟨h.toFiled.compact, h.within⟩

/-- A release leaves a reclaimer orderly. -/
theorem release (h : r.Orderly) (payloads : List Nat) : (r.release payloads).Orderly where
  toFiled := h.toFiled.release payloads
  within budget hbudget := Nat.le_trans (List.length_filter_le _ _) (h.within budget hbudget)

/-- A registration leaves a reclaimer orderly, with no more payloads than its budget allows. -/
theorem register (h : r.Orderly) : r.register.Orderly where
  toFiled := h.toFiled.enrol.tidy.clear _
  within budget hbudget := by
    rw [budget_register] at hbudget
    rw [h.live_register, List.length_drop, List.length_append, List.length_singleton]
    simp only [overflow, hbudget]
    omega

/-- A registration clears one payload, the oldest, if there are as many as the budget allows, and
nothing otherwise. -/
theorem live_register (h : r.Orderly) :
    r.register.live =
      (r.live ++ [r.next]).drop (if r.budget = some r.live.length then 1 else 0) := by
  rw [h.toFiled.live_register, overflow]
  cases hbudget : r.budget with
  | none => rfl
  | some budget =>
    have hle := h.within budget hbudget
    dsimp only
    split
    · next hfull =>
      cases hfull
      rw [Nat.add_sub_cancel_left]
    · next hroom =>
      have hne : budget ≠ r.live.length := fun heq => hroom (congrArg some heq)
      rw [show r.live.length + 1 - budget = 0 by omega]

end Orderly

/-! ## Events -/

/-- What holders do with a reclaimer. -/
inductive Event where
  /-- A payload is registered. -/
  | registered
  /-- Payloads are released. -/
  | released (payloads : List Nat)
deriving DecidableEq

/-- The payloads that an event releases. -/
def Event.payloads : Event → List Nat
  | registered => []
  | released payloads => payloads

/-- The reclaimer after an event. -/
def meet (r : Reclaimer) : Event → Reclaimer
  | .registered => r.register
  | .released payloads => r.release payloads

/-- The reclaimer after events, one after the other. -/
def replay (r : Reclaimer) (events : List Event) : Reclaimer :=
  events.foldl meet r

/-- Events are replayed in turn. -/
theorem replay_append (r : Reclaimer) (first second : List Event) :
    r.replay (first ++ second) = (r.replay first).replay second :=
  List.foldl_append

/-- Events leave a reclaimer orderly, with its budget. -/
theorem Orderly.replay (h : r.Orderly) (events : List Event) :
    (r.replay events).Orderly ∧ (r.replay events).budget = r.budget := by
  induction events generalizing r with
  | nil => exact ⟨h, rfl⟩
  | cons event rest ih =>
    cases event with
    | registered =>
      obtain ⟨hrest, hbudget⟩ := ih h.register
      exact ⟨hrest, hbudget.trans (budget_register r)⟩
    | released payloads => exact ih (h.release payloads)

/-- Registrations are numbered. -/
theorem next_replay (r : Reclaimer) (events : List Event) :
    (r.replay events).next = r.next + events.count .registered := by
  induction events generalizing r with
  | nil => rfl
  | cons event rest ih =>
    cases event with
    | registered =>
      have hrest := ih r.register
      rw [next_register] at hrest
      rw [List.count_cons_self]
      show (r.register.replay rest).next = _
      omega
    | released payloads =>
      rw [List.count_cons_of_ne (by simp)]
      exact ih (r.release payloads)

end SoftCache.Reclaimer
