import SoftCache.Proofs.Registering
import SoftCache.Proofs.World.Frames
import SoftCache.Proofs.World.Registration

/-!
# The law of the budget

A reclaimer with a budget never has more live payloads than that. What a request does to it are
registrations and releases, and each registration clears the oldest payload if there are just as
many as the budget allows, and nothing otherwise. Nothing else clears a payload, passes apart
(`World.Reachable.keeps_budget`).
-/

open scoped List

namespace SoftCache

/-! ## Registrations under a budget -/

namespace Reclaimer

/-- What a registration is to clear under a budget. -/
structure Abides (r : Reclaimer) (budget : Nat) : Prop where
  /-- With as many payloads as the budget allows, just one is cleared, the oldest, which is the new
  one only under a budget of zero. -/
  full : r.live.length = budget → ∃ oldest rest, r.live ++ [r.next] = oldest :: rest ∧
    r.register.live = rest ∧ (∀ other ∈ rest, oldest < other) ∧ (oldest = r.next ↔ budget = 0)
  /-- Otherwise none is. -/
  room : r.live.length ≠ budget → r.register.live = r.live ++ [r.next]

/-- An orderly reclaimer keeps its budget. -/
theorem Orderly.abides {r : Reclaimer} (h : r.Orderly) {budget : Nat}
    (hbudget : r.budget = some budget) : r.Abides budget := by
  have hregister := h.live_register
  rw [hbudget] at hregister
  constructor
  case room =>
    intro hroom
    rw [hregister, if_neg fun heq => hroom (Option.some.inj heq).symm, List.drop_zero]
  case full =>
    intro hfull
    rw [if_pos (congrArg some hfull.symm)] at hregister
    have hsorted := h.toFiled.enrol.sorted_live
    rw [show r.enrol.live = r.live ++ [r.next] from rfl] at hsorted
    cases hlive : r.live with
    | nil =>
      rw [hlive] at hfull hregister
      exact ⟨r.next, [], rfl, hregister, List.forall_mem_nil _, by simpa using hfull.symm⟩
    | cons oldest rest =>
      rw [hlive] at hfull hregister hsorted
      refine ⟨oldest, rest ++ [r.next], rfl, hregister,
        fun other hother => List.rel_of_pairwise_cons hsorted hother, ?_⟩
      have hlt : oldest < r.next := h.live_lt (hlive ▸ List.mem_cons_self)
      constructor
      · exact fun heq => absurd heq hlt.ne
      · rintro rfl
        cases hfull

/-- Events that register nothing take away just what they release. -/
theorem mem_live_replay {r : Reclaimer} {events : List Event} (hnone : .registered ∉ events)
    {payload : Nat} : payload ∈ (r.replay events).live ↔
      payload ∈ r.live ∧ payload ∉ events.flatMap Event.payloads := by
  induction events generalizing r with
  | nil => simp [replay]
  | cons event rest ih =>
    rw [List.mem_cons, not_or] at hnone
    cases event with
    | registered => exact absurd rfl hnone.1
    | released payloads =>
      show payload ∈ ((r.release payloads).replay rest).live ↔ _
      rw [ih hnone.2, mem_live_release, List.flatMap_cons, List.mem_append, not_or, and_assoc]
      rfl

end Reclaimer

namespace World

variable {K V : Type} {w w' w'' : World K V}

/-! ## Worlds without a registration -/

/-- A world that another comes to without a registration with any of its reclaimers. -/
structure Unregistered (w w' : World K V) : Prop where
  /-- Reclaimers stay. -/
  length_le : w.reclaimers.length ≤ w'.reclaimers.length
  /-- No number is handed out. -/
  next : ∀ number < w.reclaimers.length, (w'.reclaimer number).next = (w.reclaimer number).next

namespace Unregistered

/-- Without a registration first and none afterwards there is none. -/
theorem trans (h : w.Unregistered w') (h' : w'.Unregistered w'') : w.Unregistered w'' where
  length_le := h.length_le.trans h'.length_le
  next number index := (h'.next number (index.trans_le h.length_le)).trans (h.next number index)

/-- Only the reclaimers matter. -/
theorem of_eq (h : w'.reclaimers = w.reclaimers) : w.Unregistered w' where
  length_le := by rw [h]
  next number _ := by rw [reclaimer, h, reclaimer]

/-- One reclaimer has done something, but registered nothing. -/
theorem of_set {owner : Nat} {r : Reclaimer} (hset : w'.reclaimers = w.reclaimers.set owner r)
    (hnext : r.next = (w.reclaimer owner).next) : w.Unregistered w' where
  length_le := by rw [hset, List.length_set]
  next number index := by
    by_cases howner : owner = number
    · subst howner
      rw [show w'.reclaimer owner = r from reclaimer_set_self index hset, hnext]
    · rw [show w'.reclaimer number = w.reclaimer number from reclaimer_set_of_ne howner hset]

/-- Another reclaimer has been brought in. -/
theorem of_append {r : Reclaimer} (happend : w'.reclaimers = w.reclaimers ++ [r]) :
    w.Unregistered w' where
  length_le := by
    rw [happend, List.length_append]
    exact Nat.le_add_right _ _
  next number index := by
    rw [reclaimer_of_append happend index]

end Unregistered

section Plain

variable (w)

/-- To dismiss tables registers nothing. -/
theorem unregistered_dismissAll (gone : Directory Nat (PlacedTable K V)) :
    w.Unregistered (w.dismissAll gone) := by
  induction gone generalizing w with
  | nil => exact .of_eq rfl
  | cons entry rest ih =>
    have hfirst : w.Unregistered (w.dismiss entry.2.reclaimer entry.2.table.buckets.slots) :=
      .of_set rfl rfl
    exact hfirst.trans (ih _)

/-- To collect what nobody can reach registers nothing. -/
theorem unregistered_collect : w.Unregistered w.collect := by
  have hleft : w.Unregistered { w with tables := w.leftTables } := .of_eq rfl
  exact hleft.trans (unregistered_dismissAll _ _)

/-- To remove a cache registers nothing. -/
theorem unregistered_removeCache (name : String) : w.Unregistered (w.removeCache name) := by
  unfold removeCache
  split
  · exact .of_eq rfl
  · exact .of_set rfl rfl

/-- To remove whatever has a name registers nothing. -/
theorem unregistered_removeNamed (name : String) : w.Unregistered (w.removeNamed name) := by
  have hname : w.Unregistered { w with tableNames := w.tableNames.erase name } := .of_eq rfl
  exact (hname.trans (unregistered_collect _)).trans (unregistered_removeCache _ name)

/-- To bring a table in registers nothing. -/
theorem unregistered_addTable (name : String) (placed : PlacedTable K V) :
    w.Unregistered (w.addTable name placed) := by
  have hput : w.Unregistered (w.enterTable name placed) := .of_eq rfl
  exact (hput.trans (unregistered_collect _)).trans (unregistered_removeCache _ name)

/-- To bring a cache in registers nothing. -/
theorem unregistered_addCache (name : String) (placed : PlacedCache K V) :
    w.Unregistered (w.addCache name placed) :=
  (w.unregistered_removeNamed name).trans (.of_eq rfl)

/-- To begin a walk registers nothing. -/
theorem unregistered_addWalk (newName : String) (number : Nat) (view : View)
    (entries : List (Entry K V)) :
    w.Unregistered (w.addWalk newName number view entries).world := by
  have hwalk : w.Unregistered
      { w with walks := w.walks.set newName ⟨.start view entries, number⟩ } := .of_eq rfl
  exact hwalk.trans (unregistered_collect _)

/-- A reclaimer that is provided has registered nothing. -/
theorem unregistered_provide {reclaimer : Option String} {index : Nat}
    (hprovide : w.provide reclaimer = some (w', index)) : w.Unregistered w' := by
  cases reclaimer with
  | none =>
    cases hprovide
    exact .of_append rfl
  | some name =>
    obtain ⟨_, -, heq⟩ := Option.map_eq_some_iff.mp hprovide
    cases heq
    exact .of_eq rfl

end Plain

/-- Whether a request may register payloads. -/
def Request.registers : Request K V → Bool
  | .table _ request => request.registers
  | .cache _ request => request.registers
  | .copy .. => true
  | _ => false

section Requests

variable [DecidableEq K] [Hashed K] [Ordered K] [Literal K] [DecidableEq V] [Literal V]

/-- What comes of a request that is to register nothing registers nothing. -/
theorem unregistered_of_effect {request : Request K V} {notices : List (Notice K V)}
    (effect : w.Effect request w' notices)
    (hpass : ∀ name passing, request ≠ .reclaimer name passing)
    (hnone : request.registers = false) : w.Unregistered w' := by
  cases effect with
  | newReclaimer => exact .of_append rfl
  | newTable hprovide =>
    exact (w.unregistered_provide hprovide).trans (unregistered_addTable _ _ _)
  | newCache hprovide =>
    exact (w.unregistered_provide hprovide).trans (unregistered_addCache _ _ _)
  | copy => cases hnone
  | drop => exact w.unregistered_removeNamed _
  | @table _ _ _ placed _ _ _ hdone =>
    subst hdone
    exact .of_set rfl (placed.table.next_perform _ hnone)
  | @cache _ _ placed _ _ _ hdone =>
    subst hdone
    exact .of_set rfl (placed.cache.next_perform _ hnone)
  | reclaimer => exact absurd rfl (hpass _ _)
  | walk => exact w.unregistered_addWalk ..
  | randomWalk =>
    refine Unregistered.trans ?_ (unregistered_addWalk _ _ _ _ _)
    exact .of_eq rfl
  | @remove _ walked placed _ _ _ hdone =>
    subst hdone
    refine .of_set rfl ?_
    unfold Walk.remove
    split
    · rfl
    · exact placed.table.next_removeIf _ _ _
  | nothing | recorder | goOn => exact .of_eq rfl

/-- A request that is to register nothing registers nothing. -/
theorem unregistered_perform (w : World K V) {request : Request K V}
    (hpass : ∀ name passing, request ≠ .reclaimer name passing)
    (hnone : request.registers = false) : w.Unregistered (w.perform request).world :=
  unregistered_of_effect (w.effect_perform request) hpass hnone

/-! ## Budgets in a world -/

/-- A reclaimer that keeps its budget. -/
structure Budgeted (w : World K V) (number budget : Nat) : Prop where
  /-- No more payloads are held and not cleared than the budget allows. -/
  within : (w.held number).length ≤ budget
  /-- No more are counted. -/
  counted : ∀ name, w.reclaimerOf name = some number →
    ∃ n ≤ budget, (w.perform (.reclaimer name .tracked)).reply = .count n
  /-- What a request does that is none to a reclaimer are registrations, all under the budget, and
  releases of what is not held any more. -/
  course : ∀ request, (∀ name passing, request ≠ .reclaimer name passing) →
    ∃ events, (w.reclaimer number).replay events = (w.perform request).world.reclaimer number ∧
      (∀ first rest, events = first ++ .registered :: rest →
        ((w.reclaimer number).replay first).Abides budget) ∧
      ∀ payload ∈ events.flatMap Reclaimer.Event.payloads,
        payload ∉ (w.perform request).world.custody number
  /-- A request that registers nothing clears nothing: what is held afterwards is as live as it
  was. -/
  quiet : ∀ request, (∀ name passing, request ≠ .reclaimer name passing) →
    request.registers = false → ∀ payload ∈ (w.perform request).world.custody number,
      ((w.perform request).world.reclaimer number).isLive payload =
        (w.reclaimer number).isLive payload

/-- In a reachable world every reclaimer that has a budget keeps it. -/
theorem Reachable.keeps_budget (h : w.Reachable) {number budget : Nat}
    (hbudget : (w.reclaimer number).budget = some budget) : w.Budgeted number budget := by
  have index : number < w.reclaimers.length := by
    by_contra hout
    rw [reclaimer, List.getD_eq_getElem?_getD,
      List.getElem?_eq_none (Nat.le_of_not_lt hout)] at hbudget
    cases hbudget
  have hsound := h.sound
  have hissued := hsound.issued number index
  have hwithin : (w.held number).length ≤ budget := by
    rw [← (hsound.live_perm_held index).length_eq]
    exact hissued.within budget hbudget
  constructor
  case within => exact hwithin
  case counted =>
    intro name howner
    refine ⟨_, hwithin, ?_⟩
    rw [World.perform, overReclaimer, howner, ← hsound.tracked_eq_held index]
  case course =>
    intro request hpass
    obtain ⟨events, hreplay, hreleased⟩ :=
      ((hsound.advances request hpass).hands.handover number index).course
    refine ⟨events, hreplay, fun first rest _ => ?_, fun payload hp => (hreleased payload hp).2.2⟩
    obtain ⟨horderly, hsame⟩ := hissued.toOrderly.replay first
    exact horderly.abides (hsame.trans hbudget)
  case quiet =>
    intro request hpass hnone payload hp
    obtain ⟨events, hreplay, hreleased⟩ :=
      ((hsound.advances request hpass).hands.handover number index).course
    -- No number was handed out, so there was no registration.
    have hnext := (w.unregistered_perform hpass hnone).next number index
    rw [← hreplay, Reclaimer.next_replay] at hnext
    have hnot : Reclaimer.Event.registered ∉ events := List.count_eq_zero.mp (by omega)
    rw [Bool.eq_iff_iff, Reclaimer.isLive_iff, Reclaimer.isLive_iff, ← hreplay,
      Reclaimer.mem_live_replay hnot]
    exact and_iff_left fun hgone => (hreleased payload hgone).2.2 hp

/-- A world under a budget of two, with an entry that registers its key and its value, a copy of it,
and a value in a soft tier. -/
def thrifty : World UInt64 String :=
  run {}
    [.newReclaimer "r" (some 2),
      .newTable "t"
        { options := { keyStrength := .reclaimable, valueStrength := .reclaimable }
          reclaimer := some "r" },
      .newCache "c" { options := { size := 1, softSize := -1 }, reclaimer := some "r" },
      .table "t" (.put (some 1) (some "a")),
      .copy "t" "u",
      .cache "c" (.put 2 (some "b")),
      .cache "c" (.put 3 (some "c"))]

/-- In the thrifty world five payloads were registered, and the last two are left. -/
theorem thrifty_keeps_budget :
    (thrifty.reclaimer 0).next = 5 ∧ (thrifty.reclaimer 0).live = [3, 4] ∧
      (thrifty.reclaimer 0).budget = some 2 ∧ thrifty.Budgeted 0 2 :=
  ⟨by decide +kernel, by decide +kernel, by decide +kernel,
    Reachable.keeps_budget ⟨_, _, rfl⟩ (by decide +kernel : (thrifty.reclaimer 0).budget = some 2)⟩

end Requests

end World

end SoftCache
