import SoftCache.Proofs.World.Soundness

/-!
# What is registered

The payloads that slots hold and no pass has cleared are those that a reclaimer has on its books
(`World.Sound.live_perm_held`), each with one handle and the oldest first, whatever handles are left
behind between theirs. So a reclaimer counts what is held, and its passes clear the oldest of that
(`World.Reachable.registers_exactly`).
-/

open scoped List

namespace SoftCache.World

variable {K V : Type} {w : World K V} {number : Nat}

/-! ## What is held -/

/-- The payloads of a reclaimer that slots hold and that are not cleared. -/
def held (w : World K V) (number : Nat) : List Nat :=
  (w.custody number).filter (w.reclaimer number).isLive

/-- The live payloads of a reclaimer are those that are held. -/
theorem Sound.live_perm_held [Hashed K] (h : w.Sound) (index : number < w.reclaimers.length) :
    (w.reclaimer number).live ~ w.held number := by
  have hissued := h.issued number index
  refine (List.perm_ext_iff_of_nodup hissued.nodup_live (hissued.nodup.filter _)).mpr
    fun payload => ?_
  rw [List.mem_filter, Reclaimer.isLive_iff]
  exact ⟨fun hlive => ⟨h.held number index payload hlive, hlive⟩, And.right⟩

/-- As many payloads are counted as are held. -/
theorem Sound.tracked_eq_held [Hashed K] (h : w.Sound) (index : number < w.reclaimers.length) :
    (w.reclaimer number).tracked = (w.held number).length := by
  rw [(h.issued number index).tracked_eq, (h.live_perm_held index).length_eq]

/-! ## Passes -/

/-- A request that made a pass over at most `limit` payloads of a reclaimer. -/
structure Passed (w : World K V) (number limit : Nat) (outcome : Outcome K V) : Prop where
  /-- The answer is how many are cleared: all that there are, or as many as the limit. -/
  reply : outcome.reply = .count (min limit (w.reclaimer number).tracked)
  /-- So many are cleared, and they are older than those that stay live. -/
  oldest : ∃ cleared, cleared.length = min limit (w.reclaimer number).tracked ∧
    (w.reclaimer number).live = cleared ++ (outcome.world.reclaimer number).live ∧
    ∀ payload ∈ cleared, ∀ other ∈ (outcome.world.reclaimer number).live, payload < other
  /-- An epoch begins if any are cleared. -/
  epoch : (outcome.world.reclaimer number).epoch = if min limit (w.reclaimer number).tracked = 0
    then (w.reclaimer number).epoch else (w.reclaimer number).epoch + 1
  /-- The other reclaimers clear nothing. -/
  others : ∀ other, number ≠ other → outcome.world.reclaimer other = w.reclaimer other
  /-- The tables are left as they are. -/
  tables : outcome.world.tables = w.tables
  /-- So are the caches. -/
  caches : outcome.world.caches = w.caches

/-- A pass of a filed reclaimer clears the oldest payloads. -/
theorem passed_clear (index : number < w.reclaimers.length) (filed : (w.reclaimer number).Filed)
    (limit : Nat) :
    w.Passed number limit
      { reply := .count ((w.reclaimer number).clearable limit)
        world := w.setReclaimer number ((w.reclaimer number).clear limit)
        log := (w.reclaimer number).clearLog limit } := by
  have hself := reclaimer_setReclaimer_self index ((w.reclaimer number).clear limit)
  have hlive := filed.live_clear limit
  refine ⟨?_, ⟨(w.reclaimer number).live.take limit, ?_, ?_, ?_⟩, ?_, fun other hne => ?_, rfl, rfl⟩
  · rw [Reclaimer.clearable_eq]
  · rw [List.length_take, filed.tracked_eq]
  · rw [hself, hlive, List.take_append_drop]
  · have hsorted := filed.sorted_live
    rw [← List.take_append_drop limit (w.reclaimer number).live] at hsorted
    rw [hself, hlive]
    exact (List.pairwise_append.mp hsorted).2.2
  · rw [hself, Reclaimer.epoch_clear, Reclaimer.clearable_eq]
  · exact reclaimer_setReclaimer_of_ne hne _

/-! ## Exact reclaimers -/

/-- Every payload that a request brings into custody is registered meanwhile. -/
theorem Sound.arrival [DecidableEq K] [Hashed K] [Ordered K] [Literal K] [DecidableEq V] [Literal V]
    (h : w.Sound) (index : number < w.reclaimers.length) (request : Request K V) {payload : Nat}
    (hafter : payload ∈ (w.perform request).world.custody number)
    (hbefore : payload ∉ w.custody number) :
    (w.reclaimer number).next ≤ payload ∧
      payload < ((w.perform request).world.reclaimer number).next := by
  by_cases hpass : ∀ name passing, request ≠ .reclaimer name passing
  · have hand := (h.advances request hpass).hands.handover number index
    exact ⟨(hand.origin payload hafter).resolve_left hbefore, hand.issued.lt_next payload hafter⟩
  · push Not at hpass
    obtain ⟨name, passing, rfl⟩ := hpass
    -- No reclaimer touches what tables and caches hold.
    have hsame : (w.overReclaimer name passing).world.custody number = w.custody number := by
      unfold World.overReclaimer
      cases w.reclaimerOf name with
      | none => rfl
      | some owner => cases passing <;> rfl
    exact absurd (hsame ▸ hafter) hbefore

variable [DecidableEq K] [Hashed K] [Ordered K] [Literal K] [DecidableEq V] [Literal V]

/-- A reclaimer whose books are right. -/
structure Exact (w : World K V) (number : Nat) : Prop where
  /-- What is held and not cleared has one handle. -/
  once : ∀ payload ∈ w.held number, (w.reclaimer number).registry.count payload = 1
  /-- Nothing else is live. -/
  live : (w.reclaimer number).live ~ w.held number
  /-- Handles are in the order of their numbers. -/
  sorted : (w.reclaimer number).registry.Pairwise (· < ·)
  /-- Numbers are handed out one after the other: what a request brings into custody comes after
  all handles that there are. -/
  arrival : ∀ request payload, payload ∈ (w.perform request).world.custody number →
    payload ∉ w.custody number →
    (∀ handle ∈ (w.reclaimer number).registry, handle < payload) ∧
      (w.reclaimer number).next ≤ payload ∧
      payload < ((w.perform request).world.reclaimer number).next
  /-- As many payloads are counted as are held and not cleared. -/
  counted : ∀ name, w.reclaimerOf name = some number →
    (w.perform (.reclaimer name .tracked)).reply = .count (w.held number).length
  /-- A pass clears the oldest payloads, as many as it may. -/
  passed : ∀ name limit, w.reclaimerOf name = some number →
    w.Passed number limit (w.perform (.reclaimer name (.clear limit)))
  /-- A pass over all payloads clears as many as are held. -/
  passedAll : ∀ name, w.reclaimerOf name = some number →
    w.Passed number (w.held number).length (w.perform (.reclaimer name .clearAll))

/-- In a reachable world the books of every reclaimer are right. -/
theorem Reachable.registers_exactly (h : w.Reachable) (index : number < w.reclaimers.length) :
    w.Exact number := by
  have hsound := h.sound
  have hissued := hsound.issued number index
  have hperm := hsound.live_perm_held index
  constructor
  case once => exact fun payload hp => hissued.count_registry (hperm.mem_iff.mpr hp)
  case live => exact hperm
  case sorted => exact hissued.sorted
  case arrival =>
    intro request payload hafter hbefore
    have hnew := hsound.arrival index request hafter hbefore
    exact ⟨fun handle hhandle => (hissued.below handle hhandle).trans_le hnew.1, hnew⟩
  case counted =>
    intro name howner
    rw [World.perform, overReclaimer, howner, ← hsound.tracked_eq_held index]
  case passed =>
    intro name limit howner
    rw [World.perform, overReclaimer, howner]
    exact passed_clear index hissued.toFiled limit
  case passedAll =>
    intro name howner
    -- The limit is the number of handles, which no pass exceeds.
    have hle : (w.held number).length ≤ (w.reclaimer number).registry.length := by
      rw [← hperm.length_eq]
      exact hissued.live_sublist.length_le
    have hpass := passed_clear index hissued.toFiled (w.reclaimer number).registry.length
    rw [World.perform, overReclaimer, howner]
    have hmin : min (w.reclaimer number).registry.length (w.reclaimer number).tracked =
        min (w.held number).length (w.reclaimer number).tracked := by
      rw [hsound.tracked_eq_held index, min_eq_right hle, min_self]
    refine ⟨?_, ?_, ?_, hpass.others, rfl, rfl⟩
    · rw [← hmin]
      exact hpass.reply
    · rw [← hmin]
      exact hpass.oldest
    · rw [← hmin]
      exact hpass.epoch

/-- A world in which handles are left behind: one of a removed entry, one of a replaced value, and
one of a copy that is gone. -/
def littered : World UInt64 String :=
  run {}
    [.newReclaimer "r" none,
      .newTable "t" { options := { valueStrength := .reclaimable }, reclaimer := some "r" },
      .newCache "c" { options := { size := 0, softSize := -1 }, reclaimer := some "r" },
      .table "t" (.put (some 1) (some "a")),
      .table "t" (.put (some 2) (some "b")),
      .cache "c" (.pin 3),
      .cache "c" (.put 3 (some "c")),
      .cache "c" (.unpin 3),
      .table "t" (.remove (some 1)),
      .table "t" (.put (some 2) (some "d")),
      .copy "t" "u",
      .copy "t" "v",
      .drop "u"]

/-- In the littered world three of six handles are those of payloads that are held. -/
theorem littered_registers_exactly :
    (littered.reclaimer 0).registry = [0, 1, 2, 3, 4, 5] ∧
      littered.held 0 = [3, 5, 2] ∧ littered.Exact 0 :=
  ⟨by decide +kernel, by decide +kernel,
    Reachable.registers_exactly ⟨_, _, rfl⟩ (by decide +kernel : 0 < littered.reclaimers.length)⟩

end SoftCache.World
