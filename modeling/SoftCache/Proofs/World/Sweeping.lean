import SoftCache.Proofs.Cache.Counting
import SoftCache.Proofs.World.Consistency

/-!
# Sweeps hide no loss

A table that is counted sweeps only if an epoch has begun since its last sweep. In a reachable world
that is enough, for tables and for caches (`World.Reachable.all_vigilant`): what is counted are the
live entries, whatever passes and registrations have cleared, in a copy as well as in what was
copied.
-/

open scoped List

namespace SoftCache

variable {K V : Type} [Hashed K]

/-- A table of which no loss is hidden, although it sweeps only now and then. -/
structure Table.Vigilant [DecidableEq K] [DecidableEq V] (t : Table K V) (r : Reclaimer) :
    Prop where
  /-- In the epoch of the last sweep no slot has lost its key or its value. -/
  quiet : t.sweptEpoch = r.epoch →
    ∀ s ∈ t.buckets.slots, s.key.isCleared r = false ∧ s.value.isCleared r = false
  /-- The live entries are counted. -/
  length : (t.perform r .length).result = .count (t.entries r).length
  /-- A table without live entries is empty. -/
  isEmpty : (t.perform r .isEmpty).result = .flag (t.entries r).isEmpty
  /-- Counting leaves the live entries and their order. -/
  counted : (t.perform r .length).state.entries (t.perform r .length).reclaimer = t.entries r
  /-- A sweep by request answers how many slots have lost their key or their value. -/
  removed : (t.perform r .removeExpired).result =
    .count (t.buckets.slots.countP fun s => s.key.isCleared r || s.value.isCleared r)
  /-- It leaves the live entries and their order. -/
  left : (t.perform r .removeExpired).state.entries (t.perform r .removeExpired).reclaimer =
    t.entries r
  /-- The next one finds nothing. -/
  again : ((t.perform r .removeExpired).state.perform (t.perform r .removeExpired).reclaimer
    .removeExpired).result = .count 0

/-- A sound table hides no loss if nothing is stale in the epoch of its last sweep. -/
theorem Table.Sound.vigilant [DecidableEq K] [DecidableEq V] {t : Table K V} {r : Reclaimer}
    (h : t.Sound) (issued : r.Issued t.payloads)
    (quiet : t.sweptEpoch = r.epoch → t.stale r = []) : t.Vigilant r where
  quiet hepoch s hs := by
    have hlive := Table.stale_eq_nil_iff.mp (quiet hepoch) s hs
    rwa [Slot.isStale, Bool.or_eq_false_iff] at hlive
  length := congrArg Reply.count (h.result_length issued quiet)
  isEmpty := by
    show Reply.flag ((t.length r).result == 0) = _
    rw [h.result_length issued quiet]
    cases t.entries r <;> rfl
  counted := Table.entries_sweep issued
  removed := by
    show Reply.count (t.removeExpired r).result = _
    rw [h.result_removeExpired, List.countP_eq_length_filter]
    rfl
  left := Table.entries_removeExpired issued
  again := by
    show Reply.count
      ((t.removeExpired r).state.removeExpired (t.removeExpired r).reclaimer).result = _
    rw [(h.removeExpired r).result_removeExpired, h.stale_removeExpired issued]
    rfl

namespace World

variable {w : World K V}

/-- The payloads of every table have been issued. -/
theorem Sound.issued_has (h : w.Sound) {t : Table K V} {r : Reclaimer} (there : w.Has t r) :
    r.Issued t.payloads := by
  cases there with
  | table hentry => exact h.issued_table (Directory.find_of_mem h.numbered hentry)
  | hard hentry => exact (h.issued_cache (Directory.find_of_mem h.distinct hentry)).left
  | soft hentry => exact (h.issued_cache (Directory.find_of_mem h.distinct hentry)).right

/-- Nothing is stale in the epoch of the last sweep of a table. -/
theorem Sound.stale_has (h : w.Sound) {t : Table K V} {r : Reclaimer} (there : w.Has t r)
    (epoch : t.sweptEpoch = r.epoch) : t.stale r = [] := by
  cases there with
  | table hentry => exact (h.tables _ hentry).swept.stale_eq_nil epoch
  | hard hentry => exact Table.stale_eq_nil_iff.mpr ((h.caches _ hentry).cache.hard_live _)
  | soft hentry => exact (h.caches _ hentry).swept.stale_eq_nil epoch

variable [DecidableEq K] [Ordered K] [Literal K] [DecidableEq V] [Literal V]

/-- No table of a reachable world hides a loss, and of every cache as many entries are counted as
there are keys. -/
theorem Reachable.all_vigilant (h : w.Reachable) :
    (∀ t r, w.Has t r → t.Vigilant r) ∧
      ∀ name placed, w.caches.find name = some placed →
        ∃ keys : List K, (w.perform (.cache name .keys)).reply = Cache.keyItems keys ∧
          (w.perform (.cache name .length)).reply = .count keys.length ∧
          (w.perform (.cache name .isEmpty)).reply = .flag keys.isEmpty := by
  have hsound := h.sound
  refine ⟨fun t r there => ?_, fun name placed found => ?_⟩
  · exact (hsound.has there).vigilant (hsound.issued_has there) (hsound.stale_has there)
  · have hplaced := hsound.caches _ (Directory.mem_of_find found)
    have hlength := hplaced.cache.result_length (hsound.issued_cache found)
      hplaced.swept.stale_eq_nil
    simp only [World.perform, overCache, found]
    refine ⟨placed.cache.keys (w.reclaimer placed.reclaimer), rfl, congrArg Reply.count hlength, ?_⟩
    show Reply.flag ((placed.cache.length (w.reclaimer placed.reclaimer)).result == 0) = _
    rw [hlength]
    cases placed.cache.keys (w.reclaimer placed.reclaimer) <;> rfl

/-- A world with a table, a copy of it and a cache, under a budget that the registrations of the
copy exceed. -/
def copied : World UInt64 String :=
  run {}
    [.newReclaimer "r" (some 3),
      .newTable "t" { options := { valueStrength := .reclaimable }, reclaimer := some "r" },
      .newCache "c" { options := { size := 1, softSize := -1 }, reclaimer := some "r" },
      .cache "c" (.put 1 (some "a")),
      .cache "c" (.put 2 (some "b")),
      .table "t" (.put (some 3) (some "c")),
      .table "t" (.put (some 4) (some "d")),
      .copy "t" "u"]

/-- The copy has cleared the soft value of the cache and a value of the original, and has all of its
own. -/
theorem copied_all_vigilant :
    copied.tables.map (fun entry => (entry.2.table.count,
      (entry.2.table.entries (copied.reclaimer entry.2.reclaimer)).length)) = [(2, 1), (2, 2)] ∧
      (copied.perform (.cache "c" .length)).reply = .count 1 ∧
      (∀ t r, copied.Has t r → t.Vigilant r) ∧
      ∀ name placed, copied.caches.find name = some placed →
        ∃ keys, (copied.perform (.cache name .keys)).reply = Cache.keyItems keys ∧
          (copied.perform (.cache name .length)).reply = .count keys.length ∧
          (copied.perform (.cache name .isEmpty)).reply = .flag keys.isEmpty :=
  ⟨by decide +kernel, by decide +kernel, Reachable.all_vigilant ⟨_, _, rfl⟩⟩

end World

end SoftCache
