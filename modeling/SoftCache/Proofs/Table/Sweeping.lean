import SoftCache.Proofs.Table.Quiet
import SoftCache.Proofs.Table.Upkeep

/-!
# Sweeps

A sweep by request drops just the stale slots and leaves the live entries in their order
(`Table.entries_removeExpired`). Counting sweeps only if an epoch has begun since the last sweep. As
long as nothing is stale in the epoch of the last sweep, that is enough: what is counted are the
live entries (`Table.Sound.result_length`).
-/

open scoped List

namespace SoftCache

variable {K V : Type}

namespace Table

variable {t : Table K V} {r : Reclaimer}

/-- There are no stale slots just if none is stale. -/
theorem stale_eq_nil_iff : t.stale r = [] ↔ ∀ s ∈ t.buckets.slots, s.isStale r = false := by
  simp [stale, List.filter_eq_nil_iff]

/-- In the epoch of the last sweep nothing is stale. -/
theorem Swept.stale_eq_nil (h : t.Swept r) (epoch : t.sweptEpoch = r.epoch) : t.stale r = [] :=
  stale_eq_nil_iff.mpr fun _ hs =>
    Slot.isStale_eq_false_iff_live.mpr fun payload hp => h.live epoch payload (mem_payloads hs hp)

/-- A purge leaves the live entries and their order. -/
theorem entries_purgeAll (issued : r.Issued t.payloads) :
    (t.purgeAll r).state.entries (t.purgeAll r).reclaimer = t.entries r := by
  -- All slots that are left are live, before the purge and after it.
  rw [entries_eq_map_content, entries_eq_map_content]
  rw [List.filter_eq_self.mpr fun s hs => by simpa using isStale_purgeAll issued s hs,
    slots_purgeAll]

/-- A sweep by request takes no live entry. -/
theorem entries_removeExpired (issued : r.Issued t.payloads) :
    (t.removeExpired r).state.entries (t.removeExpired r).reclaimer = t.entries r := by
  unfold removeExpired
  split
  · exact entries_purgeAll issued
  · rfl

/-- A sweep takes no live entry. -/
theorem entries_sweep (issued : r.Issued t.payloads) :
    (t.sweep r).state.entries (t.sweep r).reclaimer = t.entries r := by
  unfold sweep
  split
  · rfl
  · exact entries_removeExpired issued

namespace Sound

variable [Hashed K]

/-- Where both sides are held strongly, nothing is ever stale. -/
theorem stale_of_strong (h : t.Sound) (hside : t.hasReclaimableSide = false) :
    t.stale r = [] := by
  have hstrong : t.config.keyStrength = .strong ∧ t.config.valueStrength = .strong := by
    unfold hasReclaimableSide at hside
    cases hkey : t.config.keyStrength <;> cases hvalue : t.config.valueStrength <;>
      simp_all [Strength.isStrong]
  exact stale_eq_nil_iff.mpr fun s hs =>
    Slot.isStale_of_suits_strong (h.suited s hs) hstrong.1 hstrong.2 r

/-- A sweep by request leaves nothing stale. -/
theorem stale_removeExpired (h : t.Sound) (issued : r.Issued t.payloads) :
    (t.removeExpired r).state.stale (t.removeExpired r).reclaimer = [] := by
  cases hside : t.hasReclaimableSide with
  | true => exact stale_eq_nil_iff.mpr (isStale_removeExpired issued hside)
  | false =>
    rw [Table.removeExpired, if_neg (by simp [hside])]
    exact h.stale_of_strong hside

/-- A sweep by request answers how many stale slots there were. -/
theorem result_removeExpired (h : t.Sound) : (t.removeExpired r).result = (t.stale r).length := by
  cases hside : t.hasReclaimableSide with
  | true =>
    rw [Table.removeExpired, if_pos hside]
    rfl
  | false =>
    rw [Table.removeExpired, if_neg (by simp [hside]), h.stale_of_strong hside]
    rfl

/-- Counting leaves nothing stale, if nothing is stale in the epoch of the last sweep. -/
theorem stale_sweep (h : t.Sound) (issued : r.Issued t.payloads)
    (quiet : t.sweptEpoch = r.epoch → t.stale r = []) :
    (t.sweep r).state.stale (t.sweep r).reclaimer = [] := by
  unfold Table.sweep
  split
  · next hepoch => exact quiet hepoch
  · exact h.stale_removeExpired issued

/-- What is counted are the live entries. -/
theorem result_length (h : t.Sound) (issued : r.Issued t.payloads)
    (quiet : t.sweptEpoch = r.epoch → t.stale r = []) :
    (t.length r).result = (t.entries r).length := by
  have hsplit := (t.sweep r).state.length_slots (t.sweep r).reclaimer
  rw [h.stale_sweep issued quiet, entries_sweep issued, List.length_nil, Nat.zero_add] at hsplit
  rw [← hsplit]
  exact (h.sweep r).counted

end Sound

end Table

end SoftCache
