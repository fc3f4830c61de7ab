import SoftCache.Proofs.World.Soundness

/-!
# What holds of every table and every cache

What can be said of a table and of a cache in a reachable world without a word about custody:
`Table.Consistent` and `Cache.Consistent`. Both self-checks look for a part of it, and find nothing
wrong.
-/

open scoped List

namespace SoftCache

variable {K V : Type}

/-! ## Tables -/

/-- A table whose bookkeeping agrees with its slots. -/
structure Table.Consistent [Hashed K] (t : Table K V) (r : Reclaimer) : Prop where
  /-- There is a bucket. -/
  nonempty : 0 < t.capacity
  /-- All slots are counted, stale or not. -/
  counted : t.count = t.buckets.slots.length
  /-- Each slot lies in the bucket of its hash. -/
  placed : ∀ i, ∀ s ∈ t.buckets.bucket i, s.hash.toNat % t.capacity = i
  /-- While the key of a slot can be read, the slot has the hash of it. -/
  hashed : ∀ s ∈ t.buckets.slots, ∀ key, s.key.get r = some key → s.hash = Hashed.hash key
  /-- The slot of the null key has the hash zero. -/
  nullHashed : ∀ s ∈ t.buckets.slots, s.key = .null → s.hash = 0
  /-- No two slots have the same key, where cleared keys are not compared. -/
  distinct : t.buckets.slots.Pairwise fun s s' =>
    s.key.isCleared r = false → s'.key.isCleared r = false → s.key.get r ≠ s'.key.get r
  /-- The threshold is that of the capacity. -/
  threshold_eq : t.threshold = t.config.loadFactor.threshold t.capacity
  /-- The table does not have to grow. -/
  within_threshold : t.count ≤ t.threshold
  /-- The table does not have to evict. -/
  within_bound : ∀ bound, t.bound = some bound → t.count ≤ bound

/-- A sound table is consistent, whatever has been cleared. -/
theorem Table.Sound.consistent [Hashed K] {t : Table K V} (h : t.Sound) (r : Reclaimer) :
    t.Consistent r where
  nonempty := h.capacity_pos
  counted := h.counted
  placed := h.placed
  hashed s hs key hkey := by
    have hlive : s.key.isCleared r = false := by
      by_contra hcleared
      rw [Holder.get_eq_none_of_isCleared (by simpa using hcleared)] at hkey
      cases hkey
    rw [h.hashed s hs, ← Holder.get_eq_content hlive, hkey]
    rfl
  nullHashed s hs hnull := by
    rw [h.hashed s hs, hnull]
    rfl
  distinct := by
    have hkeys := List.pairwise_map.mp h.distinct
    refine hkeys.imp fun hne hlive hlive' => ?_
    rwa [Holder.get_eq_content hlive, Holder.get_eq_content hlive']
  threshold_eq := h.threshold_eq
  within_threshold := h.within_threshold
  within_bound bound hbound := h.within_bound bound hbound

/-! ## Caches -/

/-- A cache that has each key in one place, and in each tier what belongs there. -/
structure Cache.Consistent [Hashed K] (c : Cache K V) (r : Reclaimer) : Prop where
  /-- No key is there twice, pinned with or without a value, in a slot of the hard tier, or in one
  of the soft tier, whether that has been cleared or not. -/
  exclusive : (c.pins.map (fun pin => some pin.1) ++
    (c.hard.buckets.slots ++ c.soft.buckets.slots).map (·.key.content)).Nodup
  /-- The bound of the hard tier is the size of the cache. -/
  hardBound : c.hard.bound = some c.size
  /-- The hard tier is within its bound. -/
  within_hardBound : c.hard.buckets.slots.length ≤ c.size
  /-- A negative size of the soft tier is -1. -/
  softSize : -1 ≤ c.softSize
  /-- The soft tier has no bound if its size is -1. -/
  unbounded : c.softSize = -1 → c.soft.bound = none
  /-- Otherwise the bound of the soft tier is its size, and the tier is within it. -/
  bounded : c.softSize ≠ -1 → ∃ bound : Nat, c.softSize = bound ∧ c.soft.bound = some bound ∧
    c.soft.buckets.slots.length ≤ bound
  /-- A soft tier of size zero has no slot. -/
  disabled : c.softSize = 0 → c.soft.buckets.slots = []
  /-- There is no null in the soft tier. -/
  full : ∀ s ∈ c.soft.buckets.slots, s.value ≠ .null
  /-- The hard tier is consistent. -/
  hard : c.hard.Consistent r
  /-- The soft tier is consistent. -/
  soft : c.soft.Consistent r

/-- A tiered cache is consistent, whatever has been cleared. -/
theorem Cache.Tiered.consistent [Hashed K] {c : Cache K V} (h : c.Tiered []) (r : Reclaimer) :
    c.Consistent r where
  exclusive := by
    -- Slots are counted by their contents, cleared or not.
    have hnodup := h.keyed.nodup
    rw [List.map_nil, List.append_nil, roster, List.append_assoc] at hnodup
    rw [List.map_append]
    rw [Table.contents, Table.contents, List.map_map, List.map_map] at hnodup
    exact hnodup
  hardBound := h.hardBound
  within_hardBound := by
    rw [← h.hard.counted]
    exact h.hard.within_bound c.size h.hardBound
  softSize := h.softSize
  unbounded hsize := by
    rw [h.softBound, Cache.softBound, if_neg (by omega)]
  bounded hsize := by
    have hnonneg : 0 ≤ c.softSize := by
      have := h.softSize
      omega
    have hbound : c.soft.bound = some c.softSize.toNat := by
      rw [h.softBound, Cache.softBound, if_pos hnonneg]
    refine ⟨c.softSize.toNat, by omega, hbound, ?_⟩
    rw [← h.soft.counted]
    exact h.soft.within_bound _ hbound
  disabled hsize := by
    have hbound : c.soft.bound = some 0 := by
      rw [h.softBound, hsize]
      rfl
    have hcount := h.soft.within_bound 0 hbound
    rw [h.soft.counted] at hcount
    exact List.length_eq_zero_iff.mp (Nat.le_zero.mp hcount)
  full s hs hnull := by
    refine h.full _ (List.mem_map_of_mem hs) ?_
    rw [Slot.content_snd, hnull]
    rfl
  hard := h.hard.consistent r
  soft := h.soft.consistent r

/-! ## Reachable worlds -/

namespace World

/-- The tables of a world with their reclaimers: those that have a number, and the tiers of the
caches. -/
inductive Has (w : World K V) : Table K V → Reclaimer → Prop
  /-- A table that has a number. -/
  | table {entry : Nat × PlacedTable K V} :
    entry ∈ w.tables → w.Has entry.2.table (w.reclaimer entry.2.reclaimer)
  /-- The hard tier of a cache. -/
  | hard {entry : String × PlacedCache K V} :
    entry ∈ w.caches → w.Has entry.2.cache.hard (w.reclaimer entry.2.reclaimer)
  /-- The soft tier of a cache. -/
  | soft {entry : String × PlacedCache K V} :
    entry ∈ w.caches → w.Has entry.2.cache.soft (w.reclaimer entry.2.reclaimer)

/-- The tables and tiers of a sound world are sound. -/
theorem Sound.has [Hashed K] {w : World K V} (h : w.Sound) {t : Table K V} {r : Reclaimer}
    (there : w.Has t r) : t.Sound := by
  cases there with
  | table hentry => exact (h.tables _ hentry).table
  | hard hentry => exact (h.caches _ hentry).cache.hard
  | soft hentry => exact (h.caches _ hentry).cache.soft

variable [DecidableEq K] [Hashed K] [Ordered K] [Literal K] [DecidableEq V] [Literal V]
  {w : World K V}

/-- Every table of a reachable world is consistent and passes its self-check, and an eviction that
finds no entry leaves no slot. -/
theorem Reachable.table_consistent (h : w.Reachable) {t : Table K V} {r : Reclaimer}
    (there : w.Has t r) :
    t.Consistent r ∧ (t.perform r .check).result = .done ∧
      ((t.takeNear r).result = none → (t.takeNear r).state.count = 0) := by
  have hsound := h.sound.has there
  refine ⟨hsound.consistent r, ?_, hsound.toCoherent.count_of_takeNear⟩
  simp only [Table.perform, Table.read, Step.done, hsound.violation?_eq_none]

/-- A world with a table whose keys collide, under a budget that the second value exceeds. -/
def crowded : World Clustered String :=
  run {}
    [.newReclaimer "r" (some 1),
      .newTable "t" { options := { valueStrength := .reclaimable }, reclaimer := some "r" },
      .table "t" (.put (some ⟨1⟩) (some "a")),
      .table "t" (.put (some ⟨5⟩) (some "b"))]

/-- In the crowded world one of two slots is stale, and the table is consistent all the same. -/
theorem crowded_consistent :
    ∃ placed, crowded.tables.find 0 = some placed ∧
      (placed.table.count, (placed.table.entries (crowded.reclaimer placed.reclaimer)).length) =
        (2, 1) ∧
      placed.table.Consistent (crowded.reclaimer placed.reclaimer) ∧
      (placed.table.perform (crowded.reclaimer placed.reclaimer) .check).result = .done ∧
      ((placed.table.takeNear (crowded.reclaimer placed.reclaimer)).result = none →
        (placed.table.takeNear (crowded.reclaimer placed.reclaimer)).state.count = 0) := by
  have hslots : (crowded.tables.find 0).map (fun placed => (placed.table.count,
      (placed.table.entries (crowded.reclaimer placed.reclaimer)).length)) = some (2, 1) := by
    decide +kernel
  obtain ⟨placed, hfound, hcounts⟩ := Option.map_eq_some_iff.mp hslots
  have hreachable : crowded.Reachable := ⟨_, _, rfl⟩
  exact ⟨placed, hfound, hcounts,
    hreachable.table_consistent (.table (Directory.mem_of_find hfound))⟩

/-- Every cache of a reachable world is consistent and passes its self-check. -/
theorem Reachable.cache_consistent (h : w.Reachable) {name : String} {placed : PlacedCache K V}
    (found : w.caches.find name = some placed) :
    placed.cache.Consistent (w.reclaimer placed.reclaimer) ∧
      (w.perform (.cache name .check)).reply = .done := by
  have hplaced := h.sound.caches _ (Directory.mem_of_find found)
  refine ⟨hplaced.cache.consistent _, ?_⟩
  rw [World.perform, overCache, found]
  exact hplaced.cache.perform_check (h.sound.issued_cache found)

/-- A world with a cache of one key that has pinned another, let a third overflow, and lost the
value of that to a pass. -/
def layered : World UInt64 String :=
  run {}
    [.newReclaimer "r" none,
      .newCache "c" { options := { size := 1, softSize := 4 }, reclaimer := some "r" },
      .cache "c" (.pin 1),
      .cache "c" (.put 2 (some "b")),
      .cache "c" (.put 3 none),
      .reclaimer "r" (.clear 1)]

/-- In the layered world each tier has one key, and the cache is consistent. -/
theorem layered_consistent :
    ∃ placed, layered.caches.find "c" = some placed ∧
      (placed.cache.pins.length, placed.cache.hard.count, placed.cache.soft.count) = (1, 1, 1) ∧
      placed.cache.Consistent (layered.reclaimer placed.reclaimer) ∧
      (layered.perform (.cache "c" .check)).reply = .done := by
  have htiers : (layered.caches.find "c").map (fun placed =>
      (placed.cache.pins.length, placed.cache.hard.count, placed.cache.soft.count)) =
        some (1, 1, 1) := by
    decide +kernel
  obtain ⟨placed, hfound, hcounts⟩ := Option.map_eq_some_iff.mp htiers
  have hreachable : layered.Reachable := ⟨_, _, rfl⟩
  exact ⟨placed, hfound, hcounts, hreachable.cache_consistent hfound⟩

end World

end SoftCache
