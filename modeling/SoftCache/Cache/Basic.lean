import SoftCache.Directory
import SoftCache.Table.Update

/-!
# Caches

A cache keeps its entries in three tiers. *Pinned* entries stay until they are unpinned. The *hard*
tier is a table that holds keys and values strongly and has the size of the cache as its bound. The
*soft* tier takes what overflows from the hard one; it holds its values reclaimably and has a bound
of its own, or none. Whatever enters or leaves the cache is announced, and so counted.

Moving an entry from one tier to another announces nothing. What the soft tier itself announces is
passed on: a cleared value as an expired removal, an overflow as a removal.
-/

namespace SoftCache

/-- The tiers of a cache. -/
inductive Tier where
  | pinned
  | hard
  | soft
deriving DecidableEq

/-- The name of a tier. -/
def Tier.name : Tier → String
  | pinned => "Pinned"
  | hard => "Hard"
  | soft => "Soft"

namespace Cache

/-- What a cache announces. -/
inductive Notice (K V : Type) where
  /-- An entry came into the cache. -/
  | added (key : K) (value : Option V)
  /-- An entry left the cache. Of an expired one the value is gone. -/
  | removed (key : K) (value : Option V) (expired : Bool)
deriving DecidableEq

/-- What a cache counts. -/
structure Metrics where
  /-- Lookups that found a pinned value. -/
  pinnedHits : Nat := 0
  /-- Lookups that found a value in the hard tier. -/
  hardHits : Nat := 0
  /-- Lookups that found a value in the soft tier. -/
  softHits : Nat := 0
  /-- Lookups that found none. -/
  misses : Nat := 0
  /-- Entries that were announced as added. -/
  additions : Nat := 0
  /-- Entries that were announced as removed, the expired ones apart. -/
  removals : Nat := 0
  /-- Entries that were announced as expired. -/
  expirations : Nat := 0
  /-- Entries that went from the hard tier to the soft one. -/
  overflows : Nat := 0
deriving DecidableEq

/-- The counters after a notice. -/
def Metrics.hear {K V : Type} (m : Metrics) : Notice K V → Metrics
  | .added .. => { m with additions := m.additions + 1 }
  | .removed _ _ true => { m with expirations := m.expirations + 1 }
  | .removed _ _ false => { m with removals := m.removals + 1 }

/-- What can be chosen of a new cache. -/
structure Options where
  /-- The bound of the hard tier. -/
  size : Nat
  /-- The bound of the soft tier, where a negative one means none. -/
  softSize : Int
  /-- Whether the tiers keep the order of use. -/
  byUse : Bool := false
  /-- The load factor of both tiers, as yet unchecked. -/
  loadFactor : Binary := LoadFactor.standard.toBinary
  /-- Fractions for the cursors of both tiers, as yet unchecked. -/
  fractions : Option (List Binary) := none

end Cache

/-- A cache from keys to values. -/
structure Cache (K V : Type) where
  /-- The pinned keys in order, with a value or without. -/
  pins : Directory K (Option V)
  /-- The hard tier. -/
  hard : Table K V
  /-- The soft tier. -/
  soft : Table K V
  /-- The bound of the hard tier. -/
  size : Nat
  /-- The bound of the soft tier, or -1. -/
  softSize : Int
  /-- Whether the tiers keep the order of use. -/
  byUse : Bool
  /-- The counters. -/
  metrics : Cache.Metrics
deriving DecidableEq

namespace Cache

variable {K V : Type}

/-! ## Making a cache -/

/-- The bound that a size of the soft tier stands for. -/
def softBound (softSize : Int) : Option Nat :=
  if 0 ≤ softSize then some softSize.toNat else none

/-- The number of buckets that a hard tier begins with: half of its bound, but at most `2 ^ 16`,
rounded up to a power of two. -/
def hardCapacity (size : Nat) : Nat :=
  (min ((size + 1) / 2) (twoPow 16)).nextPowerOfTwo

/-- The cache with the options chosen, for a reclaimer in the epoch given. The load factor is
checked before the fractions. -/
def create (s : SharedFractions) (o : Options) (epoch : Nat) : Except ConfigError (Cache K V) := do
  let loadFactor ← LoadFactor.ofBinary o.loadFactor
  let cursor ← Cursor.ofFractions? s o.fractions
  let order := if o.byUse then EvictionOrder.recency else .insertion
  let softSize := max o.softSize (-1)
  return {
    pins := []
    hard :=
      .empty ⟨.strong, .strong, loadFactor, order⟩ (hardCapacity o.size) (some o.size) cursor 0
    soft := .empty ⟨.strong, .reclaimable, loadFactor, order⟩ 16 (softBound softSize) cursor epoch
    size := o.size
    softSize
    byUse := o.byUse
    metrics := {} }

/-! ## Working on the tiers -/

/-- The cache after it has counted. -/
def tally (c : Cache K V) (count : Metrics → Metrics) : Cache K V :=
  { c with metrics := count c.metrics }

/-- Announces notices and counts them. -/
def announce (c : Cache K V) (r : Reclaimer) (notices : List (Notice K V)) :
    Step (Cache K V) (Notice K V) Unit :=
  { result := ()
    state := c.tally fun m => notices.foldl Metrics.hear m
    reclaimer := r
    notices
    log := [] }

/-- What the cache passes on of what its soft tier announces. Keys are held strongly there. -/
def ofSoft : SoftCache.Notice K V → Option (Notice K V)
  | .valueExpired (some key) => some (.removed key none true)
  | .overflow (some key, value) => some (.removed key value false)
  | _ => none

/-- Works on the hard tier, to the notices of which nobody listens. -/
def overHard {α : Type} (c : Cache K V) (r : Reclaimer)
    (work : Table K V → Reclaimer → Step (Table K V) (SoftCache.Notice K V) α) :
    Step (Cache K V) (Notice K V) α :=
  let done := work c.hard r
  { result := done.result
    state := { c with hard := done.state }
    reclaimer := done.reclaimer
    notices := []
    log := done.log }

/-- Works on the soft tier and passes on its notices. -/
def overSoft {α : Type} (c : Cache K V) (r : Reclaimer)
    (work : Table K V → Reclaimer → Step (Table K V) (SoftCache.Notice K V) α) :
    Step (Cache K V) (Notice K V) α :=
  let done := work c.soft r
  let heard := done.notices.filterMap ofSoft
  { result := done.result
    state := { c with soft := done.state }.tally fun m => heard.foldl Metrics.hear m
    reclaimer := done.reclaimer
    notices := heard
    log := done.log }

/-! ## Reading without a trace -/

/-- The pinned value of a key. -/
def pinnedValue [DecidableEq K] (c : Cache K V) (key : K) : Option V :=
  (c.pins.find key).join

/-- The entries of a tier, as they are known there. -/
def tierEntries (tier : Tier) (entries : List (Entry K V)) : List (Tier × K × Option V) :=
  entries.filterMap fun
    | (some key, value) => some (tier, key, value)
    | (none, _) => none

/-- All entries: the pinned ones in the order of their keys, then those of the hard and of the soft
tier. -/
def contents (c : Cache K V) (r : Reclaimer) : List (Tier × K × Option V) :=
  (c.pins.filterMap fun (key, value) => value.map fun value => (Tier.pinned, key, some value)) ++
    tierEntries .hard (c.hard.entries r) ++ tierEntries .soft (c.soft.entries r)

/-- The keys of all entries. -/
def keys (c : Cache K V) (r : Reclaimer) : List K :=
  (c.contents r).map (·.2.1)

/-- All entries with a value that is not null. -/
def entries (c : Cache K V) (r : Reclaimer) : List (K × V) :=
  (c.contents r).filterMap fun (_, key, value) => value.map fun value => (key, value)

/-- The pinned keys, with a value or without. -/
def pinnedKeys (c : Cache K V) : List K :=
  c.pins.map (·.1)

/-- The tier in which the entry of a key is. -/
def locate [DecidableEq K] [Hashed K] (c : Cache K V) (r : Reclaimer) (key : K) : Option Tier :=
  if (c.pinnedValue key).isSome then some .pinned
  else if c.hard.containsKey r (some key) then some .hard
  else if c.soft.containsKey r (some key) then some .soft
  else none

/-- Whether there is an entry for the key. -/
def containsKey [DecidableEq K] [Hashed K] (c : Cache K V) (r : Reclaimer) (key : K) : Bool :=
  (c.locate r key).isSome

/-- Whether a value occurs in any tier. A pinned key without a value counts as one with null, and
the soft tier holds no null. -/
def containsValue [DecidableEq V] (c : Cache K V) (r : Reclaimer) (value : Option V) : Bool :=
  c.pins.any (·.2 == value) || c.hard.containsValue r value ||
    (value.isSome && c.soft.containsValue r value)

end Cache

end SoftCache
