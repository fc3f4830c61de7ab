import SoftCache.Cursor
import SoftCache.LoadFactor
import SoftCache.Step
import SoftCache.Table.Buckets

/-!
# Tables

A table maps keys to values, holding either side strongly or reclaimably. This module has the table
itself, how one is made, and what every operation is made of: dropping the stale slots of a bucket
and of all buckets, and reading the live entries.
-/

namespace SoftCache

/-- Which order the slots of a bucket are kept in, and so which of them is evicted first. -/
inductive EvictionOrder where
  /-- The order in which the keys came. -/
  | insertion
  /-- The order in which the entries were last used. -/
  | recency
deriving DecidableEq

/-- Orders of eviction are shown by their names. -/
instance : Literal EvictionOrder :=
  ⟨fun
    | .insertion => "Insertion"
    | .recency => "Recency"⟩

namespace Table

/-- What a table counts. -/
structure Metrics where
  /-- Lookups that found an entry. -/
  hits : Nat := 0
  /-- Lookups that found none. -/
  misses : Nat := 0
  /-- Entries that were added. -/
  inserts : Nat := 0
  /-- Values that were replaced. -/
  updates : Nat := 0
  /-- Entries that were removed. -/
  removes : Nat := 0
  /-- Entries that were evicted. -/
  evictions : Nat := 0
  /-- Stale slots that were dropped and announced. -/
  expirations : Nat := 0
  /-- How often the table grew. -/
  resizes : Nat := 0
deriving DecidableEq

/-- What is fixed when a table is made. -/
structure Config where
  /-- How keys are held. -/
  keyStrength : Strength
  /-- How values are held. -/
  valueStrength : Strength
  /-- How full the table gets before it grows. -/
  loadFactor : LoadFactor
  /-- The order within a bucket. -/
  order : EvictionOrder
deriving DecidableEq

end Table

/-- A table from keys to values. -/
structure Table (K V : Type) where
  /-- What was fixed when the table was made. -/
  config : Table.Config
  /-- The slots. -/
  buckets : Buckets K V
  /-- The number of slots, stale ones included. -/
  count : Nat
  /-- The number of slots above which the table grows. -/
  threshold : Nat
  /-- The number of slots above which entries are evicted. -/
  bound : Option Nat
  /-- Where the next eviction starts to look. -/
  cursor : Cursor
  /-- The counters. -/
  metrics : Table.Metrics
  /-- The epoch of the reclaimer at the last sweep. -/
  sweptEpoch : Nat
deriving DecidableEq

namespace Table

variable {K V : Type}

/-! ## Making a table -/

/-- A table without entries. At least one bucket is made. -/
def empty (config : Config) (capacity : Nat) (bound : Option Nat) (cursor : Cursor) (epoch : Nat) :
    Table K V where
  config := config
  buckets := .empty (max capacity 1)
  count := 0
  threshold := config.loadFactor.threshold (max capacity 1)
  bound := bound
  cursor := cursor
  metrics := {}
  sweptEpoch := epoch

/-- What can be chosen of a new table. -/
structure Options where
  /-- How keys are held. -/
  keyStrength : Strength := .strong
  /-- How values are held. -/
  valueStrength : Strength := .strong
  /-- The number of buckets at first. -/
  capacity : Nat := 16
  /-- The load factor, as yet unchecked. -/
  loadFactor : Binary := LoadFactor.standard.toBinary
  /-- The number of slots above which entries are evicted. -/
  bound : Option Nat := none
  /-- The order within a bucket. -/
  order : EvictionOrder := .insertion
  /-- Fractions for the cursor, as yet unchecked. -/
  fractions : Option (List Binary) := none

/-- The table with the options chosen, for a reclaimer in the epoch given. The load factor is
checked before the fractions. -/
def create (s : SharedFractions) (o : Options) (epoch : Nat) : Except ConfigError (Table K V) := do
  let loadFactor ← LoadFactor.ofBinary o.loadFactor
  let cursor ← Cursor.ofFractions? s o.fractions
  let config : Config := ⟨o.keyStrength, o.valueStrength, loadFactor, o.order⟩
  return empty config o.capacity o.bound cursor epoch

/-! ## Reading -/

/-- The number of buckets. -/
def capacity (t : Table K V) : Nat :=
  t.buckets.size

/-- The bucket of a key. -/
def indexOf [Hashed K] (t : Table K V) (key : Option K) : Nat :=
  bucketOf t.capacity (nullableHash key)

/-- Whether a key or a value is held reclaimably. -/
def hasReclaimableSide (t : Table K V) : Bool :=
  !(t.config.keyStrength.isStrong && t.config.valueStrength.isStrong)

/-- Whether the key is one that the table never has: null where keys are held reclaimably. -/
def excludes (t : Table K V) (key : Option K) : Bool :=
  key.isNone && !t.config.keyStrength.isStrong

/-- Why a key and a value cannot be put into the table, if they cannot. -/
def refusal (t : Table K V) (key : Option K) (value : Option V) : Option TableError :=
  if t.excludes key then some .nullKey
  else if value.isNone && !t.config.valueStrength.isStrong then some .nullValue
  else none

/-- The live entries of slots, in order. -/
def liveEntries (r : Reclaimer) (slots : List (Slot K V)) : List (Entry K V) :=
  (slots.filter fun slot => !slot.isStale r).map (·.entry r)

/-- The live entries, bucket by bucket. -/
def entries (t : Table K V) (r : Reclaimer) : List (Entry K V) :=
  liveEntries r t.buckets.slots

/-! ## Dropping stale slots -/

/-- The table after it has counted. -/
def tally (t : Table K V) (count : Metrics → Metrics) : Table K V :=
  { t with metrics := count t.metrics }

/-- Drops the stale slots of one bucket. -/
def purge (t : Table K V) (r : Reclaimer) (i : Nat) : Step (Table K V) (Notice K V) Unit :=
  let stale := (t.buckets.bucket i).filter (·.isStale r)
  { result := ()
    state :=
      { t with
        buckets := t.buckets.set i ((t.buckets.bucket i).filter fun slot => !slot.isStale r)
        count := t.count - stale.length
        metrics := { t.metrics with expirations := t.metrics.expirations + stale.length } }
    reclaimer := r.dismiss stale
    notices := stale.map (·.expiration r)
    log := [] }

/-- Drops the stale slots of all buckets and answers how many there were. -/
def purgeAll (t : Table K V) (r : Reclaimer) : Step (Table K V) (Notice K V) Nat :=
  let stale := t.buckets.slots.filter (·.isStale r)
  { result := stale.length
    state :=
      { t with
        buckets := t.buckets.map (·.filter fun slot => !slot.isStale r)
        count := t.count - stale.length
        metrics := { t.metrics with expirations := t.metrics.expirations + stale.length } }
    reclaimer := r.dismiss stale
    notices := stale.map (·.expiration r)
    log := [] }

end Table

end SoftCache
