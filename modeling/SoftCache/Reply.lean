import SoftCache.Cache.Recorder
import SoftCache.Table.View

/-!
# Replies

What a request is answered with, whatever it was made to.
-/

namespace SoftCache

/-- What can be seen of a table at once. -/
structure Table.Snapshot (K V : Type) where
  /-- The number of buckets. -/
  capacity : Nat
  /-- The position of the cursor. -/
  position : Nat
  /-- The bound. -/
  bound : Option Nat
  /-- The live entries. -/
  entries : List (Entry K V)
  /-- The counters. -/
  metrics : Table.Metrics
deriving DecidableEq

/-- What can be seen of a table, without a change to it. -/
def Table.snapshot {K V : Type} (t : Table K V) (r : Reclaimer) : Table.Snapshot K V :=
  ⟨t.capacity, t.cursor.position, t.bound, t.entries r, t.metrics⟩

/-- What can be seen of a cache at once. -/
structure Cache.Snapshot (K V : Type) where
  /-- The bound of the hard tier. -/
  size : Nat
  /-- The bound of the soft tier, or -1. -/
  softSize : Int
  /-- The entries with their tiers. -/
  contents : List (Tier × K × Option V)
  /-- The pinned keys. -/
  pins : List K
  /-- The counters. -/
  metrics : Cache.Metrics
deriving DecidableEq

/-- What can be seen of a cache, without a change to it. -/
def Cache.snapshot {K V : Type} (c : Cache K V) (r : Reclaimer) : Cache.Snapshot K V :=
  ⟨c.size, c.softSize, c.contents r, c.pinnedKeys, c.metrics⟩

/-- The answer to a request. -/
inductive Reply (K V : Type) where
  /-- The request was carried out. -/
  | done
  /-- There is nothing to answer. -/
  | nothing
  /-- Yes or no. -/
  | flag (flag : Bool)
  /-- A number. -/
  | number (number : Int)
  /-- A number, or none. -/
  | limit (limit : Option Nat)
  /-- A value, or null. -/
  | value (value : Option V)
  /-- An item, or none. -/
  | item (item : Option (Item K V))
  /-- Items in order. -/
  | items (items : List (Item K V))
  /-- Attempts at an item, in order. -/
  | attempts (items : List (Option (Item K V)))
  /-- A text, or none. -/
  | text (text : Option String)
  /-- The tier of a key, or none. -/
  | tier (tier : Option Tier)
  /-- The counters of a table. -/
  | tableMetrics (metrics : Table.Metrics)
  /-- The counters of a cache. -/
  | cacheMetrics (metrics : Cache.Metrics)
  /-- What was fixed when a table was made. -/
  | config (config : Table.Config)
  /-- What can be seen of a table. -/
  | tableState (snapshot : Table.Snapshot K V)
  /-- What can be seen of a cache. -/
  | cacheState (snapshot : Cache.Snapshot K V)
  /-- How many additions, removals and expirations a recorder has heard. -/
  | recordedCounts (additions removals expirations : Nat)
  /-- What a recorder has heard. -/
  | recorded (events : List (Recorded K))
  /-- The request was refused. -/
  | refused (report : Report)
  /-- The request was given up with a message. -/
  | aborted (message : String)
  /-- The request names something that is not there. -/
  | unknown
deriving DecidableEq

/-- The answer to a question how many there are. -/
def Reply.count {K V : Type} (n : Nat) : Reply K V :=
  .number n

end SoftCache
