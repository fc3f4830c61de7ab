import SoftCache.Cache.Literal
import SoftCache.Cache.Violation
import SoftCache.Reply

/-!
# Requests to a cache

All that a cache can be asked for, as one type. `Cache.perform` carries a request out.
-/

namespace SoftCache.Cache

/-- A request to a cache. -/
inductive Request (K V : Type) where
  /-- The value of a key. -/
  | get (key : K)
  /-- Puts a value. -/
  | put (key : K) (value : Option V)
  /-- Puts entries one after the other, and replaces values only if asked to. -/
  | putAll (entries : List (K × V)) (replace : Bool)
  /-- Removes an entry and answers its value. -/
  | remove (key : K)
  /-- Whether there is an entry for the key. -/
  | containsKey (key : K)
  /-- Whether an entry has the value. -/
  | containsValue (value : Option V)
  /-- The tier of a key. -/
  | locate (key : K)
  /-- Pins a key. -/
  | pin (key : K)
  /-- Unpins a key. -/
  | unpin (key : K)
  /-- The pinned keys. -/
  | pinnedKeys
  /-- The keys of all entries. -/
  | keys
  /-- The entries that are not null. -/
  | entries
  /-- Their values. -/
  | values
  /-- Sets the bound of the hard tier. -/
  | setSize (size : Nat)
  /-- Sets the bound of the soft tier. -/
  | setSoftSize (softSize : Int)
  /-- The bound of the hard tier. -/
  | size
  /-- The bound of the soft tier. -/
  | softSize
  /-- The number of entries. -/
  | length
  /-- Whether there is no entry. -/
  | isEmpty
  /-- Whether the tiers keep the order of use. -/
  | byUse
  /-- Drops the stale slots of the soft tier. -/
  | removeExpired
  /-- The counters. -/
  | metrics
  /-- Removes all entries. -/
  | clear
  /-- What can be seen of the cache. -/
  | snapshot
  /-- The self-check. -/
  | check
  /-- The cache in a diagnostic text. There is none while more than one pinned key has a value. -/
  | literal

variable {K V : Type} [DecidableEq K] [Hashed K] [Ordered K] [DecidableEq V]

/-- The answer to a request that only reads. -/
def read (c : Cache K V) (r : Reclaimer) (reply : Reply K V) :
    Step (Cache K V) (Notice K V) (Reply K V) :=
  .done c r reply

/-- Keys as items. -/
def keyItems (keys : List K) : Reply K V :=
  .items (keys.map fun key => .key (some key))

/-- Carries a request out. -/
def perform [Literal K] [Literal V] (c : Cache K V) (r : Reclaimer) :
    Request K V → Step (Cache K V) (Notice K V) (Reply K V)
  | .get key => (c.get r key).map .value
  | .put key value => (c.put r key value).map .value
  | .putAll entries replace => (c.putAll r replace entries).map fun _ => .nothing
  | .remove key => (c.remove r key).map .value
  | .containsKey key => c.read r (.flag (c.containsKey r key))
  | .containsValue value => c.read r (.flag (c.containsValue r value))
  | .locate key => c.read r (.tier (c.locate r key))
  | .pin key => (c.pin r key).map .flag
  | .unpin key => (c.unpin r key).map .flag
  | .pinnedKeys => c.read r (keyItems c.pinnedKeys)
  | .keys => c.read r (keyItems (c.keys r))
  | .entries =>
    c.read r (.items ((c.entries r).map fun (key, value) => .entry (some key, some value)))
  | .values => c.read r (.items ((c.entries r).map fun (_, value) => .value (some value)))
  | .setSize size => (c.setSize r size).map fun _ => .nothing
  | .setSoftSize softSize => (c.setSoftSize r softSize).map fun _ => .nothing
  | .size => c.read r (.number c.size)
  | .softSize => c.read r (.number c.softSize)
  | .length => (c.length r).map .count
  | .isEmpty => (c.length r).map fun n => .flag (n == 0)
  | .byUse => c.read r (.flag c.byUse)
  | .removeExpired => (c.removeExpired r).map .count
  | .metrics => c.read r (.cacheMetrics c.metrics)
  | .clear => (c.clear r).map fun _ => .nothing
  | .snapshot => c.read r (.cacheState (c.snapshot r))
  | .check =>
    (c.violation? r).map fun
      | none => .done
      | some violation => .refused ⟨.invariant, violation.message⟩
  | .literal =>
    c.read r (.text (if (c.pins.filter (·.2.isSome)).length ≤ 1 then some (c.literal r) else none))

end SoftCache.Cache
