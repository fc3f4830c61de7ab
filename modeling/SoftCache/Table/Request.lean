import SoftCache.Reply
import SoftCache.Table.Literal
import SoftCache.Table.Violation

/-!
# Requests to a table

All that a table can be asked for, as one type. `Table.perform` carries a request out.
-/

namespace SoftCache.Table

/-- A request to a table. -/
inductive Request (K V : Type) where
  /-- The value of a key. -/
  | get (key : Option K)
  /-- Whether there is an entry for the key. -/
  | containsKey (key : Option K)
  /-- Whether an entry has the value. -/
  | containsValue (value : Option V)
  /-- Whether a lookup of the key finds the value. -/
  | containsEntry (key : Option K) (value : Option V)
  /-- Puts an entry. -/
  | put (key : Option K) (value : Option V)
  /-- Puts entries one after the other, if there is a source of entries. -/
  | putAll (source : Option (List (K × V)))
  /-- Removes an entry and answers its value. -/
  | remove (key : Option K)
  /-- Removes an entry and answers whether there was one. -/
  | removeKey (key : Option K)
  /-- Removes an entry if it has the value, and answers whether it had. -/
  | removeEntry (key : Option K) (value : Option V)
  /-- Removes an entry near to where the cursor points. -/
  | removeRandom
  /-- Removes so many entries. -/
  | removeRandoms (n : Nat)
  /-- Drops the stale slots. -/
  | removeExpired
  /-- The number of entries. -/
  | length
  /-- Whether there is no entry. -/
  | isEmpty
  /-- Drops all slots. -/
  | clear
  /-- Sets the bound and answers what it evicts. -/
  | setBound (bound : Option Nat)
  /-- The live entries, bucket by bucket. -/
  | entries
  /-- The live entries from a bucket on that the cursor points at. -/
  | randomEntries
  /-- The bound. -/
  | bound
  /-- The number of buckets. -/
  | capacity
  /-- The position of the cursor. -/
  | position
  /-- The counters. -/
  | metrics
  /-- What was fixed when the table was made. -/
  | config
  /-- The table in a diagnostic text. -/
  | literal
  /-- A view of the table in a diagnostic text. -/
  | viewLiteral (view : View)
  /-- What can be seen of the table. -/
  | snapshot
  /-- The self-check. -/
  | check

variable {K V : Type} [DecidableEq K] [Hashed K] [DecidableEq V]

/-- The answer to a request that only reads. -/
def read (t : Table K V) (r : Reclaimer) (reply : Reply K V) :
    Step (Table K V) (Notice K V) (Reply K V) :=
  .done t r reply

/-- An entry as an item. -/
def entryItem (entry : Entry K V) : Item K V :=
  .entry entry

/-- Carries a request out. -/
def perform (t : Table K V) (r : Reclaimer) :
    Request K V → Step (Table K V) (Notice K V) (Reply K V)
  | .get key => (t.get r key).map .value
  | .containsKey key => t.read r (.flag (t.containsKey r key))
  | .containsValue value => t.read r (.flag (t.containsValue r value))
  | .containsEntry key value => (t.containsEntry r key value).map .flag
  | .put key value =>
    (t.put r key value).map fun
      | .ok previous => .value previous
      | .error error => .refused error.report
  | .putAll none => t.read r (.refused TableError.noSource.report)
  | .putAll (some entries) => (t.putAll r entries).map fun _ => .done
  | .remove key => (t.remove r key).map .value
  | .removeKey key => (t.removeEntry r key).map (.flag ·.isSome)
  | .removeEntry key value => (t.removeIf r key (· == value)).map (.flag ·.isSome)
  | .removeRandom => (t.removeRandom r).map fun entry => .item (entry.map entryItem)
  | .removeRandoms n =>
    (t.removeRandoms r n).map fun entries => .attempts (entries.map (·.map entryItem))
  | .removeExpired => (t.removeExpired r).map .count
  | .length => (t.length r).map .count
  | .isEmpty => (t.length r).map fun n => .flag (n == 0)
  | .clear => (t.clear r).map fun _ => .nothing
  | .setBound bound => (t.setBound r bound).map fun evicted => .items (evicted.map entryItem)
  | .entries => t.read r (.items ((t.entries r).map entryItem))
  | .randomEntries => (t.randomEntries r).map fun entries => .items (entries.map entryItem)
  | .bound => t.read r (.limit t.bound)
  | .capacity => t.read r (.number t.capacity)
  | .position => t.read r (.number t.cursor.position)
  | .metrics => t.read r (.tableMetrics t.metrics)
  | .config => t.read r (.config t.config)
  | .literal => t.read r (.text t.literal)
  | .viewLiteral view => (t.length r).map fun n => .text (view.literal n)
  | .snapshot => t.read r (.tableState (t.snapshot r))
  | .check =>
    t.read r <| match t.violation? with
      | none => .done
      | some violation => .refused ⟨.invariant, violation.message⟩

end SoftCache.Table
