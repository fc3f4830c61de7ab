import SoftCache.Table.Basic

/-!
# The self-check of a table

A table checks that its bookkeeping agrees with its buckets. `Table.violation?` is the first thing
that it finds wrong. No sequence of operations leads to a violation; the check is there to be run
all the same.
-/

namespace SoftCache.Table

variable {K V : Type}

/-- What may be wrong with a table. -/
inductive Violation where
  /-- There is no bucket. -/
  | noBuckets
  /-- The slots were counted wrongly. -/
  | count (counted slots : Nat)
  /-- The threshold is not that of the capacity. -/
  | threshold (kept capacity : Nat) (loadFactor : LoadFactor)
  /-- The table should have grown. -/
  | overfull (slots limit : Nat)
  /-- The table should have evicted. -/
  | overBound (slots bound : Nat)
  /-- A slot is in the wrong bucket. -/
  | misplaced (hash : UInt64) (bucket expected : Nat)
deriving DecidableEq

/-- The message for a violation. -/
def Violation.message : Violation → String
  | .noBuckets => "bucket array is empty"
  | .count counted slots => s!"count {counted} != {slots} slots in buckets"
  | .threshold kept capacity loadFactor =>
    s!"threshold {kept} does not match capacity {capacity} * load factor " ++
      Layout.message.write .single loadFactor.toBinary
  | .overfull slots limit => s!"count {slots} exceeds resize threshold {limit}"
  | .overBound slots bound => s!"count {slots} exceeds max size {bound}"
  | .misplaced hash bucket expected =>
    "slot with hash 0x" ++ hexDigits hash.toNat ++
      s!" found in bucket {bucket} instead of {expected}"

/-- The first slot that is not in the bucket of its hash, in buckets that are numbered from `i`
on. -/
def misplaced? (capacity : Nat) : Nat → List (List (Slot K V)) → Option Violation
  | _, [] => none
  | i, bucket :: rest =>
    match bucket.find? fun slot => bucketOf capacity slot.hash != i with
    | some slot => some (.misplaced slot.hash i (bucketOf capacity slot.hash))
    | none => misplaced? capacity (i + 1) rest

/-- The first thing that is wrong with the table, if anything is. -/
def violation? (t : Table K V) : Option Violation :=
  let slots := t.buckets.slots.length
  if t.capacity = 0 then some .noBuckets
  else if slots ≠ t.count then some (.count t.count slots)
  else if t.threshold ≠ t.config.loadFactor.threshold t.capacity then
    some (.threshold t.threshold t.capacity t.config.loadFactor)
  else if t.threshold < t.count then some (.overfull t.count t.threshold)
  else
    match t.bound.filter (· < t.count) with
    | some bound => some (.overBound t.count bound)
    | none => misplaced? t.capacity 0 t.buckets.toList

end SoftCache.Table
