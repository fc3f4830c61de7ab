import SoftCache.Table.Eviction
import SoftCache.Table.Growth
import SoftCache.Table.Lookup

/-!
# Putting, removing, sweeping and copying

Every change of an entry first drops the stale slots of its bucket. A value that replaces another is
registered while the old one is still held, so that under a tight budget it is the old one that is
cleared. A new entry comes last in its bucket; the table then grows if it has to, and evicts down to
its bound.
-/

namespace SoftCache.Table

variable {K V : Type}

/-! ## Putting -/

/-- What putting an entry comes to. -/
structure Placement (K V : Type) where
  /-- The value that was replaced, if one was. -/
  previous : Option (Option V)
  /-- The entries that were evicted, in order. -/
  evicted : List (Entry K V)
deriving DecidableEq

/-- A list with the first element that the test accepts replaced. -/
def replaceFirst {α : Type} (test : α → Bool) (new : α) : List α → List α
  | [] => []
  | a :: rest => if test a then new :: rest else a :: replaceFirst test new rest

/-- Gives the slot of the key another value. -/
def replaceValue [DecidableEq K] [Hashed K] (t : Table K V) (r : Reclaimer) (key : Option K)
    (slot : Slot K V) (value : Option V) : Step (Table K V) (Notice K V) (Placement K V) :=
  let held := Held.of t.config.valueStrength value r
  let renewed := { slot with value := held.holder }
  let isFor := fun slot : Slot K V => slot.isFor r (nullableHash key) key
  let i := t.indexOf key
  let bucket := t.buckets.bucket i
  let buckets :=
    match t.config.order with
    | .insertion => t.buckets.set i (replaceFirst isFor renewed bucket)
    | .recency => t.buckets.set i (bucket.eraseP isFor ++ [renewed])
  { result := ⟨some (slot.value.get held.reclaimer), []⟩
    state := { t with buckets, metrics := { t.metrics with updates := t.metrics.updates + 1 } }
    -- The old value was still registered when the new one came, and is released only now.
    reclaimer := held.reclaimer.release slot.value.payloads
    notices := []
    log := held.log }

/-- Puts a slot for a new key last into its bucket. The key is registered before the value. -/
def addSlot [Hashed K] (t : Table K V) (r : Reclaimer) (key : Option K) (value : Option V) :
    Step (Table K V) (Notice K V) Unit :=
  let heldKey := Held.of t.config.keyStrength key r
  let heldValue := Held.of t.config.valueStrength value heldKey.reclaimer
  { result := ()
    state :=
      { t with
        buckets := t.buckets.push ⟨nullableHash key, heldKey.holder, heldValue.holder⟩
        count := t.count + 1
        metrics := { t.metrics with inserts := t.metrics.inserts + 1 } }
    reclaimer := heldValue.reclaimer
    notices := []
    log := heldKey.log ++ heldValue.log }

/-- Puts an entry that the table can hold. -/
def insert [DecidableEq K] [Hashed K] (t : Table K V) (r : Reclaimer) (key : Option K)
    (value : Option V) : Step (Table K V) (Notice K V) (Placement K V) :=
  (t.purge r (t.indexOf key)).andThen fun t r _ =>
    match t.slotFor? r key with
    | some slot => t.replaceValue r key slot value
    | none =>
      (t.addSlot r key value).andThen fun t r _ =>
        (t.grow r).andThen fun t r _ =>
          (t.enforceBound r).map fun evicted => ⟨none, evicted⟩

/-- Puts an entry and answers the value that it replaces. An entry with a null side that is held
reclaimably is refused. -/
def put [DecidableEq K] [Hashed K] (t : Table K V) (r : Reclaimer) (key : Option K)
    (value : Option V) : Step (Table K V) (Notice K V) (Except TableError (Option V)) :=
  match t.refusal key value with
  -- Nothing is purged, counted or registered for a refused entry.
  | some error => .done t r (.error error)
  | none => (t.insert r key value).map fun placement => .ok placement.previous.join

/-- Puts entries one after the other. -/
def putAll [DecidableEq K] [Hashed K] (t : Table K V) (r : Reclaimer) :
    List (K × V) → Step (Table K V) (Notice K V) Unit
  | [] => .done t r ()
  | (key, value) :: rest =>
    (t.put r (some key) (some value)).andThen fun t r _ => t.putAll r rest

/-! ## Removing -/

/-- Removes the entry of the key if its value is accepted, and answers the value. -/
def removeIf [DecidableEq K] [Hashed K] (t : Table K V) (r : Reclaimer) (key : Option K)
    (accept : Option V → Bool) : Step (Table K V) (Notice K V) (Option (Option V)) :=
  if t.excludes key then .done t r none
  else
    (t.purge r (t.indexOf key)).andThen fun t r _ =>
      match t.slotFor? r key with
      | none => .done t r none
      | some slot =>
        if accept (slot.value.get r) then
          let i := t.indexOf key
          let rest := (t.buckets.bucket i).eraseP (·.isFor r (nullableHash key) key)
          { result := some (slot.value.get r)
            state :=
              { t with
                buckets := t.buckets.set i rest
                count := t.count - 1
                metrics := { t.metrics with removes := t.metrics.removes + 1 } }
            reclaimer := r.dismiss [slot]
            notices := []
            log := [] }
        else .done t r none

/-- Removes the entry of the key and answers its value, which may be null. -/
def removeEntry [DecidableEq K] [Hashed K] (t : Table K V) (r : Reclaimer) (key : Option K) :
    Step (Table K V) (Notice K V) (Option (Option V)) :=
  t.removeIf r key fun _ => true

/-- Removes the entry of the key and answers its value, or nothing if it is null or there is
none. -/
def remove [DecidableEq K] [Hashed K] (t : Table K V) (r : Reclaimer) (key : Option K) :
    Step (Table K V) (Notice K V) (Option V) :=
  (t.removeEntry r key).map Option.join

/-- Drops all slots and announces nothing. -/
def clear (t : Table K V) (r : Reclaimer) : Step (Table K V) (Notice K V) Unit :=
  { result := ()
    state := { t with buckets := .empty t.capacity, count := 0 }
    reclaimer := r.dismiss t.buckets.slots
    notices := []
    log := [] }

/-! ## Sweeping -/

/-- Drops all stale slots and answers how many there were. -/
def removeExpired (t : Table K V) (r : Reclaimer) : Step (Table K V) (Notice K V) Nat :=
  if t.hasReclaimableSide then
    let swept := t.purgeAll r
    { swept with
      state := { swept.state with sweptEpoch := r.epoch }
      log := if swept.result = 0 then [] else [.purged swept.result] }
  else .done t r 0

/-- Drops all stale slots if the reclaimer has cleared something since the last sweep. -/
def sweep (t : Table K V) (r : Reclaimer) : Step (Table K V) (Notice K V) Unit :=
  if t.sweptEpoch = r.epoch then .done t r () else (t.removeExpired r).map fun _ => ()

/-- The number of live entries. -/
def length (t : Table K V) (r : Reclaimer) : Step (Table K V) (Notice K V) Nat :=
  (t.sweep r).andThen fun t r _ => .done t r t.count

/-! ## Copying -/

/-- Copies of slots, and what registering them came to. -/
structure Copies (α : Type) where
  /-- The copies. -/
  copies : α
  /-- The reclaimer that knows their payloads. -/
  reclaimer : Reclaimer
  /-- What the registrations wrote to the log. -/
  log : List LogLine

/-- Copies the live slots of a bucket, each with payloads of its own. What a registration clears on
the way is not copied any more. -/
def copyBucket (r : Reclaimer) : List (Slot K V) → Copies (List (Slot K V))
  | [] => ⟨[], r, []⟩
  | slot :: rest =>
    if slot.isStale r then copyBucket r rest
    else
      -- Registering the key may clear the value of this very slot.
      let key := Held.again slot.key r
      let value := Held.again slot.value key.reclaimer
      let others := copyBucket value.reclaimer rest
      { others with
        copies := ⟨slot.hash, key.holder, value.holder⟩ :: others.copies
        log := key.log ++ value.log ++ others.log }

/-- Copies the live slots of buckets one after the other. -/
def copyBuckets (r : Reclaimer) : List (List (Slot K V)) → Copies (List (List (Slot K V)))
  | [] => ⟨[], r, []⟩
  | bucket :: rest =>
    let first := copyBucket r bucket
    let others := copyBuckets first.reclaimer rest
    { others with copies := first.copies :: others.copies, log := first.log ++ others.log }

/-- A table with the same live entries in the same places, which counts from zero. The table itself
stays as it is. -/
def copy (t : Table K V) (r : Reclaimer) : Step (Table K V) (Notice K V) (Table K V) :=
  let copied := copyBuckets r t.buckets.toList
  { result :=
      { t with
        buckets := copied.copies.toArray
        count := copied.copies.flatten.length
        threshold := t.config.loadFactor.threshold t.capacity
        metrics := {}
        sweptEpoch := copied.reclaimer.epoch }
    state := t
    reclaimer := copied.reclaimer
    notices := []
    log := copied.log }

end SoftCache.Table
