import SoftCache.Table.Basic

/-!
# Lookups

A lookup counts as a hit or a miss, and in a table in order of recency it makes the entry the last
of its bucket. A lookup that meets a stale slot drops the stale slots of the bucket. The questions
whether there is an entry for a key or with a value count nothing and change nothing.
-/

namespace SoftCache.Table

variable {K V : Type}

/-- A list with the first element that the test accepts moved to its end. -/
def moveToBack {α : Type} (test : α → Bool) (l : List α) : List α :=
  l.eraseP test ++ (l.find? test).toList

/-- The slot of a key. Its value may have been cleared. -/
def slotFor? [DecidableEq K] [Hashed K] (t : Table K V) (r : Reclaimer) (key : Option K) :
    Option (Slot K V) :=
  (t.buckets.bucket (t.indexOf key)).find? (·.isFor r (nullableHash key) key)

/-- Whether a scan of the bucket for the key meets a stale slot, the slot of the key included. -/
def meetsStale [DecidableEq K] [Hashed K] (t : Table K V) (r : Reclaimer) (key : Option K) : Bool :=
  let isFor := fun slot : Slot K V => slot.isFor r (nullableHash key) key
  let bucket := t.buckets.bucket (t.indexOf key)
  (bucket.takeWhile fun slot => !isFor slot).any (·.isStale r) ||
    (bucket.find? isFor).any (·.value.isCleared r)

/-- Makes the entry of the key the last of its bucket in a table in order of recency. -/
def touch [DecidableEq K] [Hashed K] (t : Table K V) (r : Reclaimer) (key : Option K) :
    Table K V :=
  match t.config.order with
  | .insertion => t
  | .recency =>
    let i := t.indexOf key
    { t with
      buckets :=
        t.buckets.set i (moveToBack (·.isFor r (nullableHash key) key) (t.buckets.bucket i)) }

/-- Looks a key up. The answer is empty if there is no live entry, and otherwise its value, which
may be null. -/
def lookup [DecidableEq K] [Hashed K] (t : Table K V) (r : Reclaimer) (key : Option K) :
    Step (Table K V) (Notice K V) (Option (Option V)) :=
  let miss := fun t : Table K V => t.tally fun m => { m with misses := m.misses + 1 }
  if t.excludes key then .done (miss t) r none
  else
    let found := (t.slotFor? r key).filter fun slot => !slot.value.isCleared r
    -- A live slot outlasts the purge, so what was found before it is still there after it.
    let cleaned := if t.meetsStale r key then t.purge r (t.indexOf key) else .done t r ()
    cleaned.andThen fun t after _ =>
      match found with
      | none => .done (miss t) after none
      | some slot =>
        let hit := t.tally fun m => { m with hits := m.hits + 1 }
        .done (hit.touch after key) after (some (slot.value.get r))

/-- The value of a key, or nothing if it is null or there is none. -/
def get [DecidableEq K] [Hashed K] (t : Table K V) (r : Reclaimer) (key : Option K) :
    Step (Table K V) (Notice K V) (Option V) :=
  (t.lookup r key).map Option.join

/-- Whether there is a live entry for the key. -/
def containsKey [DecidableEq K] [Hashed K] (t : Table K V) (r : Reclaimer) (key : Option K) :
    Bool :=
  !t.excludes key &&
    (t.buckets.bucket (t.indexOf key)).any fun slot =>
      slot.isFor r (nullableHash key) key && !slot.value.isCleared r

/-- Whether a live entry has the value, or null. -/
def containsValue [DecidableEq V] (t : Table K V) (r : Reclaimer) (value : Option V) : Bool :=
  t.buckets.slots.any fun slot => !slot.key.isCleared r && slot.value.holds r value

/-- Looks a key up and compares what it finds with a value, or null. -/
def containsEntry [DecidableEq K] [Hashed K] [DecidableEq V] (t : Table K V) (r : Reclaimer)
    (key : Option K) (value : Option V) : Step (Table K V) (Notice K V) Bool :=
  (t.lookup r key).map (· == some value)

end SoftCache.Table
