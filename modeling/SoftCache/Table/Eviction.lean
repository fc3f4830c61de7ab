import SoftCache.Table.Basic

/-!
# Eviction

An entry is taken from near the bucket that the cursor points at. A table over its bound gives up
entries in this way until it is within its bound, and announces each as an overflow.
-/

namespace SoftCache.Table

variable {K V : Type}

/-- Takes out the live entry that is nearest to where the cursor points, with all stale slots met on
the way. The cursor moves on, whether there is an entry or not. -/
def takeNear (t : Table K V) (r : Reclaimer) :
    Step (Table K V) (Notice K V) (Option (Entry K V)) :=
  let probe := t.buckets.probe r (probeOrder (t.cursor.target t.capacity) t.capacity)
  { result := probe.found.map (·.entry r)
    state :=
      { t with
        buckets := probe.buckets
        count := t.count - (probe.stale ++ probe.found.toList).length
        cursor := t.cursor.advance
        metrics :=
          { t.metrics with expirations := t.metrics.expirations + probe.stale.length } }
    reclaimer := r.dismiss (probe.stale ++ probe.found.toList)
    notices := probe.stale.map (·.expiration r)
    log := [] }

/-- An entry that was taken leaves fewer slots. -/
theorem count_takeNear_lt {t : Table K V} {r : Reclaimer} {entry : Entry K V}
    (found : (t.takeNear r).result = some entry) (h : 0 < t.count) :
    (t.takeNear r).state.count < t.count := by
  simp only [takeNear, Option.map_eq_some_iff] at found
  obtain ⟨slot, hslot, -⟩ := found
  simp only [takeNear, hslot, Option.toList_some, List.length_append, List.length_singleton]
  omega

/-- Counts an eviction. -/
def tallyEviction (t : Table K V) : Table K V :=
  t.tally fun m => { m with evictions := m.evictions + 1 }

/-- Evicts entries while there are more than `bound` slots, and answers them in order. -/
def evictDownTo (bound : Nat) (t : Table K V) (r : Reclaimer) :
    Step (Table K V) (Notice K V) (List (Entry K V)) :=
  if t.count ≤ bound then .done t r []
  else
    let taken := t.takeNear r
    match _found : taken.result with
    | none => { taken with result := [] }
    | some entry =>
      let rest := evictDownTo bound taken.state.tallyEviction taken.reclaimer
      { rest with
        result := entry :: rest.result
        notices := taken.notices ++ .overflow entry :: rest.notices
        log := taken.log ++ .overBound bound :: rest.log }
termination_by t.count
decreasing_by exact count_takeNear_lt (by assumption) (by omega)

/-- Evicts entries while the table is over its bound, if it has one. -/
def enforceBound (t : Table K V) (r : Reclaimer) :
    Step (Table K V) (Notice K V) (List (Entry K V)) :=
  match t.bound with
  | none => .done t r []
  | some bound => evictDownTo bound t r

/-- Gives the table a bound, or none, and answers the entries that are over it. -/
def setBound (t : Table K V) (r : Reclaimer) (bound : Option Nat) :
    Step (Table K V) (Notice K V) (List (Entry K V)) :=
  { t with bound := bound }.enforceBound r

/-- Takes out the live entry that is nearest to where the cursor points. -/
def removeRandom (t : Table K V) (r : Reclaimer) :
    Step (Table K V) (Notice K V) (Option (Entry K V)) :=
  (t.takeNear r).andThen fun t r entry =>
    .done (if entry.isSome then t.tallyEviction else t) r entry

/-- Takes out `n` entries one after the other. -/
def removeRandoms (t : Table K V) (r : Reclaimer) :
    Nat → Step (Table K V) (Notice K V) (List (Option (Entry K V)))
  | 0 => .done t r []
  | n + 1 =>
    (t.removeRandom r).andThen fun t r entry =>
      (t.removeRandoms r n).map (entry :: ·)

/-- The live entries from the bucket on that the cursor points at, round to the one before it. The
cursor moves on. -/
def randomEntries (t : Table K V) (r : Reclaimer) :
    Step (Table K V) (Notice K V) (List (Entry K V)) :=
  -- The buckets before the target come last.
  let start := t.cursor.target t.capacity
  let turned := t.buckets.toList.drop start ++ t.buckets.toList.take start
  .done { t with cursor := t.cursor.advance } r (liveEntries r turned.flatten)

end SoftCache.Table
