import SoftCache.Proofs.Checked.Buckets
import SoftCache.Proofs.Table.Copying
import SoftCache.Table.Request

/-!
# Work on a table with checks

What a table can be asked for, with every index, every remainder and every difference checked. A
table is *fit* if it has a bucket, its slots are counted rightly, and its cursor points at one of
its fractions (`Table.Fit`). All work on a fit table passes its checks, comes to what it comes to
without them, and leaves a fit table (`Table.Fit.perform`).
-/

open scoped List

namespace SoftCache

open SoftCache.Checked

variable {K V : Type} {r : Reclaimer}

/-- A cursor that points at one of its fractions. -/
def Cursor.Fit (c : Cursor) : Prop :=
  c.position < c.fractions.length

/-- A fit cursor has fractions. -/
theorem Cursor.Fit.ne_nil {c : Cursor} (h : c.Fit) : c.fractions ≠ [] :=
  List.ne_nil_of_length_pos (Nat.zero_lt_of_lt h)

/-- A fit cursor that moves on stays fit. -/
theorem Cursor.Fit.advance {c : Cursor} (h : c.Fit) : c.advance.Fit :=
  position_advance_lt h.ne_nil

/-- A cursor that was made points at its first fraction. -/
theorem Cursor.fit_of_ofFractions? {shared : SharedFractions} {fractions : Option (List Binary)}
    {c : Cursor} (made : ofFractions? shared fractions = .ok c) : c.Fit := by
  cases fractions with
  | none =>
    obtain rfl : Cursor.shared shared = c := Except.ok.inj made
    have hshared : 0 < Cursor.sharedCount := by decide
    exact hshared.trans_eq shared.length_eq.symm
  | some fractions =>
    obtain ⟨hsome, -, rfl⟩ := ofFractions_eq_ok_iff.mp made
    exact List.length_pos_iff.mpr hsome

/-- A table on which all work passes its checks. -/
structure Table.Fit (t : Table K V) : Prop where
  /-- There is a bucket. -/
  capacity_pos : 0 < t.capacity
  /-- All slots are counted. -/
  counted : t.count = t.buckets.slots.length
  /-- The cursor points at one of its fractions. -/
  cursor : t.cursor.Fit

namespace Table

/-! ## Work with checks

Each definition in `Table.Checked` does the work of the one in `Table` that has its name. What the
work on buckets and their count comes to is taken from a shelf, cursors are read at their position,
and slots are taken from where they were found. -/

/-- The buckets of a table and the count of their slots. -/
def shelf (t : Table K V) : Shelf K V :=
  ⟨t.buckets, t.count⟩

namespace Checked

/-- The bucket that the next fraction points at, and the cursor after it. -/
def nextTarget (c : Cursor) (capacity : Nat) : Option (Nat × Cursor) := do
  let fraction ← c.fractions[c.position]?
  let position ← remainder (c.position + 1) c.fractions.length
  return (fraction.target capacity, { c with position })

/-- The bucket of a key. -/
def indexOf [Hashed K] (t : Table K V) (key : Option K) : Option Nat :=
  remainder (nullableHash key).toNat t.capacity

/-- Work on a table, of which the buckets and the count were worked out with checks. -/
def onShelf {α : Type} (step : Step (Table K V) (Notice K V) α) (shelf : Option (Shelf K V)) :
    Option (Step (Table K V) (Notice K V) α) :=
  shelf.map fun s =>
    { step with state := { step.state with buckets := s.buckets, count := s.count } }

/-- Drops the stale slots of a bucket. -/
def purge (t : Table K V) (r : Reclaimer) (i : Nat) :
    Option (Step (Table K V) (Notice K V) Unit) :=
  onShelf (t.purge r i) (dropStale r t.shelf i)

/-- Drops all stale slots and answers how many there were. -/
def purgeAll (t : Table K V) (r : Reclaimer) : Option (Step (Table K V) (Notice K V) Nat) :=
  onShelf (t.purgeAll r) (dropAll r t.shelf)

/-! ### Growth and eviction -/

/-- Moves the live slots to another number of buckets. -/
def rehash (t : Table K V) (r : Reclaimer) (capacity : Nat) :
    Option (Step (Table K V) (Notice K V) Unit) :=
  onShelf (t.rehash r capacity) (spread r capacity t.buckets.slots ⟨.empty capacity, 0⟩)

/-- What is missing to twice the slots times the divisor of the load factor. -/
def lacking (t : Table K V) : Nat :=
  2 * t.count * t.config.loadFactor.divisor - t.capacity * t.config.loadFactor.dividend

/-- Growth in less than so many moves. There is no outcome if these are not enough. -/
def enlarge : Nat → Table K V → Reclaimer → Option (Step (Table K V) (Notice K V) Unit)
  | 0, _, _ => none
  | moves + 1, t, r => do
    let moved ← rehash t r (2 * t.capacity + 1)
    if moved.state.count ≤ moved.state.threshold then return moved
    else
      let rest ← enlarge moves moved.state moved.reclaimer
      return { rest with notices := moved.notices ++ rest.notices, log := moved.log ++ rest.log }

/-- Grows the table if it holds more slots than its threshold. -/
def grow (t : Table K V) (r : Reclaimer) : Option (Step (Table K V) (Notice K V) Unit) :=
  if t.count ≤ t.threshold then some (.done t r ()) else enlarge (lacking t + 1) t r

/-- Takes out the live entry that is nearest to where the cursor points. -/
def takeNear (t : Table K V) (r : Reclaimer) :
    Option (Step (Table K V) (Notice K V) (Option (Entry K V))) := do
  let (target, cursor) ← nextTarget t.cursor t.capacity
  let near ← search r target t.shelf
  return {
    result := near.found.map (·.entry r)
    state :=
      { t with
        buckets := near.shelf.buckets
        count := near.shelf.count
        cursor
        metrics := { t.metrics with expirations := t.metrics.expirations + near.stale.length } }
    reclaimer := r.dismiss (near.stale ++ near.found.toList)
    notices := near.stale.map (·.expiration r)
    log := [] }

/-- Evictions in less than so many rounds. There is no outcome if these are not enough. -/
def evictDownTo (bound : Nat) :
    Nat → Table K V → Reclaimer → Option (Step (Table K V) (Notice K V) (List (Entry K V)))
  | 0, _, _ => none
  | rounds + 1, t, r =>
    if t.count ≤ bound then some (.done t r [])
    else do
      let taken ← takeNear t r
      match taken.result with
      | none => return { taken with result := [] }
      | some entry =>
        let rest ← evictDownTo bound rounds taken.state.tallyEviction taken.reclaimer
        return { rest with
          result := entry :: rest.result
          notices := taken.notices ++ .overflow entry :: rest.notices
          log := taken.log ++ .overBound bound :: rest.log }

/-- Evicts entries while the table is over its bound, if it has one. -/
def enforceBound (t : Table K V) (r : Reclaimer) :
    Option (Step (Table K V) (Notice K V) (List (Entry K V))) :=
  match t.bound with
  | none => some (.done t r [])
  | some bound => evictDownTo bound (t.count + 1) t r

/-- Takes out the live entry that is nearest to where the cursor points, and counts it. -/
def removeRandom (t : Table K V) (r : Reclaimer) :
    Option (Step (Table K V) (Notice K V) (Option (Entry K V))) :=
  andThen (takeNear t r) fun t r entry =>
    some (.done (if entry.isSome then t.tallyEviction else t) r entry)

/-- Takes out so many entries one after the other. -/
def removeRandoms (t : Table K V) (r : Reclaimer) :
    Nat → Option (Step (Table K V) (Notice K V) (List (Option (Entry K V))))
  | 0 => some (.done t r [])
  | n + 1 =>
    andThen (removeRandom t r) fun t r entry =>
      (removeRandoms t r n).map (Step.map (entry :: ·))

/-- The live entries from the bucket on that the cursor points at, round to the one before it. -/
def randomEntries (t : Table K V) (r : Reclaimer) :
    Option (Step (Table K V) (Notice K V) (List (Entry K V))) := do
  let (start, cursor) ← nextTarget t.cursor t.capacity
  let (before, after) ← splitAt t.buckets.toList start
  return .done { t with cursor } r (liveEntries r (after ++ before).flatten)

/-! ### Keys -/

section Keys

variable [DecidableEq K] [Hashed K]

/-- Makes a slot the last of its bucket, unless it is that already. -/
def touch (t : Table K V) (r : Reclaimer) (key : Option K) : Option (Table K V) :=
  match t.config.order with
  | .insertion => some t
  | .recency => do
    let i ← indexOf t key
    let slots ← bucket t.buckets i
    match slots.findIdx? (·.isFor r (nullableHash key) key) with
    | none => return t
    | some position =>
      if position + 1 = slots.length then return t
      else
        let (slot, rest) ← takeOut slots position
        let buckets ← setBucket t.buckets i (rest ++ [slot])
        return { t with buckets }

/-- Looks a key up, and counts a hit or a miss. -/
def lookup (t : Table K V) (r : Reclaimer) (key : Option K) :
    Option (Step (Table K V) (Notice K V) (Option (Option V))) :=
  let miss := fun t : Table K V => t.tally fun m => { m with misses := m.misses + 1 }
  if t.excludes key then some (.done (miss t) r none)
  else do
    let i ← indexOf t key
    let slots ← bucket t.buckets i
    let found := (slots.find? (·.isFor r (nullableHash key) key)).filter
      fun slot => !slot.value.isCleared r
    andThen (if t.meetsStale r key then purge t r i else some (.done t r ())) fun t after _ =>
      match found with
      | none => some (.done (miss t) after none)
      | some slot =>
        (touch (t.tally fun m => { m with hits := m.hits + 1 }) after key).map fun t =>
          .done t after (some (slot.value.get r))

/-- Whether there is a live entry for the key. -/
def containsKey (t : Table K V) (r : Reclaimer) (key : Option K) : Option Bool :=
  if t.excludes key then some false
  else do
    let i ← indexOf t key
    let slots ← bucket t.buckets i
    return slots.any fun slot => slot.isFor r (nullableHash key) key && !slot.value.isCleared r

/-- Gives the slot at a position of a bucket another value. -/
def replaceValue (t : Table K V) (r : Reclaimer) (i position : Nat) (value : Option V) :
    Option (Step (Table K V) (Notice K V) (Placement K V)) := do
  let slots ← bucket t.buckets i
  let (slot, rest) ← takeOut slots position
  let held := Held.of t.config.valueStrength value r
  let renewed := { slot with value := held.holder }
  let slots :=
    match t.config.order with
    | .insertion => slots.set position renewed
    | .recency => rest ++ [renewed]
  let buckets ← setBucket t.buckets i slots
  return {
    result := ⟨some (slot.value.get held.reclaimer), []⟩
    state := { t with buckets, metrics := { t.metrics with updates := t.metrics.updates + 1 } }
    reclaimer := held.reclaimer.release slot.value.payloads
    notices := []
    log := held.log }

/-- Puts a slot for a new key last into its bucket. -/
def addSlot (t : Table K V) (r : Reclaimer) (i : Nat) (key : Option K) (value : Option V) :
    Option (Step (Table K V) (Notice K V) Unit) :=
  onShelf (t.addSlot r key value) (pushSlot t.shelf i (t.newSlot r key value))

/-- Puts an entry into the slot of its key, or into a new one. -/
def insertFound (t : Table K V) (r : Reclaimer) (i : Nat) (key : Option K) (value : Option V) :
    Option (Step (Table K V) (Notice K V) (Placement K V)) := do
  let slots ← bucket t.buckets i
  match slots.findIdx? (·.isFor r (nullableHash key) key) with
  | some position => replaceValue t r i position value
  | none =>
    andThen (addSlot t r i key value) fun t r _ =>
      andThen (grow t r) fun t r _ =>
        (enforceBound t r).map (Step.map fun evicted => ⟨none, evicted⟩)

/-- Puts an entry that the table can hold. -/
def insert (t : Table K V) (r : Reclaimer) (key : Option K) (value : Option V) :
    Option (Step (Table K V) (Notice K V) (Placement K V)) := do
  let i ← indexOf t key
  andThen (purge t r i) fun t r _ => insertFound t r i key value

/-- Puts an entry and answers the value that it replaces. -/
def put (t : Table K V) (r : Reclaimer) (key : Option K) (value : Option V) :
    Option (Step (Table K V) (Notice K V) (Except TableError (Option V))) :=
  match t.refusal key value with
  | some error => some (.done t r (.error error))
  | none => (insert t r key value).map (Step.map fun placement => .ok placement.previous.join)

/-- Puts entries one after the other. -/
def putAll (t : Table K V) (r : Reclaimer) :
    List (K × V) → Option (Step (Table K V) (Notice K V) Unit)
  | [] => some (.done t r ())
  | (key, value) :: rest =>
    andThen (put t r (some key) (some value)) fun t r _ => putAll t r rest

/-- Removes the slot of the key, if there is one with a value that is accepted. -/
def removeFound (t : Table K V) (r : Reclaimer) (i : Nat) (key : Option K)
    (accept : Option V → Bool) : Option (Step (Table K V) (Notice K V) (Option (Option V))) := do
  let slots ← bucket t.buckets i
  match slots.findIdx? (·.isFor r (nullableHash key) key) with
  | none => return .done t r none
  | some position =>
    let (slot, rest) ← takeOut slots position
    if accept (slot.value.get r) then
      let buckets ← setBucket t.buckets i rest
      let count ← minus t.count 1
      return {
        result := some (slot.value.get r)
        state :=
          { t with buckets, count, metrics := { t.metrics with removes := t.metrics.removes + 1 } }
        reclaimer := r.dismiss [slot]
        notices := []
        log := [] }
    else return .done t r none

/-- Removes the entry of the key if its value is accepted, and answers the value. -/
def removeIf (t : Table K V) (r : Reclaimer) (key : Option K) (accept : Option V → Bool) :
    Option (Step (Table K V) (Notice K V) (Option (Option V))) :=
  if t.excludes key then some (.done t r none)
  else do
    let i ← indexOf t key
    andThen (purge t r i) fun t r _ => removeFound t r i key accept

end Keys

/-! ### Sweeps, copies and the self-check -/

/-- Drops all stale slots, if there can be any, and answers how many there were. -/
def removeExpired (t : Table K V) (r : Reclaimer) :
    Option (Step (Table K V) (Notice K V) Nat) :=
  if t.hasReclaimableSide then
    (purgeAll t r).map fun swept =>
      { swept with
        state := { swept.state with sweptEpoch := r.epoch }
        log := if swept.result = 0 then [] else [.purged swept.result] }
  else some (.done t r 0)

/-- Drops all stale slots if the reclaimer has cleared something since the last sweep. -/
def sweep (t : Table K V) (r : Reclaimer) : Option (Step (Table K V) (Notice K V) Unit) :=
  if t.sweptEpoch = r.epoch then some (.done t r ())
  else (removeExpired t r).map (Step.map fun _ => ())

/-- The number of live entries. -/
def length (t : Table K V) (r : Reclaimer) : Option (Step (Table K V) (Notice K V) Nat) :=
  andThen (sweep t r) fun t r _ => some (.done t r t.count)

/-- A table with the same live entries in the same places, which counts from zero. -/
def copy (t : Table K V) (r : Reclaimer) :
    Option (Step (Table K V) (Notice K V) (Table K V)) := do
  let copied ← copyFrom 0 t.buckets.toList ⟨⟨.empty t.capacity, 0⟩, r, []⟩
  return {
    result :=
      { t with
        buckets := copied.shelf.buckets
        count := copied.shelf.count
        threshold := t.config.loadFactor.threshold t.capacity
        metrics := {}
        sweptEpoch := copied.reclaimer.epoch }
    state := t
    reclaimer := copied.reclaimer
    notices := []
    log := copied.log }

/-- The first slot that is not in the bucket of its hash. -/
def misplaced? (capacity : Nat) : Nat → List (List (Slot K V)) → Option (Option Violation)
  | _, [] => some none
  | i, slots :: rest => do
    match ← slots.findM? fun slot => (remainder slot.hash.toNat capacity).map (· != i) with
    | some slot => return some (.misplaced slot.hash i (← remainder slot.hash.toNat capacity))
    | none => misplaced? capacity (i + 1) rest

/-- The first thing that is wrong with the table, if anything is. -/
def violation? (t : Table K V) : Option (Option Violation) :=
  let slots := t.buckets.slots.length
  if t.capacity = 0 then some (some .noBuckets)
  else if slots ≠ t.count then some (some (.count t.count slots))
  else if t.threshold ≠ t.config.loadFactor.threshold t.capacity then
    some (some (.threshold t.threshold t.capacity t.config.loadFactor))
  else if t.threshold < t.count then some (some (.overfull t.count t.threshold))
  else
    match t.bound.filter (· < t.count) with
    | some bound => some (some (.overBound t.count bound))
    | none => misplaced? t.capacity 0 t.buckets.toList

/-- Carries a request out. What is not named here has nothing to check. -/
def perform [DecidableEq K] [Hashed K] [DecidableEq V] (t : Table K V) (r : Reclaimer) :
    Request K V → Option (Step (Table K V) (Notice K V) (Reply K V))
  | .get key => (lookup t r key).map (Step.map fun found => .value found.join)
  | .containsKey key => (containsKey t r key).map fun there => t.read r (.flag there)
  | .containsEntry key value =>
    (lookup t r key).map (Step.map fun found => .flag (found == some value))
  | .put key value =>
    (put t r key value).map (Step.map fun
      | .ok previous => .value previous
      | .error error => .refused error.report)
  | .putAll (some entries) => (putAll t r entries).map (Step.map fun _ => .done)
  | .remove key => (removeIf t r key fun _ => true).map (Step.map fun taken => .value taken.join)
  | .removeKey key => (removeIf t r key fun _ => true).map (Step.map (.flag ·.isSome))
  | .removeEntry key value => (removeIf t r key (· == value)).map (Step.map (.flag ·.isSome))
  | .removeRandom => (removeRandom t r).map (Step.map fun entry => .item (entry.map entryItem))
  | .removeRandoms n =>
    (removeRandoms t r n).map (Step.map fun entries => .attempts (entries.map (·.map entryItem)))
  | .removeExpired => (removeExpired t r).map (Step.map .count)
  | .length => (length t r).map (Step.map .count)
  | .isEmpty => (length t r).map (Step.map fun n => .flag (n == 0))
  | .setBound bound =>
    (enforceBound { t with bound } r).map
      (Step.map fun evicted => .items (evicted.map entryItem))
  | .randomEntries =>
    (randomEntries t r).map (Step.map fun entries => .items (entries.map entryItem))
  | .viewLiteral view => (length t r).map (Step.map fun n => .text (view.literal n))
  | .check =>
    (violation? t).map fun found => t.read r <| match found with
      | none => .done
      | some violation => .refused ⟨.invariant, violation.message⟩
  | request => some (t.perform r request)

end Checked

/-! ## No check fails -/

variable {t t' : Table K V}

/-- The slot of a key is at a position of its bucket, from which it can be taken. -/
theorem takeOut_of_findIdx? {α : Type} {test : α → Bool} {l : List α} {position : Nat}
    (found : l.findIdx? test = some position) :
    ∃ a, l.find? test = some a ∧ takeOut l position = some (a, l.eraseP test) ∧
      ∀ new, l.set position new = replaceFirst test new l := by
  induction l generalizing position with
  | nil => cases found
  | cons b rest ih =>
    rw [List.findIdx?_cons] at found
    split at found
    · next hb =>
      cases found
      refine ⟨b, List.find?_cons_of_pos hb, ?_, fun new => ?_⟩
      · rw [List.eraseP_cons_of_pos hb]
        rfl
      · rw [replaceFirst, if_pos hb]
        rfl
    · next hb =>
      obtain ⟨position', found', rfl⟩ := Option.map_eq_some_iff.mp found
      obtain ⟨a, hfind, htake, hset⟩ := ih found'
      refine ⟨a, (List.find?_cons_of_neg hb).trans hfind, ?_, fun new => ?_⟩
      · obtain ⟨a', hget, heq⟩ := Option.map_eq_some_iff.mp htake
        rw [List.eraseP_cons_of_neg hb, takeOut, List.getElem?_cons_succ, hget]
        obtain ⟨rfl, herase⟩ := Prod.mk.inj heq
        rw [← herase]
        rfl
      · rw [replaceFirst, if_neg hb, ← hset]
        rfl

/-- The last element of a list can be taken out and put back at the end. -/
theorem takeOut_last {α : Type} {l rest : List α} {position : Nat} {a : α}
    (last : position + 1 = l.length) (taken : takeOut l position = some (a, rest)) :
    rest ++ [a] = l := by
  obtain ⟨a', hget, heq⟩ := Option.map_eq_some_iff.mp taken
  obtain ⟨rfl, rfl⟩ := Prod.mk.inj heq
  obtain ⟨hposition, rfl⟩ := List.getElem?_eq_some_iff.mp hget
  rw [List.eraseIdx_eq_take_drop_succ, last, List.drop_length, List.append_nil,
    List.take_append_getElem, last, List.take_length]

/-- A key that is at no position of its bucket has no slot. -/
theorem slotFor?_of_findIdx?_eq_none [DecidableEq K] [Hashed K] {key : Option K}
    (absent :
      (t.buckets.bucket (t.indexOf key)).findIdx? (·.isFor r (nullableHash key) key) = none) :
    t.slotFor? r key = none :=
  List.find?_eq_none.mpr fun s hs => by simp [List.findIdx?_eq_none_iff.mp absent s hs]

/-- A table without entries is fit if its cursor is. -/
theorem fit_empty {config : Config} {capacity : Nat} {bound : Option Nat} {cursor : Cursor}
    {epoch : Nat} (fit : cursor.Fit) :
    (empty (K := K) (V := V) config capacity bound cursor epoch).Fit where
  capacity_pos :=
    (Nat.lt_of_lt_of_le Nat.zero_lt_one (Nat.le_max_right ..)).trans_eq (Buckets.size_empty _).symm
  counted := by
    rw [empty, Buckets.slots_empty]
    rfl
  cursor := fit

namespace Fit

/-- The shelf of a fit table counts just what lies in its buckets. -/
theorem shelf_eq (h : t.Fit) : t.shelf = .of t.buckets := by
  rw [shelf, h.counted, Shelf.of]

/-- Only the buckets, the count and the cursor matter. -/
theorem of_eq (h : t.Fit) (buckets : t'.buckets = t.buckets) (count : t'.count = t.count)
    (cursor : t'.cursor = t.cursor) : t'.Fit where
  capacity_pos := by
    rw [capacity, buckets]
    exact h.capacity_pos
  counted := by
    rw [count, buckets]
    exact h.counted
  cursor := by
    rw [cursor]
    exact h.cursor

/-- A fit table stays so when slots leave it and are no longer counted. -/
theorem shed (h : t.Fit) (gone : List (Slot K V)) (capacity : 0 < t'.capacity)
    (balance : t.buckets.slots ~ t'.buckets.slots ++ gone)
    (counted : t'.count = t.count - gone.length) (cursor : t'.cursor.Fit) : t'.Fit where
  capacity_pos := capacity
  counted := by
    have hlength := balance.length_eq
    rw [List.length_append] at hlength
    rw [counted, h.counted]
    omega
  cursor := cursor

/-- The next fraction of a fit cursor can be read. -/
theorem nextTarget_eq (h : t.Fit) (capacity : Nat) :
    Checked.nextTarget t.cursor capacity = some (t.cursor.target capacity, t.cursor.advance) := by
  have hposition : t.cursor.fractions[t.cursor.position]? =
      some (t.cursor.fractions[t.cursor.position]?.getD .nan) := by
    rw [List.getElem?_eq_getElem h.cursor, Option.getD_some]
  have hlength : 0 < t.cursor.fractions.length := Nat.zero_lt_of_lt h.cursor
  rw [Checked.nextTarget, hposition]
  simp only [Option.bind_eq_bind, Option.bind_some, remainder_eq hlength]
  rfl

/-- What was done to the shelf of a table with checks is what was to be done. -/
theorem onShelf {α : Type} {step : Step (Table K V) (Notice K V) α} (fit : step.state.Fit)
    {shelf : Option (Shelf K V)} (h : shelf = some (.of step.state.buckets)) :
    Safe Fit (Checked.onShelf step shelf) step where
  eq_some := by
    rw [h, Checked.onShelf, Option.map_some]
    unfold Shelf.of
    rw [← fit.counted]
  fit := fit

/-! ### Stale slots -/

/-- To purge a bucket that there is is safe. -/
theorem purge (h : t.Fit) {i : Nat} (hi : i < t.capacity) :
    Safe Fit (Checked.purge t r i) (t.purge r i) := by
  have hfit : (t.purge r i).state.Fit := by
    refine h.shed ((t.buckets.bucket i).filter (·.isStale r)) ?_ ?_ rfl h.cursor
    · rw [capacity_purge]
      exact h.capacity_pos
    · exact t.buckets.slots_set_perm i _ (perm_filter_append (Slot.isStale r) _)
  refine onShelf hfit ?_
  rw [h.shelf_eq]
  exact dropStale_eq hi

/-- To purge a fit table is safe. -/
theorem purgeAll (h : t.Fit) : Safe Fit (Checked.purgeAll t r) (t.purgeAll r) := by
  have hfit : (t.purgeAll r).state.Fit := by
    refine h.shed (t.buckets.slots.filter (·.isStale r)) ?_ ?_ rfl h.cursor
    · have hsize : (t.purgeAll r).state.capacity = t.capacity := Array.size_map
      rw [hsize]
      exact h.capacity_pos
    · rw [slots_purgeAll]
      exact perm_filter_append (Slot.isStale r) _
  refine onShelf hfit ?_
  rw [h.shelf_eq]
  exact dropAll_eq _

/-- To sweep a fit table by request is safe. -/
theorem removeExpired (h : t.Fit) : Safe Fit (Checked.removeExpired t r) (t.removeExpired r) := by
  unfold Checked.removeExpired Table.removeExpired
  split
  · have hswept := h.purgeAll (r := r)
    refine ⟨?_, hswept.fit.of_eq rfl rfl rfl⟩
    rw [hswept.eq_some]
    rfl
  · exact .some h

/-- To sweep a fit table is safe. -/
theorem sweep (h : t.Fit) : Safe Fit (Checked.sweep t r) (t.sweep r) := by
  unfold Checked.sweep Table.sweep
  split
  · exact .some h
  · exact h.removeExpired.map _

/-- A fit table that is cleared stays fit. -/
theorem clear (h : t.Fit) (r : Reclaimer) : (t.clear r).state.Fit where
  capacity_pos := h.capacity_pos.trans_eq (Buckets.size_empty _).symm
  counted := (congrArg List.length (Buckets.slots_empty _)).symm
  cursor := h.cursor

/-- To count a fit table is safe. -/
theorem length (h : t.Fit) : Safe Fit (Checked.length t r) (t.length r) :=
  h.sweep.next fun _ _ _ h => .some h

/-! ### Growth and eviction -/

/-- To move a fit table to some buckets is safe. -/
theorem rehash (h : t.Fit) {capacity : Nat} (pos : 0 < capacity) :
    Safe Fit (Checked.rehash t r capacity) (t.rehash r capacity) := by
  have hfit : (t.rehash r capacity).state.Fit := by
    refine h.shed (t.buckets.slots.filter (·.isStale r)) ?_ (t.slots_rehash r pos) rfl h.cursor
    rw [capacity_rehash]
    exact pos
  refine onShelf hfit ?_
  have hspread := spread_eq (r := r) (b := .empty capacity) (by rwa [Buckets.size_empty])
    t.buckets.slots
  rw [Buckets.size_empty] at hspread
  rw [Shelf.of_empty]
  exact hspread

/-- A move after which the table still has to grow leaves less to grow. -/
theorem lacking_rehash_lt
    (more : ¬(t.rehash r (2 * t.capacity + 1)).state.count ≤
      (t.rehash r (2 * t.capacity + 1)).state.threshold) :
    Checked.lacking (t.rehash r (2 * t.capacity + 1)).state < Checked.lacking t := by
  set moved := (t.rehash r (2 * t.capacity + 1)).state with hmoved
  have hcapacity : moved.capacity = 2 * t.capacity + 1 := capacity_rehash ..
  -- The load factor times the new capacity is still less than twice the slots that are left.
  have hmore : (2 * t.capacity + 1) * t.config.loadFactor.dividend <
      2 * moved.count * t.config.loadFactor.divisor :=
    LoadFactor.lt_of_thresholdIn_lt (Nat.lt_of_not_le more)
  have hfewer : 2 * moved.count * t.config.loadFactor.divisor ≤
      2 * t.count * t.config.loadFactor.divisor :=
    Nat.mul_le_mul_right _ (Nat.mul_le_mul_left _ (Nat.sub_le _ _))
  have hlarger : t.capacity * t.config.loadFactor.dividend <
      (2 * t.capacity + 1) * t.config.loadFactor.dividend :=
    Nat.mul_lt_mul_of_pos_right (by omega) t.config.loadFactor.dividend_pos
  have hconfig : moved.config = t.config := rfl
  rw [Checked.lacking, Checked.lacking, hcapacity, hconfig]
  omega

/-- Growth ends, and its moves are checked one by one. -/
theorem enlarge (h : t.Fit) {moves : Nat} (enough : Checked.lacking t < moves) :
    Safe Fit (Checked.enlarge moves t r) (t.enlarge r) := by
  induction moves generalizing t r with
  | zero => exact absurd enough (Nat.not_lt_zero _)
  | succ moves ih =>
    have hmoved : Safe Fit (Checked.rehash t r (2 * t.capacity + 1))
        (t.rehash r (2 * t.capacity + 1)) := h.rehash (by omega)
    rw [Checked.enlarge, hmoved.eq_some, enlarge_eq, Option.bind_eq_bind, Option.bind_some]
    split
    · exact ⟨rfl, hmoved.fit⟩
    · next more =>
      have hless := lacking_rehash_lt more
      have hrest := ih hmoved.fit (r := (t.rehash r (2 * t.capacity + 1)).reclaimer) (by omega)
      refine ⟨?_, hrest.fit⟩
      rw [hrest.eq_some]
      rfl

/-- To grow a fit table is safe, and the moves that it may take are enough. -/
theorem grow (h : t.Fit) : Safe Fit (Checked.grow t r) (t.grow r) := by
  rw [Checked.grow, grow_eq]
  split
  · exact .some h
  · exact h.enlarge (Nat.lt_succ_self _)

/-- To take a slot near to where a fit cursor points is safe. -/
theorem takeNear (h : t.Fit) : Safe Fit (Checked.takeNear t r) (t.takeNear r) := by
  have htarget : t.cursor.target t.capacity < t.buckets.size := t.cursor.target_lt h.capacity_pos
  have hfit : (t.takeNear r).state.Fit := by
    refine h.shed ((t.nearest r).stale ++ (t.nearest r).found.toList) ?_ ?_ rfl h.cursor.advance
    · have hsize : (t.takeNear r).state.capacity = t.capacity := Buckets.size_probe ..
      rw [hsize]
      exact h.capacity_pos
    · rw [← List.append_assoc]
      exact t.buckets.slots_probe _
  have hcounted : (t.nearest r).buckets.slots.length = (t.takeNear r).state.count :=
    hfit.counted.symm
  refine ⟨?_, hfit⟩
  simp only [Checked.takeNear, h.nextTarget_eq, Option.bind_eq_bind, Option.bind_some, h.shelf_eq]
  have hsearch : search r (t.cursor.target t.capacity) (.of t.buckets) = some (.of (t.nearest r)) :=
    search_eq htarget
  rw [hsearch, Option.bind_some]
  unfold Found.of Shelf.of
  dsimp only
  rw [hcounted]
  rfl

/-- What is counted does not matter. -/
theorem tally (h : t.Fit) (count : Metrics → Metrics) : (t.tally count).Fit :=
  h.of_eq rfl rfl rfl

/-- Evictions end, and they are checked one by one. -/
theorem evictDownTo (h : t.Fit) (bound : Nat) {rounds : Nat} (enough : t.count < rounds) :
    Safe Fit (Checked.evictDownTo bound rounds t r) (t.evictDownTo bound r) := by
  induction rounds generalizing t r with
  | zero => exact absurd enough (Nat.not_lt_zero _)
  | succ rounds ih =>
    by_cases within : t.count ≤ bound
    · rw [Checked.evictDownTo, if_pos within, Table.evictDownTo, if_pos within]
      exact .some h
    · have htaken := h.takeNear (r := r)
      rw [Checked.evictDownTo, if_neg within, htaken.eq_some, Option.bind_eq_bind, Option.bind_some]
      cases found : (t.takeNear r).result with
      | none =>
        rw [evictDownTo_of_none within found]
        exact ⟨rfl, htaken.fit⟩
      | some entry =>
        have hless : (t.takeNear r).state.count < t.count := count_takeNear_lt found (by omega)
        have htallied : (t.takeNear r).state.tallyEviction.Fit := htaken.fit.tally _
        have hrest := ih htallied (r := (t.takeNear r).reclaimer)
          (Nat.lt_of_lt_of_le hless (Nat.le_of_lt_succ enough))
        rw [evictDownTo_of_some within found]
        refine ⟨?_, hrest.fit⟩
        dsimp only
        rw [hrest.eq_some]
        simp only [Option.bind_eq_bind, Option.bind_some, Step.andThen, Step.map, evicting,
          List.append_assoc, List.singleton_append]
        rfl

/-- To keep the bound of a fit table is safe. -/
theorem enforceBound (h : t.Fit) : Safe Fit (Checked.enforceBound t r) (t.enforceBound r) := by
  unfold Checked.enforceBound Table.enforceBound
  cases t.bound with
  | none => exact .some h
  | some bound => exact h.evictDownTo bound (Nat.lt_succ_self _)

/-- To remove an entry of a fit table at random is safe. -/
theorem removeRandom (h : t.Fit) : Safe Fit (Checked.removeRandom t r) (t.removeRandom r) := by
  refine h.takeNear.next fun t r entry h => .some ?_
  show Fit (if _ then _ else _)
  split
  · exact h.tally _
  · exact h

/-- To remove entries of a fit table at random is safe, one after the other. -/
theorem removeRandoms (h : t.Fit) (n : Nat) :
    Safe Fit (Checked.removeRandoms t r n) (t.removeRandoms r n) := by
  induction n generalizing t r with
  | zero => exact .some h
  | succ n ih => exact h.removeRandom.next fun t r _ h => (ih h).map _

/-- To list a fit table from where its cursor points is safe. -/
theorem randomEntries (h : t.Fit) : Safe Fit (Checked.randomEntries t r) (t.randomEntries r) := by
  have htarget : t.cursor.target t.capacity ≤ t.buckets.toList.length := by
    rw [Array.length_toList]
    exact (t.cursor.target_lt h.capacity_pos).le
  refine ⟨?_, h.capacity_pos, h.counted, h.cursor.advance⟩
  simp only [Checked.randomEntries, h.nextTarget_eq, Option.bind_eq_bind, Option.bind_some, splitAt,
    if_pos htarget]
  rfl

/-! ### Keys -/

section Keys

variable [Hashed K]

/-- The bucket of a key is one of those that there are. -/
theorem indexOf_lt (h : t.Fit) (key : Option K) : t.indexOf key < t.capacity :=
  Nat.mod_lt _ h.capacity_pos

/-- The bucket of a key can be worked out. -/
theorem indexOf_eq (h : t.Fit) (key : Option K) : Checked.indexOf t key = some (t.indexOf key) :=
  remainder_eq h.capacity_pos

/-- The bucket of a key can be read. -/
theorem bucket_eq (h : t.Fit) (key : Option K) :
    bucket t.buckets (t.indexOf key) = some (t.buckets.bucket (t.indexOf key)) :=
  Checked.bucket_eq (h.indexOf_lt key)

/-- The bucket of a key can be filled anew. -/
theorem setBucket_eq (h : t.Fit) (key : Option K) (slots : List (Slot K V)) :
    setBucket t.buckets (t.indexOf key) slots = some (t.buckets.set (t.indexOf key) slots) :=
  Checked.setBucket_eq (h.indexOf_lt key) slots

/-- To put a new slot into a fit table is safe. -/
theorem addSlot (h : t.Fit) (key : Option K) (value : Option V) :
    Safe Fit (Checked.addSlot t r (t.indexOf key) key value) (t.addSlot r key value) := by
  have hslots : (t.addSlot r key value).state.buckets.slots ~
      t.buckets.slots ++ [t.newSlot r key value] := t.buckets.slots_push _ h.capacity_pos
  have hfit : (t.addSlot r key value).state.Fit := by
    refine ⟨h.capacity_pos.trans_eq (Buckets.size_push ..).symm, ?_, h.cursor⟩
    rw [hslots.length_eq, List.length_append, List.length_singleton, ← h.counted]
    rfl
  refine onShelf hfit ?_
  rw [h.shelf_eq]
  exact pushSlot_eq (h.indexOf_lt key) _

/-- To touch an entry of a fit table has an outcome, and leaves the table fit. -/
theorem touch [DecidableEq K] (h : t.Fit) (key : Option K) :
    Checked.touch t r key = some (t.touch r key) ∧ (t.touch r key).Fit := by
  have hfit : (t.touch r key).Fit := by
    refine h.shed [] ?_ ?_ ?_ ?_
    · unfold Table.touch
      split
      · exact h.capacity_pos
      · exact h.capacity_pos.trans_eq (Buckets.size_set ..).symm
    · rw [List.append_nil]
      exact t.slots_touch r key
    · unfold Table.touch
      split <;> rfl
    · unfold Table.touch
      split <;> exact h.cursor
  refine ⟨?_, hfit⟩
  unfold Checked.touch Table.touch
  cases t.config.order with
  | insertion => rfl
  | recency =>
    simp only [h.indexOf_eq, h.bucket_eq, Option.bind_eq_bind, Option.bind_some]
    cases found :
      (t.buckets.bucket (t.indexOf key)).findIdx? (·.isFor r (nullableHash key) key) with
    | none =>
      -- There is nothing to move.
      have hnone := List.findIdx?_eq_none_iff.mp found
      have hsame : moveToBack (·.isFor r (nullableHash key) key)
          (t.buckets.bucket (t.indexOf key)) = t.buckets.bucket (t.indexOf key) := by
        rw [moveToBack, List.find?_eq_none.mpr fun s hs => by simp [hnone s hs],
          List.eraseP_of_forall_not fun s hs => by simp [hnone s hs], Option.toList_none,
          List.append_nil]
      simp only [hsame, Buckets.set_bucket]
      rfl
    | some position =>
      obtain ⟨slot, hfind, htake, -⟩ := takeOut_of_findIdx? found
      simp only [moveToBack, hfind, Option.toList_some]
      split
      · next hlast =>
        -- The slot is the last one of its bucket already.
        have hsame : (t.buckets.bucket (t.indexOf key)).eraseP (·.isFor r (nullableHash key) key) ++
            [slot] = t.buckets.bucket (t.indexOf key) := takeOut_last hlast htake
        rw [hsame, Buckets.set_bucket]
        rfl
      · simp only [htake, Option.bind_some, h.setBucket_eq]
        rfl

variable [DecidableEq K]

/-- To look a key up in a fit table is safe. -/
theorem lookup (h : t.Fit) (key : Option K) :
    Safe Fit (Checked.lookup t r key) (t.lookup r key) := by
  by_cases hexcludes : t.excludes key = true
  · rw [Checked.lookup, if_pos hexcludes, Table.lookup, if_pos hexcludes]
    exact .some (h.tally fun m => { m with misses := m.misses + 1 })
  · rw [Checked.lookup, if_neg hexcludes, lookup_eq r (by simpa using hexcludes)]
    simp only [h.indexOf_eq, h.bucket_eq, Option.bind_eq_bind, Option.bind_some]
    have htidy : Safe Fit (if t.meetsStale r key then Checked.purge t r (t.indexOf key)
        else some (.done t r ())) (t.tidy r key) := by
      unfold tidy
      split
      · exact h.purge (h.indexOf_lt key)
      · exact .some h
    unfold slotFor?
    generalize Option.filter _ _ = found
    refine htidy.next fun t r _ h => ?_
    cases found with
    | none => exact .some (h.tally fun m => { m with misses := m.misses + 1 })
    | some slot =>
      have htouch := (h.tally fun m => { m with hits := m.hits + 1 }).touch (r := r) key
      dsimp only
      rw [htouch.1]
      exact .some htouch.2

/-- To ask a fit table for a key has an outcome. -/
theorem containsKey (h : t.Fit) (key : Option K) :
    Checked.containsKey t r key = some (t.containsKey r key) := by
  unfold Checked.containsKey Table.containsKey
  split
  · next hexcludes => rw [hexcludes]; rfl
  · next hexcludes =>
    simp only [h.indexOf_eq, h.bucket_eq, Option.bind_eq_bind, Option.bind_some, hexcludes]
    rfl

/-- To give a slot that was found another value is safe. -/
theorem replaceValue (h : t.Fit) {key : Option K} {slot : Slot K V} {position : Nat}
    (hslot : t.slotFor? r key = some slot)
    (hposition : (t.buckets.bucket (t.indexOf key)).findIdx? (·.isFor r (nullableHash key) key) =
      some position) (value : Option V) :
    Safe Fit (Checked.replaceValue t r (t.indexOf key) position value)
      (t.replaceValue r key slot value) := by
  constructor
  case eq_some =>
    obtain ⟨slot', hfind, htake, hset⟩ := takeOut_of_findIdx? hposition
    obtain rfl : slot' = slot := Option.some.inj (hfind.symm.trans hslot)
    unfold Checked.replaceValue Table.replaceValue
    simp only [h.bucket_eq, Option.bind_eq_bind, Option.bind_some, htake, h.setBucket_eq]
    cases t.config.order with
    | insertion =>
      simp only [hset]
      rfl
    | recency => rfl
  case fit =>
    obtain ⟨rest, l, hbucket, hl, hbuckets⟩ := t.buckets_replaceValue r key value hslot
    have hlength := (t.slots_replaceValue r key value hslot).length_eq
    simp only [List.length_append, List.length_singleton, Nat.add_right_cancel_iff] at hlength
    refine ⟨?_, h.counted.trans hlength, h.cursor⟩
    rw [capacity, hbuckets, Buckets.size_set]
    exact h.capacity_pos

/-- To put an entry into a slot of a fit table is safe. -/
theorem insertFound (h : t.Fit) (key : Option K) (value : Option V) :
    Safe Fit (Checked.insertFound t r (t.indexOf key) key value) (t.insertFound r key value) := by
  unfold Checked.insertFound Table.insertFound
  rw [h.bucket_eq, Option.bind_eq_bind, Option.bind_some]
  split
  · next position hposition =>
    obtain ⟨slot, hslot, -⟩ := takeOut_of_findIdx? hposition
    have hfound : t.slotFor? r key = some slot := hslot
    rw [hfound]
    exact h.replaceValue hfound hposition value
  · next absent =>
    rw [slotFor?_of_findIdx?_eq_none absent]
    exact (h.addSlot key value).next fun t r _ h => h.grow.next fun t r _ h => h.enforceBound.map _

/-- To put an entry that a fit table can hold is safe. -/
theorem insert (h : t.Fit) (key : Option K) (value : Option V) :
    Safe Fit (Checked.insert t r key value) (t.insert r key value) := by
  have hpurge := h.purge (r := r) (h.indexOf_lt key)
  have hfound := hpurge.fit.insertFound (r := (t.purge r (t.indexOf key)).reclaimer) key value
  rw [indexOf_purge] at hfound
  rw [Checked.insert, h.indexOf_eq, Option.bind_eq_bind, Option.bind_some, insert_eq]
  exact hpurge.andThen hfound

/-- To put an entry into a fit table is safe. -/
theorem put (h : t.Fit) (key : Option K) (value : Option V) :
    Safe Fit (Checked.put t r key value) (t.put r key value) := by
  unfold Checked.put Table.put
  cases t.refusal key value with
  | some error => exact .some h
  | none => exact (h.insert key value).map _

/-- To put entries into a fit table is safe, one after the other. -/
theorem putAll (h : t.Fit) (entries : List (K × V)) :
    Safe Fit (Checked.putAll t r entries) (t.putAll r entries) := by
  induction entries generalizing t r with
  | nil => exact .some h
  | cons entry rest ih => exact (h.put (some entry.1) (some entry.2)).next fun t r _ h => ih h

/-- To remove the slot of a key is safe. -/
theorem removeFound (h : t.Fit) (key : Option K) (accept : Option V → Bool) :
    Safe Fit (Checked.removeFound t r (t.indexOf key) key accept) (t.removeFound r key accept) := by
  unfold Checked.removeFound Table.removeFound
  rw [h.bucket_eq, Option.bind_eq_bind, Option.bind_some]
  split
  · next absent =>
    rw [slotFor?_of_findIdx?_eq_none absent]
    exact .some h
  · next position hposition =>
    obtain ⟨slot, hslot, htake, -⟩ := takeOut_of_findIdx? hposition
    have hfound : t.slotFor? r key = some slot := hslot
    rw [hfound, htake]
    simp only [Option.bind_eq_bind, Option.bind_some]
    split
    · next haccept =>
      obtain ⟨-, before, after, hbucket, herase, -⟩ := split_of_find? hslot
      have hbalance : t.buckets.slots ~ (t.removal r key slot).state.buckets.slots ++ [slot] := by
        refine t.buckets.slots_set_perm _ _ ?_
        rw [herase, hbucket]
        exact List.perm_middle.trans (List.perm_append_singleton _ _).symm
      have hcount : 1 ≤ t.count := by
        rw [h.counted, hbalance.length_eq, List.length_append, List.length_singleton]
        omega
      refine ⟨?_, h.shed [slot] ?_ hbalance rfl h.cursor⟩
      · rw [h.setBucket_eq, Option.bind_some, minus_eq hcount, Option.bind_some]
        rfl
      · exact h.capacity_pos.trans_eq (Buckets.size_set ..).symm
    · exact .some h

/-- To remove an entry of a fit table is safe. -/
theorem removeIf (h : t.Fit) (key : Option K) (accept : Option V → Bool) :
    Safe Fit (Checked.removeIf t r key accept) (t.removeIf r key accept) := by
  by_cases hexcludes : t.excludes key = true
  · rw [Checked.removeIf, if_pos hexcludes, Table.removeIf, if_pos hexcludes]
    exact .some h
  · have hpurge := h.purge (r := r) (h.indexOf_lt key)
    have hfound := hpurge.fit.removeFound (r := (t.purge r (t.indexOf key)).reclaimer) key accept
    rw [indexOf_purge] at hfound
    rw [Checked.removeIf, if_neg hexcludes, removeIf_eq r accept (by simpa using hexcludes),
      h.indexOf_eq, Option.bind_eq_bind, Option.bind_some]
    exact hpurge.andThen hfound

end Keys

/-! ### Copies and the self-check -/

/-- A table that was made is fit. -/
theorem create {shared : SharedFractions} {o : Options} {epoch : Nat}
    (made : Table.create shared o epoch = .ok t) : t.Fit := by
  simp only [Table.create, bind, Except.bind, pure, Except.pure] at made
  split at made
  · cases made
  · split at made
    · cases made
    · next cursor hcursor =>
      cases made
      exact fit_empty (Cursor.fit_of_ofFractions? hcursor)

/-- A copy passes its checks, and is fit. -/
theorem copy (h : t.Fit) : Safe Fit (Checked.copy t r) (t.copy r) ∧ (t.copy r).result.Fit := by
  have hcopied := copyFrom_eq (r := r) [] t.buckets.toList []
  have hempty : (List.replicate t.buckets.toList.length []).toArray =
      Buckets.empty (K := K) (V := V) t.capacity := by
    simp [Buckets.empty, capacity]
  rw [List.nil_append, hempty, ← Shelf.of_empty, List.length_nil] at hcopied
  refine ⟨⟨?_, h⟩, ?_, ?_, h.cursor⟩
  · rw [Checked.copy, hcopied]
    rfl
  · rw [capacity_copy]
    exact h.capacity_pos
  · rfl

/-- To look for a misplaced slot has an outcome. -/
theorem misplaced?_eq {capacity : Nat} (pos : 0 < capacity) (i : Nat) (l : List (List (Slot K V))) :
    Checked.misplaced? capacity i l = some (misplaced? capacity i l) := by
  induction l generalizing i with
  | nil => rfl
  | cons slots rest ih =>
    have hfind : (slots.findM? fun slot => (remainder slot.hash.toNat capacity).map (· != i)) =
        some (slots.find? fun slot => bucketOf capacity slot.hash != i) := by
      simp only [remainder_eq pos, Option.map_some]
      exact List.findM?_pure ..
    rw [Checked.misplaced?, misplaced?, hfind, Option.bind_eq_bind, Option.bind_some]
    cases slots.find? fun slot => bucketOf capacity slot.hash != i with
    | some slot =>
      dsimp only
      rw [remainder_eq pos]
      rfl
    | none => exact ih _

/-- The self-check of a fit table has an outcome. -/
theorem violation?_eq (h : t.Fit) : Checked.violation? t = some t.violation? := by
  have hcapacity : t.capacity ≠ 0 := Nat.ne_of_gt h.capacity_pos
  simp only [Checked.violation?, violation?, hcapacity, ← h.counted, ne_eq, not_true_eq_false,
    if_false]
  split
  · rfl
  split
  · rfl
  · cases t.bound.filter (· < t.count) with
    | some bound => rfl
    | none => exact misplaced?_eq h.capacity_pos 0 _

/-- Every request to a fit table is safe. -/
theorem perform [DecidableEq K] [Hashed K] [DecidableEq V] (h : t.Fit) (request : Request K V) :
    Safe Fit (Checked.perform t r request) (t.perform r request) := by
  cases request with
  | get key => exact (h.lookup key).map _
  | containsKey key =>
    rw [Checked.perform, h.containsKey]
    exact .some h
  | containsEntry key value => exact (h.lookup key).map _
  | put key value => exact (h.put key value).map _
  | putAll source =>
    cases source with
    | none => exact .some h
    | some entries => exact (h.putAll entries).map _
  | remove key => exact (h.removeIf key _).map _
  | removeKey key => exact (h.removeIf key _).map _
  | removeEntry key value => exact (h.removeIf key _).map _
  | removeRandom => exact h.removeRandom.map _
  | removeRandoms n => exact (h.removeRandoms n).map _
  | removeExpired => exact h.removeExpired.map _
  | length => exact h.length.map _
  | isEmpty => exact h.length.map _
  | setBound bound =>
    have hbound : Fit { t with bound } := h.of_eq rfl rfl rfl
    exact hbound.enforceBound.map _
  | randomEntries => exact h.randomEntries.map _
  | viewLiteral view => exact h.length.map _
  | clear => exact .some (h.clear r)
  | check =>
    rw [Checked.perform, h.violation?_eq]
    exact .some h
  | containsValue | entries | bound | capacity | position | metrics | config | literal | snapshot =>
    exact .some h

end Fit

/-- On a table that is not fit a check can fail: a slot that was not counted cannot be counted
off. -/
example :
    let made : Table UInt64 String :=
      empty ⟨.strong, .strong, .standard, .insertion⟩ 1 none .shared 0
    let t : Table UInt64 String := { made with buckets := #[[⟨0, .null, .null⟩]] }
    Checked.removeIf t (.ofBudget none) none (fun _ => true) = none := by rfl

/-! ## Ranges -/

/-- A table in which all is in range that work on it computes with at first. -/
structure InRange [Hashed K] (t : Table K V) : Prop where
  /-- There is a bucket, so that remainders can be taken. -/
  capacity_pos : 0 < t.capacity
  /-- A key belongs to one of the buckets. -/
  indexOf_lt : ∀ key, t.indexOf key < t.capacity
  /-- There is a fraction. -/
  fractions : t.cursor.fractions ≠ []
  /-- The cursor is at one of the fractions. -/
  position_lt : t.cursor.position < t.cursor.fractions.length
  /-- The next fraction points at one of the buckets. -/
  target_lt : t.cursor.target t.capacity < t.capacity
  /-- No more slots can leave than were counted. -/
  counted : t.buckets.slots.length = t.count

/-- In a fit table every number is in its range. -/
theorem Fit.inRange [Hashed K] (h : t.Fit) : t.InRange where
  capacity_pos := h.capacity_pos
  indexOf_lt := h.indexOf_lt
  fractions := h.cursor.ne_nil
  position_lt := h.cursor
  target_lt := t.cursor.target_lt h.capacity_pos
  counted := h.counted.symm

end Table

end SoftCache
