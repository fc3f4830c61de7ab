import SoftCache.Table.Basic

/-!
# Growth

A table that holds more slots than its threshold moves to `2 * capacity + 1` buckets, again and
again until it does not. Stale slots are left behind. The growth ends because the load factor is
positive: what is missing to twice the slots, times the divisor of the load factor, shrinks with
every move. All this is done in the arithmetic of the library. Only to be read in exact arithmetic
as well, it is first said of either.
-/

namespace SoftCache.Table

variable {K V : Type}

/-- Moves the live slots to another number of buckets. They are taken in the order in which they lie
and keep it within each new bucket. -/
def rehashIn (a : Arithmetic) (t : Table K V) (r : Reclaimer) (capacity : Nat) :
    Step (Table K V) (Notice K V) Unit :=
  let stale := t.buckets.slots.filter (·.isStale r)
  let count := t.count - stale.length
  { result := ()
    state :=
      { t with
        buckets := .ofSlots capacity (t.buckets.slots.filter fun slot => !slot.isStale r)
        count := count
        threshold := t.config.loadFactor.thresholdIn a capacity
        metrics :=
          { t.metrics with
            expirations := t.metrics.expirations + stale.length
            resizes := t.metrics.resizes + 1 } }
    reclaimer := r.dismiss stale
    notices := stale.map (·.expiration r)
    log := [.resized t.capacity capacity count] }

/-- Moves to the next larger number of buckets until the threshold is kept. -/
def enlargeIn (a : Arithmetic) (t : Table K V) (r : Reclaimer) :
    Step (Table K V) (Notice K V) Unit :=
  let moved := t.rehashIn a r (2 * t.capacity + 1)
  if moved.state.count ≤ moved.state.threshold then moved
  else
    let rest := enlargeIn a moved.state moved.reclaimer
    { rest with notices := moved.notices ++ rest.notices, log := moved.log ++ rest.log }
termination_by
  2 * t.count * t.config.loadFactor.divisor - t.capacity * t.config.loadFactor.dividend
decreasing_by
  rename_i more
  -- The load factor times the new capacity is still less than twice the slots that are left.
  let stale := (t.buckets.slots.filter (·.isStale r)).length
  have more : (2 * t.capacity + 1) * t.config.loadFactor.dividend <
      2 * (t.count - stale) * t.config.loadFactor.divisor :=
    LoadFactor.lt_of_thresholdIn_lt (Nat.lt_of_not_le more)
  have fewer : 2 * (t.count - stale) * t.config.loadFactor.divisor ≤
      2 * t.count * t.config.loadFactor.divisor :=
    Nat.mul_le_mul_right _ (Nat.mul_le_mul_left _ (Nat.sub_le _ _))
  have larger : t.capacity * t.config.loadFactor.dividend <
      (2 * t.capacity + 1) * t.config.loadFactor.dividend :=
    Nat.mul_lt_mul_of_pos_right (by omega) t.config.loadFactor.dividend_pos
  have capacity_moved : moved.state.capacity = 2 * t.capacity + 1 := Buckets.size_ofSlots _ _
  rw [capacity_moved]
  change 2 * (t.count - stale) * t.config.loadFactor.divisor - _ < _
  change _ - (2 * t.capacity + 1) * t.config.loadFactor.dividend < _
  omega

/-- Grows the table if it holds more slots than its threshold. -/
def growIn (a : Arithmetic) (t : Table K V) (r : Reclaimer) : Step (Table K V) (Notice K V) Unit :=
  if t.count ≤ t.threshold then .done t r () else t.enlargeIn a r

/-- A table is enlarged by a move, after which it is enlarged again if it still holds too much. -/
theorem enlargeIn_eq (a : Arithmetic) (t : Table K V) (r : Reclaimer) :
    t.enlargeIn a r =
      if (t.rehashIn a r (2 * t.capacity + 1)).state.count ≤
          (t.rehashIn a r (2 * t.capacity + 1)).state.threshold then
        t.rehashIn a r (2 * t.capacity + 1)
      else (t.rehashIn a r (2 * t.capacity + 1)).andThen fun t r _ => t.enlargeIn a r := by
  rw [enlargeIn]
  rfl

/-! ## In the arithmetic of the library -/

/-- Moves the live slots to another number of buckets. -/
def rehash (t : Table K V) (r : Reclaimer) (capacity : Nat) : Step (Table K V) (Notice K V) Unit :=
  t.rehashIn .double r capacity

/-- Moves to the next larger number of buckets until the threshold is kept. -/
def enlarge (t : Table K V) (r : Reclaimer) : Step (Table K V) (Notice K V) Unit :=
  t.enlargeIn .double r

/-- Grows the table if it holds more slots than its threshold. -/
def grow (t : Table K V) (r : Reclaimer) : Step (Table K V) (Notice K V) Unit :=
  t.growIn .double r

/-- A table grows if it holds more slots than its threshold. -/
theorem grow_eq (t : Table K V) (r : Reclaimer) :
    t.grow r = if t.count ≤ t.threshold then .done t r () else t.enlarge r := rfl

/-- A table is enlarged by a move, after which it is enlarged again if it still holds too much. -/
theorem enlarge_eq (t : Table K V) (r : Reclaimer) :
    t.enlarge r =
      if (t.rehash r (2 * t.capacity + 1)).state.count ≤
          (t.rehash r (2 * t.capacity + 1)).state.threshold then
        t.rehash r (2 * t.capacity + 1)
      else (t.rehash r (2 * t.capacity + 1)).andThen fun t r _ => t.enlarge r :=
  t.enlargeIn_eq .double r

/-- Growth is a loop: what holds of a table that one move makes large enough, and of one that has to
be enlarged again if it holds of the table moved, holds of all tables. -/
theorem enlarge_induction {motive : Table K V → Reclaimer → Prop}
    (case1 : ∀ t r, let moved := t.rehash r (2 * t.capacity + 1)
      moved.state.count ≤ moved.state.threshold → motive t r)
    (case2 : ∀ t r, let moved := t.rehash r (2 * t.capacity + 1)
      ¬moved.state.count ≤ moved.state.threshold → motive moved.state moved.reclaimer →
        motive t r) (t : Table K V) (r : Reclaimer) : motive t r :=
  enlargeIn.induct .double motive case1 case2 t r

end SoftCache.Table
