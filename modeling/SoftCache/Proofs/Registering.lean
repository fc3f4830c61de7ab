import SoftCache.Cache.Request
import SoftCache.Table.Request

/-!
# What registers payloads

A table registers payloads when something is put into it, and a cache when something comes into its
soft tier. All other work only releases, and so hands out no number: `Table.next_perform` and
`Cache.next_perform`.
-/

namespace SoftCache

variable {K V α : Type}

/-- To dismiss slots hands out no number. -/
@[simp] theorem Reclaimer.next_dismiss (r : Reclaimer) (slots : List (Slot K V)) :
    (r.dismiss slots).next = r.next := rfl

/-- How many payloads are registered for something that is held with a strength. -/
def Strength.charge (s : Strength) (content : Option α) : Nat :=
  match s with
  | .strong => 0
  | .reclaimable => if content.isSome then 1 else 0

/-- To make a holder hands out as many numbers as it is charged for. -/
theorem Held.next_of (s : Strength) (content : Option α) (r : Reclaimer) :
    (of s content r).reclaimer.next = r.next + s.charge content := by
  cases content with
  | none => cases s <;> rfl
  | some content =>
    cases s with
    | strong => rfl
    | reclaimable => exact r.next_register

namespace Table

/-! ## Tables -/

/-- Whether a request to a table may register payloads. -/
def Request.registers : Request K V → Bool
  | .put .. => true
  | .putAll _ => true
  | _ => false

variable (t : Table K V) (r : Reclaimer)

/-- A sweep by request registers nothing. -/
theorem next_removeExpired : (t.removeExpired r).reclaimer.next = r.next := by
  unfold removeExpired
  split <;> rfl

/-- To count the entries of a table registers nothing. -/
theorem next_length : (t.length r).reclaimer.next = r.next := by
  unfold length sweep
  split
  · rfl
  · exact t.next_removeExpired r

/-- To evict registers nothing, however often it takes an entry. -/
theorem next_evictDownTo (bound : Nat) : (t.evictDownTo bound r).reclaimer.next = r.next := by
  fun_induction evictDownTo bound t r with
  | case1 => rfl
  | case2 => rfl
  | case3 t r hover taken entry found rest ih => exact ih

/-- To set a bound registers nothing. -/
theorem next_setBound (bound : Option Nat) : (t.setBound r bound).reclaimer.next = r.next := by
  unfold setBound enforceBound
  split
  · rfl
  · exact next_evictDownTo _ r _

/-- To remove entries at random registers nothing. -/
theorem next_removeRandoms (n : Nat) : (t.removeRandoms r n).reclaimer.next = r.next := by
  induction n generalizing t r with
  | zero => rfl
  | succ n ih => exact ih (t.removeRandom r).state (t.removeRandom r).reclaimer

/-- To keep a bound registers nothing. -/
theorem next_enforceBound : (t.enforceBound r).reclaimer.next = r.next :=
  t.next_setBound r t.bound

/-- To grow registers nothing: the payloads move with their slots. -/
theorem next_grow : (t.grow r).reclaimer.next = r.next := by
  have henlarge : (t.enlarge r).reclaimer.next = r.next := by
    induction t, r using enlarge_induction with
    | case1 t r moved enough =>
      rw [enlarge_eq, if_pos enough]
      rfl
    | case2 t r moved more ih =>
      rw [enlarge_eq, if_neg more]
      exact ih
  rw [grow_eq]
  split
  · rfl
  · exact henlarge

section Keys

variable [DecidableEq K] [Hashed K]

omit [DecidableEq K] in
/-- A new slot registers its key and its value. -/
theorem next_addSlot (key : Option K) (value : Option V) :
    (t.addSlot r key value).reclaimer.next =
      r.next + (t.config.keyStrength.charge key + t.config.valueStrength.charge value) := by
  rw [addSlot, Held.next_of, Held.next_of, Nat.add_assoc]

/-- A value that replaces another is registered. -/
theorem next_replaceValue (key : Option K) (slot : Slot K V) (value : Option V) :
    (t.replaceValue r key slot value).reclaimer.next =
      r.next + t.config.valueStrength.charge value :=
  Held.next_of t.config.valueStrength value r

/-- Putting an entry with a key that is held strongly registers its value. -/
theorem next_insert (strong : t.config.keyStrength = .strong) (key : Option K) (value : Option V) :
    (t.insert r key value).reclaimer.next = r.next + t.config.valueStrength.charge value := by
  unfold insert
  rw [Step.andThen_reclaimer]
  -- To purge a bucket registers nothing.
  split
  · next slot found => exact next_replaceValue _ _ key slot value
  · rw [Step.andThen_reclaimer, Step.andThen_reclaimer]
    refine (next_enforceBound _ _).trans ((next_grow _ _).trans ?_)
    refine (next_addSlot _ _ key value).trans ?_
    have hkey : (t.purge r (t.indexOf key)).state.config.keyStrength = .strong := strong
    rw [hkey, Strength.charge, Nat.zero_add]
    rfl

/-- A lookup registers nothing. -/
theorem next_lookup (key : Option K) : (t.lookup r key).reclaimer.next = r.next := by
  have hcleaned : (if t.meetsStale r key then t.purge r (t.indexOf key)
      else .done t r ()).reclaimer.next = r.next := by
    split <;> rfl
  unfold lookup
  split
  · rfl
  · dsimp only [Step.andThen_reclaimer]
    split <;> exact hcleaned

/-- A removal registers nothing. -/
theorem next_removeIf (key : Option K) (accept : Option V → Bool) :
    (t.removeIf r key accept).reclaimer.next = r.next := by
  unfold removeIf
  split
  · rfl
  · dsimp only [Step.andThen_reclaimer]
    split
    · rfl
    · split <;> rfl

/-- A table registers payloads only when something is put into it. -/
theorem next_perform [DecidableEq V] {request : Request K V} (h : request.registers = false) :
    (t.perform r request).reclaimer.next = r.next := by
  cases request with
  | put => cases h
  | putAll => cases h
  | get key => exact t.next_lookup r key
  | containsEntry key value => exact t.next_lookup r key
  | remove key => exact t.next_removeIf r key _
  | removeKey key => exact t.next_removeIf r key _
  | removeEntry key value => exact t.next_removeIf r key _
  | removeRandoms n => exact t.next_removeRandoms r n
  | removeExpired => exact t.next_removeExpired r
  | length => exact t.next_length r
  | isEmpty => exact t.next_length r
  | viewLiteral => exact t.next_length r
  | setBound bound => exact t.next_setBound r bound
  | containsKey | containsValue | removeRandom | clear | entries | randomEntries | bound | capacity
  | position | metrics | config | literal | snapshot | check => rfl

end Keys

end Table

namespace Cache

/-! ## Caches -/

/-- Whether a request to a cache may register payloads. What is unpinned and what a smaller hard
tier gives up may come into the soft tier. -/
def Request.registers : Request K V → Bool
  | .put .. => true
  | .putAll .. => true
  | .unpin _ => true
  | .setSize _ => true
  | _ => false

variable (c : Cache K V) (r : Reclaimer)

/-- To clear a cache registers nothing. -/
theorem next_clear : (c.clear r).reclaimer.next = r.next :=
  c.soft.next_removeExpired r

/-- To count the entries of a cache registers nothing. -/
theorem next_length : (c.length r).reclaimer.next = r.next :=
  (c.soft.next_length _).trans (c.hard.next_length r)

variable [DecidableEq K] [Hashed K]

/-- To get a value from a cache registers nothing. -/
theorem next_get (key : K) : (c.get r key).reclaimer.next = r.next := by
  unfold get
  split
  · rfl
  · dsimp only [Step.andThen_reclaimer]
    split
    · exact c.hard.next_lookup r _
    · dsimp only [Step.andThen_reclaimer]
      split
      all_goals exact (c.soft.next_lookup _ _).trans (c.hard.next_lookup r _)

/-- To remove an entry from a cache registers nothing. -/
theorem next_remove (key : K) : (c.remove r key).reclaimer.next = r.next := by
  unfold remove
  dsimp only [Step.andThen_reclaimer, Step.map, announce]
  split
  · rfl
  · dsimp only [Step.andThen_reclaimer]
    split
    · exact c.hard.next_removeIf r _ _
    · exact (c.soft.next_removeIf _ _ _).trans (c.hard.next_removeIf r _ _)

/-- To pin a key registers nothing, since pins are held strongly. -/
theorem next_pin [Ordered K] (key : K) : (c.pin r key).reclaimer.next = r.next := by
  unfold pin
  split
  · rfl
  · dsimp only [Step.andThen_reclaimer, Step.done]
    split
    · exact c.hard.next_removeIf r _ _
    · exact c.hard.next_removeIf r _ _
    · exact (c.soft.next_removeIf _ _ _).trans (c.hard.next_removeIf r _ _)

/-- The self-check of a cache registers nothing. -/
theorem next_violation? : (c.violation? r).reclaimer.next = r.next := by
  unfold violation?
  split
  · rfl
  · split
    · rfl
    · dsimp only [Step.andThen_reclaimer, Step.done]
      unfold softOverBound?
      split
      · rfl
      · exact c.soft.next_length r

/-- A cache registers payloads only when something may come into its soft tier. -/
theorem next_perform [Ordered K] [Literal K] [DecidableEq V] [Literal V] {request : Request K V}
    (h : request.registers = false) : (c.perform r request).reclaimer.next = r.next := by
  cases request with
  | put => cases h
  | putAll => cases h
  | unpin => cases h
  | setSize => cases h
  | get key => exact c.next_get r key
  | remove key => exact c.next_remove r key
  | pin key => exact c.next_pin r key
  | setSoftSize softSize => exact Table.next_setBound _ r _
  | length => exact c.next_length r
  | isEmpty => exact c.next_length r
  | removeExpired => exact c.soft.next_removeExpired r
  | clear => exact c.next_clear r
  | check => exact c.next_violation? r
  | containsKey | containsValue | locate | pinnedKeys | keys | entries | values | size | softSize
  | byUse | metrics | snapshot | literal => rfl

end Cache

end SoftCache
