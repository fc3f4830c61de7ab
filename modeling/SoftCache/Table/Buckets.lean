import SoftCache.Table.Slot

/-!
# Buckets

The slots of a table are spread over buckets by their hashes, and kept in order within a bucket.
`Buckets.probe` looks for the live slot that is nearest to a bucket: it empties the buckets of stale
slots on its way and takes the first live slot that it meets.
-/

namespace SoftCache

/-- The buckets of a table. -/
abbrev Buckets (K V : Type) := Array (List (Slot K V))

/-- The bucket of a hash. -/
def bucketOf (capacity : Nat) (hash : UInt64) : Nat :=
  hash.toNat % capacity

/-- The order in which a probe visits the buckets: the target, then outwards, at each distance first
the bucket below the target and then the one above it. -/
def probeOrder (target capacity : Nat) : List Nat :=
  target :: (List.range' 1 (capacity - 1)).flatMap fun distance =>
    (if distance ≤ target then [target - distance] else []) ++
      (if target + distance < capacity then [target + distance] else [])

namespace Buckets

variable {K V : Type}

/-- Buckets without slots. -/
def empty (capacity : Nat) : Buckets K V :=
  Array.replicate capacity []

/-- The slots of one bucket, in order. There are none past the last bucket. -/
def bucket (b : Buckets K V) (i : Nat) : List (Slot K V) :=
  b.getD i []

/-- The buckets with the slots of one of them replaced. -/
def set (b : Buckets K V) (i : Nat) (slots : List (Slot K V)) : Buckets K V :=
  b.setIfInBounds i slots

/-- The buckets with a slot put last into the bucket of its hash. -/
def push (b : Buckets K V) (s : Slot K V) : Buckets K V :=
  b.set (bucketOf b.size s.hash) (b.bucket (bucketOf b.size s.hash) ++ [s])

/-- All slots, bucket by bucket. -/
def slots (b : Buckets K V) : List (Slot K V) :=
  b.toList.flatten

/-- Slots spread over new buckets, in the order given within each. -/
def ofSlots (capacity : Nat) (slots : List (Slot K V)) : Buckets K V :=
  slots.foldl push (empty capacity)

/-- Empty buckets are as many as were asked for. -/
@[simp] theorem size_empty (capacity : Nat) :
    (empty (K := K) (V := V) capacity).size = capacity := by
  simp [empty]

/-- To fill a bucket anew leaves the number of buckets as it is. -/
@[simp] theorem size_set (b : Buckets K V) (i : Nat) (slots : List (Slot K V)) :
    (b.set i slots).size = b.size := by
  simp [set]

/-- A new slot leaves the number of buckets as it is. -/
@[simp] theorem size_push (b : Buckets K V) (s : Slot K V) : (b.push s).size = b.size := by
  simp [push]

/-- Slots are dealt out to as many buckets as were asked for. -/
@[simp] theorem size_ofSlots (capacity : Nat) (slots : List (Slot K V)) :
    (ofSlots capacity slots).size = capacity := by
  suffices h : ∀ b : Buckets K V, (slots.foldl push b).size = b.size by simp [ofSlots, h]
  induction slots with
  | nil => simp
  | cons s rest ih => intro b; simp [ih]

/-! ## What is in which bucket -/

/-- Each of the empty buckets has no slots. -/
@[simp] theorem bucket_empty (capacity i : Nat) :
    (empty (K := K) (V := V) capacity).bucket i = [] := by
  simp [empty, bucket, Array.getD_eq_getD_getElem?, Array.getElem?_replicate]
  split <;> rfl

/-- Replacing a bucket changes no other. -/
theorem bucket_set (b : Buckets K V) (i j : Nat) (slots : List (Slot K V)) :
    (b.set i slots).bucket j = if i = j ∧ i < b.size then slots else b.bucket j := by
  simp only [set, bucket, Array.getD_eq_getD_getElem?, Array.getElem?_setIfInBounds]
  by_cases same : i = j
  · subst same
    by_cases inside : i < b.size <;> simp [inside]
  · simp [same]

/-- A slot is put last into the bucket of its hash. -/
theorem bucket_push (b : Buckets K V) (s : Slot K V) (i : Nat) (h : 0 < b.size) :
    (b.push s).bucket i = b.bucket i ++ if bucketOf b.size s.hash = i then [s] else [] := by
  have inside : bucketOf b.size s.hash < b.size := Nat.mod_lt _ h
  rw [push, bucket_set]
  split <;> split <;> simp_all

/-- Slots that are spread keep their order, and each is in the bucket of its hash. -/
theorem bucket_ofSlots (capacity : Nat) (slots : List (Slot K V)) (i : Nat) (h : 0 < capacity) :
    (ofSlots capacity slots).bucket i =
      slots.filter fun s => bucketOf capacity s.hash == i := by
  suffices spread : ∀ b : Buckets K V, b.size = capacity →
      (slots.foldl push b).bucket i =
        b.bucket i ++ slots.filter fun s => bucketOf capacity s.hash == i by
    simpa [ofSlots] using spread (empty capacity) (size_empty capacity)
  induction slots with
  | nil => simp
  | cons s rest ih =>
    intro b size
    rw [List.foldl_cons, ih (b.push s) (by simpa using size), bucket_push b s i (by omega), size]
    by_cases here : bucketOf capacity s.hash = i <;> simp [here]

/-- A probe visits every bucket and no other place. -/
theorem mem_probeOrder {target capacity i : Nat} (h : target < capacity) :
    i ∈ probeOrder target capacity ↔ i < capacity := by
  simp only [probeOrder, List.mem_cons, List.mem_flatMap, List.mem_range'_1, List.mem_append]
  constructor
  · rintro (rfl | ⟨distance, bounds, below | above⟩)
    · exact h
    · split at below <;> simp_all
      omega
    · split at above <;> simp_all
  · intro inside
    rcases Nat.lt_trichotomy i target with lt | rfl | gt
    · refine .inr ⟨target - i, by omega, .inl ?_⟩
      rw [if_pos (by omega)]
      simp only [List.mem_singleton]
      omega
    · exact .inl rfl
    · refine .inr ⟨i - target, by omega, .inr ?_⟩
      rw [if_pos (by omega)]
      simp only [List.mem_singleton]
      omega

/-! ## Probing -/

/-- What a probe comes to. -/
structure Probe (K V : Type) where
  /-- The buckets without the slots that were met. -/
  buckets : Buckets K V
  /-- The stale slots that were met, in order. -/
  stale : List (Slot K V)
  /-- The live slot that was taken. -/
  found : Option (Slot K V)

/-- Takes the first live slot from the buckets named, in the order given, and with it all stale
slots that were met before it. -/
def probe (r : Reclaimer) : List Nat → Buckets K V → Probe K V
  | [], b => ⟨b, [], none⟩
  | i :: order, b =>
    let stale := (b.bucket i).takeWhile (·.isStale r)
    match (b.bucket i).dropWhile (·.isStale r) with
    | slot :: rest => ⟨b.set i rest, stale, some slot⟩
    | [] =>
      let next := probe r order (b.set i [])
      { next with stale := stale ++ next.stale }

end Buckets

end SoftCache
