import SoftCache.Proofs.Checked.Basic
import SoftCache.Proofs.Table.Slots
import SoftCache.Table.Update

/-!
# Work on buckets with checks

All that is ever done to the buckets of a table and to the count of their slots, with checks: stale
slots are dropped, live ones are looked for from a bucket outwards, taken, pushed, moved to other
buckets and copied. The count is kept as the work goes along, so it is never just the number of
slots by definition. On a shelf whose count is right no check fails, and the count is right
afterwards (`Shelf.of`).
-/

namespace SoftCache

variable {K V : Type} {r : Reclaimer}

/-! ## Numbers of slots -/

namespace Buckets

/-- Replacing a bucket changes the number of slots by as much as it changes that of the bucket. -/
theorem length_slots_set (b : Buckets K V) {i : Nat} (h : i < b.size) (l : List (Slot K V)) :
    (b.set i l).slots.length + (b.bucket i).length = b.slots.length + l.length := by
  obtain ⟨before, after, hslots, hset⟩ := b.slots_split h
  rw [hslots, hset]
  simp only [List.length_append]
  omega

/-- No bucket has more slots than there are. -/
theorem length_bucket_le (b : Buckets K V) {i : Nat} (h : i < b.size) :
    (b.bucket i).length ≤ b.slots.length := by
  have hset := b.length_slots_set h []
  rw [List.length_nil] at hset
  omega

/-- Of two fillings of a bucket the later one counts. -/
theorem set_set (b : Buckets K V) (i : Nat) (l l' : List (Slot K V)) :
    (b.set i l).set i l' = b.set i l' := by
  simp [set]

/-- Buckets are given by the slots that each has. -/
theorem ext_bucket {b b' : Buckets K V} (size : b.size = b'.size)
    (same : ∀ i < b.size, b.bucket i = b'.bucket i) : b = b' := by
  refine Array.ext size fun i hi hi' => ?_
  simpa [bucket, Array.getD, hi, hi'] using same i hi

/-! ## Probes in parts -/

/-- Goes on with a probe that has found nothing so far. -/
def Probe.goOn (p : Probe K V) (next : Buckets K V → Probe K V) : Probe K V :=
  match p.found with
  | some _ => p
  | none => { next p.buckets with stale := p.stale ++ (next p.buckets).stale }

/-- A probe goes through one list of buckets and then through another. -/
theorem probe_append (first second : List Nat) (b : Buckets K V) :
    b.probe r (first ++ second) = (b.probe r first).goOn (·.probe r second) := by
  induction first generalizing b with
  | nil => rfl
  | cons i first ih =>
    rw [List.cons_append, probe, probe]
    split
    · rfl
    · rw [ih]
      unfold Probe.goOn
      dsimp only
      split
      · rfl
      · simp only [List.append_assoc]

/-- A probe of one bucket drops what is stale at its front and takes what follows. -/
theorem probe_singleton (b : Buckets K V) (i : Nat) :
    b.probe r [i] =
      ⟨b.set i ((b.bucket i).dropWhile (·.isStale r)).tail, (b.bucket i).takeWhile (·.isStale r),
        ((b.bucket i).dropWhile (·.isStale r)).head?⟩ := by
  rw [probe]
  split
  · next slot rest hrest => rw [hrest, List.tail_cons, List.head?_cons]
  · next hrest =>
    rw [hrest, probe]
    dsimp only
    rw [List.append_nil, List.tail_nil, List.head?_nil]

/-- Where there is no slot, a probe does nothing. -/
theorem probe_of_slots_nil {b : Buckets K V} (h : b.slots = []) (order : List Nat) :
    b.probe r order = ⟨b, [], none⟩ := by
  have hbucket (i : Nat) : b.bucket i = [] :=
    List.eq_nil_iff_forall_not_mem.mpr fun s hs => by
      have := mem_slots.mpr ⟨i, hs⟩
      rw [h] at this
      cases this
  induction order with
  | nil => rfl
  | cons i order ih =>
    have hset : b.set i [] = b := by
      conv_rhs => rw [← b.set_bucket i, hbucket i]
    rw [probe, hbucket i, List.dropWhile_nil]
    dsimp only
    rw [hset, ih]
    rfl

end Buckets

namespace Checked

/-! ## Shelves -/

/-- Buckets, and the number of slots in them as far as it was kept. -/
structure Shelf (K V : Type) where
  /-- The buckets. -/
  buckets : Buckets K V
  /-- How many slots have been counted. -/
  count : Nat

/-- Buckets of which the slots were counted rightly. -/
def Shelf.of (b : Buckets K V) : Shelf K V :=
  ⟨b, b.slots.length⟩

/-- Empty buckets hold no slots. -/
theorem Shelf.of_empty (capacity : Nat) :
    (⟨.empty capacity, 0⟩ : Shelf K V) = .of (.empty capacity) := by
  rw [of, Buckets.slots_empty, List.length_nil]

/-- Slots that leave a bucket can be counted off. -/
theorem minus_count {b : Buckets K V} {i : Nat} (h : i < b.size) {l : List (Slot K V)} {n : Nat}
    (gone : l.length + n = (b.bucket i).length) :
    minus b.slots.length n = some (b.set i l).slots.length := by
  have hle := b.length_bucket_le h
  have hset := b.length_slots_set h l
  rw [minus_eq (by omega)]
  congr 1
  omega

/-- Drops the stale slots of a bucket and counts them off. -/
def dropStale (r : Reclaimer) (shelf : Shelf K V) (i : Nat) : Option (Shelf K V) := do
  let slots ← bucket shelf.buckets i
  let kept := slots.filter fun slot => !slot.isStale r
  let dropped ← minus slots.length kept.length
  let count ← minus shelf.count dropped
  let buckets ← setBucket shelf.buckets i kept
  return ⟨buckets, count⟩

/-- To drop the stale slots of a bucket one by one leaves the live ones. -/
theorem dropStale_eq {b : Buckets K V} {i : Nat} (h : i < b.size) :
    dropStale r (.of b) i =
      some (.of (b.set i ((b.bucket i).filter fun slot => !slot.isStale r))) := by
  have hkept : ((b.bucket i).filter fun slot => !slot.isStale r).length ≤ (b.bucket i).length :=
    List.length_filter_le ..
  simp only [dropStale, Shelf.of, bucket_eq h, Option.bind_eq_bind, Option.bind_some,
    minus_eq hkept, minus_count h (Nat.add_sub_cancel' hkept), setBucket_eq h]
  rfl

/-- Drops the stale slots of all buckets, one bucket after the other. -/
def dropAll (r : Reclaimer) (shelf : Shelf K V) : Option (Shelf K V) :=
  (List.range shelf.buckets.size).foldlM (dropStale r) shelf

/-- To drop the stale slots of bucket after bucket leaves the live ones. -/
theorem dropAll_eq (b : Buckets K V) :
    dropAll r (.of b) = some (.of (b.map (·.filter fun slot => !slot.isStale r))) := by
  -- By induction on the buckets that have been gone through.
  suffices hall : ∀ n ≤ b.size, ∃ b' : Buckets K V, b'.size = b.size ∧
      (List.range n).foldlM (dropStale r) (.of b) = some (.of b') ∧
      ∀ i, b'.bucket i =
        if i < n then (b.bucket i).filter fun slot => !slot.isStale r else b.bucket i by
    obtain ⟨b', hsize, hfold, hbucket⟩ := hall b.size (Nat.le_refl _)
    rw [dropAll]
    refine hfold.trans (congrArg (fun b => some (Shelf.of b)) ?_)
    refine Buckets.ext_bucket (by rw [hsize, Array.size_map]) fun i hi => ?_
    rw [hbucket, if_pos (by omega), Buckets.bucket_map_filter]
  intro n hn
  induction n with
  | zero => exact ⟨b, rfl, rfl, fun i => by rw [if_neg (Nat.not_lt_zero i)]⟩
  | succ n ih =>
    obtain ⟨b', hsize, hfold, hbucket⟩ := ih (by omega)
    have hn' : n < b'.size := by omega
    refine ⟨b'.set n ((b'.bucket n).filter fun slot => !slot.isStale r),
      (Buckets.size_set ..).trans hsize, ?_, fun i => ?_⟩
    · rw [List.range_succ, List.foldlM_append, hfold]
      simp only [Option.bind_eq_bind, Option.bind_some, List.foldlM_cons, List.foldlM_nil]
      rw [dropStale_eq hn']
      rfl
    · rw [Buckets.bucket_set, hbucket, hbucket]
      by_cases hi : n = i
      · subst hi
        simp [hn']
      · simp only [hi, false_and, if_false]
        congr 1
        exact propext ⟨fun h => by omega, fun h => by omega⟩

/-- Puts a slot last into a bucket and counts it. -/
def pushSlot (shelf : Shelf K V) (i : Nat) (slot : Slot K V) : Option (Shelf K V) := do
  let slots ← bucket shelf.buckets i
  let buckets ← setBucket shelf.buckets i (slots ++ [slot])
  return ⟨buckets, shelf.count + 1⟩

/-- A slot comes last in a bucket that there is, and is counted. -/
theorem pushSlot_eq {b : Buckets K V} {i : Nat} (h : i < b.size) (slot : Slot K V) :
    pushSlot (.of b) i slot = some (.of (b.set i (b.bucket i ++ [slot]))) := by
  have hlength : b.slots.length + 1 = (b.set i (b.bucket i ++ [slot])).slots.length := by
    have := b.length_slots_set h (b.bucket i ++ [slot])
    rw [List.length_append, List.length_singleton] at this
    omega
  simp only [pushSlot, Shelf.of, bucket_eq h, Option.bind_eq_bind, Option.bind_some,
    setBucket_eq h, hlength]
  rfl

/-- Moves slots to other buckets and leaves the stale ones behind. -/
def spread (r : Reclaimer) (capacity : Nat) : List (Slot K V) → Shelf K V → Option (Shelf K V)
  | [], shelf => some shelf
  | slot :: rest, shelf =>
    if slot.isStale r then spread r capacity rest shelf
    else do
      let i ← remainder slot.hash.toNat capacity
      spread r capacity rest (← pushSlot shelf i slot)

/-- Slots that are dealt out one by one come to lie where a table that moves has them. -/
theorem spread_eq {b : Buckets K V} (h : 0 < b.size) (slots : List (Slot K V)) :
    spread r b.size slots (.of b) =
      some (.of ((slots.filter fun slot => !slot.isStale r).foldl Buckets.push b)) := by
  induction slots generalizing b with
  | nil => rfl
  | cons slot rest ih =>
    rw [spread]
    split
    · next stale =>
      rw [ih h, List.filter_cons_of_neg (by simpa using stale)]
    · next live =>
      have hi : slot.hash.toNat % b.size < b.size := Nat.mod_lt _ h
      have hrest := ih (b := b.push slot) (by rwa [Buckets.size_push])
      rw [Buckets.size_push] at hrest
      rw [List.filter_cons_of_pos (by simpa using live), List.foldl_cons, ← hrest, remainder_eq h]
      simp only [Option.bind_eq_bind, Option.bind_some, pushSlot_eq hi]
      rfl

/-! ## Searches -/

/-- What a search for a live slot comes to. -/
structure Found (K V : Type) where
  /-- What is left on the shelf. -/
  shelf : Shelf K V
  /-- The stale slots that were met. -/
  stale : List (Slot K V)
  /-- The live slot that was taken. -/
  found : Option (Slot K V)

namespace Found

/-- A search that comes to nothing. -/
def nothing (shelf : Shelf K V) : Found K V :=
  ⟨shelf, [], none⟩

/-- What a probe comes to, with all slots that are left counted. -/
def of (p : Buckets.Probe K V) : Found K V :=
  ⟨.of p.buckets, p.stale, p.found⟩

/-- Goes on with a search that has found nothing so far. -/
def goOn (f : Found K V) (next : Shelf K V → Option (Found K V)) : Option (Found K V) :=
  match f.found with
  | some _ => some f
  | none => (next f.shelf).map fun f' => { f' with stale := f.stale ++ f'.stale }

/-- A probe that goes on does so as the plain one. -/
theorem goOn_of {p : Buckets.Probe K V} {next : Shelf K V → Option (Found K V)}
    {next' : Buckets K V → Buckets.Probe K V}
    (h : next (.of p.buckets) = some (.of (next' p.buckets))) :
    goOn (of p) next = some (of (p.goOn next')) := by
  unfold goOn Buckets.Probe.goOn
  cases hfound : p.found with
  | some slot => simp [of, hfound]
  | none =>
    simp only [of, hfound]
    rw [h]
    rfl

end Found

/-- Takes slots from the front of a bucket that has just these until one is live. -/
def popFrom (r : Reclaimer) (i : Nat) : List (Slot K V) → Shelf K V → Option (Found K V)
  | [], shelf => some (.nothing shelf)
  | slot :: rest, shelf => do
    let buckets ← setBucket shelf.buckets i rest
    let count ← minus shelf.count 1
    if slot.isStale r then
      let later ← popFrom r i rest ⟨buckets, count⟩
      return { later with stale := slot :: later.stale }
    else return ⟨⟨buckets, count⟩, [], some slot⟩

/-- Takes the first live slot of a bucket, and the stale ones before it. -/
def pop (r : Reclaimer) (shelf : Shelf K V) (i : Nat) : Option (Found K V) := do
  popFrom r i (← bucket shelf.buckets i) shelf

/-- To look into one bucket is to probe it alone. -/
theorem pop_eq {b : Buckets K V} {i : Nat} (h : i < b.size) :
    pop r (.of b) i = some (.of (b.probe r [i])) := by
  have hbucket : bucket (Shelf.of b).buckets i = some (b.bucket i) := bucket_eq h
  rw [pop, hbucket, Option.bind_eq_bind, Option.bind_some, Buckets.probe_singleton]
  -- By induction on the slots of the bucket, which is what is left of it at each step.
  generalize hslots : b.bucket i = slots
  induction slots generalizing b with
  | nil =>
    have hset : b.set i [] = b := by
      rw [← hslots, Buckets.set_bucket]
    rw [popFrom, List.dropWhile_nil, List.takeWhile_nil, List.tail_nil, hset]
    rfl
  | cons slot rest ih =>
    have hcount : minus b.slots.length 1 = some (b.set i rest).slots.length :=
      minus_count h (by rw [hslots, List.length_cons])
    simp only [popFrom, Shelf.of, setBucket_eq h, Option.bind_eq_bind, Option.bind_some, hcount]
    split
    · next stale =>
      have hrest : (b.set i rest).bucket i = rest := by
        rw [Buckets.bucket_set, if_pos ⟨rfl, h⟩]
      have hi : i < (b.set i rest).size := by rwa [Buckets.size_set]
      have hlater := ih hi (bucket_eq hi) hrest
      rw [Shelf.of, Buckets.set_set] at hlater
      rw [hlater, Option.bind_some, List.dropWhile_cons_of_pos stale,
        List.takeWhile_cons_of_pos stale]
      rfl
    · next live =>
      rw [List.dropWhile_cons_of_neg live, List.takeWhile_cons_of_neg live]
      rfl

/-- Looks for a live slot in the bucket at a distance below another, if there is one. -/
def searchBelow (r : Reclaimer) (target distance : Nat) (shelf : Shelf K V) :
    Option (Found K V) :=
  if distance ≤ target then (minus target distance).bind (pop r shelf)
  else some (.nothing shelf)

/-- Looks for a live slot in the bucket at a distance above another, if there is one. -/
def searchAbove (r : Reclaimer) (target distance : Nat) (shelf : Shelf K V) :
    Option (Found K V) :=
  if target + distance < shelf.buckets.size then pop r shelf (target + distance)
  else some (.nothing shelf)

/-- Looks for a live slot at some distances from a bucket, as long as there are slots. -/
def searchFrom (r : Reclaimer) (target : Nat) : List Nat → Shelf K V → Option (Found K V)
  | [], shelf => some (.nothing shelf)
  | distance :: rest, shelf => do
    let below ← searchBelow r target distance shelf
    let both ← below.goOn (searchAbove r target distance)
    both.goOn fun shelf =>
      if shelf.count = 0 then some (.nothing shelf) else searchFrom r target rest shelf

/-- Looks for a live slot from a bucket outwards, if there are slots at all. -/
def search (r : Reclaimer) (target : Nat) (shelf : Shelf K V) : Option (Found K V) :=
  if shelf.count = 0 then some (.nothing shelf)
  else do
    (← pop r shelf target).goOn (searchFrom r target (List.range' 1 (shelf.buckets.size - 1)))

/-- The bucket at a distance below another, if there is one. -/
def below (target distance : Nat) : List Nat :=
  if distance ≤ target then [target - distance] else []

/-- The bucket at a distance above another, if there is one. -/
def above (target capacity distance : Nat) : List Nat :=
  if target + distance < capacity then [target + distance] else []

/-- To look below the target probes the bucket there, if there is one. -/
theorem searchBelow_eq {b : Buckets K V} {target : Nat} (h : target < b.size) (distance : Nat) :
    searchBelow r target distance (.of b) = some (.of (b.probe r (below target distance))) := by
  unfold searchBelow below
  split
  · next hdistance =>
    rw [minus_eq hdistance, Option.bind_some, pop_eq (by omega)]
  · rfl

/-- To look above the target probes the bucket there, if there is one. -/
theorem searchAbove_eq (b : Buckets K V) (target distance : Nat) :
    searchAbove r target distance (.of b) =
      some (.of (b.probe r (above target b.size distance))) := by
  unfold searchAbove above Shelf.of
  split
  · next habove => exact pop_eq habove
  · rfl

/-- To look at one distance after the other probes the buckets in that order. -/
theorem searchFrom_eq {b : Buckets K V} {target : Nat} (h : target < b.size)
    (distances : List Nat) :
    searchFrom r target distances (.of b) =
      some (.of (b.probe r (distances.flatMap fun distance =>
        below target distance ++ above target b.size distance))) := by
  induction distances generalizing b with
  | nil => rfl
  | cons distance rest ih =>
    have hboth : (Found.of (b.probe r (below target distance))).goOn
        (searchAbove r target distance) =
          some (.of (b.probe r (below target distance ++ above target b.size distance))) := by
      rw [Buckets.probe_append]
      refine Found.goOn_of ?_
      rw [searchAbove_eq, Buckets.size_probe]
    rw [searchFrom, searchBelow_eq h, Option.bind_eq_bind, Option.bind_some, hboth,
      Option.bind_some, List.flatMap_cons, Buckets.probe_append (_ ++ _)]
    refine Found.goOn_of ?_
    split
    · next hnone =>
      -- A search that ends because no slot is left would find none.
      rw [Buckets.probe_of_slots_nil (List.length_eq_zero_iff.mp hnone)]
      rfl
    · rw [ih (by rwa [Buckets.size_probe]), Buckets.size_probe]

/-- A search is a probe of the buckets in their order. -/
theorem search_eq {b : Buckets K V} {target : Nat} (h : target < b.size) :
    search r target (.of b) = some (.of (b.probe r (probeOrder target b.size))) := by
  rw [search]
  split
  · next hnone =>
    rw [Buckets.probe_of_slots_nil (List.length_eq_zero_iff.mp hnone)]
    rfl
  · have horder : probeOrder target b.size =
        [target] ++ (List.range' 1 (b.size - 1)).flatMap fun distance =>
          below target distance ++ above target b.size distance := rfl
    rw [pop_eq h, Option.bind_eq_bind, Option.bind_some, horder, Buckets.probe_append]
    refine Found.goOn_of ?_
    have hsize : (Shelf.of b).buckets.size = b.size := rfl
    rw [hsize, searchFrom_eq (by rwa [Buckets.size_probe]), Buckets.size_probe]

/-! ## Copies -/

/-- How far the copying of slots has come. -/
structure Copying (K V : Type) where
  /-- The shelf with the copies. -/
  shelf : Shelf K V
  /-- The reclaimer that knows their payloads. -/
  reclaimer : Reclaimer
  /-- What the registrations have written to the log. -/
  log : List LogLine

/-- Copies the live ones of some slots to the end of a bucket. -/
def copySlots (i : Nat) : List (Slot K V) → Copying K V → Option (Copying K V)
  | [], c => some c
  | slot :: rest, c =>
    if slot.isStale c.reclaimer then copySlots i rest c
    else do
      let key := Held.again slot.key c.reclaimer
      let value := Held.again slot.value key.reclaimer
      let shelf ← pushSlot c.shelf i ⟨slot.hash, key.holder, value.holder⟩
      copySlots i rest ⟨shelf, value.reclaimer, c.log ++ (key.log ++ value.log)⟩

/-- Copies the live slots of buckets that are numbered from `i` on. -/
def copyFrom (i : Nat) : List (List (Slot K V)) → Copying K V → Option (Copying K V)
  | [], c => some c
  | slots :: rest, c => do copyFrom (i + 1) rest (← copySlots i slots c)

/-- Slots that are copied one by one make up a copied bucket. -/
theorem copySlots_eq {b : Buckets K V} {i : Nat} (h : i < b.size) (slots : List (Slot K V))
    (log : List LogLine) :
    copySlots i slots ⟨.of b, r, log⟩ =
      let copied := Table.copyBucket r slots
      some ⟨.of (b.set i (b.bucket i ++ copied.copies)), copied.reclaimer, log ++ copied.log⟩ := by
  induction slots generalizing b r log with
  | nil =>
    simp only [copySlots, Table.copyBucket, List.append_nil, Buckets.set_bucket]
  | cons slot rest ih =>
    rw [copySlots, Table.copyBucket]
    split
    · exact ih h log
    · simp only [Option.bind_eq_bind, pushSlot_eq h, Option.bind_some]
      rw [ih (by rwa [Buckets.size_set])]
      simp only [Buckets.bucket_set, h, and_self, if_true, Buckets.set_set, List.append_assoc,
        List.singleton_append]

/-- Buckets that are copied one by one make up the copies of all. -/
theorem copyFrom_eq (first : List (List (Slot K V))) (rest : List (List (Slot K V)))
    (log : List LogLine) :
    copyFrom first.length rest
        ⟨.of (first ++ List.replicate rest.length []).toArray, r, log⟩ =
      let copied := Table.copyBuckets r rest
      some ⟨.of (first ++ copied.copies).toArray, copied.reclaimer, log ++ copied.log⟩ := by
  -- The first buckets have their copies already, and the others have nothing yet.
  induction rest generalizing first r log with
  | nil => simp [copyFrom, Table.copyBuckets]
  | cons slots rest ih =>
    have hsize : first.length <
        Array.size (first ++ List.replicate (slots :: rest).length []).toArray := by
      simp
    have hbucket : Buckets.bucket (first ++ List.replicate (slots :: rest).length []).toArray
        first.length = [] := by
      simp [Buckets.bucket, Array.getD]
    have hset (copies : List (Slot K V)) :
        Buckets.set (first ++ List.replicate (slots :: rest).length []).toArray first.length
            copies =
          (first ++ [copies] ++ List.replicate rest.length []).toArray := by
      simp [Buckets.set, List.replicate_succ]
    rw [copyFrom, copySlots_eq hsize, Table.copyBuckets]
    simp only [Option.bind_eq_bind, Option.bind_some, hbucket, List.nil_append, hset]
    have hnext := ih (r := (Table.copyBucket r slots).reclaimer)
      (first ++ [(Table.copyBucket r slots).copies]) (log ++ (Table.copyBucket r slots).log)
    rw [List.length_append, List.length_singleton] at hnext
    rw [hnext]
    simp only [List.append_assoc, List.singleton_append]

end Checked

end SoftCache
