import Mathlib.Data.List.Pairwise
import Mathlib.Data.Nat.Dist
import SoftCache.Proofs.Table.Soundness

/-!
# What a probe takes

A probe goes outwards from its target: it visits the buckets in the order of their distances, and of
two at one distance the lower first (`Buckets.pairwise_probeOrder`). Up to the first bucket with a
live slot it empties them, and of that bucket it takes the stale slots at the front and the live one
after them (`Buckets.probe_eq_of_live`). Without a live slot it empties them all
(`Buckets.probe_eq_of_stale`). So an entry that is removed at random is the first live one of the
nearest bucket that has any (`Table.Coherent.removesNearest`).
-/

open scoped List

namespace SoftCache

variable {K V : Type}

/-! ## Distances -/

/-- Bucket `i` comes before bucket `j` when buckets are told apart by their distances from the
target, and at one distance the lower comes first. -/
def Nearer (target i j : Nat) : Prop :=
  Nat.dist i target < Nat.dist j target ∨ Nat.dist i target = Nat.dist j target ∧ i < j

namespace Nearer

variable {target i j : Nat}

/-- No bucket is nearer than itself. -/
theorem ne (h : Nearer target i j) : i ≠ j := by
  rintro rfl
  rcases h with h | ⟨-, h⟩ <;> exact lt_irrefl _ h

/-- Of two buckets only one is the nearer. -/
theorem asymm (h : Nearer target i j) : ¬Nearer target j i := by
  unfold Nearer at *
  omega

/-- Of two buckets one is nearer. -/
theorem of_ne (h : i ≠ j) : Nearer target i j ∨ Nearer target j i := by
  unfold Nearer
  omega

end Nearer

namespace Buckets

/-- The buckets that a probe visits at a distance from the target are at that distance. -/
theorem dist_of_mem {target capacity distance i : Nat}
    (h : i ∈ (if distance ≤ target then [target - distance] else []) ++
      (if target + distance < capacity then [target + distance] else [])) :
    Nat.dist i target = distance := by
  unfold Nat.dist
  rcases List.mem_append.mp h with below | above
  · split at below
    · cases List.mem_singleton.mp below
      omega
    · cases below
  · split at above
    · cases List.mem_singleton.mp above
      omega
    · cases above

/-- A probe visits nearer buckets first. -/
theorem pairwise_probeOrder (target capacity : Nat) :
    (probeOrder target capacity).Pairwise (Nearer target) := by
  rw [probeOrder, List.pairwise_cons, List.pairwise_flatMap]
  refine ⟨fun j hj => ?_, fun distance hdistance => ?_, ?_⟩
  · -- The target itself is at no distance, and all others are at some.
    obtain ⟨distance, hdistance, hj⟩ := List.mem_flatMap.mp hj
    have hpos := (List.mem_range'_1.mp hdistance).1
    left
    rw [Nat.dist_self, dist_of_mem hj]
    omega
  · rw [List.pairwise_append]
    refine ⟨by split <;> simp, by split <;> simp, fun i hi j hj => .inr ⟨?_, ?_⟩⟩
    · have hbelow : Nat.dist i target = distance :=
        dist_of_mem (List.mem_append_left (if target + distance < capacity then _ else []) hi)
      rw [hbelow, dist_of_mem (List.mem_append_right _ hj)]
    · have hpos := (List.mem_range'_1.mp hdistance).1
      split at hi <;> split at hj <;> simp_all
      omega
  · have hsorted : (List.range' 1 (capacity - 1)).Pairwise (· < ·) := List.pairwise_lt_range'
    refine hsorted.imp fun hlt i hi j hj => .inl ?_
    rwa [dist_of_mem hi, dist_of_mem hj]

/-- A probe visits no bucket twice. -/
theorem nodup_probeOrder (target capacity : Nat) : (probeOrder target capacity).Nodup :=
  (pairwise_probeOrder target capacity).imp Nearer.ne

/-- What a probe visits before a bucket are the nearer ones. -/
theorem mem_before_iff {target capacity i : Nat} {before after : List Nat}
    (inside : target < capacity) (order : probeOrder target capacity = before ++ i :: after)
    (j : Nat) : j ∈ before ↔ j < capacity ∧ Nearer target j i := by
  have hsorted := pairwise_probeOrder target capacity
  rw [order] at hsorted
  obtain ⟨-, hrest, hacross⟩ := List.pairwise_append.mp hsorted
  rw [← mem_probeOrder inside, order]
  refine ⟨fun hj => ⟨List.mem_append_left _ hj, hacross j hj i List.mem_cons_self⟩, ?_⟩
  rintro ⟨hj, hnearer⟩
  rcases List.mem_append.mp hj with hj | hj
  · exact hj
  · rcases List.mem_cons.mp hj with rfl | hj
    · exact absurd rfl hnearer.ne
    · exact absurd hnearer ((List.pairwise_cons.mp hrest).1 j hj).asymm

/-! ## Probes along an order -/

/-- The buckets without the slots of those that are named. -/
def without (b : Buckets K V) (named : List Nat) : Buckets K V :=
  named.foldl (fun b i => b.set i []) b

/-- To empty no buckets changes nothing. -/
@[simp] theorem without_nil (b : Buckets K V) : b.without [] = b := rfl

/-- Buckets are emptied one after the other. -/
theorem without_cons (b : Buckets K V) (i : Nat) (named : List Nat) :
    b.without (i :: named) = (b.set i []).without named := rfl

/-- To empty buckets leaves their number as it is. -/
@[simp] theorem size_without (b : Buckets K V) (named : List Nat) :
    (b.without named).size = b.size := by
  induction named generalizing b with
  | nil => rfl
  | cons i named ih => rw [without_cons, ih, size_set]

/-- The buckets that are named are empty, and the others are as they were. -/
theorem bucket_without (b : Buckets K V) (named : List Nat) (j : Nat) :
    (b.without named).bucket j = if j ∈ named then [] else b.bucket j := by
  induction named generalizing b with
  | nil => simp
  | cons i named ih =>
    rw [without_cons, ih, bucket_set]
    by_cases hin : j ∈ named
    · simp [hin]
    · by_cases hij : i = j
      · subst hij
        by_cases hout : i < b.size
        · simp [hout]
        · simp [hout, bucket_eq_nil (Nat.le_of_not_lt hout)]
      · simp [hin, hij, Ne.symm hij]

variable {r : Reclaimer}

/-- In a bucket without live slots a probe meets all slots and goes on. -/
theorem probe_cons_of_stale {b : Buckets K V} {i : Nat}
    (stale : ∀ s ∈ b.bucket i, s.isStale r = true) (order : List Nat) :
    probe r (i :: order) b =
      { probe r order (b.set i []) with
        stale := b.bucket i ++ (probe r order (b.set i [])).stale } := by
  have hdrop : (b.bucket i).dropWhile (·.isStale r) = [] := List.dropWhile_eq_nil_iff.mpr stale
  have htake : (b.bucket i).takeWhile (·.isStale r) = b.bucket i :=
    List.takeWhile_eq_self_iff.mpr stale
  rw [probe, hdrop]
  dsimp only
  rw [htake]

/-- Emptying one bucket leaves those named elsewhere. -/
theorem flatMap_bucket_set {i : Nat} {named : List Nat} (elsewhere : i ∉ named)
    (b : Buckets K V) (l : List (Slot K V)) :
    named.flatMap (b.set i l).bucket = named.flatMap b.bucket := by
  refine List.flatMap_congr fun j hj => ?_
  rw [bucket_set, if_neg]
  rintro ⟨rfl, -⟩
  exact elsewhere hj

/-- An emptied bucket has no slot that was not there. -/
theorem bucket_set_nil_subset (b : Buckets K V) (i j : Nat) :
    (b.set i []).bucket j ⊆ b.bucket j := by
  rw [bucket_set]
  split
  · exact List.nil_subset _
  · exact List.Subset.refl _

/-- A probe that meets no live slot empties all buckets that it visits. -/
theorem probe_eq_of_stale {order : List Nat} (nodup : order.Nodup) {b : Buckets K V}
    (stale : ∀ i ∈ order, ∀ s ∈ b.bucket i, s.isStale r = true) :
    probe r order b = ⟨b.without order, order.flatMap b.bucket, none⟩ := by
  induction order generalizing b with
  | nil => rfl
  | cons i order ih =>
    obtain ⟨hnot, hnodup⟩ := List.nodup_cons.mp nodup
    have hrest : ∀ j ∈ order, ∀ s ∈ (b.set i []).bucket j, s.isStale r = true := fun j hj s hs =>
      stale j (List.mem_cons_of_mem _ hj) s (b.bucket_set_nil_subset i j hs)
    rw [probe_cons_of_stale (stale i List.mem_cons_self), ih hnodup hrest,
      flatMap_bucket_set hnot, without_cons, List.flatMap_cons]

/-- A probe empties the buckets before the first one that has a live slot, and of that one it takes
what is stale at the front and the live slot. -/
theorem probe_eq_of_live {first later : List Nat} {i : Nat} (nodup : (first ++ i :: later).Nodup)
    {b : Buckets K V} (stale : ∀ j ∈ first, ∀ s ∈ b.bucket j, s.isStale r = true)
    {front rest : List (Slot K V)} {slot : Slot K V} (here : b.bucket i = front ++ slot :: rest)
    (dead : ∀ s ∈ front, s.isStale r = true) (live : slot.isStale r = false) :
    probe r (first ++ i :: later) b =
      ⟨(b.without first).set i rest, first.flatMap b.bucket ++ front, some slot⟩ := by
  induction first generalizing b with
  | nil =>
    have hdrop : (b.bucket i).dropWhile (·.isStale r) = slot :: rest := by
      rw [here, List.dropWhile_append_of_pos dead, List.dropWhile_cons_of_neg (by simp [live])]
    have htake : (b.bucket i).takeWhile (·.isStale r) = front := by
      rw [here, List.takeWhile_append_of_pos dead, List.takeWhile_cons_of_neg (by simp [live]),
        List.append_nil]
    rw [List.nil_append, probe, hdrop, htake]
    rfl
  | cons j first ih =>
    rw [List.cons_append] at nodup ⊢
    obtain ⟨hnot, hnodup⟩ := List.nodup_cons.mp nodup
    have hfirst : j ∉ first := fun hj => hnot (List.mem_append_left _ hj)
    have hi : j ≠ i := fun hj => hnot (List.mem_append_right _ (hj ▸ List.mem_cons_self))
    have hrest : ∀ k ∈ first, ∀ s ∈ (b.set j []).bucket k, s.isStale r = true := fun k hk s hs =>
      stale k (List.mem_cons_of_mem _ hk) s (b.bucket_set_nil_subset j k hs)
    have hhere : (b.set j []).bucket i = front ++ slot :: rest := by
      rw [bucket_set, if_neg fun h => hi h.1, here]
    rw [probe_cons_of_stale (stale j List.mem_cons_self), ih hnodup hrest hhere,
      flatMap_bucket_set hfirst, without_cons, List.flatMap_cons, List.append_assoc]

/-- Where some bucket that is named has a live slot, one comes first, and in it a live slot. -/
theorem exists_first_live {order : List Nat} {b : Buckets K V}
    (live : ∃ i ∈ order, ∃ s ∈ b.bucket i, s.isStale r = false) :
    ∃ first i later front slot rest, order = first ++ i :: later ∧
      (∀ j ∈ first, ∀ s ∈ b.bucket j, s.isStale r = true) ∧
      b.bucket i = front ++ slot :: rest ∧ (∀ s ∈ front, s.isStale r = true) ∧
      slot.isStale r = false := by
  let hasLive := fun i => (b.bucket i).any fun s => !s.isStale r
  have hsome : (order.find? hasLive).isSome := by
    obtain ⟨i, hi, s, hs, hlive⟩ := live
    exact List.find?_isSome.mpr ⟨i, hi, List.any_eq_true.mpr ⟨s, hs, by simp [hlive]⟩⟩
  obtain ⟨i, hfound⟩ := Option.isSome_iff_exists.mp hsome
  obtain ⟨hhere, first, later, horder, hfirst⟩ := List.find?_eq_some_iff_append.mp hfound
  obtain ⟨slot, hslot⟩ := Option.isSome_iff_exists.mp
    (List.find?_isSome.mpr (List.any_eq_true.mp hhere))
  obtain ⟨hlive, front, rest, hbucket, hfront⟩ := List.find?_eq_some_iff_append.mp hslot
  have hstale : ∀ j ∈ first, ∀ s ∈ b.bucket j, s.isStale r = true := fun j hj => by
    simpa [hasLive] using hfirst j hj
  exact ⟨first, i, later, front, slot, rest, horder, hstale, hbucket,
    fun s hs => by simpa using hfront s hs, by simpa using hlive⟩

end Buckets

/-! ## Removal near the cursor -/

namespace Table

/-- The first live slot of bucket `i` is taken: the one after the stale slots `front` and before the
slots `rest`. The nearer buckets are `nearer`, in their order. -/
structure TakesHead (t : Table K V) (r : Reclaimer)
    (step : Step (Table K V) (Notice K V) (Option (Entry K V))) (i : Nat) (nearer : List Nat)
    (front : List (Slot K V)) (slot : Slot K V) (rest : List (Slot K V)) : Prop where
  /-- Of all buckets with a live slot this one is the nearest. -/
  nearest : ∀ j, (∃ s ∈ t.buckets.bucket j, s.isStale r = false) →
    j = i ∨ Nearer (t.cursor.target t.capacity) i j
  /-- The slot lies after others of its bucket. -/
  bucket : t.buckets.bucket i = front ++ slot :: rest
  /-- What lies before it is stale. -/
  stale : ∀ s ∈ front, s.isStale r = true
  /-- The slot is live. -/
  live : slot.isStale r = false
  /-- Nearer buckets come first. -/
  sorted : nearer.Pairwise (Nearer (t.cursor.target t.capacity))
  /-- All nearer buckets are there. -/
  mem_nearer : ∀ j, j ∈ nearer ↔ j < t.capacity ∧ Nearer (t.cursor.target t.capacity) j i
  /-- The entry is answered. -/
  answer : step.result = some (slot.entry r)
  /-- The slots of the nearer buckets expire and then those before the slot. -/
  notices : step.notices = (nearer.flatMap t.buckets.bucket ++ front).map (·.expiration r)
  /-- What lies after the slot stays. -/
  remainder : step.state.buckets.bucket i = rest
  /-- The nearer buckets are empty. -/
  emptied : ∀ j ∈ nearer, step.state.buckets.bucket j = []
  /-- All other buckets are as they were. -/
  others : ∀ j, j ≠ i → j ∉ nearer → step.state.buckets.bucket j = t.buckets.bucket j

/-- There is nothing to take: all slots expire, those of nearer buckets first, and none is left. -/
structure FindsNone (t : Table K V) (r : Reclaimer)
    (step : Step (Table K V) (Notice K V) (Option (Entry K V))) (order : List Nat) : Prop where
  /-- Nearer buckets come first. -/
  sorted : order.Pairwise (Nearer (t.cursor.target t.capacity))
  /-- All buckets are there. -/
  mem_order : ∀ j, j ∈ order ↔ j < t.capacity
  /-- Nothing is answered. -/
  answer : step.result = none
  /-- All slots expire. -/
  notices : step.notices = (order.flatMap t.buckets.bucket).map (·.expiration r)
  /-- No slot is left. -/
  swept : step.state.buckets.slots = []

/-- What it means to remove the live slot that is nearest to where the cursor points. -/
structure RemovesNearest (t : Table K V) (r : Reclaimer)
    (step : Step (Table K V) (Notice K V) (Option (Entry K V))) : Prop where
  /-- If a slot is live, the first one of the nearest bucket is taken. -/
  taken : (∃ s ∈ t.buckets.slots, s.isStale r = false) →
    ∃ i nearer front slot rest, t.TakesHead r step i nearer front slot rest
  /-- If none is, there is nothing to take. -/
  none : (∀ s ∈ t.buckets.slots, s.isStale r = true) → ∃ order, t.FindsNone r step order
  /-- Nothing is answered just if no slot is live. -/
  answer_iff : step.result = Option.none ↔ ∀ s ∈ t.buckets.slots, s.isStale r = true
  /-- The cursor moves on by one, and after the last fraction to the first. -/
  cursor : step.state.cursor =
    { t.cursor with position := (t.cursor.position + 1) % t.cursor.fractions.length }
  /-- There are as many buckets as before. -/
  capacity : step.state.capacity = t.capacity
  /-- What is left is as live as it was. -/
  untouched : ∀ s ∈ step.state.buckets.slots, s.isStale step.reclaimer = s.isStale r

/-- A removal at random leaves the buckets as the probe does. -/
theorem buckets_removeRandom (t : Table K V) (r : Reclaimer) :
    (t.removeRandom r).state.buckets = (t.nearest r).buckets := by
  rw [removeRandom, Step.andThen_state]
  split <;> rfl

/-- The cursor moves on, whether an entry is found or not. -/
theorem cursor_removeRandom (t : Table K V) (r : Reclaimer) :
    (t.removeRandom r).state.cursor = t.cursor.advance := by
  rw [removeRandom, Step.andThen_state]
  split <;> rfl

/-- What expires in a removal at random is what the probe drops on its way. -/
theorem notices_removeRandom (t : Table K V) (r : Reclaimer) :
    (t.removeRandom r).notices = (t.nearest r).stale.map (·.expiration r) :=
  List.append_nil _

/-- What is removed at random is the entry that a probe finds. -/
theorem result_removeRandom (t : Table K V) (r : Reclaimer) :
    (t.removeRandom r).result = (t.nearest r).found.map (·.entry r) := rfl

section Hash

variable [Hashed K] {t : Table K V} {r : Reclaimer}

/-- A removal near the cursor that finds a live slot takes the first one of the nearest bucket. -/
theorem Coherent.takesHead (h : t.Coherent) (live : ∃ s ∈ t.buckets.slots, s.isStale r = false) :
    ∃ i nearer front slot rest, t.TakesHead r (t.removeRandom r) i nearer front slot rest := by
  set target := t.cursor.target t.capacity with htarget
  have hinside : target < t.capacity := t.cursor.target_lt h.capacity_pos
  have hsorted := Buckets.pairwise_probeOrder target t.capacity
  have hvisited : ∃ i ∈ probeOrder target t.capacity, ∃ s ∈ t.buckets.bucket i,
      s.isStale r = false := by
    obtain ⟨s, hs, hlive⟩ := live
    obtain ⟨i, hi⟩ := Buckets.mem_slots.mp hs
    exact ⟨i, (Buckets.mem_probeOrder hinside).mpr (Buckets.lt_size_of_mem hi), s, hi, hlive⟩
  obtain ⟨nearer, i, later, front, slot, rest, horder, hstale, hbucket, hfront, hlive⟩ :=
    Buckets.exists_first_live hvisited
  have hprobe : t.nearest r =
      ⟨(t.buckets.without nearer).set i rest, nearer.flatMap t.buckets.bucket ++ front,
        some slot⟩ := by
    rw [nearest, ← htarget, horder]
    exact Buckets.probe_eq_of_live (horder ▸ Buckets.nodup_probeOrder target t.capacity) hstale
      hbucket hfront hlive
  have hnearer := Buckets.mem_before_iff hinside horder
  have hi : i < t.capacity :=
    Buckets.lt_size_of_mem (hbucket ▸ List.mem_append_right _ List.mem_cons_self)
  have hbuckets := t.buckets_removeRandom r
  rw [hprobe] at hbuckets
  refine ⟨i, nearer, front, slot, rest, ?_⟩
  constructor
  case nearest =>
    rintro j ⟨s, hs, hslive⟩
    by_cases hj : j = i
    · exact .inl hj
    · refine .inr ((Nearer.of_ne hj).resolve_left fun hcloser => ?_)
      -- The buckets before this one have no live slot.
      have hdead := hstale j ((hnearer j).mpr ⟨Buckets.lt_size_of_mem hs, hcloser⟩) s hs
      rw [hdead] at hslive
      cases hslive
  case bucket => exact hbucket
  case stale => exact hfront
  case live => exact hlive
  case sorted =>
    rw [horder] at hsorted
    exact (List.pairwise_append.mp hsorted).1
  case mem_nearer => exact hnearer
  case answer =>
    rw [result_removeRandom, hprobe]
    rfl
  case notices => rw [notices_removeRandom, hprobe]
  case remainder =>
    rw [hbuckets, Buckets.bucket_set, if_pos ⟨rfl, by rwa [Buckets.size_without]⟩]
  case emptied =>
    intro j hj
    have hne : i ≠ j := ((hnearer j).mp hj).2.ne.symm
    rw [hbuckets, Buckets.bucket_set, if_neg fun h => hne h.1, Buckets.bucket_without,
      if_pos hj]
  case others =>
    intro j hne hj
    rw [hbuckets, Buckets.bucket_set, if_neg fun h => hne h.1.symm, Buckets.bucket_without,
      if_neg hj]

/-- A removal near the cursor that finds no live slot drops all slots. -/
theorem Coherent.findsNone (h : t.Coherent) (dead : ∀ s ∈ t.buckets.slots, s.isStale r = true) :
    ∃ order, t.FindsNone r (t.removeRandom r) order := by
  set target := t.cursor.target t.capacity with htarget
  have hinside : target < t.capacity := t.cursor.target_lt h.capacity_pos
  have hprobe : t.nearest r =
      ⟨t.buckets.without (probeOrder target t.capacity),
        (probeOrder target t.capacity).flatMap t.buckets.bucket, none⟩ :=
    Buckets.probe_eq_of_stale (Buckets.nodup_probeOrder target t.capacity)
      fun i _ s hs => dead s (Buckets.mem_slots.mpr ⟨i, hs⟩)
  have hresult : (t.removeRandom r).result = none := by
    rw [result_removeRandom, hprobe]
    rfl
  refine ⟨probeOrder target t.capacity, Buckets.pairwise_probeOrder target t.capacity,
    fun j => Buckets.mem_probeOrder hinside, hresult, ?_, ?_⟩
  · rw [notices_removeRandom, hprobe]
  · have hcount := h.count_of_takeNear (r := r) hresult
    rw [(h.takeNear r).counted, List.length_eq_zero_iff] at hcount
    rw [buckets_removeRandom]
    exact hcount

/-- Removing an entry at random takes the first live slot of the nearest bucket that has one. -/
theorem Coherent.removesNearest (h : t.Coherent) (issued : r.Issued t.payloads) :
    t.RemovesNearest r (t.removeRandom r) where
  taken := h.takesHead
  none := h.findsNone
  answer_iff := by
    constructor
    · intro hnone s hs
      by_contra hlive
      obtain ⟨i, nearer, front, slot, rest, htaken⟩ := h.takesHead ⟨s, hs, by simpa using hlive⟩
      rw [htaken.answer] at hnone
      cases hnone
    · intro hdead
      obtain ⟨order, hnone⟩ := h.findsNone hdead
      exact hnone.answer
  cursor := t.cursor_removeRandom r
  capacity := by
    rw [capacity, buckets_removeRandom]
    exact Buckets.size_probe ..
  untouched s hs := by
    have hwork := accounts_removeRandom issued
    have hthere : s ∈ t.buckets.slots :=
      (hwork.mem_slots (List.mem_append_left _ (List.mem_append_left _ hs))).resolve_right
        List.not_mem_nil
    exact Slot.isStale_congr (same_of_mem hwork.handover rfl issued hthere hs)

end Hash

end Table

end SoftCache
