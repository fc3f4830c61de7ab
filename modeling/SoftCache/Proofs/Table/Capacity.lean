import Mathlib.Order.Bounds.Basic
import SoftCache.Proofs.Table.Waning

/-!
# How far a table grows

A table grows in stages, from each capacity to the double and one more. When nothing in it can
become stale, its stage is just the first one that takes the largest number of slots that it has
ever come to, as counted when a slot has been added and before any is evicted (`Table.Staged`). Only
a slot that is added can make a table grow. All other work leaves the capacity as it is
(`Step.Rests`), so that what has been said of the stage still holds, and work that adds slots keeps
it by growing (`Step.Mounts`, `Table.Sound.mounts_perform`).
-/

open scoped List

namespace SoftCache

variable {K V α β : Type}

/-! ## Stages -/

/-- The capacities of a table that grows, stage by stage. -/
def Table.stage (first : Nat) : Nat → Nat
  | 0 => first
  | n + 1 => 2 * stage first n + 1

/-- A table that holds both sides strongly, at a stage of its growth. -/
structure Table.Ascends (t : Table K V) (first : Nat) : Prop where
  /-- Keys are held strongly. -/
  keys : t.config.keyStrength = .strong
  /-- Values are held strongly. -/
  values : t.config.valueStrength = .strong
  /-- The table has moved from stage to stage. -/
  capacity : t.capacity = stage first t.metrics.resizes

/-- A table at the first stage that takes the largest number of slots that there ever were. -/
structure Table.Staged (t : Table K V) (first peak : Nat) : Prop extends Ascends t first where
  /-- No stage before takes so many slots. -/
  needed : ∀ k < t.metrics.resizes, t.config.loadFactor.threshold (stage first k) < peak
  /-- This stage takes so many slots. -/
  enough : peak ≤ t.config.loadFactor.threshold t.capacity
  /-- There are no more slots than there have ever been. -/
  count : t.count ≤ peak

/-- The stage is the least that takes the largest number of slots. -/
theorem Table.Staged.isLeast {t : Table K V} {first peak : Nat} (h : t.Staged first peak) :
    IsLeast {k | peak ≤ t.config.loadFactor.threshold (stage first k)} t.metrics.resizes := by
  refine ⟨?_, fun k hk => ?_⟩
  · show peak ≤ t.config.loadFactor.threshold _
    rw [← h.capacity]
    exact h.enough
  · by_contra hless
    exact absurd hk (Nat.not_le.mpr (h.needed k (Nat.lt_of_not_le hless)))

/-- A table that was made has no slots, and the capacity and load factor that were chosen. -/
theorem Table.create_first {shared : SharedFractions} {o : Options} {epoch : Nat} {t : Table K V}
    (h : create shared o epoch = .ok t) :
    t.config.keyStrength = o.keyStrength ∧ t.config.valueStrength = o.valueStrength ∧
      LoadFactor.ofBinary o.loadFactor = .ok t.config.loadFactor ∧
      t.capacity = max o.capacity 1 ∧ t.count = 0 := by
  simp only [create, bind, Except.bind, pure, Except.pure] at h
  split at h
  · cases h
  · next loadFactor hloadFactor =>
    split at h
    · cases h
    · cases h
      exact ⟨rfl, rfl, hloadFactor, Buckets.size_empty _, rfl⟩

/-! ## Work that adds no slot -/

/-- Work that adds no slot to a table and does not make it grow. -/
structure Step.Rests (t : Table K V) (step : Step (Table K V) (Notice K V) α) : Prop where
  /-- What was fixed when the table was made. -/
  config : step.state.config = t.config
  /-- The number of buckets stays. -/
  capacity : step.state.capacity = t.capacity
  /-- The table does not move. -/
  resizes : step.state.metrics.resizes = t.metrics.resizes
  /-- No slot is added. -/
  inserts : step.state.metrics.inserts = t.metrics.inserts
  /-- Slots may go. -/
  count : step.state.count ≤ t.count

namespace Step.Rests

variable {t : Table K V} {step : Step (Table K V) (Notice K V) α}

/-- Nothing is done. -/
theorem done (t : Table K V) (r : Reclaimer) (result : α) :
    (Step.done t r result : Step (Table K V) (Notice K V) α).Rests t :=
  ⟨rfl, rfl, rfl, rfl, le_rfl⟩

/-- One piece of work and then another. -/
theorem andThen {first : Step (Table K V) (Notice K V) α}
    {second : Table K V → Reclaimer → α → Step (Table K V) (Notice K V) β} (h₁ : first.Rests t)
    (h₂ : (second first.state first.reclaimer first.result).Rests first.state) :
    (first.andThen second).Rests t :=
  ⟨h₂.config.trans h₁.config, h₂.capacity.trans h₁.capacity, h₂.resizes.trans h₁.resizes,
    h₂.inserts.trans h₁.inserts, h₂.count.trans h₁.count⟩

/-- The stage is still the right one. -/
theorem staged (h : step.Rests t) {first peak : Nat} (hstaged : t.Staged first peak) :
    step.state.Staged first peak := by
  obtain ⟨⟨keys, values, capacity⟩, needed, enough, count⟩ := hstaged
  rw [← h.config] at *
  rw [← h.capacity] at *
  rw [← h.resizes] at *
  exact ⟨⟨keys, values, capacity⟩, needed, enough, h.count.trans count⟩

end Step.Rests

namespace Table

variable {t : Table K V}

/-- Work that takes slots out adds none. -/
theorem Wanes.rests {step : Step (Table K V) (Notice K V) α} (h : t.Wanes step.state) :
    step.Rests t :=
  ⟨h.config, h.capacity, h.resizes, h.inserts, h.count⟩

section Keys

variable [DecidableEq K] [Hashed K]

/-- A lookup adds no slot. -/
theorem rests_lookup (t : Table K V) (r : Reclaimer) (key : Option K) :
    (t.lookup r key).Rests t := by
  by_cases hkey : t.excludes key = true
  · rw [lookup, if_pos hkey]
    exact ⟨rfl, rfl, rfl, rfl, le_rfl⟩
  · rw [lookup_eq r (by simpa using hkey)]
    refine (t.wanes_tidy r key).rests.andThen ?_
    split
    · exact ⟨rfl, rfl, rfl, rfl, le_rfl⟩
    · -- Touching the entry changes the order of its bucket at most.
      unfold touch
      split
      · exact ⟨rfl, rfl, rfl, rfl, le_rfl⟩
      · exact ⟨rfl, Buckets.size_set .., rfl, rfl, le_rfl⟩

/-- To replace a value adds no slot. -/
theorem rests_replaceValue (t : Table K V) (r : Reclaimer) {key : Option K} {slot : Slot K V}
    (found : t.slotFor? r key = some slot) (value : Option V) :
    (t.replaceValue r key slot value).Rests t := by
  obtain ⟨rest, l, -, -, hset⟩ := t.buckets_replaceValue r key value found
  refine ⟨rfl, ?_, rfl, rfl, le_rfl⟩
  rw [capacity, hset]
  exact Buckets.size_set ..

end Keys

/-! ## Growth -/

/-- Growth adds buckets and no slot. -/
theorem keeps_enlarge (t : Table K V) (r : Reclaimer) :
    (t.enlarge r).state.config = t.config ∧ t.capacity ≤ (t.enlarge r).state.capacity ∧
      (t.enlarge r).state.metrics.inserts = t.metrics.inserts := by
  induction t, r using enlarge_induction with
  | case1 t r moved enough =>
    rw [enlarge_eq, if_pos enough, capacity_rehash]
    exact ⟨rfl, by omega, rfl⟩
  | case2 t r moved more ih =>
    rw [enlarge_eq, if_neg more]
    obtain ⟨hconfig, hcapacity, hinserts⟩ := ih
    rw [capacity_rehash] at hcapacity
    exact ⟨hconfig, (show t.capacity ≤ 2 * t.capacity + 1 by omega).trans hcapacity, hinserts⟩

/-- To grow adds buckets, and no slot. -/
theorem keeps_grow (t : Table K V) (r : Reclaimer) :
    (t.grow r).state.config = t.config ∧ t.capacity ≤ (t.grow r).state.capacity ∧
      (t.grow r).state.metrics.inserts = t.metrics.inserts := by
  rw [grow_eq]
  split
  · exact ⟨rfl, le_rfl, rfl⟩
  · exact t.keeps_enlarge r

section Stage

variable [Hashed K] {r : Reclaimer} {first : Nat}

/-- A table that holds both sides strongly moves to the next stage with all its slots. -/
theorem Coherent.ascends_rehash (h : t.Coherent) (hascends : t.Ascends first) (r : Reclaimer) :
    (t.rehash r (2 * t.capacity + 1)).state.Ascends first ∧
      (t.rehash r (2 * t.capacity + 1)).state.count = t.count := by
  have hstale : t.buckets.slots.filter (·.isStale r) = [] := by
    rw [List.filter_eq_nil_iff]
    intro s hs
    simp [Slot.isStale_of_suits_strong (h.suited s hs) hascends.keys hascends.values r]
  refine ⟨⟨hascends.keys, hascends.values, ?_⟩, ?_⟩
  · rw [capacity_rehash, hascends.capacity]
    rfl
  · show t.count - (t.buckets.slots.filter (·.isStale r)).length = _
    rw [hstale]
    rfl

/-- A table with more slots than any stage so far takes grows to the first stage that takes them. -/
theorem Coherent.staged_enlarge (h : t.Coherent) (hascends : t.Ascends first)
    (crowded : ∀ k ≤ t.metrics.resizes, t.config.loadFactor.threshold (stage first k) < t.count) :
    (t.enlarge r).state.Staged first t.count := by
  -- By induction on the moves, before each of which no stage so far has been large enough.
  induction t, r using enlarge_induction with
  | case1 t r moved enough =>
    rw [enlarge_eq, if_pos enough]
    obtain ⟨hmoved, hcount⟩ := h.ascends_rehash hascends r
    have hcoherent : moved.state.Coherent := h.rehash r (by omega)
    refine ⟨hmoved, fun k hk => crowded k (Nat.le_of_lt_succ hk), ?_, hcount.le⟩
    rw [← hcount, ← hcoherent.threshold_eq]
    exact enough
  | case2 t r moved more ih =>
    rw [enlarge_eq, if_neg more]
    obtain ⟨hmoved, hcount⟩ := h.ascends_rehash hascends r
    have hcoherent : moved.state.Coherent := h.rehash r (by omega)
    rw [← hcount]
    refine ih hcoherent hmoved fun k hk => ?_
    rcases Nat.lt_or_eq_of_le hk with hless | rfl
    · exact (crowded k (Nat.le_of_lt_succ hless)).trans_eq hcount.symm
    · -- The stage that was just reached does not take them either.
      rw [← hmoved.capacity, ← hcoherent.threshold_eq]
      exact Nat.lt_of_not_le more

/-- A table with one slot more than before may have to grow, and then the slots are as many as never
before. -/
theorem Coherent.staged_grow (h : t.Coherent) {peak : Nat} (hascends : t.Ascends first)
    (needed : ∀ k < t.metrics.resizes, t.config.loadFactor.threshold (stage first k) < peak)
    (enough : peak ≤ t.config.loadFactor.threshold t.capacity) :
    (t.grow r).state.Staged first (max peak t.count) := by
  rw [grow_eq]
  split
  · next within =>
    rw [h.threshold_eq] at within
    refine ⟨hascends, fun k hk => ?_, max_le enough within, le_max_right _ _⟩
    exact (needed k hk).trans_le (le_max_left _ _)
  · next crowded =>
    rw [h.threshold_eq, Nat.not_le] at crowded
    rw [max_eq_right (enough.trans crowded.le)]
    refine h.staged_enlarge hascends fun k hk => ?_
    rcases Nat.lt_or_eq_of_le hk with hless | rfl
    · exact (needed k hless).trans_le (enough.trans crowded.le)
    · rwa [← hascends.capacity]

end Stage

/-! ## Work that adds slots -/

section Keys

variable [DecidableEq K] [Hashed K]

/-- The number of slots that there are when an entry has been put into a new one, if its key has
none. -/
def reachedByFound (t : Table K V) (r : Reclaimer) (key : Option K) (value : Option V) : List Nat :=
  match t.slotFor? r key with
  | some _ => []
  | none => [(t.addSlot r key value).state.count]

/-- The number of slots that there are when an entry has been put into a new one, if it is. -/
def reachedByPut (t : Table K V) (r : Reclaimer) (key : Option K) (value : Option V) : List Nat :=
  match t.refusal key value with
  | some _ => []
  | none =>
    let purged := t.purge r (t.indexOf key)
    purged.state.reachedByFound purged.reclaimer key value

/-- The numbers of slots that there are when entries are put one after the other. -/
def reachedByAll (t : Table K V) (r : Reclaimer) : List (K × V) → List Nat
  | [] => []
  | (key, value) :: rest =>
    let step := t.put r (some key) (some value)
    t.reachedByPut r (some key) (some value) ++ step.state.reachedByAll step.reclaimer rest

/-- The numbers of slots that a table comes to in a request, each counted when a slot has been added
and before any is evicted. -/
def reached (t : Table K V) (r : Reclaimer) : Request K V → List Nat
  | .put key value => t.reachedByPut r key value
  | .putAll (some entries) => t.reachedByAll r entries
  | _ => []

end Keys

end Table

/-- Work in which a table comes to so many slots, each time that one has been added, and grows as
far as it has to for them. -/
structure Step.Mounts (t : Table K V) (step : Step (Table K V) (Notice K V) α)
    (reached : List Nat) : Prop where
  /-- What was fixed when the table was made. -/
  config : step.state.config = t.config
  /-- As many slots are counted as are added. -/
  inserts : step.state.metrics.inserts = t.metrics.inserts + reached.length
  /-- There are never fewer buckets than before. -/
  capacity_le : t.capacity ≤ step.state.capacity
  /-- There is one slot more at most than the bound allows. -/
  within : ∀ bound ∈ t.bound, ∀ n ∈ reached, n ≤ bound + 1
  /-- The table grows as far as it has to. -/
  staged : ∀ {first peak : Nat}, t.Staged first peak →
    step.state.Staged first (reached.foldl max peak)

/-- Work that adds no slot does not make the table grow. -/
theorem Step.Rests.mounts {t : Table K V} {step : Step (Table K V) (Notice K V) α}
    (h : step.Rests t) : step.Mounts t [] where
  config := h.config
  inserts := h.inserts
  capacity_le := h.capacity.ge
  within _ _ := List.forall_mem_nil _
  staged := h.staged

namespace Step.Mounts

variable {t : Table K V} {reached reached' : List Nat}

/-- One piece of work and then another. -/
theorem andThen {first : Step (Table K V) (Notice K V) α}
    {second : Table K V → Reclaimer → α → Step (Table K V) (Notice K V) β}
    (h₁ : first.Mounts t reached) (bound : first.state.bound = t.bound)
    (h₂ : (second first.state first.reclaimer first.result).Mounts first.state reached') :
    (first.andThen second).Mounts t (reached ++ reached') where
  config := h₂.config.trans h₁.config
  inserts := by
    rw [andThen_state, h₂.inserts, h₁.inserts, List.length_append, Nat.add_assoc]
  capacity_le := h₁.capacity_le.trans h₂.capacity_le
  within limit hlimit n hn := by
    rcases List.mem_append.mp hn with hn | hn
    · exact h₁.within limit hlimit n hn
    · rw [← bound] at hlimit
      exact h₂.within limit hlimit n hn
  staged hstaged := by
    rw [List.foldl_append]
    exact h₂.staged (h₁.staged hstaged)

/-- Only what is left matters. -/
theorem same {step : Step (Table K V) (Notice K V) α} {step' : Step (Table K V) (Notice K V) β}
    (h : step.Mounts t reached) (state : step'.state = step.state) : step'.Mounts t reached := by
  obtain ⟨config, inserts, capacity_le, within, staged⟩ := h
  rw [← state] at *
  exact ⟨config, inserts, capacity_le, within, staged⟩

end Step.Mounts

namespace Table

variable [DecidableEq K] [Hashed K] {t : Table K V} {r : Reclaimer}

omit [DecidableEq K] in
/-- A slot for a new key makes the table grow if it has to. What is evicted then changes nothing. -/
theorem Coherent.mounts_addSlot (h : t.Coherent) {key : Option K} (value : Option V)
    (absent : key ∉ t.buckets.slots.map (·.key.content))
    (within : ∀ bound ∈ t.bound, t.count ≤ bound) :
    ((t.addSlot r key value).andThen fun t r _ =>
      (t.grow r).andThen fun t r _ =>
        (t.enforceBound r).map fun evicted => (⟨none, evicted⟩ : Placement K V)).Mounts t
      [(t.addSlot r key value).state.count] := by
  set added := t.addSlot r key value with hadded
  have hsize : added.state.capacity = t.capacity := Buckets.size_push ..
  obtain ⟨hconfig, hcapacity, hinserts⟩ := added.state.keeps_grow added.reclaimer
  have hbound := ((added.state.grow added.reclaimer).state.wanes_enforceBound
    (added.state.grow added.reclaimer).reclaimer).rests
  constructor
  case config => exact hbound.config.trans hconfig
  case inserts =>
    exact (hbound.inserts.trans hinserts).trans rfl
  case capacity_le =>
    exact (hsize.ge.trans hcapacity).trans hbound.capacity.ge
  case within =>
    intro bound hlimit n hn
    rw [List.mem_singleton.mp hn]
    exact Nat.succ_le_succ (within bound hlimit)
  case staged =>
    intro first peak hstaged
    refine hbound.staged ((h.addSlot r value absent).staged_grow ?_ ?_ ?_)
    · exact ⟨hstaged.keys, hstaged.values, hsize.trans hstaged.capacity⟩
    · exact hstaged.needed
    · rw [← hadded, hsize]
      exact hstaged.enough

/-- An entry that is put into the slot of its key adds none. -/
theorem Sound.mounts_insertFound (h : t.Sound) {key : Option K}
    (clean : ∀ s ∈ t.buckets.bucket (t.indexOf key), s.isStale r = false) (value : Option V) :
    (t.insertFound r key value).Mounts t (t.reachedByFound r key value) := by
  unfold Table.insertFound reachedByFound
  cases found : t.slotFor? r key with
  | some slot => exact (t.rests_replaceValue r found value).mounts
  | none =>
    have absent := h.toCoherent.absent_of_missing clean found
    exact h.toCoherent.mounts_addSlot value absent h.within_bound

/-- A put adds one slot or none, and grows for it. -/
theorem Sound.mounts_put (h : t.Sound) (issued : r.Issued t.payloads) (key : Option K)
    (value : Option V) : (t.put r key value).Mounts t (t.reachedByPut r key value) := by
  unfold Table.put reachedByPut
  cases t.refusal key value with
  | some error => exact (Step.Rests.done t r _).mounts
  | none =>
    have hpurge := (t.wanes_purge r (t.indexOf key)).rests.mounts
    have hfound :=
      (h.purge r (t.indexOf key)).mounts_insertFound (clean_purge_indexOf issued key) value
    have hinsert : (t.insert r key value).Mounts t
        ([] ++ (t.purge r (t.indexOf key)).state.reachedByFound
          (t.purge r (t.indexOf key)).reclaimer key value) := hpurge.andThen rfl hfound
    exact hinsert.same rfl

/-- To put entries adds the slots that each of them needs, and grows for them. -/
theorem Sound.mounts_putAll (h : t.Sound) (issued : r.Issued t.payloads) (entries : List (K × V)) :
    (t.putAll r entries).Mounts t (t.reachedByAll r entries) := by
  induction entries generalizing t r with
  | nil => exact (Step.Rests.done t r ()).mounts
  | cons entry rest ih =>
    have hput := upholds_put h issued (some entry.1) (some entry.2)
    refine (h.mounts_put issued _ _).andThen hput.bound ?_
    exact ih hput.sound hput.issued

/-- In every request a table grows as far as it has to and no further. -/
theorem Sound.mounts_perform [DecidableEq V] (h : t.Sound) (issued : r.Issued t.payloads)
    (request : Request K V) : (t.perform r request).Mounts t (t.reached r request) := by
  cases request with
  | get key => exact (t.rests_lookup r key).mounts.same rfl
  | containsEntry key value => exact (t.rests_lookup r key).mounts.same rfl
  | put key value => exact (h.mounts_put issued key value).same rfl
  | putAll source =>
    cases source with
    | none => exact (t.wanes_perform r rfl).rests.mounts
    | some entries => exact (h.mounts_putAll issued entries).same rfl
  | _ => exact (t.wanes_perform r rfl).rests.mounts

end Table

end SoftCache
