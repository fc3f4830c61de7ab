import Mathlib.Data.List.Nodup
import SoftCache.Proofs.Table.Entries

/-!
# Sound tables

A table is *coherent* if it counts its slots rightly, each slot lies in the bucket of its hash and
has the hash of its key, no two slots have the same key, and the threshold is that of the capacity.
It is *sound* if it also keeps its threshold and its bound. Both are said of the contents of slots,
cleared or not, so that no pass of a reclaimer can end them. Every operation on a sound table leaves
a sound table: what only takes slots out does so by `Coherent.shed`, a new slot comes by
`Coherent.addSlot` only if its key has none, and the two loops of growth and eviction end within
their limits.
-/

open scoped List

namespace SoftCache

variable {K V α : Type}

namespace Table

section Hash

variable [Hashed K]

/-- The bookkeeping of a table agrees with its buckets. -/
structure Coherent (t : Table K V) : Prop where
  /-- There is a bucket. -/
  capacity_pos : 0 < t.capacity
  /-- The slots are counted. -/
  counted : t.count = t.buckets.slots.length
  /-- Each slot lies in the bucket of its hash. -/
  placed : ∀ i, ∀ s ∈ t.buckets.bucket i, bucketOf t.capacity s.hash = i
  /-- Each slot has the hash of its key. -/
  hashed : ∀ s ∈ t.buckets.slots, s.hash = nullableHash s.key.content
  /-- No two slots have the same key. -/
  distinct : (t.buckets.slots.map (·.key.content)).Nodup
  /-- The threshold is that of the capacity. -/
  threshold_eq : t.threshold = t.config.loadFactor.threshold t.capacity
  /-- The sides of a slot are held as the table holds them. -/
  suited : ∀ s ∈ t.buckets.slots, s.Suits t.config

/-- A coherent table that does not have to grow or to evict. -/
structure Sound (t : Table K V) : Prop extends Coherent t where
  /-- The table does not have to grow. -/
  within_threshold : t.count ≤ t.threshold
  /-- The table does not have to evict. -/
  within_bound : ∀ bound ∈ t.bound, t.count ≤ bound

/-- A table without entries is sound. -/
theorem sound_empty (config : Config) (capacity : Nat) (bound : Option Nat) (cursor : Cursor)
    (epoch : Nat) : (empty (K := K) (V := V) config capacity bound cursor epoch).Sound where
  capacity_pos := by
    rw [Table.capacity, empty, Buckets.size_empty]
    omega
  counted := by rw [empty, Buckets.slots_empty, List.length_nil]
  placed i s hs := by
    rw [empty, Buckets.bucket_empty] at hs
    cases hs
  hashed s hs := by
    rw [empty, Buckets.slots_empty] at hs
    cases hs
  distinct := by
    rw [empty, Buckets.slots_empty]
    exact List.nodup_nil
  threshold_eq := by rw [Table.capacity, empty, Buckets.size_empty]
  suited s hs := by
    rw [empty, Buckets.slots_empty] at hs
    cases hs
  within_threshold := Nat.zero_le _
  within_bound _ _ := Nat.zero_le _

omit [Hashed K] in
/-- A table that was made is empty and has what was chosen. -/
theorem create_eq {shared : SharedFractions} {o : Options} {epoch : Nat} {t : Table K V}
    (h : create shared o epoch = .ok t) :
    ∃ loadFactor cursor,
      t = empty ⟨o.keyStrength, o.valueStrength, loadFactor, o.order⟩ o.capacity o.bound cursor
        epoch := by
  simp only [create, bind, Except.bind, pure, Except.pure] at h
  split at h
  · cases h
  · split at h
    · cases h
    · cases h
      exact ⟨_, _, rfl⟩

/-- A table that was made is sound, has no payloads, and needs no sweep. -/
theorem sound_create {shared : SharedFractions} {o : Options} {epoch : Nat} {t : Table K V}
    (h : create shared o epoch = .ok t) :
    t.Sound ∧ t.payloads = [] ∧ t.sweptEpoch = epoch := by
  obtain ⟨loadFactor, cursor, rfl⟩ := create_eq h
  refine ⟨sound_empty .., ?_, rfl⟩
  rw [payloads, empty, Buckets.slots_empty, List.flatMap_nil]

/-! ## Taking slots out -/

variable {t t' : Table K V}

/-- A coherent table stays so when slots are taken from its buckets and no longer counted. -/
theorem Coherent.shed (h : t.Coherent) (gone : List (Slot K V)) (config : t'.config = t.config)
    (threshold : t'.threshold = t.threshold) (capacity : t'.capacity = t.capacity)
    (within : ∀ i, t'.buckets.bucket i ⊆ t.buckets.bucket i)
    (balance : t.buckets.slots ~ t'.buckets.slots ++ gone)
    (counted : t'.count = t.count - gone.length) : t'.Coherent where
  capacity_pos := by
    rw [capacity]
    exact h.capacity_pos
  counted := by
    -- As many slots are gone as are no longer counted.
    have hlength := balance.length_eq
    rw [List.length_append] at hlength
    rw [counted, h.counted]
    omega
  placed i s hs := by
    rw [capacity]
    exact h.placed i s (within i hs)
  hashed s hs := h.hashed s (balance.symm.subset (List.mem_append_left _ hs))
  distinct := by
    have hkeys := (balance.map (·.key.content)).nodup_iff.mp h.distinct
    rw [List.map_append] at hkeys
    exact (List.nodup_append.mp hkeys).1
  threshold_eq := by rw [threshold, config, capacity, h.threshold_eq]
  suited s hs := by
    rw [config]
    exact h.suited s (balance.symm.subset (List.mem_append_left _ hs))

/-- A sound table stays so when slots are taken from its buckets and no longer counted. -/
theorem Sound.shed (h : t.Sound) (h' : t'.Coherent) (threshold : t'.threshold = t.threshold)
    (bound : t'.bound = t.bound) (count : t'.count ≤ t.count) : t'.Sound where
  toCoherent := h'
  within_threshold := by
    rw [threshold]
    exact count.trans h.within_threshold
  within_bound bound' hbound := by
    rw [bound] at hbound
    exact count.trans (h.within_bound bound' hbound)

/-- One bucket of a table is replaced by what is left of it. -/
theorem Coherent.setBucket (h : t.Coherent) {i : Nat} {l : List (Slot K V)} (gone : List (Slot K V))
    (config : t'.config = t.config) (threshold : t'.threshold = t.threshold)
    (buckets : t'.buckets = t.buckets.set i l) (bucket : t.buckets.bucket i ~ l ++ gone)
    (counted : t'.count = t.count - gone.length) : t'.Coherent := by
  refine h.shed gone config threshold ?_ ?_ ?_ counted
  · rw [capacity, capacity, buckets, Buckets.size_set]
  · intro j s hs
    rw [buckets, Buckets.bucket_set] at hs
    split at hs
    · next hij =>
      rw [← hij.1]
      exact bucket.symm.subset (List.mem_append_left _ hs)
    · exact hs
  · rw [buckets]
    exact t.buckets.slots_set_perm i gone bucket

variable {r : Reclaimer}

/-- A coherent table of which a bucket is purged is coherent. -/
theorem Coherent.purge (h : t.Coherent) (r : Reclaimer) (i : Nat) :
    (t.purge r i).state.Coherent :=
  h.setBucket _ rfl rfl rfl (perm_filter_append (Slot.isStale r) _) rfl

/-- A coherent table that is purged is coherent. -/
theorem Coherent.purgeAll (h : t.Coherent) (r : Reclaimer) : (t.purgeAll r).state.Coherent := by
  refine h.shed (t.buckets.slots.filter (Slot.isStale r)) rfl rfl ?_ ?_ ?_ rfl
  · exact Array.size_map ..
  · intro i
    show Buckets.bucket (Array.map _ t.buckets) i ⊆ _
    rw [Buckets.bucket_map_filter]
    exact List.filter_sublist.subset
  · show t.buckets.slots ~ Buckets.slots (Array.map _ t.buckets) ++ _
    rw [Buckets.slots_map_filter]
    exact perm_filter_append (Slot.isStale r) _

/-- A coherent table is coherent when a probe has taken slots from it. -/
theorem Coherent.takeNear (h : t.Coherent) (r : Reclaimer) : (t.takeNear r).state.Coherent := by
  refine h.shed ((t.nearest r).stale ++ (t.nearest r).found.toList) rfl rfl ?_ ?_ ?_ rfl
  · exact Buckets.size_probe ..
  · exact Buckets.bucket_probe_subset _ _
  · rw [← List.append_assoc]
    exact Buckets.slots_probe _ _

/-- A coherent table that is cleared is coherent. -/
theorem Coherent.clear (h : t.Coherent) (r : Reclaimer) : (t.clear r).state.Coherent := by
  refine h.shed t.buckets.slots rfl rfl ?_ ?_ ?_ ?_
  · exact Buckets.size_empty _
  · intro i
    show Buckets.bucket (.empty t.capacity) i ⊆ _
    rw [Buckets.bucket_empty]
    exact List.nil_subset _
  · show t.buckets.slots ~ Buckets.slots (.empty t.capacity) ++ _
    rw [Buckets.slots_empty, List.nil_append]
  · rw [h.counted]
    exact (Nat.sub_self _).symm

/-- What the table counts and where it looks next does not matter, and neither does its bound. -/
theorem Coherent.adjust (h : t.Coherent) (bound : Option Nat) (cursor : Cursor) (metrics : Metrics)
    (sweptEpoch : Nat) : Coherent { t with bound, cursor, metrics, sweptEpoch } :=
  ⟨h.capacity_pos, h.counted, h.placed, h.hashed, h.distinct, h.threshold_eq, h.suited⟩

/-- What the table counts and where it looks next does not matter. -/
theorem Sound.adjust (h : t.Sound) (cursor : Cursor) (metrics : Metrics) (sweptEpoch : Nat) :
    Sound { t with cursor, metrics, sweptEpoch } :=
  ⟨h.toCoherent.adjust t.bound cursor metrics sweptEpoch, h.within_threshold, h.within_bound⟩

/-- A sound table of which a bucket is purged is sound. -/
theorem Sound.purge (h : t.Sound) (r : Reclaimer) (i : Nat) : (t.purge r i).state.Sound :=
  h.shed (h.toCoherent.purge r i) rfl rfl (Nat.sub_le _ _)

/-- A sound table that is purged is sound. -/
theorem Sound.purgeAll (h : t.Sound) (r : Reclaimer) : (t.purgeAll r).state.Sound :=
  h.shed (h.toCoherent.purgeAll r) rfl rfl (Nat.sub_le _ _)

/-- A sound table is sound when a probe has taken slots from it. -/
theorem Sound.takeNear (h : t.Sound) (r : Reclaimer) : (t.takeNear r).state.Sound :=
  h.shed (h.toCoherent.takeNear r) rfl rfl (Nat.sub_le _ _)

/-- A sound table that is cleared is sound. -/
theorem Sound.clear (h : t.Sound) (r : Reclaimer) : (t.clear r).state.Sound :=
  h.shed (h.toCoherent.clear r) rfl rfl (Nat.zero_le _)

/-- What is counted has no part in soundness. -/
theorem Sound.tally (h : t.Sound) (count : Metrics → Metrics) : (t.tally count).Sound :=
  h.adjust _ _ _

/-- A sound table that is swept by request is sound. -/
theorem Sound.removeExpired (h : t.Sound) (r : Reclaimer) : (t.removeExpired r).state.Sound := by
  unfold Table.removeExpired
  split
  · exact (h.purgeAll r).adjust _ _ _
  · exact h

/-- A sound table that is swept is sound. -/
theorem Sound.sweep (h : t.Sound) (r : Reclaimer) : (t.sweep r).state.Sound := by
  unfold Table.sweep
  split
  · exact h
  · exact h.removeExpired r

/-- A sound table is sound when an entry is removed at random. -/
theorem Sound.removeRandom (h : t.Sound) (r : Reclaimer) : (t.removeRandom r).state.Sound := by
  have htaken := h.takeNear r
  rw [Table.removeRandom, Step.andThen_state]
  split
  · exact htaken.adjust _ _ _
  · exact htaken

/-- A sound table is sound when its cursor moves on. -/
theorem Sound.randomEntries (h : t.Sound) (r : Reclaimer) : (t.randomEntries r).state.Sound :=
  h.adjust _ _ _

/-! ## Growth and eviction -/

/-- A coherent table that moves is coherent: each slot comes into the bucket of its hash. -/
theorem Coherent.rehash (h : t.Coherent) (r : Reclaimer) {capacity : Nat} (pos : 0 < capacity) :
    (t.rehash r capacity).state.Coherent := by
  have balance := t.slots_rehash r pos
  have hsize : (t.rehash r capacity).state.capacity = capacity := Buckets.size_ofSlots _ _
  have hslots : ∀ s ∈ (t.rehash r capacity).state.buckets.slots, s ∈ t.buckets.slots :=
    fun s hs => balance.symm.subset (List.mem_append_left _ hs)
  constructor
  case capacity_pos =>
    rw [hsize]
    exact pos
  case counted =>
    have hlength := balance.length_eq
    rw [List.length_append] at hlength
    -- The stale slots are neither moved nor counted.
    show t.count - _ = _
    rw [h.counted]
    omega
  case placed =>
    intro i s hs
    rw [hsize]
    -- A slot is moved to the bucket of its hash.
    have hbucket : (t.rehash r capacity).state.buckets.bucket i = _ :=
      Buckets.bucket_ofSlots capacity _ i pos
    rw [hbucket] at hs
    simpa using (List.mem_filter.mp hs).2
  case hashed => exact fun s hs => h.hashed s (hslots s hs)
  case distinct =>
    have hkeys := (balance.map (·.key.content)).nodup_iff.mp h.distinct
    rw [List.map_append] at hkeys
    exact (List.nodup_append.mp hkeys).1
  case threshold_eq =>
    rw [hsize]
    rfl
  case suited => exact fun s hs => h.suited s (hslots s hs)

/-- Growth ends when the threshold is kept. -/
theorem Coherent.enlarge (h : t.Coherent) (r : Reclaimer) :
    (t.enlarge r).state.Coherent ∧ (t.enlarge r).state.count ≤ (t.enlarge r).state.threshold := by
  -- By induction on the moves: each keeps the table coherent, and the last one suffices.
  induction t, r using enlarge_induction with
  | case1 t r moved enough =>
    rw [enlarge_eq, if_pos enough]
    exact ⟨h.rehash r (by omega), enough⟩
  | case2 t r moved more ih =>
    rw [enlarge_eq, if_neg more]
    exact ih (h.rehash r (by omega))

/-- A coherent table that grows is coherent, and within its threshold. -/
theorem Coherent.grow (h : t.Coherent) (r : Reclaimer) :
    (t.grow r).state.Coherent ∧ (t.grow r).state.count ≤ (t.grow r).state.threshold := by
  rw [grow_eq]
  split
  · next enough => exact ⟨h, enough⟩
  · exact h.enlarge r

/-- A probe that finds no entry leaves no slot. -/
theorem Coherent.count_of_takeNear (h : t.Coherent) (hnone : (t.takeNear r).result = none) :
    (t.takeNear r).state.count = 0 := by
  have hfound : (t.nearest r).found = none := Option.map_eq_none_iff.mp hnone
  have hbuckets : ∀ i, (t.takeNear r).state.buckets.bucket i = [] := by
    intro i
    -- The probe visits every bucket.
    by_cases hi : i < t.capacity
    · have hvisited := Buckets.mem_probeOrder (t.cursor.target_lt h.capacity_pos) |>.mpr hi
      exact Buckets.bucket_probe_eq_nil _ _ hfound i hvisited
    · refine Buckets.bucket_eq_nil ?_
      have hsize : (t.takeNear r).state.buckets.size = t.capacity := Buckets.size_probe ..
      omega
  rw [(h.takeNear r).counted, List.length_eq_zero_iff, List.eq_nil_iff_forall_not_mem]
  intro s hs
  obtain ⟨i, hi⟩ := Buckets.mem_slots.mp hs
  rw [hbuckets i] at hi
  cases hi

/-- An eviction takes entries out until the bound is kept. -/
theorem Coherent.evictDownTo (h : t.Coherent) (bound : Nat) (r : Reclaimer) :
    (evictDownTo bound t r).state.Coherent ∧
      (evictDownTo bound t r).state.threshold = t.threshold ∧
      (evictDownTo bound t r).state.bound = t.bound ∧
      (evictDownTo bound t r).state.count ≤ t.count ∧
      (evictDownTo bound t r).state.count ≤ bound := by
  induction t, r using evictDownTo.induct bound with
  | case1 t r enough =>
    rw [Table.evictDownTo, if_pos enough]
    exact ⟨h, rfl, rfl, le_rfl, enough⟩
  | case2 t r more taken nothing =>
    rw [evictDownTo_of_none more nothing]
    -- A probe without an entry leaves no slot, which is within any bound.
    have hzero : (t.takeNear r).state.count = 0 := h.count_of_takeNear nothing
    refine ⟨h.takeNear r, rfl, rfl, ?_, ?_⟩
    · exact hzero.trans_le (Nat.zero_le _)
    · exact hzero.trans_le (Nat.zero_le _)
  | case3 t r more taken entry found ih =>
    rw [evictDownTo_of_some more found]
    -- The rest begins with a table that has one slot less at least.
    obtain ⟨hcoherent, hthreshold, hbound, hcount, hwithin⟩ := ih ((h.takeNear r).adjust ..)
    have hless : taken.state.count < t.count := count_takeNear_lt found (by omega)
    exact ⟨hcoherent, hthreshold, hbound, hcount.trans hless.le, hwithin⟩

/-- A table that grew and then gave up what was over its bound is sound. -/
theorem Coherent.enforceBound (h : t.Coherent) (within : t.count ≤ t.threshold) (r : Reclaimer) :
    (t.enforceBound r).state.Sound := by
  unfold Table.enforceBound
  split
  · next hnone =>
    refine ⟨h, within, fun bound hbound => ?_⟩
    have hsome : t.bound = some bound := hbound
    rw [hnone] at hsome
    cases hsome
  · next bound hsome =>
    obtain ⟨hcoherent, hthreshold, hbound, hcount, hwithin⟩ := h.evictDownTo bound r
    refine ⟨hcoherent, ?_, fun bound' hbound' => ?_⟩
    · rw [hthreshold]
      exact hcount.trans within
    · rw [hbound, hsome] at hbound'
      cases hbound'
      exact hwithin

/-- A table that is given a bound is sound afterwards. -/
theorem Sound.setBound (h : t.Sound) (r : Reclaimer) (bound : Option Nat) :
    (t.setBound r bound).state.Sound := by
  have hbound : Coherent { t with bound := bound } := h.toCoherent.adjust ..
  exact hbound.enforceBound h.within_threshold r

/-! ## Putting entries -/

/-- A slot of a key that has none is added. -/
theorem Coherent.addSlot (h : t.Coherent) (r : Reclaimer) {key : Option K} (value : Option V)
    (absent : key ∉ t.buckets.slots.map (·.key.content)) :
    (t.addSlot r key value).state.Coherent := by
  have balance : (t.addSlot r key value).state.buckets.slots ~
      t.buckets.slots ++ [t.newSlot r key value] := t.buckets.slots_push _ h.capacity_pos
  have hsize : (t.addSlot r key value).state.capacity = t.capacity := Buckets.size_push _ _
  have hnew : (t.newSlot r key value).key.content = key := Held.content_of ..
  have hmem : ∀ s ∈ (t.addSlot r key value).state.buckets.slots,
      s ∈ t.buckets.slots ∨ s = t.newSlot r key value := by
    intro s hs
    simpa using balance.subset hs
  constructor
  case capacity_pos =>
    rw [hsize]
    exact h.capacity_pos
  case counted =>
    rw [balance.length_eq, List.length_append, ← h.counted]
    rfl
  -- A slot of a bucket was there before, or is the new one in the bucket of its hash.
  case placed =>
    intro i s hs
    have hbucket : (t.addSlot r key value).state.buckets.bucket i = _ :=
      t.buckets.bucket_push (t.newSlot r key value) i h.capacity_pos
    rw [hbucket] at hs
    rw [hsize]
    rcases List.mem_append.mp hs with hs | hs
    · exact h.placed i s hs
    · split at hs
      · next hi =>
        cases List.mem_singleton.mp hs
        exact hi
      · cases hs
  case hashed =>
    intro s hs
    rcases hmem s hs with hs | rfl
    · exact h.hashed s hs
    · rw [hnew]
      rfl
  -- The key had no slot.
  case distinct =>
    rw [(balance.map (·.key.content)).nodup_iff, List.map_append, List.map_singleton, hnew]
    exact h.distinct.append (List.nodup_singleton key) (List.disjoint_singleton.mpr absent)
  case threshold_eq =>
    rw [hsize]
    exact h.threshold_eq
  case suited =>
    intro s hs
    rcases hmem s hs with hs | rfl
    · exact h.suited s hs
    · exact ⟨Held.suits_of .., Held.suits_of ..⟩

end Hash

section Keys

variable [DecidableEq K] [Hashed K] {t : Table K V} {r : Reclaimer} {key : Option K}

omit [DecidableEq K] in
/-- A slot lies in the bucket of its key. -/
theorem Coherent.mem_bucket (h : t.Coherent) {s : Slot K V} (hs : s ∈ t.buckets.slots) :
    s ∈ t.buckets.bucket (t.indexOf s.key.content) := by
  obtain ⟨i, hi⟩ := Buckets.mem_slots.mp hs
  have hindex : t.indexOf s.key.content = i := by
    unfold indexOf
    rw [← h.hashed s hs]
    exact h.placed i s hi
  rwa [hindex]

/-- In a bucket without stale slots a slot of the key is found, if the table has one. -/
theorem Coherent.mem_keys_iff (h : t.Coherent)
    (clean : ∀ s ∈ t.buckets.bucket (t.indexOf key), s.isStale r = false) :
    key ∈ t.buckets.slots.map (·.key.content) ↔ (t.slotFor? r key).isSome := by
  constructor
  · intro hkey
    obtain ⟨s, hs, rfl⟩ := List.mem_map.mp hkey
    -- A slot of the key lies where the key is looked for.
    have hmem := h.mem_bucket hs
    rw [slotFor?, List.find?_isSome]
    refine ⟨s, hmem, Slot.isFor_iff.mpr ⟨h.hashed s hs, ?_, rfl⟩⟩
    exact (Slot.isStale_eq_false_iff.mp (clean s hmem)).1
  · intro hsome
    obtain ⟨s, found⟩ := Option.isSome_iff_exists.mp hsome
    obtain ⟨hmem, -, -, hkey⟩ := slotFor?_spec found
    exact List.mem_map.mpr ⟨s, Buckets.mem_slots.mpr ⟨_, hmem⟩, hkey⟩

/-- A key that is not found in its bucket has no slot at all, if the bucket has no stale slots. -/
theorem Coherent.absent_of_missing (h : t.Coherent)
    (clean : ∀ s ∈ t.buckets.bucket (t.indexOf key), s.isStale r = false)
    (missing : t.slotFor? r key = none) : key ∉ t.buckets.slots.map (·.key.content) := by
  rw [h.mem_keys_iff clean, missing]
  exact Bool.false_ne_true

/-- A slot is given another value. -/
theorem Coherent.replaceValue (h : t.Coherent) (value : Option V) {slot : Slot K V}
    (found : t.slotFor? r key = some slot) : (t.replaceValue r key slot value).state.Coherent := by
  obtain ⟨rest, l, hbucket, hl, hset⟩ := t.buckets_replaceValue r key value found
  have hslot := Buckets.mem_slots.mpr ⟨_, (slotFor?_spec found).1⟩
  have balance := t.slots_replaceValue r key value found
  set renewed : Slot K V :=
    { slot with value := (Held.of t.config.valueStrength value r).holder } with hrenewed
  have hmem : ∀ s ∈ (t.replaceValue r key slot value).state.buckets.slots,
      s ∈ t.buckets.slots ∨ s = renewed := by
    intro s hs
    simpa using balance.symm.subset (List.mem_append_left _ hs)
  have hsize : (t.replaceValue r key slot value).state.capacity = t.capacity := by
    rw [capacity, hset, Buckets.size_set]
    rfl
  constructor
  case capacity_pos =>
    rw [hsize]
    exact h.capacity_pos
  case counted =>
    have hlength := balance.length_eq
    rw [List.length_append, List.length_append, List.length_singleton] at hlength
    show t.count = _
    rw [h.counted]
    exact Nat.add_right_cancel hlength
  -- The renewed slot lies where the old one lay.
  case placed =>
    intro i s hs
    rw [hsize]
    rw [hset, Buckets.bucket_set] at hs
    split at hs
    · next hi =>
      rw [← hi.1]
      rcases List.mem_cons.mp (hl.subset hs) with rfl | hs
      · exact h.placed _ slot (slotFor?_spec found).1
      · exact h.placed _ s (hbucket.symm.subset (List.mem_cons_of_mem _ hs))
    · exact h.placed i s hs
  case hashed =>
    intro s hs
    rcases hmem s hs with hs | rfl
    · exact h.hashed s hs
    · exact h.hashed slot hslot
  -- The old slot goes and the renewed one comes, and both have the same key.
  case distinct =>
    have hkeys := balance.map (·.key.content)
    rw [List.map_append, List.map_append] at hkeys
    have hsame : [renewed].map (·.key.content) = [slot].map (·.key.content) := rfl
    rw [hsame, List.perm_append_right_iff] at hkeys
    exact hkeys.nodup_iff.mp h.distinct
  case threshold_eq =>
    rw [hsize]
    exact h.threshold_eq
  case suited =>
    intro s hs
    rcases hmem s hs with hs | rfl
    · exact h.suited s hs
    · exact ⟨(h.suited slot hslot).1, Held.suits_of ..⟩

/-- An entry is put into the slot of its key or into a new one. -/
theorem Sound.insertFound (h : t.Sound)
    (clean : ∀ s ∈ t.buckets.bucket (t.indexOf key), s.isStale r = false) (value : Option V) :
    (t.insertFound r key value).state.Sound := by
  unfold Table.insertFound
  split
  · next slot found =>
    exact h.shed (h.toCoherent.replaceValue value found) rfl rfl le_rfl
  · next missing =>
    have absent := h.toCoherent.absent_of_missing clean missing
    obtain ⟨hgrown, hwithin⟩ := (h.toCoherent.addSlot r value absent).grow
      (t.addSlot r key value).reclaimer
    exact hgrown.enforceBound hwithin _

/-- A lookup changes the order at most. -/
theorem Sound.touch (h : t.Sound) (r : Reclaimer) (key : Option K) : (t.touch r key).Sound := by
  unfold Table.touch
  split
  · exact h
  · have hmoved := (moveToBack_perm (·.isFor r (nullableHash key) key)
      (t.buckets.bucket (t.indexOf key))).symm
    refine h.shed (h.toCoherent.setBucket [] rfl rfl rfl ?_ rfl) rfl rfl le_rfl
    rw [List.append_nil]
    exact hmoved

/-- The slot of a key is taken out. -/
theorem Sound.removal (h : t.Sound) {slot : Slot K V} (found : t.slotFor? r key = some slot) :
    (t.removal r key slot).state.Sound := by
  obtain ⟨-, before, after, hbucket, herase, -⟩ := split_of_find? found
  refine h.shed (h.toCoherent.setBucket [slot] rfl rfl rfl ?_ rfl) rfl rfl
    (Nat.sub_le _ _)
  rw [herase, hbucket]
  exact List.perm_middle.trans (List.perm_append_singleton _ _).symm

end Keys

end Table

end SoftCache
