import SoftCache.Proofs.Table.Upkeep

/-!
# Work that takes slots out

Purging, sweeping, removing, evicting and clearing bring no slot into a table. What they leave in a
bucket stays in its order, the table does not grow, and neither growth nor a new slot is counted:
`Table.Wanes`. Every request is such work unless it looks a key up or puts entries
(`Table.wanes_perform`), since a lookup may move the slot that it finds.
-/

open scoped List

namespace SoftCache.Table

variable {K V : Type}

/-- A table, and what is left of it when slots have been taken out. -/
structure Wanes (t t' : Table K V) : Prop where
  /-- What was fixed when the table was made. -/
  config : t'.config = t.config
  /-- The number of buckets stays. -/
  capacity : t'.capacity = t.capacity
  /-- The slots that are left in a bucket stay in their order. -/
  buckets : ∀ i, t'.buckets.bucket i <+ t.buckets.bucket i
  /-- Slots may go. -/
  count : t'.count ≤ t.count
  /-- The table does not move. -/
  resizes : t'.metrics.resizes = t.metrics.resizes
  /-- No slot is added. -/
  inserts : t'.metrics.inserts = t.metrics.inserts

namespace Wanes

variable {t t' t'' : Table K V}

/-- Nothing is done. -/
theorem refl (t : Table K V) : t.Wanes t :=
  ⟨rfl, rfl, fun _ => .refl _, le_rfl, rfl, rfl⟩

/-- One piece of work and then another. -/
theorem trans (h : t.Wanes t') (h' : t'.Wanes t'') : t.Wanes t'' :=
  ⟨h'.config.trans h.config, h'.capacity.trans h.capacity,
    fun i => (h'.buckets i).trans (h.buckets i), h'.count.trans h.count,
    h'.resizes.trans h.resizes, h'.inserts.trans h.inserts⟩

/-- Part of one bucket is left. -/
theorem of_set {i : Nat} {l : List (Slot K V)} (buckets : t'.buckets = t.buckets.set i l)
    (within : l <+ t.buckets.bucket i) (count : t'.count ≤ t.count)
    (config : t'.config = t.config) (resizes : t'.metrics.resizes = t.metrics.resizes)
    (inserts : t'.metrics.inserts = t.metrics.inserts) : t.Wanes t' := by
  refine ⟨config, ?_, fun j => ?_, count, resizes, inserts⟩
  · rw [Table.capacity, buckets]
    exact Buckets.size_set ..
  · rw [buckets, Buckets.bucket_set]
    split
    · next hthere => exact hthere.1 ▸ within
    · exact .refl _

/-- An eviction is counted. -/
theorem tallyEviction (h : t.Wanes t') : t.Wanes t'.tallyEviction :=
  ⟨h.config, h.capacity, h.buckets, h.count, h.resizes, h.inserts⟩

end Wanes

/-! ## The pieces -/

/-- A purge only takes slots out. -/
theorem wanes_purge (t : Table K V) (r : Reclaimer) (i : Nat) : t.Wanes (t.purge r i).state :=
  .of_set rfl List.filter_sublist (Nat.sub_le ..) rfl rfl rfl

/-- A sweep by request only takes slots out. -/
theorem wanes_removeExpired (t : Table K V) (r : Reclaimer) :
    t.Wanes (t.removeExpired r).state := by
  unfold removeExpired
  split
  · refine ⟨rfl, Array.size_map .., fun i => ?_, Nat.sub_le .., rfl, rfl⟩
    show ((t.purgeAll r).state.buckets.bucket i).Sublist _
    rw [purgeAll, Buckets.bucket_map_filter]
    exact List.filter_sublist
  · exact .refl t

/-- To count the entries only takes stale slots out. -/
theorem wanes_length (t : Table K V) (r : Reclaimer) : t.Wanes (t.length r).state := by
  rw [length, Step.andThen_state]
  unfold sweep
  split
  · exact .refl t
  · exact t.wanes_removeExpired r

/-- To clear a table takes all slots out. -/
theorem wanes_clear (t : Table K V) (r : Reclaimer) : t.Wanes (t.clear r).state := by
  refine ⟨rfl, Buckets.size_empty _, fun i => ?_, Nat.zero_le _, rfl, rfl⟩
  rw [clear, Buckets.bucket_empty]
  exact List.nil_sublist _

/-- A probe only takes slots out. -/
theorem wanes_takeNear (t : Table K V) (r : Reclaimer) : t.Wanes (t.takeNear r).state :=
  ⟨rfl, Buckets.size_probe .., Buckets.bucket_probe_sublist _ t.buckets, Nat.sub_le .., rfl, rfl⟩

/-- To remove an entry at random only takes slots out. -/
theorem wanes_removeRandom (t : Table K V) (r : Reclaimer) :
    t.Wanes (t.removeRandom r).state := by
  rw [removeRandom, Step.andThen_state]
  split
  · exact (t.wanes_takeNear r).tallyEviction
  · exact t.wanes_takeNear r

/-- To remove entries at random only takes slots out. -/
theorem wanes_removeRandoms (t : Table K V) (r : Reclaimer) (n : Nat) :
    t.Wanes (t.removeRandoms r n).state := by
  induction n generalizing t r with
  | zero => exact .refl t
  | succ n ih => exact (t.wanes_removeRandom r).trans (ih ..)

/-- To evict only takes slots out, however often it takes one. -/
theorem wanes_evictDownTo (bound : Nat) (t : Table K V) (r : Reclaimer) :
    t.Wanes (evictDownTo bound t r).state := by
  induction t, r using evictDownTo.induct bound with
  | case1 t r enough =>
    rw [evictDownTo, if_pos enough]
    exact .refl t
  | case2 t r more taken nothing =>
    rw [evictDownTo_of_none more nothing]
    exact t.wanes_takeNear r
  | case3 t r more taken entry found ih =>
    rw [evictDownTo_of_some more found]
    exact (t.wanes_takeNear r).tallyEviction.trans ih

/-- To keep a bound only takes slots out. -/
theorem wanes_enforceBound (t : Table K V) (r : Reclaimer) :
    t.Wanes (t.enforceBound r).state := by
  unfold enforceBound
  split
  · exact .refl t
  · exact wanes_evictDownTo ..

/-- To set a bound only takes slots out. -/
theorem wanes_setBound (t : Table K V) (r : Reclaimer) (bound : Option Nat) :
    t.Wanes (t.setBound r bound).state :=
  have hbounded : t.Wanes { t with bound } := ⟨rfl, rfl, fun _ => .refl _, le_rfl, rfl, rfl⟩
  hbounded.trans (wanes_enforceBound { t with bound } r)

section Keys

variable [DecidableEq K] [Hashed K]

/-- To tidy up for a lookup only takes stale slots out. -/
theorem wanes_tidy (t : Table K V) (r : Reclaimer) (key : Option K) :
    t.Wanes (t.tidy r key).state := by
  unfold tidy
  split
  · exact t.wanes_purge r _
  · exact .refl t

/-- A removal only takes slots out. -/
theorem wanes_removeIf (t : Table K V) (r : Reclaimer) (key : Option K)
    (accept : Option V → Bool) : t.Wanes (t.removeIf r key accept).state := by
  by_cases hkey : t.excludes key = true
  · rw [removeIf, if_pos hkey]
    exact .refl t
  · rw [removeIf_eq r _ (by simpa using hkey)]
    refine (t.wanes_purge r (t.indexOf key)).trans ?_
    rw [Step.andThen_state]
    unfold removeFound
    split
    · exact .refl _
    · split
      · exact .of_set rfl List.eraseP_sublist (Nat.sub_le ..) rfl rfl rfl
      · exact .refl _

/-! ## Requests -/

/-- Whether a request neither looks a key up nor puts an entry. -/
def Request.onlyTakes : Request K V → Bool
  | .get _ | .containsEntry .. | .put .. | .putAll (some _) => false
  | _ => true

/-- A request that neither looks a key up nor puts an entry takes slots out at most. -/
theorem wanes_perform [DecidableEq V] (t : Table K V) (r : Reclaimer) {request : Request K V}
    (only : request.onlyTakes = true) : t.Wanes (t.perform r request).state := by
  cases request with
  | get | containsEntry | put => cases only
  | putAll source =>
    cases source with
    | none => exact .refl t
    | some entries => cases only
  | remove key | removeKey key | removeEntry key => exact t.wanes_removeIf r key _
  | removeRandom => exact t.wanes_removeRandom r
  | removeRandoms n => exact t.wanes_removeRandoms r n
  | removeExpired => exact t.wanes_removeExpired r
  | length | isEmpty | viewLiteral => exact t.wanes_length r
  | clear => exact t.wanes_clear r
  | setBound bound => exact t.wanes_setBound r bound
  | randomEntries => exact ⟨rfl, rfl, fun _ => .refl _, le_rfl, rfl, rfl⟩
  | containsKey | containsValue | entries | bound | capacity | position | metrics | config
  | literal | snapshot | check => exact .refl t

end Keys

end SoftCache.Table
