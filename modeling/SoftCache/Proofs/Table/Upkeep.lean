import SoftCache.Proofs.Custody
import SoftCache.Proofs.Table.Soundness
import SoftCache.Table.Request

/-!
# The upkeep of tables

Every request to a table `Upholds` it: a sound table whose payloads are in custody stays so
(`Table.upholds_perform`). A sound table passes its self-check (`Table.Sound.violation?_eq_none`).
-/

open scoped List

namespace SoftCache

variable {K V α β : Type}

/-- Work that tends a table and leaves it sound. -/
structure Step.Upholds [Hashed K] (t : Table K V) (r : Reclaimer)
    (step : Step (Table K V) (Notice K V) α) : Prop extends Step.Tends t r step where
  /-- The table is sound afterwards. -/
  sound : step.state.Sound

namespace Step.Upholds

variable [Hashed K] {t : Table K V} {r : Reclaimer}

/-- Nothing is done. -/
theorem done (h : t.Sound) (issued : r.Issued t.payloads) (result : α) :
    Step.Upholds t r (Step.done t r result) :=
  ⟨.done issued result, h⟩

/-- One piece of work and then another. -/
theorem andThen {first : Step (Table K V) (Notice K V) α}
    {second : Table K V → Reclaimer → α → Step (Table K V) (Notice K V) β}
    (h₁ : first.Upholds t r)
    (h₂ : (second first.state first.reclaimer first.result).Upholds first.state first.reclaimer) :
    (first.andThen second).Upholds t r :=
  ⟨h₁.toTends.andThen h₂.toTends, h₂.sound⟩

/-- The answer does not matter. -/
theorem map {step : Step (Table K V) (Notice K V) α} (f : α → β) (h : step.Upholds t r) :
    (step.map f).Upholds t r :=
  ⟨h.toTends.map f, h.sound⟩

/-- Only what is left matters. -/
theorem same {step : Step (Table K V) (Notice K V) α} {step' : Step (Table K V) (Notice K V) β}
    (h : step.Upholds t r) (state : step'.state = step.state)
    (reclaimer : step'.reclaimer = step.reclaimer) : step'.Upholds t r := by
  obtain ⟨⟨handover, config, bound, swept⟩, sound⟩ := h
  rw [← state, ← reclaimer] at *
  exact ⟨⟨handover, config, bound, swept⟩, sound⟩

end Step.Upholds

/-- Work that keeps a table in order, perhaps under another bound. -/
structure Step.Minds [Hashed K] (t : Table K V) (r : Reclaimer)
    (step : Step (Table K V) (Notice K V) α) : Prop where
  /-- The payloads of the table are handed over. -/
  handover : Handover r step.reclaimer t.payloads step.state.payloads
  /-- The table is sound afterwards. -/
  sound : step.state.Sound
  /-- What a sweep has seen to is still seen to. -/
  swept : t.Swept r → step.state.Swept step.reclaimer

/-- Work that upholds a table keeps it in order. -/
theorem Step.Upholds.minds [Hashed K] {t : Table K V} {r : Reclaimer}
    {step : Step (Table K V) (Notice K V) α} (h : step.Upholds t r) : step.Minds t r :=
  ⟨h.handover, h.sound, h.swept⟩

namespace Table

section Hash

variable [Hashed K] {t : Table K V} {r : Reclaimer} (h : t.Sound) (issued : r.Issued t.payloads)
include h issued

/-- To clear a sound table upholds it. -/
theorem upholds_clear : (t.clear r).Upholds t r :=
  ⟨(accounts_clear issued).toTends, h.clear r⟩

/-- To sweep a sound table by request upholds it. -/
theorem upholds_removeExpired : (t.removeExpired r).Upholds t r := by
  obtain ⟨departed, haccounts, -⟩ := accounts_removeExpired issued
  exact ⟨haccounts.toTends, h.removeExpired r⟩

/-- To count the entries of a sound table upholds it. -/
theorem upholds_length : (t.length r).Upholds t r := by
  obtain ⟨departed, haccounts, -⟩ := accounts_length issued
  exact ⟨haccounts.toTends, h.sweep r⟩

/-- To remove an entry of a sound table at random upholds it. -/
theorem upholds_removeRandom : (t.removeRandom r).Upholds t r :=
  ⟨(accounts_removeRandom issued).toTends, h.removeRandom r⟩

/-- To remove entries of a sound table at random upholds it. -/
theorem upholds_removeRandoms (n : Nat) : (t.removeRandoms r n).Upholds t r := by
  induction n generalizing t r with
  | zero => exact .done h issued []
  | succ n ih =>
    have hfirst := upholds_removeRandom h issued
    exact hfirst.andThen ((ih hfirst.sound hfirst.issued).map _)

/-- To list a sound table from where its cursor points upholds it. -/
theorem upholds_randomEntries : (t.randomEntries r).Upholds t r :=
  ⟨.ofHandover (.refl issued) rfl rfl rfl, h.randomEntries r⟩

/-- A table is given a bound and then tended under it. -/
theorem upholds_setBound (bound : Option Nat) :
    (t.setBound r bound).Upholds { t with bound := bound } r := by
  obtain ⟨departed, haccounts, -⟩ := accounts_enforceBound (t := { t with bound := bound }) issued
  exact ⟨haccounts.toTends, h.setBound r bound⟩

end Hash

section Keys

variable [DecidableEq K] [Hashed K] {t : Table K V} {r : Reclaimer} (h : t.Sound)
  (issued : r.Issued t.payloads)

include h issued

/-- A lookup upholds a sound table. -/
theorem upholds_lookup (key : Option K) : (t.lookup r key).Upholds t r := by
  obtain ⟨departed, haccounts, -⟩ := accounts_lookup issued key
  refine ⟨haccounts.toTends, ?_⟩
  by_cases hkey : t.excludes key = true
  · rw [lookup, if_pos hkey]
    exact h.adjust _ _ _
  · rw [lookup_eq r (by simpa using hkey)]
    have htidy : (t.tidy r key).state.Sound := by
      unfold tidy
      split
      · exact h.purge r _
      · exact h
    dsimp only [Step.andThen_state]
    split
    · exact htidy.adjust _ _ _
    · exact (htidy.tally _).touch _ key

/-- To put an entry that a sound table can hold upholds it. -/
theorem upholds_insert (key : Option K) (value : Option V) :
    (t.insert r key value).Upholds t r := by
  obtain ⟨came, departed, left, hinsertion⟩ := insertion_insert h.capacity_pos issued key value
  refine ⟨hinsertion.accounts.toTends, ?_⟩
  rw [insert_eq]
  exact (h.purge r (t.indexOf key)).insertFound (clean_purge_indexOf issued key) value

/-- A put upholds a sound table. -/
theorem upholds_put (key : Option K) (value : Option V) : (t.put r key value).Upholds t r := by
  unfold put
  split
  · exact .done h issued _
  · exact (upholds_insert h issued key value).map _

/-- To put entries upholds a sound table. -/
theorem upholds_putAll (entries : List (K × V)) : (t.putAll r entries).Upholds t r := by
  induction entries generalizing t r with
  | nil => exact .done h issued ()
  | cons entry rest ih =>
    have hput := upholds_put h issued (some entry.1) (some entry.2)
    exact hput.andThen (ih hput.sound hput.issued)

/-- A removal upholds a sound table. -/
theorem upholds_removeIf (key : Option K) (accept : Option V → Bool) :
    (t.removeIf r key accept).Upholds t r := by
  obtain ⟨departed, left, haccounts, -⟩ := accounts_removeIf issued key accept
  refine ⟨haccounts.toTends, ?_⟩
  by_cases hkey : t.excludes key = true
  · rw [removeIf, if_pos hkey]
    exact h
  · rw [removeIf_eq r accept (by simpa using hkey), Step.andThen_state, removeFound]
    split
    · exact h.purge r _
    · next slot found =>
      split
      · exact (h.purge r _).removal found
      · exact h.purge r _

end Keys

/-! ## What is not found -/

section Missing

variable [DecidableEq K] [Hashed K] {t : Table K V} {r : Reclaimer} {key : Option K}

/-- A key without a slot in its purged bucket has none in the table, and any that it had was
stale. -/
theorem Coherent.missing (h : t.Coherent) (issued : r.Issued t.payloads)
    (missing :
      (t.purge r (t.indexOf key)).state.slotFor? (t.purge r (t.indexOf key)).reclaimer key =
        none) :
    key ∉ (t.purge r (t.indexOf key)).state.contents.map Prod.fst ∧
      ∀ s ∈ t.buckets.slots, s.key.content = key → s.isStale r = true := by
  have hpurged := h.purge r (t.indexOf key)
  have habsent := hpurged.absent_of_missing (clean_purge_indexOf issued key) missing
  refine ⟨?_, fun s hs hkey => ?_⟩
  · rwa [contents, List.map_map]
  · -- A live slot would have outlasted the purge.
    by_contra hlive
    refine habsent (List.mem_map.mpr ⟨s, Buckets.mem_slots.mpr ⟨t.indexOf key, ?_⟩, hkey⟩)
    have hmem := h.mem_bucket hs
    rw [hkey] at hmem
    rw [bucket_purge]
    exact List.mem_filter.mpr ⟨hmem, by simpa using hlive⟩

/-- Putting an entry answers no value only if the key had no live slot. -/
theorem Coherent.stale_of_insert (h : t.Coherent) (issued : r.Issued t.payloads) {value : Option V}
    (hnone : (t.insert r key value).result.previous = none) :
    ∀ s ∈ t.buckets.slots, s.key.content = key → s.isStale r = true := by
  rw [insert_eq, Step.andThen_result, insertFound] at hnone
  split at hnone
  · -- The slot of a key that is found has a value to answer.
    cases hnone
  · next missing => exact (h.missing issued missing).2

/-- After a removal that finds nothing the key has no slot. -/
theorem Coherent.absent_of_removeEntry (h : t.Coherent) (issued : r.Issued t.payloads)
    (hkey : t.excludes key = false) (hnone : (t.removeEntry r key).result = none) :
    key ∉ (t.removeEntry r key).state.contents.map Prod.fst := by
  rw [removeEntry, removeIf_eq r _ hkey, Step.andThen_result, removeFound] at hnone
  rw [removeEntry, removeIf_eq r _ hkey, Step.andThen_state, removeFound]
  -- Everything is accepted, so only a key without a slot is answered with nothing.
  split at hnone
  · next missing => exact (h.missing issued missing).1
  · cases hnone

end Missing

/-! ## All requests -/

/-- The table with the bound that a request sets, if it sets one. -/
def Request.bounding (t : Table K V) : Request K V → Table K V
  | .setBound limit => { t with bound := limit }
  | _ => t

/-- A table has the same payloads under whatever bound. -/
@[simp] theorem Request.payloads_bounding (t : Table K V) (request : Request K V) :
    (request.bounding t).payloads = t.payloads := by
  cases request <;> rfl

variable [DecidableEq K] [Hashed K] [DecidableEq V]

/-- Every request upholds a sound table. -/
theorem upholds_perform {t : Table K V} {r : Reclaimer} (h : t.Sound)
    (issued : r.Issued t.payloads) (request : Request K V) :
    (t.perform r request).Upholds (request.bounding t) r := by
  cases request with
  | get key => exact (upholds_lookup h issued key).same rfl rfl
  | containsEntry key value => exact (upholds_lookup h issued key).same rfl rfl
  | put key value => exact (upholds_put h issued key value).same rfl rfl
  | putAll source =>
    cases source with
    | none => exact .done h issued _
    | some entries => exact (upholds_putAll h issued entries).same rfl rfl
  | remove key => exact (upholds_removeIf h issued key _).same rfl rfl
  | removeKey key => exact (upholds_removeIf h issued key _).same rfl rfl
  | removeEntry key value => exact (upholds_removeIf h issued key _).same rfl rfl
  | removeRandom => exact (upholds_removeRandom h issued).same rfl rfl
  | removeRandoms n => exact (upholds_removeRandoms h issued n).same rfl rfl
  | removeExpired => exact (upholds_removeExpired h issued).same rfl rfl
  | length => exact (upholds_length h issued).same rfl rfl
  | isEmpty => exact (upholds_length h issued).same rfl rfl
  | viewLiteral view => exact (upholds_length h issued).same rfl rfl
  | clear => exact (upholds_clear h issued).same rfl rfl
  | setBound bound => exact (upholds_setBound h issued bound).same rfl rfl
  | randomEntries => exact (upholds_randomEntries h issued).same rfl rfl
  | containsKey | containsValue | entries | bound | capacity | position | metrics | config
  | literal | snapshot | check => exact .done h issued _

omit [DecidableEq K] [Hashed K] [DecidableEq V] in
/-- What is seen to under one bound is seen to under another. -/
theorem swept_bounding {t : Table K V} {r : Reclaimer} (h : t.Swept r) (request : Request K V) :
    (request.bounding t).Swept r := by
  cases request <;> exact ⟨h.epoch_le, h.live⟩

/-- Every request keeps a sound table in order, whatever bound it sets. -/
theorem minds_perform {t : Table K V} {r : Reclaimer} (h : t.Sound)
    (issued : r.Issued t.payloads) (request : Request K V) : (t.perform r request).Minds t r where
  handover := by
    have hand := (upholds_perform h issued request).handover
    rwa [Request.payloads_bounding] at hand
  sound := (upholds_perform h issued request).sound
  swept hswept := (upholds_perform h issued request).swept (swept_bounding hswept request)

/-- What was fixed when a table was made stays, whatever is asked. -/
theorem config_perform {t : Table K V} {r : Reclaimer} (h : t.Sound)
    (issued : r.Issued t.payloads) (request : Request K V) :
    (t.perform r request).state.config = t.config := by
  have hbounding : (request.bounding t).config = t.config := by
    cases request <;> rfl
  exact (upholds_perform h issued request).config.trans hbounding

/-! ## The self-check -/

omit [DecidableEq K] [DecidableEq V]

omit [Hashed K] in
/-- Slots that lie in the buckets of their hashes are not misplaced. -/
theorem misplaced?_eq_none (capacity i : Nat) (l : List (List (Slot K V)))
    (placed : ∀ j, ∀ s ∈ l.getD j [], bucketOf capacity s.hash = i + j) :
    misplaced? capacity i l = none := by
  induction l generalizing i with
  | nil => rfl
  | cons bucket rest ih =>
    have hnone : bucket.find? (fun slot => bucketOf capacity slot.hash != i) = none := by
      rw [List.find?_eq_none]
      intro s hs
      simpa using placed 0 s hs
    rw [misplaced?, hnone]
    -- The next bucket has the next number.
    refine ih (i + 1) fun j s hs => ?_
    rw [placed (j + 1) s hs]
    omega

/-- A sound table passes its self-check. -/
theorem Sound.violation?_eq_none {t : Table K V} (h : t.Sound) : t.violation? = none := by
  have hpos := h.capacity_pos
  have hcounted := h.counted
  have hwithin := h.within_threshold
  have hbound : t.bound.filter (· < t.count) = none := by
    rw [Option.filter_eq_none_iff]
    intro bound hbound
    simpa using h.within_bound bound hbound
  -- The checks are made in this order.
  rw [violation?, if_neg (by omega), if_neg (by omega), if_neg (not_not_intro h.threshold_eq),
    if_neg (by omega), hbound]
  refine misplaced?_eq_none _ _ _ fun i s hs => ?_
  rw [Nat.zero_add]
  refine h.placed i s ?_
  simpa [Buckets.bucket, Array.getD_eq_getD_getElem?, List.getD_eq_getElem?_getD] using hs

end Table

end SoftCache
