import SoftCache.Proofs.Cache.Reading

/-!
# What clearing a cache announces

A cache that is cleared takes leave of each entry that could be read in it, and of each slot of its
soft tier whose value had been cleared and that nobody had come upon, once each and in this order:
the pinned entries, the slots that had expired, the hard tier, the soft tier. The tables themselves
drop their slots in silence, so all depends on what is read of a tier at the moment when it is
cleared. The sweep of the soft tier leaves its live entries as they were, and clearing the hard tier
makes none of them stale (`Cache.Tiered.clears`). Of the cache there remain the pinned keys and the
sizes.
-/

open scoped List

namespace SoftCache.Cache

variable {K V α : Type} {c : Cache K V} {r : Reclaimer}

/-- The removals of the entries that can be read in a tier, each with its value. -/
def leavings (c : Cache K V) (r : Reclaimer) (tier : Tier) : List (Notice K V) :=
  ((c.contents r).filter fun entry => entry.1 = tier).map fun entry =>
    .removed entry.2.1 entry.2.2 false

/-- The keys of the stale slots of the soft tier, which nobody has come upon since their values were
cleared. -/
def undiscovered (c : Cache K V) (r : Reclaimer) : List K :=
  (c.soft.stale r).filterMap (·.key.get r)

/-- What it means that a cache is cleared. -/
structure Clears (c : Cache K V) (r : Reclaimer) (step : Step (Cache K V) (Notice K V) α) :
    Prop where
  /-- All that was in the cache is announced, and nothing else. -/
  notices : step.notices =
    c.leavings r .pinned ++ (c.undiscovered r).map (fun key => .removed key none true) ++
      c.leavings r .hard ++ c.leavings r .soft
  /-- No key is announced twice. -/
  once : ((c.contents r).map (·.2.1) ++ c.undiscovered r).Nodup
  /-- There is a key for each stale slot. -/
  each : (c.soft.stale r).map (·.content.1) = (c.undiscovered r).map some
  /-- Neither tier has a slot any more, stale or not, or counts one. -/
  tiers : step.state.hard.buckets.slots = [] ∧ step.state.soft.buckets.slots = [] ∧
    step.state.hard.count = 0 ∧ step.state.soft.count = 0
  /-- The pinned keys stay, and none of them has a value. -/
  pins : step.state.pins = c.pins.map fun pin => (pin.1, none)
  /-- The sizes stay, and so do the bounds of the tiers. -/
  sizes : step.state.size = c.size ∧ step.state.softSize = c.softSize ∧
    step.state.hard.bound = c.hard.bound ∧ step.state.soft.bound = c.soft.bound
  /-- There is nothing left to be read. -/
  empty : step.state.contents step.reclaimer = []
  /-- What is announced is counted. -/
  metrics : step.state.metrics = { c.metrics with
    removals := c.metrics.removals + (c.contents r).length
    expirations := c.metrics.expirations + (c.undiscovered r).length }

/-! ## What is read of a tier -/

/-- The entries that can be read in a tier. -/
def entriesOf (c : Cache K V) (r : Reclaimer) : Tier → List (Entry K V)
  | .pinned => c.pinned
  | .hard => c.hard.entries r
  | .soft => c.soft.entries r

/-- What is read of a cache is read tier by tier. -/
theorem contents_eq (c : Cache K V) (r : Reclaimer) :
    c.contents r = tierEntries .pinned (c.entriesOf r .pinned) ++
      tierEntries .hard (c.entriesOf r .hard) ++ tierEntries .soft (c.entriesOf r .soft) := by
  have hpinned : tierEntries .pinned c.pinned =
      c.pins.filterMap fun pin => pin.2.map fun value => (Tier.pinned, pin.1, some value) := by
    rw [tierEntries, pinned, List.filterMap_filterMap]
    refine List.filterMap_congr fun pin _ => ?_
    obtain ⟨key, _ | value⟩ := pin <;> rfl
  rw [entriesOf, hpinned]
  rfl

/-- What is read of one tier is not read of another. -/
theorem filter_tierEntries (tier other : Tier) (l : List (Entry K V)) :
    (tierEntries tier l).filter (fun entry => entry.1 = other) =
      if tier = other then tierEntries tier l else [] := by
  have hall : ∀ entry ∈ tierEntries tier l, entry.1 = tier := by
    intro entry hentry
    obtain ⟨⟨_ | key, value⟩, -, hsome⟩ := List.mem_filterMap.mp hentry
    · cases hsome
    · cases hsome
      rfl
  split
  · next same => exact List.filter_eq_self.mpr fun entry hentry => by simp [hall entry hentry, same]
  · next apart =>
    exact List.filter_eq_nil_iff.mpr fun entry hentry => by simp [hall entry hentry, apart]

/-- What a cache has in one tier are the entries of that tier. -/
theorem filter_contents (c : Cache K V) (r : Reclaimer) (tier : Tier) :
    (c.contents r).filter (fun entry => entry.1 = tier) =
      tierEntries tier (c.entriesOf r tier) := by
  rw [contents_eq, List.filter_append, List.filter_append, filter_tierEntries,
    filter_tierEntries, filter_tierEntries]
  cases tier <;> simp

/-- So all that is read of a cache is counted tier by tier. -/
theorem length_contents (c : Cache K V) (r : Reclaimer) :
    (c.contents r).length = ((c.contents r).filter fun entry => entry.1 = .pinned).length +
      ((c.contents r).filter fun entry => entry.1 = .hard).length +
      ((c.contents r).filter fun entry => entry.1 = .soft).length := by
  rw [filter_contents, filter_contents, filter_contents, contents_eq, List.length_append,
    List.length_append]

/-- The removals of a tier are those of the entries that can be read there. -/
theorem leavings_eq (c : Cache K V) (r : Reclaimer) (tier : Tier) :
    c.leavings r tier = removals (c.entriesOf r tier) := by
  rw [leavings, filter_contents, tierEntries, removals, List.map_filterMap]
  refine List.filterMap_congr fun entry _ => ?_
  obtain ⟨_ | key, value⟩ := entry <;> rfl

/-! ## What has expired -/

section Tiers

variable [DecidableEq K] [Hashed K]

/-- A slot of the soft tier has its key, and is stale only because its value has been cleared. -/
theorem Tiered.key_of_soft (h : c.Tiered []) {s : Slot K V} (hs : s ∈ c.soft.buckets.slots) :
    ∃ key, s.key = .strong key := by
  have hholding : s.content ∈ c.holdings ++ [] :=
    List.mem_append_left _ (List.mem_append_right _ (List.mem_map_of_mem hs))
  obtain ⟨key, value, payload, hkey, -⟩ := exists_of_suits_soft (h.soft.suited s hs)
    h.softStrengths (h.named hholding) (h.full _ (List.mem_map_of_mem hs))
  exact ⟨key, hkey⟩

/-- There is a key for each stale slot. -/
theorem Tiered.map_undiscovered (h : c.Tiered []) (r : Reclaimer) :
    (c.undiscovered r).map some = (c.soft.stale r).map (·.content.1) := by
  rw [undiscovered, List.map_filterMap, ← List.filterMap_eq_map]
  refine List.filterMap_congr fun s hs => ?_
  obtain ⟨key, hkey⟩ := h.key_of_soft (List.mem_filter.mp hs).1
  simp [hkey, Holder.get, Holder.content]

/-- The sweep announces the stale slots as expired, each with its key and no value. -/
theorem Tiered.notices_removeExpired (h : c.Tiered []) (r : Reclaimer) :
    (c.removeExpired r).notices =
      (c.undiscovered r).map fun key => .removed key none true := by
  have hnotices : (c.removeExpired r).notices =
      ((c.soft.stale r).map (·.expiration r)).filterMap ofSoft := by
    show (c.soft.removeExpired r).notices.filterMap ofSoft = _
    rw [Table.removeExpired, if_pos h.hasReclaimableSide_soft]
    rfl
  rw [hnotices, undiscovered, List.filterMap_map, List.map_filterMap]
  refine List.filterMap_congr fun s hs => ?_
  obtain ⟨key, hkey⟩ := h.key_of_soft (List.mem_filter.mp hs).1
  simp [Slot.expiration, hkey, Holder.isCleared, Holder.get, ofSoft]

/-- What can be read in the soft tier, and what nobody has come upon there, are all its slots. -/
theorem Tiered.soft_keys_perm (h : c.Tiered []) (r : Reclaimer) :
    (c.soft.entries r).map Prod.fst ++ (c.undiscovered r).map some ~
      c.soft.contents.map Prod.fst := by
  have hslots := Table.perm_filter_append (Slot.isStale r) c.soft.buckets.slots
  calc (c.soft.entries r).map Prod.fst ++ (c.undiscovered r).map some
    _ = ((c.soft.buckets.slots.filter fun s => !s.isStale r) ++ c.soft.stale r).map
          (·.content.1) := by
      rw [h.map_undiscovered, Table.entries_eq_map_content, List.map_map, List.map_append]
      rfl
    _ ~ c.soft.buckets.slots.map (·.content.1) := hslots.symm.map _
    _ = c.soft.contents.map Prod.fst := by
      rw [Table.contents, List.map_map]
      rfl

/-- No key can be read twice, or can be read although its slot is stale. -/
theorem Tiered.nodup_keys (h : c.Tiered []) (r : Reclaimer) :
    ((c.contents r).map (·.2.1) ++ c.undiscovered r).Nodup := by
  refine List.Nodup.of_map some ?_
  have hlegible : ((c.contents r).map (·.2.1)).map some = (c.legible r).map Prod.fst :=
    h.map_keys r
  have hperm : ((c.contents r).map (·.2.1) ++ c.undiscovered r).map some ~
      (c.holdings ++ []).map Prod.fst := by
    rw [List.map_append, hlegible, legible, holdings, Table.entries_eq_contents (h.hard_live r)]
    simp only [List.append_nil, List.map_append, List.append_assoc]
    exact ((h.soft_keys_perm r).append_left _).append_left _
  exact hperm.nodup_iff.mpr h.distinct

/-! ## What is counted -/

omit [DecidableEq K] [Hashed K] in
/-- Removals are counted one by one. -/
theorem foldl_hear_removed (l : List (Tier × K × Option V)) (m : Metrics) :
    (l.map fun entry => Notice.removed entry.2.1 entry.2.2 false).foldl Metrics.hear m =
      { m with removals := m.removals + l.length } := by
  induction l generalizing m with
  | nil => rfl
  | cons entry rest ih =>
    rw [List.map_cons, List.foldl_cons, ih]
    simp [Metrics.hear, Nat.add_comm, Nat.add_left_comm]

omit [DecidableEq K] [Hashed K] in
/-- So is what has expired. -/
theorem foldl_hear_expired (l : List K) (m : Metrics) :
    (l.map fun key => (Notice.removed key none true : Notice K V)).foldl Metrics.hear m =
      { m with expirations := m.expirations + l.length } := by
  induction l generalizing m with
  | nil => rfl
  | cons key rest ih =>
    rw [List.map_cons, List.foldl_cons, ih]
    simp [Metrics.hear, Nat.add_comm, Nat.add_left_comm]

omit [DecidableEq K] [Hashed K] in
/-- A cache that is cleared counts what it announces. -/
theorem metrics_clear (c : Cache K V) (r : Reclaimer) :
    (c.clear r).state.metrics = (c.clear r).notices.foldl Metrics.hear c.metrics := by
  -- Work on the hard tier announces nothing, so it makes no difference where it is done.
  simp only [clear_eq, clearHard, clearSoft, Step.andThen_notices, List.foldl_append]
  rfl

/-! ## Clearing -/

/-- What is announced is what could be read at the moment when each tier was cleared, and that is
what could be read before. -/
theorem Tiered.notices_clear (h : c.Tiered []) (issued : r.Issued c.payloads) :
    (c.clear r).notices =
      c.leavings r .pinned ++ (c.undiscovered r).map (fun key => .removed key none true) ++
        c.leavings r .hard ++ c.leavings r .soft := by
  have hpins := attends_clearPins h issued
  set swept := (c.clearPins r).state.removeExpired (c.clearPins r).reclaimer
  set cleared := swept.state.clearHard swept.reclaimer
  -- After the sweep the live entries of the soft tier are all that it has, until it is cleared.
  have hsoft : cleared.state.soft.entries cleared.reclaimer = c.soft.entries r := calc
    cleared.state.soft.entries cleared.reclaimer
      = swept.state.soft.contents :=
        Table.entries_eq_contents (hpins.tiered.isStale_clearHard hpins.issued)
    _ = swept.state.soft.entries swept.reclaimer :=
        (Table.entries_eq_contents (hpins.tiered.isStale_removeExpired hpins.issued)).symm
    _ = c.soft.entries r := Table.entries_removeExpired issued.right
  have hhard : swept.state.hard.entries swept.reclaimer = c.hard.entries r :=
    (Table.entries_eq_contents (h.hard_live swept.reclaimer)).trans
      (Table.entries_eq_contents (h.hard_live r)).symm
  calc (c.clear r).notices
    _ = (c.clearPins r).notices ++ (swept.notices ++
          ((removals (swept.state.hard.entries swept.reclaimer) ++ []) ++
            (removals (cleared.state.soft.entries cleared.reclaimer) ++ []))) := by
        rw [clear_eq]
        rfl
    _ = c.leavings r .pinned ++ ((c.undiscovered r).map (fun key => .removed key none true) ++
          (c.leavings r .hard ++ c.leavings r .soft)) := by
        rw [notices_clearPins, hpins.tiered.notices_removeExpired, hhard, hsoft,
          List.append_nil, List.append_nil, leavings_eq, leavings_eq, leavings_eq]
        rfl
    _ = _ := by simp only [List.append_assoc]

/-- A cache that is cleared announces all that was in it, once each and in order, and keeps nothing
but its pins and sizes. -/
theorem Tiered.clears (h : c.Tiered []) (issued : r.Issued c.payloads) :
    Clears c r (c.clear r) := by
  have hslots : (c.clear r).state.hard.buckets.slots = [] ∧
      (c.clear r).state.soft.buckets.slots = [] :=
    ⟨Buckets.slots_empty _, Buckets.slots_empty _⟩
  constructor
  case notices => exact h.notices_clear issued
  case once => exact h.nodup_keys r
  case each => exact (h.map_undiscovered r).symm
  case tiers => exact ⟨hslots.1, hslots.2, rfl, rfl⟩
  case pins => rfl
  case sizes =>
    refine ⟨rfl, rfl, rfl, ?_⟩
    show (c.soft.removeExpired r).state.bound = _
    rw [Table.removeExpired, if_pos h.hasReclaimableSide_soft]
    rfl
  case empty =>
    have hpinned : (c.clear r).state.pinned = [] := c.pinned_bare
    rw [contents_eq, entriesOf, entriesOf, entriesOf, Table.entries, Table.entries, hpinned,
      hslots.1, hslots.2]
    rfl
  case metrics =>
    rw [metrics_clear, h.notices_clear issued, List.foldl_append, List.foldl_append,
      List.foldl_append, leavings,
      leavings, leavings, foldl_hear_removed, foldl_hear_expired, foldl_hear_removed,
      foldl_hear_removed, length_contents]
    simp only [Nat.add_assoc]

/-- In a cache that is cleared there is nothing to count. -/
theorem Tiered.result_length_clear (h : c.Tiered []) (issued : r.Issued c.payloads) :
    ((c.clear r).state.length (c.clear r).reclaimer).result = 0 := by
  have hclears := h.clears issued
  have hattends := attends_clear h issued
  have hnone : (c.clear r).state.soft.stale (c.clear r).reclaimer = [] := by
    rw [Table.stale, hclears.tiers.2.1]
    rfl
  rw [hattends.tiered.result_length hattends.issued fun _ => hnone, keys, hclears.empty]
  rfl

/-- In a cache that is cleared no key is found, pinned or not. -/
theorem Tiered.result_get_clear (h : c.Tiered []) (issued : r.Issued c.payloads) (key : K) :
    ((c.clear r).state.get (c.clear r).reclaimer key).result = none := by
  have hattends := attends_clear h issued
  have hlegible : (c.clear r).state.legible (c.clear r).reclaimer = [] := by
    have hkeys := hattends.tiered.map_keys (c.clear r).reclaimer
    rw [keys, (h.clears issued).empty] at hkeys
    exact List.map_eq_nil_iff.mp hkeys.symm
  refine Option.eq_none_iff_forall_ne_some.mpr fun value hvalue => ?_
  have hmem := (hattends.tiered.result_get_iff hattends.issued).mp hvalue
  rw [hlegible] at hmem
  cases hmem

end Tiers

end SoftCache.Cache
