import SoftCache.Proofs.PlainMap
import SoftCache.Proofs.Table.Reading
import SoftCache.Proofs.Table.Sweeping

/-!
# Tables as plain maps

A table without a bound, under a reclaimer without a budget, `Models` the plain map that lists its
live entries. Each operation `Renders` the map that is to come of it, with the answer that the map
gives: what is found for a key is its live entry, which the map has, and what comes and leaves is
the account of the operation. So every request is answered as the map answers it
(`Table.Models.answers_perform`).
-/

open scoped List

namespace SoftCache

variable {K V α β : Type}

/-! ## Tables that model a map -/

/-- A sound table without a bound, under a reclaimer without a budget, in which there is just what
is in a plain map. -/
structure Table.Models [DecidableEq K] [Hashed K] (t : Table K V) (r : Reclaimer)
    (m : PlainMap K V) : Prop where
  /-- The table is sound. -/
  sound : t.Sound
  /-- The payloads of the table have been issued. -/
  issued : r.Issued t.payloads
  /-- Nothing has been lost since the last sweep, unless an epoch began since. -/
  swept : t.Swept r
  /-- No registration clears anything. -/
  budget : r.budget = none
  /-- Nothing is evicted. -/
  bound : t.bound = none
  /-- The live entries are those of the map. -/
  lists : m.Lists (t.entries r)
  /-- The map has only entries that the table admits. -/
  admitted : ∀ key value, m.lookup key = some value → t.refusal key value = none

/-- Work after which a table models a map, with no more stale slots than before. -/
structure Step.Renders [DecidableEq K] [Hashed K] (t : Table K V) (r : Reclaimer)
    (step : Step (Table K V) (Notice K V) α) (m : PlainMap K V) : Prop where
  /-- The table models the map. -/
  models : step.state.Models step.reclaimer m
  /-- The table is kept as before. -/
  config : step.state.config = t.config
  /-- Nothing has become stale. -/
  stale_le : (step.state.stale step.reclaimer).length ≤ (t.stale r).length

namespace Step.Renders

variable [DecidableEq K] [Hashed K] {t : Table K V} {r : Reclaimer} {m m' : PlainMap K V}

/-- Nothing is done. -/
theorem done (h : t.Models r m) (result : α) : Step.Renders t r (Step.done t r result) m :=
  ⟨h, rfl, le_rfl⟩

/-- One piece of work and then another. -/
theorem andThen {first : Step (Table K V) (Notice K V) α}
    {second : Table K V → Reclaimer → α → Step (Table K V) (Notice K V) β}
    (h₁ : first.Renders t r m)
    (h₂ : (second first.state first.reclaimer first.result).Renders first.state first.reclaimer
      m') :
    (first.andThen second).Renders t r m' :=
  ⟨h₂.models, h₂.config.trans h₁.config, h₂.stale_le.trans h₁.stale_le⟩

/-- Only what is left matters. -/
theorem same {step : Step (Table K V) (Notice K V) α} {step' : Step (Table K V) (Notice K V) β}
    (h : step.Renders t r m) (state : step'.state = step.state)
    (reclaimer : step'.reclaimer = step.reclaimer) : step'.Renders t r m := by
  obtain ⟨models, config, stale_le⟩ := h
  rw [← state, ← reclaimer] at *
  exact ⟨models, config, stale_le⟩

end Step.Renders

namespace Table

/-- What a table refuses depends on how it holds its sides. -/
theorem refusal_congr {t t' : Table K V} (config : t'.config = t.config) (key : Option K)
    (value : Option V) : t'.refusal key value = t.refusal key value := by
  unfold refusal excludes
  rw [config]

/-- A table refuses just what its map does not admit. -/
theorem refusal_eq (t : Table K V) (key : Option K) (value : Option V) :
    t.refusal key value =
      PlainMap.refusal t.config.keyStrength t.config.valueStrength key value := by
  unfold refusal excludes PlainMap.refusal
  cases key <;> cases value <;> cases t.config.keyStrength <;> cases t.config.valueStrength <;> rfl

/-- A table without a bound evicts nothing for an entry that is put. -/
theorem Sound.evicted_of_bound [DecidableEq K] [Hashed K] {t : Table K V} {r : Reclaimer}
    (h : t.Sound) (issued : r.Issued t.payloads) (unbounded : t.bound = none) (key : Option K)
    (value : Option V) : (t.insert r key value).result.evicted = [] := by
  rw [insert_eq, Step.andThen_result]
  have hpurge := accounts_purge issued (t.indexOf key)
  unfold Table.insertFound
  split
  · rfl
  · have hadd := accounts_addSlot (h.purge r _).capacity_pos hpurge.issued key value
    obtain ⟨departed, hgrow, -⟩ := accounts_grow hadd.issued
    -- The bound is still none when the table has grown.
    have hbound := hgrow.bound.trans (hadd.bound.trans (hpurge.bound.trans unbounded))
    rw [Step.andThen_result, Step.andThen_result, enforceBound, hbound]
    rfl

namespace Models

variable [DecidableEq K] [Hashed K] {t : Table K V} {r : Reclaimer} {m m' : PlainMap K V}
  {key : Option K} {value : Option V}

/-- The map without a key has only entries that the table admits. -/
theorem admitted_erase (h : t.Models r m) (key : Option K) :
    ∀ other value, (Finmap.erase key m).lookup other = some value →
      t.refusal other value = none := by
  intro other value hvalue
  by_cases hsame : other = key
  · rw [hsame, Finmap.lookup_erase] at hvalue
    cases hvalue
  · rw [Finmap.lookup_erase_ne hsame] at hvalue
    exact h.admitted other value hvalue

/-- The map with an entry that is not refused has only entries that the table admits. -/
theorem admitted_insert (h : t.Models r m) (hrefusal : t.refusal key value = none) :
    ∀ other value', (Finmap.insert key value m).lookup other = some value' →
      t.refusal other value' = none := by
  intro other value' hvalue
  by_cases hsame : other = key
  · rw [hsame, Finmap.lookup_insert] at hvalue
    cases hvalue
    rwa [hsame]
  · rw [Finmap.lookup_insert_of_ne m hsame] at hvalue
    exact h.admitted other value' hvalue

/-- Without a budget no epoch begins. -/
theorem quiet (h : t.Models r m) {step : Step (Table K V) (Notice K V) α}
    (work : step.Upholds t r) :
    step.reclaimer.epoch = r.epoch :=
  work.handover.quiet (.inl h.budget)

/-- Work that upholds a table models the map that its entries have become. -/
theorem renders (h : t.Models r m) {step : Step (Table K V) (Notice K V) α}
    (work : step.Upholds t r)
    (lists : m'.Lists (step.state.entries step.reclaimer))
    (admitted : ∀ key value, m'.lookup key = some value → t.refusal key value = none)
    (stale_le : (step.state.stale step.reclaimer).length ≤ (t.stale r).length) :
    step.Renders t r m' where
  models := by
    refine ⟨work.sound, work.issued, work.swept h.swept, ?_, ?_, lists, ?_⟩
    · exact work.handover.precedes.budget.trans h.budget
    · exact work.bound.trans h.bound
    · intro key value hvalue
      rw [refusal_congr work.config]
      exact admitted key value hvalue
  config := work.config
  stale_le := stale_le

/-- Work from which only stale slots depart changes nothing in the map. -/
theorem renders_idle (h : t.Models r m) {step : Step (Table K V) (Notice K V) α}
    (work : step.Upholds t r) {departed : List (Departure K V)}
    (accounts : Step.Accounts t r step [] departed [])
    (hnone : Departure.evictions departed = []) : step.Renders t r m := by
  have hentries := accounts.entries h.issued (h.quiet work) hnone
  simp only [List.filter_nil, List.map_nil, List.append_nil] at hentries
  exact h.renders work (h.lists.perm hentries) h.admitted
    (accounts.stale_le h.issued (h.quiet work) (List.forall_mem_nil _))

/-! ## What is found -/

/-- A live slot has the value that the map has for its key. -/
theorem lookup_of_slot (h : t.Models r m) {s : Slot K V} (hs : s ∈ t.buckets.slots)
    (hlive : s.isStale r = false) : m.lookup s.key.content = some s.value.content :=
  (h.lists.mem_iff _ _).mp (mem_entries_iff.mpr ⟨s, hs, hlive, rfl⟩)

/-- A key of the map has a live slot. -/
theorem slot_of_lookup (h : t.Models r m) (hvalue : m.lookup key = some value) :
    ∃ s ∈ t.buckets.slots, s.isStale r = false ∧ s.content = (key, value) :=
  mem_entries_iff.mp ((h.lists.mem_iff key value).mpr hvalue)

/-- Any slot of a key of the map is live and has the value of the map. -/
theorem slot_of_key (h : t.Models r m) (hvalue : m.lookup key = some value) {s : Slot K V}
    (hs : s ∈ t.buckets.slots) (hkey : s.key.content = key) :
    s.isStale r = false ∧ s.content = (key, value) := by
  obtain ⟨s', hs', hlive, hcontent⟩ := h.slot_of_lookup hvalue
  obtain rfl := h.sound.slot_eq hs' hs ((congrArg Prod.fst hcontent).trans hkey.symm)
  exact ⟨hlive, hcontent⟩

/-- No key that the table excludes has a live entry. -/
theorem admits (h : t.Models r m) : ∀ entry ∈ t.entries r, t.excludes entry.1 = false :=
  fun entry hentry => excludes_of_refusal
    (h.admitted _ _ ((h.lists.mem_iff entry.1 entry.2).mp hentry))

/-- In a bucket without stale slots any slot of the key has the value of the map. -/
theorem find_clean (h : t.Models r m)
    (clean : ∀ s ∈ t.buckets.bucket (t.indexOf key), s.isStale r = false) :
    (t.slotFor? r key).map (·.value.content) = m.lookup key :=
  Option.ext fun _ => (h.sound.find_clean_iff clean).trans (h.lists.mem_iff _ _)

/-- A bucket can be purged. -/
theorem renders_purge (h : t.Models r m) (i : Nat) : (t.purge r i).Renders t r m := by
  have haccounts := accounts_purge h.issued i
  exact h.renders_idle ⟨haccounts.toTends, h.sound.purge r i⟩ haccounts
    (Departure.evictions_all fun s hs => (List.mem_filter.mp hs).2)

/-! ## Lookups -/

/-- A lookup finds what the map has. -/
theorem renders_lookup (h : t.Models r m) (key : Option K) :
    (t.lookup r key).Renders t r m ∧ (t.lookup r key).result = m.lookup key := by
  obtain ⟨departed, haccounts, hnone⟩ := accounts_lookup h.issued key
  refine ⟨h.renders_idle (upholds_lookup h.sound h.issued key) haccounts hnone, ?_⟩
  exact Option.ext fun _ => (h.sound.result_lookup_iff h.admits).trans (h.lists.mem_iff _ _)

/-- A key is said to be in the table if it is in the map. -/
theorem containsKey_eq (h : t.Models r m) (key : Option K) :
    t.containsKey r key = (m.lookup key).isSome := by
  rw [Bool.eq_iff_iff, h.sound.containsKey_iff h.admits, Option.isSome_iff_exists]
  exact exists_congr fun value => h.lists.mem_iff key value

/-- A value is said to be in the table if a key of the map has it. -/
theorem containsValue_iff [DecidableEq V] (h : t.Models r m) (value : Option V) :
    t.containsValue r value = true ↔ ∃ key, m.lookup key = some value :=
  Table.containsValue_iff.trans (exists_congr fun key => h.lists.mem_iff key value)

/-! ## Putting -/

/-- Putting an entry answers the value that its key had. -/
theorem previous_insertFound (h : t.Models r m)
    (clean : ∀ s ∈ t.buckets.bucket (t.indexOf key), s.isStale r = false) (value : Option V) :
    (t.insertFound r key value).result.previous = m.lookup key := by
  rw [← h.find_clean clean]
  unfold insertFound
  rcases found : t.slotFor? r key with _ | slot
  · rfl
  · have hmem := (slotFor?_spec found).1
    have hhold := Handover.hold h.issued t.config.valueStrength value
    -- The registration of the new value clears nothing.
    have hlive :
        slot.value.isCleared (Held.of t.config.valueStrength value r).reclaimer = false := by
      rw [Holder.isCleared_congr fun payload hp => ?_]
      · exact (Slot.isStale_eq_false_iff.mp (clean slot hmem)).2
      · have hpayload : payload ∈ t.payloads :=
          mem_payloads (Buckets.mem_slots.mpr ⟨_, hmem⟩) (List.mem_append_right _ hp)
        exact hhold.mem_live_iff (hhold.quiet (.inl h.budget)) (h.issued.lt_next payload hpayload)
          fun hp => List.mem_append_left _ hp
    exact congrArg some (Holder.get_eq_content hlive)

/-- Putting an entry answers the value that the map had. -/
theorem previous_insert (h : t.Models r m) (key : Option K) (value : Option V) :
    (t.insert r key value).result.previous = m.lookup key := by
  rw [insert_eq, Step.andThen_result]
  exact (h.renders_purge _).models.previous_insertFound (clean_purge_indexOf h.issued key) value

/-- Putting an entry evicts none. -/
theorem evicted_insert (h : t.Models r m) (key : Option K) (value : Option V) :
    (t.insert r key value).result.evicted = [] :=
  h.sound.evicted_of_bound h.issued h.bound key value

/-- An entry that is not refused is put. -/
theorem renders_insert (h : t.Models r m) (hrefusal : t.refusal key value = none) :
    (t.insert r key value).Renders t r (Finmap.insert key value m) := by
  have hupholds := upholds_insert h.sound h.issued key value
  obtain ⟨came, departed, left, hinsertion⟩ :=
    insertion_insert h.sound.capacity_pos h.issued key value
  have hnone : Departure.evictions departed = [] :=
    hinsertion.evicted.symm.trans (h.evicted_insert key value)
  have hlasts := hinsertion.lasts
  -- A slot that leaves has the entry of the key.
  have hleft : (left.filter (·.lasts r)).map Slot.content =
      (m.lookup key).toList.map fun value => (key, value) := by
    rcases hinsertion.previous with ⟨hprevious, rfl⟩ | ⟨old, hmem, r', rfl, hkey, hprevious⟩
    · rw [h.previous_insert] at hprevious
      rw [hprevious]
      rfl
    · rw [h.previous_insert] at hprevious
      obtain ⟨hlive, hcontent⟩ := h.slot_of_key hprevious hmem hkey
      have hold : old.lasts r = true := by
        rw [lasts_eq h.issued hmem, hlive]
        rfl
      rw [List.filter_cons_of_pos hold, hprevious, List.filter_nil, List.map_singleton, hcontent]
      rfl
  have hentries := hinsertion.accounts.entries h.issued (h.quiet hupholds) hnone
  rw [List.filter_eq_self.mpr hlasts, List.map_singleton, hinsertion.content, hleft] at hentries
  exact h.renders hupholds (h.lists.insert hentries) (h.admitted_insert hrefusal)
    (hinsertion.accounts.stale_le h.issued (h.quiet hupholds) hlasts)

/-- Entries of keys and values that are not null are never refused. -/
theorem renders_putAll (h : t.Models r m) (entries : List (K × V)) :
    (t.putAll r entries).Renders t r (m.putAll entries) := by
  induction entries generalizing t r m with
  | nil => exact .done h ()
  | cons entry rest ih =>
    have hrefusal : t.refusal (some entry.1) (some entry.2) = none := rfl
    have hput : (t.put r (some entry.1) (some entry.2)).Renders t r
        (Finmap.insert (some entry.1) (some entry.2) m) := by
      unfold put
      rw [hrefusal]
      exact (h.renders_insert hrefusal).same rfl rfl
    exact hput.andThen (ih hput.models)

/-! ## Removing -/

/-- A removal answers the value of the map, if that is accepted. -/
theorem result_removeIf (h : t.Models r m) (key : Option K) (accept : Option V → Bool) :
    (t.removeIf r key accept).result = (m.lookup key).filter accept := by
  refine Option.ext fun value => ?_
  rw [h.sound.result_removeIf_iff h.admits h.issued, h.lists.mem_iff, Option.filter_eq_some_iff]

/-- If a live slot leaves, its key goes from the map. -/
theorem renders_left (h : t.Models r m) {step : Step (Table K V) (Notice K V) α}
    (work : step.Upholds t r) {departed : List (Departure K V)} {slot : Slot K V}
    (accounts : Step.Accounts t r step [] departed [slot])
    (hnone : Departure.evictions departed = []) (hslot : slot ∈ t.buckets.slots)
    (hlive : slot.isStale r = false) :
    step.Renders t r (Finmap.erase slot.key.content m) := by
  have hlasts : slot.lasts r = true := by
    rw [lasts_eq h.issued hslot, hlive]
    rfl
  have hentries := accounts.entries h.issued (h.quiet work) hnone
  rw [List.filter_cons_of_pos hlasts, List.filter_nil, List.map_nil, List.append_nil,
    List.map_singleton] at hentries
  refine h.renders work (h.lists.erase ?_) (h.admitted_erase _)
    (accounts.stale_le h.issued (h.quiet work) (List.forall_mem_nil _))
  rw [h.lookup_of_slot hslot hlive]
  exact hentries

/-- A removal takes the key out of the map, if its value is accepted. -/
theorem renders_removeIf (h : t.Models r m) (key : Option K) (accept : Option V → Bool) :
    (t.removeIf r key accept).Renders t r
      (if ((m.lookup key).filter accept).isSome then Finmap.erase key m else m) := by
  have hupholds := upholds_removeIf h.sound h.issued key accept
  obtain ⟨departed, left, haccounts, hnone, hremoved⟩ := accounts_removeIf h.issued key accept
  rw [h.result_removeIf] at hremoved
  rcases hremoved with ⟨hresult, rfl⟩ | ⟨slot, rfl, rfl, -, hresult⟩
  · rw [hresult]
    exact h.renders_idle hupholds haccounts hnone
  · have hvalue := (Option.filter_eq_some_iff.mp hresult).1
    have hslot : slot ∈ t.buckets.slots :=
      (haccounts.mem_slots (List.mem_append_right _ (List.mem_singleton_self _))).resolve_right
        List.not_mem_nil
    obtain ⟨hlive, -⟩ := h.slot_of_key hvalue hslot rfl
    rw [hresult]
    exact h.renders_left hupholds haccounts hnone hslot hlive

/-- A removal of a key takes it out of the map and answers its value. -/
theorem renders_removeEntry (h : t.Models r m) (key : Option K) :
    (t.removeEntry r key).Renders t r (Finmap.erase key m) ∧
      (t.removeEntry r key).result = m.lookup key := by
  have hrenders := h.renders_removeIf key fun _ => true
  have hresult := h.result_removeIf key fun _ => true
  rcases hvalue : m.lookup key with _ | value
  · rw [hvalue] at hrenders hresult
    rw [PlainMap.erase_of_absent hvalue]
    exact ⟨hrenders, hresult⟩
  · rw [hvalue] at hrenders hresult
    exact ⟨hrenders, hresult⟩

/-- All entries are removed. -/
theorem renders_clear (h : t.Models r m) : (t.clear r).Renders t r ∅ := by
  have hslots : (t.clear r).state.buckets.slots = [] := Buckets.slots_empty t.capacity
  refine h.renders (upholds_clear h.sound h.issued) ?_ ?_ ?_
  · unfold entries liveEntries
    rw [hslots]
    exact .empty
  · intro key value hvalue
    rw [Finmap.lookup_empty] at hvalue
    cases hvalue
  · unfold stale
    rw [hslots]
    exact Nat.zero_le _

/-- A probe that finds nothing has gone through all buckets, and nothing was in the map. -/
theorem eq_empty_of_removeRandom (h : t.Models r m) (found : (t.nearest r).found = none)
    (renders : (t.removeRandom r).Renders t r m) : m = ∅ := by
  have hnothing : (t.takeNear r).result = none := by
    show (t.nearest r).found.map _ = none
    rw [found]
    rfl
  have hbuckets : (t.removeRandom r).state.buckets = (t.takeNear r).state.buckets := by
    unfold removeRandom
    rw [Step.andThen_state, hnothing]
    rfl
  have hslots : (t.removeRandom r).state.buckets.slots = [] := by
    have hcount := h.sound.count_of_takeNear hnothing
    rw [(h.sound.takeNear r).counted] at hcount
    rw [hbuckets]
    exact List.length_eq_zero_iff.mp hcount
  have hlists := renders.models.lists
  unfold entries liveEntries at hlists
  rw [hslots] at hlists
  exact hlists.eq_empty

/-- An entry that is taken at random is one of the map, and none is only taken from an empty map. -/
theorem renders_removeRandom (h : t.Models r m) :
    ∃ m', m.Draws [(t.removeRandom r).result] m' ∧ (t.removeRandom r).Renders t r m' := by
  have hupholds := upholds_removeRandom h.sound h.issued
  have haccounts := accounts_removeRandom h.issued
  have hnone : Departure.evictions (Departure.all r (t.nearest r).stale ++ []) = [] := by
    rw [List.append_nil]
    exact Departure.evictions_all (Buckets.isStale_of_mem_stale _ _)
  have hresult : (t.removeRandom r).result = (t.nearest r).found.map (·.entry r) := rfl
  rw [hresult]
  rcases found : (t.nearest r).found with _ | slot
  · rw [found] at haccounts
    have hrenders := h.renders_idle hupholds haccounts hnone
    cases h.eq_empty_of_removeRandom found hrenders
    exact ⟨∅, .nothing .done, hrenders⟩
  · rw [found] at haccounts
    have hlive : slot.isStale r = false := Buckets.isStale_of_found _ _ found
    have hslot : slot ∈ t.buckets.slots := by
      have hmem := haccounts.mem_slots (List.mem_append_right _ List.mem_cons_self)
      exact hmem.resolve_right List.not_mem_nil
    refine ⟨_, ?_, h.renders_left hupholds haccounts hnone hslot hlive⟩
    rw [Option.map_some, Slot.entry_eq_content hlive]
    exact .entry (h.lookup_of_slot hslot hlive) .done

/-- Entries that are taken one after the other are drawn from the map. -/
theorem renders_removeRandoms (h : t.Models r m) (n : Nat) :
    ∃ m', m.Draws (t.removeRandoms r n).result m' ∧ (t.removeRandoms r n).result.length = n ∧
      (t.removeRandoms r n).Renders t r m' := by
  induction n generalizing t r m with
  | zero => exact ⟨m, .done, rfl, .done h []⟩
  | succ n ih =>
    obtain ⟨m', hfirst, hrenders⟩ := h.renders_removeRandom
    obtain ⟨m'', hrest, hlength, hrenders'⟩ := ih hrenders.models
    refine ⟨m'', ?_, ?_, hrenders.andThen (hrenders'.same rfl rfl)⟩
    · exact hfirst.append hrest
    · exact congrArg Nat.succ hlength

/-! ## Sweeping and counting -/

/-- A sweep by request leaves the map as it is. -/
theorem renders_removeExpired (h : t.Models r m) : (t.removeExpired r).Renders t r m := by
  obtain ⟨departed, haccounts, hnone⟩ := accounts_removeExpired h.issued
  exact h.renders_idle (upholds_removeExpired h.sound h.issued) haccounts hnone

/-- The entries are counted rightly. -/
theorem renders_length (h : t.Models r m) :
    (t.length r).Renders t r m ∧ (t.length r).result = m.keys.card := by
  obtain ⟨departed, haccounts, hnone⟩ := accounts_length h.issued
  refine ⟨h.renders_idle (upholds_length h.sound h.issued) haccounts hnone, ?_⟩
  rw [h.sound.result_length h.issued h.swept.stale_eq_nil, h.lists.card_keys]

/-- The entries from a bucket on are all entries in another order. -/
theorem renders_randomEntries (h : t.Models r m) :
    (t.randomEntries r).Renders t r m ∧ m.Lists (t.randomEntries r).result := by
  have hupholds := upholds_randomEntries h.sound h.issued
  refine ⟨h.renders hupholds h.lists h.admitted le_rfl, h.lists.perm ?_⟩
  set start := t.cursor.target t.capacity
  -- The buckets before the target come last.
  have hturned : t.buckets.toList ~ t.buckets.toList.drop start ++ t.buckets.toList.take start := by
    conv_lhs => rw [← List.take_append_drop start t.buckets.toList]
    exact List.perm_append_comm
  exact (hturned.flatten.filter _).map _

/-! ## All requests -/

/-- A request is answered as the map answers it if the work done for it renders the map. -/
theorem answered [DecidableEq V] {request : Request K V} {reply : Reply K V}
    {work : Step (Table K V) (Notice K V) α} (renders : work.Renders t r m')
    (state : (t.perform r request).state = work.state)
    (reclaimer : (t.perform r request).reclaimer = work.reclaimer)
    (result : (t.perform r request).result = reply)
    (answers : m.Answers t.config.keyStrength t.config.valueStrength request reply m') :
    ∃ m', m.Answers t.config.keyStrength t.config.valueStrength request
        (t.perform r request).result m' ∧
      (t.perform r request).Renders t r m' := by
  rw [← result] at answers
  exact ⟨m', answers, renders.same state reclaimer⟩

/-- An entry that is put is refused or put as the map does it. -/
theorem answers_put [DecidableEq V] (h : t.Models r m) (key : Option K) (value : Option V) :
    ∃ m', m.Answers t.config.keyStrength t.config.valueStrength (.put key value)
        (t.perform r (.put key value)).result m' ∧
      (t.perform r (.put key value)).Renders t r m' := by
  have hrefusal := t.refusal_eq key value
  rcases hcase : t.refusal key value with _ | error
  · rw [hcase] at hrefusal
    have hput : t.put r key value = (t.insert r key value).map fun placement =>
        .ok placement.previous.join := by
      unfold put
      rw [hcase]
    have hreply : (t.perform r (.put key value)).result = .value (m.lookup key).join := by
      rw [← h.previous_insert key value, perform, hput]
      rfl
    refine answered (h.renders_insert hcase) ?_ ?_ hreply (.put hrefusal.symm)
    · rw [perform, hput]
      rfl
    · rw [perform, hput]
      rfl
  · rw [hcase] at hrefusal
    have hput : t.perform r (.put key value) = .done t r (.refused error.report) := by
      rw [perform, put, hcase]
      rfl
    rw [hput]
    exact ⟨m, .refused hrefusal.symm, .done h _⟩

/-- Every request but one for another bound is answered as the map answers it, and leaves a table
that models the map afterwards. -/
theorem answers_perform [DecidableEq V] (h : t.Models r m) (request : Request K V)
    (unbounded : ∀ limit, request ≠ .setBound limit) :
    ∃ m', m.Answers t.config.keyStrength t.config.valueStrength request
        (t.perform r request).result m' ∧
      (t.perform r request).Renders t r m' := by
  cases request with
  | get key =>
    obtain ⟨hrenders, hresult⟩ := h.renders_lookup key
    exact answered hrenders rfl rfl (by rw [← hresult]; rfl) (.get key)
  | containsKey key =>
    have hresult := h.containsKey_eq key
    exact answered (.done h ()) rfl rfl (by rw [← hresult]; rfl) (.containsKey key)
  | containsValue value => exact ⟨m, .containsValue (h.containsValue_iff value), .done h _⟩
  | containsEntry key value =>
    obtain ⟨hrenders, hresult⟩ := h.renders_lookup key
    exact answered hrenders rfl rfl (by rw [← hresult]; rfl) (.containsEntry key value)
  | put key value => exact h.answers_put key value
  | putAll source =>
    cases source with
    | none => exact ⟨m, .noSource, .done h _⟩
    | some entries => exact ⟨_, .putAll entries, (h.renders_putAll entries).same rfl rfl⟩
  | remove key =>
    obtain ⟨hrenders, hresult⟩ := h.renders_removeEntry key
    exact answered hrenders rfl rfl (by rw [← hresult]; rfl) (.remove key)
  | removeKey key =>
    obtain ⟨hrenders, hresult⟩ := h.renders_removeEntry key
    exact answered hrenders rfl rfl (by rw [← hresult]; rfl) (.removeKey key)
  | removeEntry key value =>
    have hrenders := h.renders_removeIf key (· == value)
    have hresult := h.result_removeIf key (· == value)
    -- The entry goes if it is there, and it is answered whether it was.
    have hsome : ((m.lookup key).filter (· == value)).isSome = (m.lookup key == some value) := by
      rw [Option.isSome_filter]
      cases m.lookup key <;> rfl
    rw [hsome] at hrenders
    refine answered hrenders rfl rfl ?_ (.removeEntry key value)
    rw [← hsome, ← hresult]
    rfl
  | removeRandom =>
    obtain ⟨m', hdraws, hrenders⟩ := h.renders_removeRandom
    exact ⟨m', .removeRandom hdraws, hrenders.same rfl rfl⟩
  | removeRandoms n =>
    obtain ⟨m', hdraws, hlength, hrenders⟩ := h.renders_removeRandoms n
    have hanswers : m.Answers t.config.keyStrength t.config.valueStrength
        (.removeRandoms (t.removeRandoms r n).result.length)
        (t.perform r (.removeRandoms n)).result m' := .removeRandoms hdraws
    rw [hlength] at hanswers
    exact ⟨m', hanswers, hrenders.same rfl rfl⟩
  | removeExpired => exact ⟨m, .removeExpired _, h.renders_removeExpired.same rfl rfl⟩
  | length =>
    obtain ⟨hrenders, hresult⟩ := h.renders_length
    exact answered hrenders rfl rfl (by rw [← hresult]; rfl) .length
  | isEmpty =>
    obtain ⟨hrenders, hresult⟩ := h.renders_length
    exact answered hrenders rfl rfl (by rw [← hresult]; rfl) .isEmpty
  | viewLiteral view =>
    obtain ⟨hrenders, hresult⟩ := h.renders_length
    exact answered hrenders rfl rfl (by rw [← hresult]; rfl) (.viewLiteral view)
  | clear => exact ⟨∅, .clear, h.renders_clear.same rfl rfl⟩
  | setBound limit => exact absurd rfl (unbounded limit)
  | entries => exact ⟨m, .entries h.lists, .done h _⟩
  | randomEntries =>
    obtain ⟨hrenders, hlists⟩ := h.renders_randomEntries
    exact ⟨m, .randomEntries hlists, hrenders.same rfl rfl⟩
  | bound | capacity | position | metrics | config | literal | snapshot | check =>
    exact ⟨m, .inspected _ rfl, .done h _⟩

end Models

end Table

end SoftCache
