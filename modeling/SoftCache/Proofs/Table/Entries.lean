import SoftCache.Proofs.Registering
import SoftCache.Proofs.Table.Ledger

/-!
# Entries that come and go

The accounts of the operations that have to do with a key: a lookup, which changes the order at
most, the putting of an entry (`insertion_insert`) and the removal of one (`accounts_removeIf`). An
entry that is put comes in one slot. If its key had a slot that was not stale, then that slot
leaves, and its value is what is answered.
-/

open scoped List

namespace SoftCache.Table

variable {K V : Type}

/-- What is left in a bucket that was purged is not stale, even now that the stale slots have been
dismissed. -/
theorem clean_purge {t : Table K V} {r : Reclaimer} (issued : r.Issued t.payloads) (i : Nat) :
    ∀ s ∈ (t.purge r i).state.buckets.bucket i, s.isStale (t.purge r i).reclaimer = false := by
  intro s hs
  have hstays : s ∈ (t.purge r i).state.buckets.slots := Buckets.mem_slots.mpr ⟨i, hs⟩
  rw [bucket_purge] at hs
  obtain ⟨hs, hlive⟩ := List.mem_filter.mp hs
  have hsame := same_of_mem (accounts_purge issued i).handover rfl issued
    (Buckets.mem_slots.mpr ⟨i, hs⟩) hstays
  rw [Slot.isStale_congr hsame]
  simpa using hlive

/-- What can be read of a table is in it. -/
theorem entries_subset_contents (t : Table K V) (r : Reclaimer) : t.entries r ⊆ t.contents := by
  intro entry hentry
  obtain ⟨s, hs, rfl⟩ := List.mem_map.mp hentry
  obtain ⟨hs, hlive⟩ := List.mem_filter.mp hs
  rw [Slot.entry_eq_content (by simpa using hlive)]
  exact List.mem_map_of_mem hs

/-- If nothing is stale, then all that is in a table can be read. -/
theorem entries_eq_contents {t : Table K V} {r : Reclaimer}
    (live : ∀ s ∈ t.buckets.slots, s.isStale r = false) : t.entries r = t.contents := by
  have hall : t.buckets.slots.filter (fun s => !s.isStale r) = t.buckets.slots :=
    List.filter_eq_self.mpr fun s hs => by simp [live s hs]
  rw [entries, liveEntries, hall]
  exact List.map_congr_left fun s hs => Slot.entry_eq_content (live s hs)

section Hash

variable [Hashed K]

/-- A purge moves no key to another bucket. -/
@[simp] theorem indexOf_purge (t : Table K V) (r : Reclaimer) (i : Nat) (key : Option K) :
    (t.purge r i).state.indexOf key = t.indexOf key := by
  rw [indexOf, indexOf, capacity_purge]

/-- The bucket of a key is clean once it was purged. -/
theorem clean_purge_indexOf {t : Table K V} {r : Reclaimer} (issued : r.Issued t.payloads)
    (key : Option K) :
    ∀ s ∈ (t.purge r (t.indexOf key)).state.buckets.bucket
      ((t.purge r (t.indexOf key)).state.indexOf key),
      s.isStale (t.purge r (t.indexOf key)).reclaimer = false := by
  rw [indexOf_purge]
  exact clean_purge issued _

/-- The slot that an entry is put into. -/
def newSlot (t : Table K V) (r : Reclaimer) (key : Option K) (value : Option V) : Slot K V :=
  ⟨nullableHash key, (Held.of t.config.keyStrength key r).holder,
    (Held.of t.config.valueStrength value (Held.of t.config.keyStrength key r).reclaimer).holder⟩

/-- A new slot has the entry that it is made for. -/
@[simp] theorem content_newSlot (t : Table K V) (r : Reclaimer) (key : Option K)
    (value : Option V) : (t.newSlot r key value).content = (key, value) := by
  simp [newSlot, Slot.content]

/-- A payload that is registered for a new holder is new. -/
theorem le_of_mem_payloads_of {α : Type} (s : Strength) (content : Option α) {r r' : Reclaimer}
    (h : r.next ≤ r'.next) :
    ∀ payload ∈ (Held.of s content r').holder.payloads, r.next ≤ payload := by
  intro payload hp
  cases content with
  | none => cases hp
  | some content =>
    cases s with
    | strong => cases hp
    | reclaimable =>
      cases List.mem_singleton.mp hp
      exact h

/-- A payload that is registered for a new holder is the last one. -/
theorem last_of_mem_payloads_of {α : Type} (s : Strength) (content : Option α) (r : Reclaimer) :
    ∀ payload ∈ (Held.of s content r).holder.payloads,
      payload + 1 = (Held.of s content r).reclaimer.next := by
  intro payload hp
  cases content with
  | none => cases hp
  | some content =>
    cases s with
    | strong => cases hp
    | reclaimable =>
      cases List.mem_singleton.mp hp
      exact r.next_register.symm

/-- A new entry comes in a new slot. -/
theorem accounts_addSlot {t : Table K V} (pos : 0 < t.capacity) {r : Reclaimer}
    (issued : r.Issued t.payloads) (key : Option K) (value : Option V) :
    Step.Accounts t r (t.addSlot r key value) [t.newSlot r key value] [] [] := by
  have hslots : (t.addSlot r key value).state.buckets.slots ~
      t.buckets.slots ++ [t.newSlot r key value] := t.buckets.slots_push _ pos
  have hkey := Handover.hold issued t.config.keyStrength key
  have hboth := hkey.trans (.hold hkey.issued t.config.valueStrength value)
  constructor
  case toTends =>
    -- The key is registered first and then the value.
    refine .ofHandover (hboth.perm .rfl ?_) rfl rfl rfl
    refine .trans ?_ (payloads_perm hslots).symm
    rw [List.flatMap_append, List.flatMap_singleton, Slot.payloads, ← List.append_assoc]
    exact .rfl
  case balance =>
    rw [List.map_nil, List.append_nil, List.append_nil]
    exact hslots.symm
  case notices => rfl
  case suits =>
    intro _ s hs
    rw [List.mem_singleton.mp hs]
    exact ⟨Held.suits_of .., Held.suits_of ..⟩
  case arrival =>
    intro s hs payload hp
    rw [List.mem_singleton.mp hs] at hp
    refine .inr ?_
    rcases List.mem_append.mp hp with hp | hp
    · exact le_of_mem_payloads_of _ _ le_rfl payload hp
    · exact le_of_mem_payloads_of _ _ (Held.precedes_of _ key r).next_le payload hp
  case lost => simp
  case during => simp

/-- What putting an entry comes to in the ledger: the entry comes in one slot, and the old slot of
its key leaves if there is one that is not stale. -/
structure Insertion (t : Table K V) (r : Reclaimer) (key : Option K) (value : Option V)
    (step : Step (Table K V) (Notice K V) (Placement K V)) (came : Slot K V)
    (departed : List (Departure K V)) (left : List (Slot K V)) : Prop where
  /-- The account of the work. -/
  accounts : Step.Accounts t r step [came] departed left
  /-- The slot that comes has the entry. -/
  content : came.content = (key, value)
  /-- The key is live or registered anew. -/
  kept : ∀ payload ∈ came.key.payloads, payload ∈ r.live ∨ r.next ≤ payload
  /-- The value is registered anew. -/
  fresh : ∀ payload ∈ came.value.payloads, r.next ≤ payload
  /-- After the value nothing is registered. -/
  last : ∀ payload ∈ came.value.payloads, payload + 1 = step.reclaimer.next
  /-- The entries that depart although they are live are answered. -/
  evicted : step.result.evicted = Departure.evictions departed
  /-- The value of the slot that leaves is answered. -/
  previous : (step.result.previous = none ∧ left = []) ∨
    ∃ old ∈ t.buckets.slots, ∃ r', left = [old] ∧ old.key.content = key ∧
      step.result.previous = some (old.value.get r')

omit [Hashed K] in
/-- If the key has no slot, then none leaves. -/
theorem Insertion.left_eq_nil {t : Table K V} {r : Reclaimer} {key : Option K} {value : Option V}
    {step : Step (Table K V) (Notice K V) (Placement K V)} {came : Slot K V}
    {departed : List (Departure K V)} {left : List (Slot K V)}
    (h : Insertion t r key value step came departed left)
    (absent : key ∉ t.contents.map Prod.fst) : left = [] := by
  rcases h.previous with ⟨-, hnil⟩ | ⟨old, hold, -, -, hkey, -⟩
  · exact hnil
  · have hmem := List.mem_map_of_mem (f := Prod.fst) (List.mem_map_of_mem (f := Slot.content) hold)
    rw [Slot.content_fst, hkey] at hmem
    exact absurd hmem absent

/-- Putting a value to a key that has no slot. -/
theorem insertion_addSlot {t : Table K V} (pos : 0 < t.capacity) {r : Reclaimer}
    (issued : r.Issued t.payloads) (key : Option K) (value : Option V) :
    ∃ came departed left, Insertion t r key value
      ((t.addSlot r key value).andThen fun t r _ =>
        (t.grow r).andThen fun t r _ =>
          (t.enforceBound r).map fun evicted => ⟨none, evicted⟩) came departed left := by
  have hadd := accounts_addSlot pos issued key value
  obtain ⟨grown, hgrow, hnone⟩ := accounts_grow hadd.issued
  obtain ⟨evicted, hevict, hresult⟩ := accounts_enforceBound hgrow.issued
  refine ⟨_, _, _, hadd.andThen (hgrow.andThen (hevict.map _)), content_newSlot t r key value,
    ?_, ?_, ?_, ?_, .inl ⟨rfl, rfl⟩⟩
  · exact fun payload hp => .inr (le_of_mem_payloads_of _ _ le_rfl payload hp)
  · exact le_of_mem_payloads_of _ _ (Held.precedes_of _ key r).next_le
  · intro payload hp
    refine (last_of_mem_payloads_of _ _ _ payload hp).trans ?_
    exact ((next_enforceBound _ _).trans (next_grow _ _)).symm
  · rw [List.nil_append, Departure.evictions_append, hnone, List.nil_append, ← hresult]
    rfl

end Hash

section Keys

variable [DecidableEq K] [Hashed K]

/-- Touching an entry only changes the order. -/
theorem slots_touch (t : Table K V) (r : Reclaimer) (key : Option K) :
    t.buckets.slots ~ (t.touch r key).buckets.slots := by
  unfold touch
  split
  · exact .rfl
  · -- The slot moves to the end of its bucket.
    have hmoved := (moveToBack_perm (·.isFor r (nullableHash key) key)
      (t.buckets.bucket (t.indexOf key))).symm
    simpa using t.buckets.slots_set_perm (t.indexOf key) [] (by simpa using hmoved)

/-- Touching an entry changes nothing that was fixed. -/
theorem config_touch (t : Table K V) (r : Reclaimer) (key : Option K) :
    (t.touch r key).config = t.config := by
  unfold touch
  split <;> rfl

/-- Touching an entry leaves the bound as it is. -/
theorem bound_touch (t : Table K V) (r : Reclaimer) (key : Option K) :
    (t.touch r key).bound = t.bound := by
  unfold touch
  split <;> rfl

/-- Touching an entry is no sweep. -/
theorem sweptEpoch_touch (t : Table K V) (r : Reclaimer) (key : Option K) :
    (t.touch r key).sweptEpoch = t.sweptEpoch := by
  unfold touch
  split <;> rfl

/-- The work of a lookup on what its scan meets. -/
def tidy (t : Table K V) (r : Reclaimer) (key : Option K) :
    Step (Table K V) (Notice K V) Unit :=
  if t.meetsStale r key then t.purge r (t.indexOf key) else .done t r ()

/-- A lookup tidies up and then counts a hit or a miss. -/
theorem lookup_eq {t : Table K V} {key : Option K} (r : Reclaimer) (h : t.excludes key = false) :
    t.lookup r key =
      (t.tidy r key).andThen fun t' r' _ =>
        match (t.slotFor? r key).filter fun slot => !slot.value.isCleared r with
        | none => .done (t'.tally fun m => { m with misses := m.misses + 1 }) r' none
        | some slot =>
          .done ((t'.tally fun m => { m with hits := m.hits + 1 }).touch r' key) r'
            (some (slot.value.get r)) := by
  rw [lookup, if_neg (by simp [h])]
  rfl

/-- From a table that is tidied up only stale slots depart. -/
theorem accounts_tidy {t : Table K V} {r : Reclaimer} (issued : r.Issued t.payloads)
    (key : Option K) :
    ∃ departed, Step.Accounts t r (t.tidy r key) [] departed [] ∧
      Departure.evictions departed = [] := by
  unfold tidy
  split
  · exact ⟨_, accounts_purge issued _,
      Departure.evictions_all fun s hs => (List.mem_filter.mp hs).2⟩
  · exact ⟨[], .done issued (), rfl⟩

/-- From a table in which a key is looked up only stale slots depart. -/
theorem accounts_lookup {t : Table K V} {r : Reclaimer} (issued : r.Issued t.payloads)
    (key : Option K) :
    ∃ departed, Step.Accounts t r (t.lookup r key) [] departed [] ∧
      Departure.evictions departed = [] := by
  by_cases h : t.excludes key = true
  · rw [lookup, if_pos h]
    exact ⟨[], .still issued rfl rfl rfl .rfl rfl rfl, rfl⟩
  · rw [lookup_eq r (by simpa using h)]
    obtain ⟨departed, htidy, hnone⟩ := accounts_tidy issued key
    refine ⟨departed ++ [], htidy.andThen ?_, by simpa using hnone⟩
    split
    · exact .still htidy.issued rfl rfl rfl .rfl rfl rfl
    · -- Only a hit moves the slot, and that changes the order alone.
      refine .still htidy.issued (config_touch _ _ _) (bound_touch _ _ _) (sweptEpoch_touch _ _ _)
        ?_ rfl rfl
      exact slots_touch (tally _ _) _ _

/-- The slot of a key is in the bucket of the key and has the key for its content. -/
theorem slotFor?_spec {t : Table K V} {r : Reclaimer} {key : Option K} {slot : Slot K V}
    (found : t.slotFor? r key = some slot) :
    slot ∈ t.buckets.bucket (t.indexOf key) ∧ slot.hash = nullableHash key ∧
      slot.key.isCleared r = false ∧ slot.key.content = key :=
  ⟨List.mem_of_find?_eq_some found, Slot.isFor_iff.mp (List.find?_some found)⟩

/-- A key that a table is said to contain is the key of one of its slots. -/
theorem mem_keys_of_containsKey {t : Table K V} {r : Reclaimer} {key : Option K}
    (found : t.containsKey r key = true) : key ∈ t.contents.map Prod.fst := by
  rw [containsKey, Bool.and_eq_true, List.any_eq_true] at found
  obtain ⟨-, s, hs, hfound⟩ := found
  obtain ⟨hfor, -⟩ := (Bool.and_eq_true _ _).mp hfound
  obtain ⟨-, -, hkey⟩ := Slot.isFor_iff.mp hfor
  have hcontent := List.mem_map_of_mem (f := Slot.content) (Buckets.mem_slots.mpr ⟨_, hs⟩)
  exact List.mem_map.mpr ⟨s.content, hcontent, hkey⟩

/-- A new value takes the place of the old one in its bucket, at the same place or at the end. -/
theorem buckets_replaceValue (t : Table K V) (r : Reclaimer) (key : Option K) (value : Option V)
    {slot : Slot K V} (found : t.slotFor? r key = some slot) :
    ∃ rest l, t.buckets.bucket (t.indexOf key) ~ slot :: rest ∧
      l ~ { slot with value := (Held.of t.config.valueStrength value r).holder } :: rest ∧
      (t.replaceValue r key slot value).state.buckets = t.buckets.set (t.indexOf key) l := by
  obtain ⟨-, before, after, hbucket, herase, hreplace⟩ := split_of_find? found
  -- By insertion a slot keeps its place, and by recency it moves to the end.
  cases horder : t.config.order with
  | insertion =>
    refine ⟨before ++ after, _, ?_, List.perm_middle, ?_⟩
    · rw [hbucket]
      exact List.perm_middle
    · simp only [replaceValue, horder]
      rw [hreplace]
  | recency =>
    refine ⟨before ++ after, _, ?_, (List.perm_append_singleton _ _), ?_⟩
    · rw [hbucket]
      exact List.perm_middle
    · simp only [replaceValue, horder]
      rw [herase]

/-- A new value comes in a slot of its own, and the old slot leaves. -/
theorem slots_replaceValue (t : Table K V) (r : Reclaimer) (key : Option K) (value : Option V)
    {slot : Slot K V} (found : t.slotFor? r key = some slot) :
    t.buckets.slots ++ [{ slot with value := (Held.of t.config.valueStrength value r).holder }] ~
      (t.replaceValue r key slot value).state.buckets.slots ++ [slot] := by
  obtain ⟨rest, l, hbucket, hl, hset⟩ := t.buckets_replaceValue r key value found
  rw [hset]
  refine t.buckets.slots_exchange (Buckets.lt_size_of_mem (slotFor?_spec found).1) ?_
  refine (hbucket.append_right _).trans (.trans ?_ (hl.symm.append_right _))
  rw [List.cons_append, List.cons_append]
  refine ((List.perm_append_singleton _ _).cons _).trans (.trans (.swap _ _ _) ?_)
  exact (List.perm_append_singleton _ _).symm.cons _

/-- A new value comes in a slot of its own, and the old slot leaves. The old value is given up only
when the new one has been registered. -/
theorem accounts_replaceValue {t : Table K V} {r : Reclaimer} (issued : r.Issued t.payloads)
    {key : Option K} (value : Option V) {slot : Slot K V} (found : t.slotFor? r key = some slot) :
    Step.Accounts t r (t.replaceValue r key slot value)
      [{ slot with value := (Held.of t.config.valueStrength value r).holder }] [] [slot] := by
  have hslot := (slotFor?_spec found).1
  have balance := t.slots_replaceValue r key value found
  constructor
  case toTends =>
    have hhold := Handover.hold issued t.config.valueStrength value
    refine .ofHandover (hhold.trans (.release hhold.issued ?_)) rfl rfl rfl
    have hpayloads := balance.flatMap_right Slot.payloads
    rw [List.flatMap_append, List.flatMap_append, List.flatMap_singleton, List.flatMap_singleton,
      Slot.payloads, Slot.payloads] at hpayloads
    -- The payload of the key is on both sides.
    rw [List.perm_iff_count] at hpayloads ⊢
    intro payload
    have hcount := hpayloads payload
    simp only [payloads, List.count_append] at hcount ⊢
    omega
  case balance =>
    rw [List.map_nil, List.append_nil]
    exact balance
  case notices => rfl
  case suits =>
    intro hsuits s hs
    rw [List.mem_singleton.mp hs]
    exact ⟨(hsuits slot (Buckets.mem_slots.mpr ⟨_, hslot⟩)).1, Held.suits_of ..⟩
  case arrival =>
    intro s hs payload hp
    rw [List.mem_singleton.mp hs] at hp
    rcases List.mem_append.mp hp with hp | hp
    · exact .inl (mem_payloads (Buckets.mem_slots.mpr ⟨_, hslot⟩) (List.mem_append_left _ hp))
    · exact .inr (le_of_mem_payloads_of _ _ le_rfl payload hp)
  case lost => simp
  case during => simp

/-- Putting a value to a key that has a slot. -/
theorem insertion_replaceValue {t : Table K V} {r : Reclaimer} (issued : r.Issued t.payloads)
    {key : Option K} (value : Option V) {slot : Slot K V}
    (found : t.slotFor? r key = some slot) :
    ∃ came left, Insertion t r key value (t.replaceValue r key slot value) came [] left := by
  obtain ⟨-, -, hlive, hkey⟩ := slotFor?_spec found
  refine ⟨_, _, accounts_replaceValue issued value found, ?_, ?_, ?_, ?_, rfl, .inr ?_⟩
  · simp [Slot.content, hkey]
  · intro payload hp
    by_contra hdead
    -- The key was found live.
    have hcleared := Holder.isCleared_iff.mpr ⟨payload, hp, fun hl => hdead (.inl hl)⟩
    rw [hlive] at hcleared
    cases hcleared
  · exact le_of_mem_payloads_of _ _ le_rfl
  · exact last_of_mem_payloads_of _ _ _
  · have hslot := Buckets.mem_slots.mpr ⟨_, (slotFor?_spec found).1⟩
    exact ⟨slot, hslot, _, rfl, hkey, rfl⟩

/-- Puts an entry into the slot of its key, or into a new one. -/
def insertFound (t : Table K V) (r : Reclaimer) (key : Option K) (value : Option V) :
    Step (Table K V) (Notice K V) (Placement K V) :=
  match t.slotFor? r key with
  | some slot => t.replaceValue r key slot value
  | none =>
    (t.addSlot r key value).andThen fun t r _ =>
      (t.grow r).andThen fun t r _ =>
        (t.enforceBound r).map fun evicted => ⟨none, evicted⟩

/-- Putting an entry begins with a purge of the bucket of its key. -/
theorem insert_eq (t : Table K V) (r : Reclaimer) (key : Option K) (value : Option V) :
    t.insert r key value =
      (t.purge r (t.indexOf key)).andThen fun t r _ => t.insertFound r key value := rfl

/-- Putting an entry into the slot of its key, or into a new one. -/
theorem insertion_insertFound {t : Table K V} (pos : 0 < t.capacity) {r : Reclaimer}
    (issued : r.Issued t.payloads) (key : Option K) (value : Option V) :
    ∃ came departed left,
      Insertion t r key value (t.insertFound r key value) came departed left := by
  unfold insertFound
  split
  · next slot found =>
    obtain ⟨came, left, h⟩ := insertion_replaceValue issued value found
    exact ⟨came, [], left, h⟩
  · exact insertion_addSlot pos issued key value

/-- Putting an entry. -/
theorem insertion_insert {t : Table K V} (pos : 0 < t.capacity) {r : Reclaimer}
    (issued : r.Issued t.payloads) (key : Option K) (value : Option V) :
    ∃ came departed left, Insertion t r key value (t.insert r key value) came departed left := by
  have hpurge := accounts_purge issued (t.indexOf key)
  have hevictions : Departure.evictions (Departure.all r
      ((t.buckets.bucket (t.indexOf key)).filter fun s => s.isStale r)) = [] :=
    Departure.evictions_all fun s hs => (List.mem_filter.mp hs).2
  obtain ⟨came, departed, left, h⟩ :=
    insertion_insertFound (by rwa [capacity_purge]) hpurge.issued key value
  rw [insert_eq]
  refine ⟨came, _ ++ departed, left, hpurge.andThen h.accounts, h.content, ?_, ?_, h.last, ?_, ?_⟩
  · intro payload hp
    -- What is live after the purge was live before it, unless it is new.
    have hnext := hpurge.handover.precedes.next_le
    by_cases hn : payload < r.next
    · refine .inl (hpurge.handover.precedes.live payload hn ?_)
      exact (h.kept payload hp).resolve_right (by omega)
    · exact .inr (by omega)
  · exact fun payload hp => hpurge.handover.precedes.next_le.trans (h.fresh payload hp)
  · rw [Departure.evictions_append, hevictions, List.nil_append]
    exact h.evicted
  · refine h.previous.imp_right ?_
    rintro ⟨old, hold, rest⟩
    -- The purge brings no slots in.
    have hthere := hpurge.mem_slots (List.mem_append_left _ (List.mem_append_left _ hold))
    exact ⟨old, hthere.resolve_right (by simp), rest⟩

/-- The removal of the slot that a key has. -/
def removal (t : Table K V) (r : Reclaimer) (key : Option K) (slot : Slot K V) :
    Step (Table K V) (Notice K V) (Option (Option V)) where
  result := some (slot.value.get r)
  state :=
    { t with
      buckets := t.buckets.set (t.indexOf key)
        ((t.buckets.bucket (t.indexOf key)).eraseP (·.isFor r (nullableHash key) key))
      count := t.count - 1
      metrics := { t.metrics with removes := t.metrics.removes + 1 } }
  reclaimer := r.dismiss [slot]
  notices := []
  log := []

/-- Removes the slot of the key, if there is one with a value that is accepted. -/
def removeFound (t : Table K V) (r : Reclaimer) (key : Option K) (accept : Option V → Bool) :
    Step (Table K V) (Notice K V) (Option (Option V)) :=
  match t.slotFor? r key with
  | none => .done t r none
  | some slot => if accept (slot.value.get r) then t.removal r key slot else .done t r none

/-- A removal begins with a purge of the bucket of the key. -/
theorem removeIf_eq {t : Table K V} {key : Option K} (r : Reclaimer) (accept : Option V → Bool)
    (h : t.excludes key = false) :
    t.removeIf r key accept =
      (t.purge r (t.indexOf key)).andThen fun t r _ => t.removeFound r key accept := by
  rw [removeIf, if_neg (by simp [h])]
  rfl

/-- The slot that is removed leaves. -/
theorem accounts_removal {t : Table K V} {r : Reclaimer} (issued : r.Issued t.payloads)
    {key : Option K} {slot : Slot K V} (found : t.slotFor? r key = some slot) :
    Step.Accounts t r (t.removal r key slot) [] [] [slot] := by
  have hnone : ∀ s ∈ ([] : List (Slot K V)), s.isStale r = true := List.forall_mem_nil _
  refine .ofStale issued rfl rfl rfl hnone ?_ rfl rfl
  obtain ⟨-, before, after, hbucket, herase, -⟩ := split_of_find? found
  rw [List.append_nil]
  refine t.buckets.slots_set_perm _ _ ?_
  rw [herase, hbucket]
  exact List.perm_middle.trans (List.perm_append_singleton _ _).symm

/-- What a removal answers: nothing, or the value of the one slot that leaves, if that is
accepted. -/
def Removed (key : Option K) (accept : Option V → Bool) (result : Option (Option V))
    (left : List (Slot K V)) : Prop :=
  (result = none ∧ left = []) ∨
    ∃ slot : Slot K V, left = [slot] ∧ slot.key.content = key ∧ accept slot.value.content = true ∧
      result = some slot.value.content

/-- In a bucket without stale slots the slot of the key leaves if its value is accepted. -/
theorem accounts_removeFound {t : Table K V} {r : Reclaimer} (issued : r.Issued t.payloads)
    {key : Option K} (clean : ∀ s ∈ t.buckets.bucket (t.indexOf key), s.isStale r = false)
    (accept : Option V → Bool) :
    ∃ left, Step.Accounts t r (t.removeFound r key accept) [] [] left ∧
      Removed key accept (t.removeFound r key accept).result left := by
  unfold removeFound
  split
  · exact ⟨[], .done issued none, .inl ⟨rfl, rfl⟩⟩
  · next slot found =>
    obtain ⟨hmem, -, -, hkey⟩ := slotFor?_spec found
    have hlive := (Slot.isStale_eq_false_iff.mp (clean slot hmem)).2
    split
    · next accepted =>
      rw [Holder.get_eq_content hlive] at accepted
      refine ⟨[slot], accounts_removal issued found, .inr ⟨slot, rfl, hkey, accepted, ?_⟩⟩
      rw [removal, Holder.get_eq_content hlive]
    · exact ⟨[], .done issued none, .inl ⟨rfl, rfl⟩⟩

/-- Removing an entry: stale slots depart, and the slot of the key leaves if its value is
accepted. -/
theorem accounts_removeIf {t : Table K V} {r : Reclaimer} (issued : r.Issued t.payloads)
    (key : Option K) (accept : Option V → Bool) :
    ∃ departed left, Step.Accounts t r (t.removeIf r key accept) [] departed left ∧
      Departure.evictions departed = [] ∧
      Removed key accept (t.removeIf r key accept).result left := by
  by_cases h : t.excludes key = true
  · rw [removeIf, if_pos h]
    exact ⟨[], [], .done issued none, rfl, .inl ⟨rfl, rfl⟩⟩
  · rw [removeIf_eq r accept (by simpa using h)]
    have hpurge := accounts_purge issued (t.indexOf key)
    obtain ⟨left, hfound, hresult⟩ :=
      accounts_removeFound hpurge.issued (clean_purge_indexOf issued key) accept
    refine ⟨_, left, hpurge.andThen hfound, ?_, hresult⟩
    rw [List.append_nil]
    exact Departure.evictions_all fun s hs => (List.mem_filter.mp hs).2

end Keys

end SoftCache.Table
