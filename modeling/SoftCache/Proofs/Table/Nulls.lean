import SoftCache.Proofs.Table.Accounts
import SoftCache.Proofs.Table.Copying

/-!
# Null is not held reclaimably

A table refuses null on a side that it holds reclaimably (`Table.refusal_eq_none_iff`), so no entry
that is put brings one in. A copy might: what is held once more is null if it has been cleared by
then, and the copy of the key of a slot is registered before its value is looked at. But that
registration clears one payload at most, the oldest, and the payload of the key is older than that
of the value. So a slot is `Slot.Full` if it has no null where the table is reclaimable and if its
key was registered before its value. Both are kept by every request (`Table.full_perform`), and a
copy of a full slot is full and has its content (`Slot.Full.again`).
-/

open scoped List

namespace SoftCache

variable {K V α β : Type}

/-- A slot without null on a side that is held reclaimably, of which the key was registered before
the value. -/
structure Slot.Full (config : Table.Config) (s : Slot K V) : Prop where
  /-- A key that is held reclaimably is not null. -/
  key : config.keyStrength = .reclaimable → s.key.content ≠ none
  /-- A value that is held reclaimably is not null. -/
  value : config.valueStrength = .reclaimable → s.value.content ≠ none
  /-- The key is older than the value. -/
  order : ∀ first ∈ s.key.payloads, ∀ second ∈ s.value.payloads, first < second

/-- Whether every slot of a table is full. -/
def Table.Full (t : Table K V) : Prop :=
  ∀ s ∈ t.buckets.slots, s.Full t.config

/-- How many payloads an entry has. -/
def Table.Config.weight (c : Table.Config) : Nat :=
  (if c.keyStrength.isStrong then 0 else 1) + (if c.valueStrength.isStrong then 0 else 1)

/-- What is held reclaimably and not null has a payload, and nothing else has. -/
theorem Holder.length_payloads {s : Strength} {h : Holder α} (suits : h.Suits s)
    (full : s = .reclaimable → h.content ≠ none) :
    h.payloads.length = if s.isStrong then 0 else 1 := by
  cases h with
  | null =>
    cases s with
    | strong => rfl
    | reclaimable => exact absurd rfl (full rfl)
  | strong content =>
    cases suits
    rfl
  | reclaimable payload content =>
    cases suits
    rfl

/-- A full slot has as many payloads as entries have. -/
theorem Slot.Full.length_payloads {config : Table.Config} {s : Slot K V} (full : s.Full config)
    (suits : s.Suits config) : s.payloads.length = config.weight := by
  rw [payloads, List.length_append, Holder.length_payloads suits.1 full.key,
    Holder.length_payloads suits.2 full.value]
  rfl

/-- A payload that is registered for a new holder has been handed out. -/
theorem Held.lt_next_of (s : Strength) (content : Option α) (r : Reclaimer) :
    ∀ payload ∈ (of s content r).holder.payloads, payload < (of s content r).reclaimer.next := by
  intro payload hp
  cases content with
  | none => cases hp
  | some content =>
    cases s with
    | strong => cases hp
    | reclaimable =>
      cases List.mem_singleton.mp hp
      show r.next < r.register.next
      rw [Reclaimer.next_register]
      exact Nat.lt_succ_self _

/-- If the slots of a table are full, and what comes is, then they are full afterwards. -/
theorem Step.Accounts.full {t : Table K V} {r : Reclaimer} {came left : List (Slot K V)}
    {departed : List (Departure K V)} {step : Step (Table K V) (Notice K V) α}
    (h : Step.Accounts t r step came departed left) (full : t.Full)
    (coming : ∀ s ∈ came, s.Full t.config) : step.state.Full := by
  intro s hs
  rw [h.config]
  rcases h.mem_slots (List.mem_append_left _ (List.mem_append_left _ hs)) with hold | hnew
  · exact full s hold
  · exact coming s hnew

namespace Table

variable {t : Table K V} {r : Reclaimer}

/-- Just an entry with null on a side that is held reclaimably is refused. -/
theorem refusal_eq_none_iff {key : Option K} {value : Option V} :
    t.refusal key value = none ↔
      (t.config.keyStrength = .reclaimable → key ≠ none) ∧
        (t.config.valueStrength = .reclaimable → value ≠ none) := by
  unfold refusal excludes
  cases t.config.keyStrength <;> cases t.config.valueStrength <;> cases key <;> cases value <;>
    simp [Strength.isStrong]

/-- What is read of a table with full slots has no null where the table is reclaimable. -/
theorem Full.refusal_of_mem_entries (full : t.Full) {entry : Entry K V}
    (there : entry ∈ t.entries r) : t.refusal entry.1 entry.2 = none := by
  obtain ⟨s, hs, -, rfl⟩ := mem_entries_iff.mp there
  exact refusal_eq_none_iff.mpr ⟨(full s hs).key, (full s hs).value⟩

/-- The entries from somewhere in the buckets on, and round, are the live entries. -/
theorem mem_randomEntries_iff {entry : Entry K V} :
    entry ∈ (t.randomEntries r).result ↔ entry ∈ t.entries r := by
  set start := t.cursor.target t.capacity
  have hturned : (t.buckets.toList.drop start ++ t.buckets.toList.take start).flatten ~
      t.buckets.slots := by
    refine .trans (List.perm_append_comm.flatten) (.of_eq ?_)
    rw [List.take_append_drop]
    rfl
  exact ((hturned.filter _).map _).mem_iff

/-! ## What is put -/

section Putting

variable [DecidableEq K] [Hashed K] {key : Option K} {value : Option V}

omit [DecidableEq K] in
/-- A slot that is made for an entry that is not refused is full. -/
theorem full_newSlot (t : Table K V) (r : Reclaimer) (admitted : t.refusal key value = none) :
    (t.newSlot r key value).Full t.config := by
  obtain ⟨hkey, hvalue⟩ := refusal_eq_none_iff.mp admitted
  refine ⟨fun hside => ?_, fun hside => ?_, fun first hfirst second hsecond => ?_⟩
  · rw [newSlot, Held.content_of]
    exact hkey hside
  · rw [newSlot, Held.content_of]
    exact hvalue hside
  · -- The key is registered first.
    exact (Held.lt_next_of _ _ _ first hfirst).trans_le
      (le_of_mem_payloads_of _ _ le_rfl second hsecond)

/-- A value that is put into the slot of its key is newer than the key. -/
theorem Full.replaceValue (full : t.Full) (issued : r.Issued t.payloads)
    (admitted : t.refusal key value = none) {slot : Slot K V}
    (found : t.slotFor? r key = some slot) : (t.replaceValue r key slot value).state.Full := by
  have hslot := Buckets.mem_slots.mpr ⟨_, (slotFor?_spec found).1⟩
  refine (accounts_replaceValue issued value found).full full fun s hs => ?_
  rw [List.mem_singleton.mp hs]
  refine ⟨(full slot hslot).key, fun hside => ?_, fun first hfirst second hsecond => ?_⟩
  · rw [Held.content_of]
    exact (refusal_eq_none_iff.mp admitted).2 hside
  · have hissued := issued.lt_next first (mem_payloads hslot (List.mem_append_left _ hfirst))
    exact hissued.trans_le (le_of_mem_payloads_of _ _ le_rfl second hsecond)

/-- An entry that is admitted fills the slot that it comes into. -/
theorem Full.insertFound (full : t.Full) (pos : 0 < t.capacity) (issued : r.Issued t.payloads)
    (admitted : t.refusal key value = none) : (t.insertFound r key value).state.Full := by
  unfold Table.insertFound
  split
  · next slot found => exact full.replaceValue issued admitted found
  · have hadd := accounts_addSlot pos issued key value
    have hadded : (t.addSlot r key value).state.Full := by
      refine hadd.full full fun s hs => ?_
      rw [List.mem_singleton.mp hs]
      exact full_newSlot t r admitted
    -- Growth and eviction bring nothing in.
    obtain ⟨_, hgrow, -⟩ := accounts_grow hadd.issued
    obtain ⟨_, hevict, -⟩ := accounts_enforceBound hgrow.issued
    exact hevict.full (hgrow.full hadded (List.forall_mem_nil _)) (List.forall_mem_nil _)

/-- A table stays full when an entry that it admits is put. -/
theorem Full.insert (full : t.Full) (pos : 0 < t.capacity) (issued : r.Issued t.payloads)
    (admitted : t.refusal key value = none) : (t.insert r key value).state.Full := by
  have hpurge := accounts_purge issued (t.indexOf key)
  have hpurged := hpurge.full full (List.forall_mem_nil _)
  rw [insert_eq]
  exact hpurged.insertFound (by rwa [capacity_purge]) hpurge.issued admitted

/-- A table stays full whatever is put: it admits an entry that fills its slot, or refuses it. -/
theorem Full.put (full : t.Full) (pos : 0 < t.capacity) (issued : r.Issued t.payloads)
    (key : Option K) (value : Option V) : (t.put r key value).state.Full := by
  unfold Table.put
  split
  · exact full
  · next admitted => exact full.insert pos issued admitted

/-- A table stays full when entries are put one after the other. -/
theorem Full.putAll (full : t.Full) (sound : t.Sound) (issued : r.Issued t.payloads)
    (entries : List (K × V)) : (t.putAll r entries).state.Full := by
  induction entries generalizing t r with
  | nil => exact full
  | cons entry rest ih =>
    have hput := upholds_put sound issued (some entry.1) (some entry.2)
    exact ih (full.put sound.capacity_pos issued _ _) hput.sound hput.issued

/-- Every request leaves the slots of a table full. -/
theorem Full.perform [DecidableEq V] (full : t.Full) (sound : t.Sound)
    (issued : r.Issued t.payloads) (request : Request K V) :
    (t.perform r request).state.Full := by
  have hnone : ∀ s ∈ ([] : List (Slot K V)), s.Full t.config := List.forall_mem_nil _
  -- Only entries that are put bring slots in.
  cases request with
  | put key value => exact full.put sound.capacity_pos issued key value
  | putAll source =>
    cases source with
    | none => exact full
    | some entries => exact full.putAll sound issued entries
  | get key | containsEntry key =>
    obtain ⟨_, hlookup, -⟩ := accounts_lookup issued key
    exact hlookup.full full hnone
  | remove key | removeKey key =>
    obtain ⟨_, _, hremove, -⟩ := accounts_removeIf issued key fun _ => true
    exact hremove.full full hnone
  | removeEntry key value =>
    obtain ⟨_, _, hremove, -⟩ := accounts_removeIf issued key (· == value)
    exact hremove.full full hnone
  | removeRandom => exact (accounts_removeRandom issued).full full hnone
  | removeRandoms n =>
    obtain ⟨_, _, hremove⟩ := accounts_removeRandoms issued n
    exact hremove.full full hnone
  | removeExpired =>
    obtain ⟨_, hswept, -⟩ := accounts_removeExpired issued
    exact hswept.full full hnone
  | length | isEmpty | viewLiteral =>
    obtain ⟨_, hcounted, -⟩ := accounts_length issued
    exact hcounted.full full hnone
  | clear => exact (accounts_clear issued).full full hnone
  | setBound bound =>
    obtain ⟨_, hbounded, -⟩ := accounts_enforceBound (t := { t with bound := bound }) issued
    exact hbounded.full full hnone
  | randomEntries | containsKey | containsValue | entries | bound | capacity | position | metrics
  | config | literal | snapshot | check => exact full

end Putting

end Table

/-! ## What is copied -/

namespace Held

/-- What is registered to hold something once more has been handed out. -/
theorem lt_next_again (h : Holder α) (r : Reclaimer) :
    ∀ payload ∈ (again h r).holder.payloads, payload < (again h r).reclaimer.next := by
  cases h with
  | null => exact List.forall_mem_nil _
  | strong content => exact List.forall_mem_nil _
  | reclaimable payload content => exact lt_next_of .reclaimable _ r

/-- What is registered to hold something once more is new. -/
theorem le_of_mem_payloads_again (h : Holder α) (r : Reclaimer) :
    ∀ payload ∈ (again h r).holder.payloads, r.next ≤ payload := by
  cases h with
  | null => exact List.forall_mem_nil _
  | strong content => exact List.forall_mem_nil _
  | reclaimable payload content => exact Table.le_of_mem_payloads_of .reclaimable _ le_rfl

end Held

namespace Reclaimer.Orderly

variable {r : Reclaimer}

/-- Holding something once more leaves the reclaimer orderly. -/
theorem again (h : r.Orderly) (holder : Holder α) : (Held.again holder r).reclaimer.Orderly := by
  have issued : r.Issued [] := ⟨h, List.nodup_nil, List.forall_mem_nil _⟩
  exact (Handover.holdAgain issued holder).issued.toOrderly

/-- Holding once more what is live clears nothing that is newer. -/
theorem live_again (h : r.Orderly) {holder : Holder α} (live : holder.isCleared r = false)
    {payload : Nat} (there : payload ∈ r.live)
    (older : ∀ first ∈ holder.payloads, first < payload) :
    payload ∈ (Held.again holder r).reclaimer.live := by
  cases holder with
  | null => exact there
  | strong content => exact there
  | reclaimable first content =>
    have hfirst : first ∈ r.live := by simpa [Holder.isCleared, isLive_iff] using live
    have hget : Holder.get r (.reclaimable first content) = some content :=
      if_pos (isLive_iff.mpr hfirst)
    rw [Held.again, hget]
    show payload ∈ r.register.live
    -- At most the oldest payload is cleared, and that is not newer than the one held once more.
    obtain ⟨oldest, rest, hlive⟩ := List.exists_cons_of_ne_nil (List.ne_nil_of_mem hfirst)
    have hsorted := h.sorted_live
    rw [h.live_register, hlive]
    rw [hlive, List.pairwise_cons] at hsorted
    rw [hlive, List.mem_cons] at there hfirst
    have hrest : payload ∈ rest := by
      refine there.resolve_left ?_
      rintro rfl
      have hlt := older first (List.mem_singleton_self _)
      rcases hfirst with rfl | hfirst
      · omega
      · have := hsorted.1 first hfirst
        omega
    split
    · exact List.mem_append_left _ hrest
    · exact List.mem_append_left _ (List.mem_cons_of_mem _ hrest)

end Reclaimer.Orderly

namespace Slot

variable {config : Table.Config} {s : Slot K V} {r : Reclaimer}

/-- The copy of a slot: its key is held once more, and then its value. -/
def again (s : Slot K V) (r : Reclaimer) : Slot K V :=
  ⟨s.hash, (Held.again s.key r).holder,
    (Held.again s.value (Held.again s.key r).reclaimer).holder⟩

/-- While the key of a live slot is held once more, its value stays live. -/
theorem Full.isCleared_value (full : s.Full config) (h : r.Orderly) (live : s.isStale r = false) :
    s.value.isCleared (Held.again s.key r).reclaimer = false := by
  by_contra hcleared
  obtain ⟨payload, hp, hdead⟩ := Holder.isCleared_iff.mp (by simpa using hcleared)
  have hkey := (isStale_eq_false_iff.mp live).1
  have hlive := mem_live live (List.mem_append_right _ hp)
  exact hdead (h.live_again hkey hlive fun first hfirst => full.order first hfirst payload hp)

/-- The copy of a live slot has its content. -/
theorem Full.content_again (full : s.Full config) (h : r.Orderly) (live : s.isStale r = false) :
    (s.again r).content = s.content := by
  have hkey := (isStale_eq_false_iff.mp live).1
  rw [content, again, Held.content_again hkey, Held.content_again (full.isCleared_value h live)]
  rfl

/-- The copy of a live slot is full. -/
theorem Full.again (full : s.Full config) (h : r.Orderly) (live : s.isStale r = false) :
    (s.again r).Full config := by
  have hcontent := full.content_again h live
  refine ⟨fun hside => ?_, fun hside => ?_, fun first hfirst second hsecond => ?_⟩
  · rw [← content_fst, hcontent]
    exact full.key hside
  · rw [← content_snd, hcontent]
    exact full.value hside
  · exact (Held.lt_next_again _ _ first hfirst).trans_le
      (Held.le_of_mem_payloads_again _ _ second hsecond)

end Slot

namespace Table

variable {t : Table K V} {r : Reclaimer} {config : Config}

/-- The copies of full slots are full. -/
theorem full_copyBucket (h : r.Orderly) {l : List (Slot K V)} (full : ∀ s ∈ l, s.Full config) :
    (copyBucket r l).reclaimer.Orderly ∧ ∀ s ∈ (copyBucket r l).copies, s.Full config := by
  induction l generalizing r with
  | nil => exact ⟨h, List.forall_mem_nil _⟩
  | cons slot rest ih =>
    have hrest := fun s hs => full s (List.mem_cons_of_mem _ hs)
    have hslot := full slot List.mem_cons_self
    unfold copyBucket
    split
    · exact ih h hrest
    · next live =>
      obtain ⟨horderly, hcopies⟩ := ih ((h.again slot.key).again slot.value) hrest
      refine ⟨horderly, List.forall_mem_cons.mpr ⟨?_, hcopies⟩⟩
      exact hslot.again h (by simpa using live)

/-- Copies of full slots are full. -/
theorem full_copyBuckets (h : r.Orderly) {l : List (List (Slot K V))}
    (full : ∀ bucket ∈ l, ∀ s ∈ bucket, s.Full config) :
    ∀ copies ∈ (copyBuckets r l).copies, ∀ s ∈ copies, s.Full config := by
  induction l generalizing r with
  | nil => exact List.forall_mem_nil _
  | cons bucket rest ih =>
    obtain ⟨horderly, hcopies⟩ := full_copyBucket h (full bucket List.mem_cons_self)
    exact List.forall_mem_cons.mpr
      ⟨hcopies, ih horderly fun bucket hb => full bucket (List.mem_cons_of_mem _ hb)⟩

/-- A copy of a table with full slots has full slots. -/
theorem Full.copy (full : t.Full) (h : r.Orderly) : (t.copy r).result.Full := by
  intro s hs
  obtain ⟨copies, hcopies, hs⟩ := List.mem_flatten.mp hs
  refine full_copyBuckets h (fun bucket hbucket s hs => ?_) copies hcopies s hs
  exact full s (List.mem_flatten.mpr ⟨bucket, hbucket, hs⟩)

end Table

end SoftCache
