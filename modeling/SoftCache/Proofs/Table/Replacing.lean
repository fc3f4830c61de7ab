import Mathlib.Data.List.Pairwise
import SoftCache.Proofs.Renewal
import SoftCache.Proofs.Table.Nulls
import SoftCache.Proofs.Table.Reading

/-!
# Replacing a value

A value that replaces another is registered while the old one is still held, and is answered only
then. So under a budget that is spent the registration clears one payload too many: the oldest one,
whether or not it is that of the old value. A live entry that holds it is lost although what remains
would fit, and if the old value itself holds it, then null is answered. If no live entry holds it,
the value is replaced as it should be (`Table.Sound.replacing_iff`).
-/

open scoped List

namespace SoftCache

variable {K V α : Type}

/-- What holding something with this strength clears of what is live. -/
def Strength.dooms (s : Strength) (r : Reclaimer) : List Nat :=
  match s with
  | .strong => []
  | .reclaimable => r.doomed 1

/-- What is live and not doomed outlasts the making of a holder. -/
theorem Held.mem_live_of_iff {r : Reclaimer} (h : r.Orderly) (s : Strength) (content : α)
    {payload : Nat} (there : payload ∈ r.live) :
    payload ∈ (of s (some content) r).reclaimer.live ↔ payload ∉ s.dooms r := by
  cases s with
  | strong => exact iff_of_true there List.not_mem_nil
  | reclaimable => exact (Reclaimer.Renews.register h).mem_live_iff h (h.overrun_one_le there) there

/-- A slot is live after a new holder was made just if it was and holds nothing that was doomed. -/
theorem Slot.isStale_of_iff {r : Reclaimer} (h : r.Orderly) (s : Strength) (content : α)
    {slot : Slot K V} (live : slot.isStale r = false) :
    slot.isStale (Held.of s (some content) r).reclaimer = false ↔
      ∀ payload ∈ slot.payloads, payload ∉ s.dooms r := by
  rw [isStale_eq_false_iff_live]
  exact forall₂_congr fun payload hp => Held.mem_live_of_iff h s content (mem_live live hp)

namespace Table

variable {t : Table K V} {r : Reclaimer}

/-- A slot that is live outlasts a purge. -/
theorem mem_purge_of_live (issued : r.Issued t.payloads) (i : Nat) {s : Slot K V}
    (hs : s ∈ t.buckets.slots) (live : s.isStale r = false) :
    s ∈ (t.purge r i).state.buckets.slots ∧ s.isStale (t.purge r i).reclaimer = false := by
  have hpurge := accounts_purge issued i
  have hstays : s ∈ (t.purge r i).state.buckets.slots := by
    have hsplit := hpurge.balance.subset (List.mem_append_left _ hs)
    rw [List.append_nil, Departure.map_slot_all] at hsplit
    refine (List.mem_append.mp hsplit).resolve_right fun hstale => ?_
    have hstale := (List.mem_filter.mp hstale).2
    rw [live] at hstale
    cases hstale
  exact ⟨hstays, (Slot.isStale_congr (same_of_mem hpurge.handover rfl issued hs hstays)).trans live⟩

/-- A slot that is live after a purge was there and live before it. -/
theorem mem_of_mem_purge (issued : r.Issued t.payloads) (i : Nat) {s : Slot K V}
    (hs : s ∈ (t.purge r i).state.buckets.slots)
    (live : s.isStale (t.purge r i).reclaimer = false) :
    s ∈ t.buckets.slots ∧ s.isStale r = false := by
  have hpurge := accounts_purge issued i
  have hwas : s ∈ t.buckets.slots :=
    (hpurge.mem_slots (List.mem_append_left _ (List.mem_append_left _ hs))).resolve_right
      List.not_mem_nil
  exact ⟨hwas,
    (Slot.isStale_congr (same_of_mem hpurge.handover rfl issued hwas hs)).symm.trans live⟩

/-- A key whose slots are all stale has no slot once its bucket was purged. -/
theorem missing_of_stale [DecidableEq K] [Hashed K] (issued : r.Issued t.payloads) {key : Option K}
    (stale : ∀ s ∈ t.buckets.slots, s.key.content = key → s.isStale r = true) :
    (t.purge r (t.indexOf key)).state.slotFor? (t.purge r (t.indexOf key)).reclaimer key =
      none := by
  by_contra hsome
  obtain ⟨slot, found⟩ := Option.ne_none_iff_exists'.mp hsome
  obtain ⟨hmem, -, -, hkey⟩ := slotFor?_spec found
  have hlive := clean_purge_indexOf issued key slot hmem
  obtain ⟨hthere, hwas⟩ := mem_of_mem_purge issued _ (Buckets.mem_slots.mpr ⟨_, hmem⟩) hlive
  rw [stale slot hthere hkey] at hwas
  cases hwas

/-- A purge leaves the live entries. -/
theorem mem_entries_purge_iff (issued : r.Issued t.payloads) (i : Nat) {entry : Entry K V} :
    entry ∈ (t.purge r i).state.entries (t.purge r i).reclaimer ↔ entry ∈ t.entries r := by
  simp only [mem_entries_iff]
  constructor
  · rintro ⟨s, hs, live, rfl⟩
    obtain ⟨hs, live⟩ := mem_of_mem_purge issued i hs live
    exact ⟨s, hs, live, rfl⟩
  · rintro ⟨s, hs, live, rfl⟩
    obtain ⟨hs, live⟩ := mem_purge_of_live issued i hs live
    exact ⟨s, hs, live, rfl⟩

/-- No two slots of a table hold the same payload. -/
theorem not_mem_payloads (issued : r.Issued t.payloads) {s s' : Slot K V}
    (hs : s ∈ t.buckets.slots) (hs' : s' ∈ t.buckets.slots) (hne : s ≠ s') {payload : Nat}
    (hp : payload ∈ s.payloads) : payload ∉ s'.payloads := by
  have hdisjoint := (List.nodup_flatMap.mp issued.nodup).2
  have hsymm : Std.Symm (Function.onFun List.Disjoint (Slot.payloads (K := K) (V := V))) :=
    ⟨fun _ _ h => List.disjoint_symm h⟩
  exact fun hp' => hdisjoint.forall hs hs' hne hp hp'

/-- Neither do the two sides of a slot. -/
theorem not_mem_value_payloads (issued : r.Issued t.payloads) {s : Slot K V}
    (hs : s ∈ t.buckets.slots) {payload : Nat} (hp : payload ∈ s.key.payloads) :
    payload ∉ s.value.payloads := by
  have hnodup := (List.nodup_flatMap.mp issued.nodup).1 s hs
  exact fun hp' => (List.nodup_append.mp hnodup).2.2 payload hp payload hp' rfl

/-! ## The slot of the key -/

section Slots

variable [DecidableEq K] [Hashed K] {key : Option K} {slot : Slot K V}

/-- The slot that has the new value. -/
def renewed (t : Table K V) (r : Reclaimer) (slot : Slot K V) (value : V) : Slot K V :=
  { slot with value := (Held.of t.config.valueStrength (some value) r).holder }

/-- After a value was replaced, the slot of the key is renewed and the others are as they were. -/
theorem Coherent.mem_replaceValue_iff (h : t.Coherent) (found : t.slotFor? r key = some slot)
    (value : V) {s : Slot K V} :
    s ∈ (t.replaceValue r key slot (some value)).state.buckets.slots ↔
      s = t.renewed r slot value ∨ s ∈ t.buckets.slots ∧ s ≠ slot := by
  classical
  have hslot := Buckets.mem_slots.mpr ⟨_, (slotFor?_spec found).1⟩
  have hnodup : t.buckets.slots.Nodup := h.distinct.of_map
  have hbalance := t.slots_replaceValue r key (some value) found
  -- The slot of the key is taken from both sides.
  have hold : t.buckets.slots ++ [t.renewed r slot value] ~
      (t.renewed r slot value :: t.buckets.slots.erase slot) ++ [slot] := by
    refine (List.perm_append_singleton _ _).trans (.cons _ ?_)
    exact (List.perm_cons_erase hslot).trans (List.perm_append_singleton _ _).symm
  have hnew := (List.perm_append_right_iff _).mp (hbalance.symm.trans hold)
  rw [hnew.mem_iff, List.mem_cons, hnodup.mem_erase_iff, and_comm (a := s ≠ slot)]

variable (issued : r.Issued t.payloads) (found : t.slotFor? r key = some slot)
  (live : slot.isStale r = false) (value : V)

include issued found

/-- Another slot is live afterwards just if it was and holds nothing that was doomed. -/
theorem isStale_replaceValue_of_ne {s : Slot K V} (hs : s ∈ t.buckets.slots) (hne : s ≠ slot)
    (alive : s.isStale r = false) :
    s.isStale (t.replaceValue r key slot (some value)).reclaimer = false ↔
      ∀ payload ∈ s.payloads, payload ∉ t.config.valueStrength.dooms r := by
  have hslot := Buckets.mem_slots.mpr ⟨_, (slotFor?_spec found).1⟩
  rw [← Slot.isStale_of_iff issued.toOrderly t.config.valueStrength value alive]
  -- The payload that is released is not one of this slot.
  refine Eq.congr_left (Slot.isStale_congr fun payload hp => ?_)
  rw [replaceValue, Reclaimer.mem_live_release]
  refine and_iff_left fun hreleased => not_mem_payloads issued hs hslot hne hp ?_
  exact List.mem_append_right _ hreleased

include live

omit found in
/-- The value that was replaced is answered just if it was not doomed. -/
theorem previous_replaceValue_iff {old : V} (hold : slot.value.content = some old) :
    (t.replaceValue r key slot (some value)).result.previous.join = some old ↔
      ∀ payload ∈ slot.value.payloads, payload ∉ t.config.valueStrength.dooms r := by
  set after := (Held.of t.config.valueStrength (some value) r).reclaimer with hafter
  have hget : slot.value.get after = some old ↔ slot.value.isCleared after = false := by
    constructor
    · intro hgot
      by_contra hcleared
      rw [Holder.get_eq_none_of_isCleared (by simpa using hcleared)] at hgot
      cases hgot
    · exact fun hkept => (Holder.get_eq_content hkept).trans hold
  refine hget.trans ?_
  rw [← Bool.not_eq_true, Holder.isCleared_iff]
  push Not
  refine forall₂_congr fun payload hp => ?_
  exact Held.mem_live_of_iff issued.toOrderly _ value
    (Slot.mem_live live (List.mem_append_right _ hp))

/-- The renewed slot is live just if the payload of its key was not doomed. -/
theorem isStale_renewed_iff (suits : slot.value.Suits t.config.valueStrength)
    (hold : slot.value.content ≠ none) :
    (t.renewed r slot value).isStale (t.replaceValue r key slot (some value)).reclaimer = false ↔
      ∀ payload ∈ slot.key.payloads, payload ∉ t.config.valueStrength.dooms r := by
  have hslot := Buckets.mem_slots.mpr ⟨_, (slotFor?_spec found).1⟩
  set held := Held.of t.config.valueStrength (some value) r with hheld
  have hreclaimer : (t.replaceValue r key slot (some value)).reclaimer =
      held.reclaimer.release slot.value.payloads := rfl
  -- The new value is live whatever was cleared, since the old one was there to be cleared first.
  have hvalue : ∀ payload ∈ held.holder.payloads,
      payload ∈ (held.reclaimer.release slot.value.payloads).live := by
    cases hstrength : t.config.valueStrength with
    | strong =>
      rw [hheld, hstrength]
      exact List.forall_mem_nil _
    | reclaimable =>
      rw [hstrength] at suits
      obtain ⟨content, hcontent⟩ := Option.ne_none_iff_exists'.mp hold
      obtain ⟨first, hfirst⟩ := Holder.eq_reclaimable suits hcontent
      have hmem : first ∈ slot.value.payloads := by
        rw [hfirst]
        exact List.mem_singleton_self _
      rw [hheld, hstrength]
      intro payload hp
      obtain rfl := List.mem_singleton.mp hp
      refine Reclaimer.mem_live_release.mpr ⟨?_, fun hin => ?_⟩
      · show r.next ∈ r.register.live
        have hroom := issued.overrun_one_le (Slot.mem_live live (List.mem_append_right _ hmem))
        rw [(Reclaimer.Renews.register issued.toOrderly).live_of_room hroom]
        exact List.mem_append_right _ (List.mem_singleton_self _)
      · exact (issued.lt_next _ (mem_payloads hslot (List.mem_append_right _ hin))).false
  rw [Slot.isStale_eq_false_iff_live, hreclaimer]
  show (∀ payload ∈ slot.key.payloads ++ held.holder.payloads, _) ↔ _
  constructor
  · intro hall payload hp
    have hlive := (Reclaimer.mem_live_release.mp (hall payload (List.mem_append_left _ hp))).1
    exact (Held.mem_live_of_iff issued.toOrderly _ value
      (Slot.mem_live live (List.mem_append_left _ hp))).mp hlive
  · intro hspared payload hp
    rcases List.mem_append.mp hp with hp | hp
    · refine Reclaimer.mem_live_release.mpr ⟨?_, not_mem_value_payloads issued hslot hp⟩
      exact (Held.mem_live_of_iff issued.toOrderly _ value
        (Slot.mem_live live (List.mem_append_left _ hp))).mpr (hspared payload hp)
    · exact hvalue payload hp

/-- A value is replaced as it should be just if no live slot holds what was doomed. -/
theorem Coherent.replaceValue_iff (h : t.Coherent) {old : V}
    (hold : slot.value.content = some old) :
    ((t.replaceValue r key slot (some value)).result.previous.join = some old ∧
      (key, some value) ∈ (t.replaceValue r key slot (some value)).state.entries
        (t.replaceValue r key slot (some value)).reclaimer ∧
      ∀ entry ∈ t.entries r, entry.1 ≠ key →
        entry ∈ (t.replaceValue r key slot (some value)).state.entries
          (t.replaceValue r key slot (some value)).reclaimer) ↔
      ∀ s ∈ t.buckets.slots, s.isStale r = false →
        ∀ payload ∈ s.payloads, payload ∉ t.config.valueStrength.dooms r := by
  obtain ⟨hslot, -, hkey⟩ := h.slotFor?_eq_some_iff.mp found
  set step := t.replaceValue r key slot (some value) with hstep
  have hmem {s : Slot K V} := h.mem_replaceValue_iff found value (s := s)
  have hrenewed := isStale_renewed_iff issued found live value (h.suited slot hslot).2
    (by simp [hold])
  have hcontent : (t.renewed r slot value).content = (key, some value) := by
    rw [renewed, Slot.content, Held.content_of, hkey]
  rw [previous_replaceValue_iff issued live value hold]
  constructor
  · rintro ⟨hprevious, hnew, hothers⟩ s hs alive
    by_cases hsame : s = slot
    · subst hsame
      obtain ⟨other, hother, hlive, hentry⟩ := mem_entries_iff.mp hnew
      rcases hmem.mp hother with rfl | ⟨hother, hne⟩
      · refine List.forall_mem_append.mpr ⟨hrenewed.mp hlive, hprevious⟩
      · exact absurd (h.slot_eq hother hslot ((congrArg Prod.fst hentry).trans hkey.symm)) hne
    · -- The entry of another slot is read of that slot.
      have hkeys : s.key.content ≠ key := fun heq =>
        hsame (h.slot_eq hs hslot (heq.trans hkey.symm))
      obtain ⟨other, hother, hlive, hentry⟩ := mem_entries_iff.mp
        (hothers s.content (mem_entries_iff.mpr ⟨s, hs, alive, rfl⟩) hkeys)
      have hfirst : other.key.content = s.key.content := congrArg Prod.fst hentry
      rcases hmem.mp hother with rfl | ⟨hother, -⟩
      · exact absurd (hfirst.symm.trans hkey) hkeys
      · obtain rfl := h.slot_eq hother hs hfirst
        exact (isStale_replaceValue_of_ne issued found value hs hsame alive).mp hlive
  · intro hspared
    have hown := List.forall_mem_append.mp (hspared slot hslot live)
    refine ⟨hown.2, ?_, fun entry hentry hne => ?_⟩
    · exact mem_entries_iff.mpr
        ⟨_, hmem.mpr (.inl rfl), hrenewed.mpr hown.1, hcontent⟩
    · obtain ⟨s, hs, alive, rfl⟩ := mem_entries_iff.mp hentry
      have hsame : s ≠ slot := fun heq => hne ((congrArg (·.key.content) heq).trans hkey)
      exact mem_entries_iff.mpr ⟨s, hmem.mpr (.inr ⟨hs, hsame⟩),
        (isStale_replaceValue_of_ne issued found value hs hsame alive).mpr (hspared s hs alive),
        rfl⟩

end Slots

/-- The keys of live entries are not excluded. -/
theorem Full.admits (full : t.Full) : ∀ entry ∈ t.entries r, t.excludes entry.1 = false :=
  fun _ hentry => excludes_of_refusal (full.refusal_of_mem_entries hentry)

/-! ## Putting a value to a key that has one -/

variable [DecidableEq K] [Hashed K] {key : Option K} {old : V}

/-- The payloads that remain live once the value of the key is dropped. -/
def remaining (t : Table K V) (r : Reclaimer) (key : Option K) : List Nat :=
  (r.release ((t.slotFor? r key).toList.flatMap fun slot => slot.value.payloads)).live

/-- Whether they fit in the budget together with that of a new value. -/
def Fits (t : Table K V) (r : Reclaimer) (key : Option K) : Prop :=
  ∀ budget, r.budget = some budget →
    (t.remaining r key).length + (if t.config.valueStrength.isStrong then 0 else 1) ≤ budget

/-- A put that replaces a value as it should: it answers the old value, and if what remains fits in
the budget, the key has the new value afterwards and the other live entries are still there. -/
structure Replaces (t : Table K V) (r : Reclaimer) (key : Option K) (old value : V) : Prop where
  /-- The old value is answered. -/
  answer : (t.put r key (some value)).result = .ok (some old)
  /-- The key has the new value. -/
  renewed : t.Fits r key → ((t.put r key (some value)).state.get
    (t.put r key (some value)).reclaimer key).result = some value
  /-- The other live entries stay. -/
  kept : t.Fits r key → ∀ entry ∈ t.entries r, entry.1 ≠ key →
    entry ∈ (t.put r key (some value)).state.entries (t.put r key (some value)).reclaimer

/-- The slot that is found for the key of a live entry. -/
theorem Coherent.slotFor?_of_mem_entries (h : t.Coherent) {value : Option V}
    (there : (key, value) ∈ t.entries r) :
    ∃ slot, t.slotFor? r key = some slot ∧ slot.isStale r = false ∧ slot.value.content = value := by
  obtain ⟨slot, hslot, live, hcontent⟩ := mem_entries_iff.mp there
  have hkey := (Slot.isStale_eq_false_iff.mp live).1
  exact ⟨slot, h.slotFor?_eq_some_iff.mpr ⟨hslot, hkey, congrArg Prod.fst hcontent⟩, live,
    congrArg Prod.snd hcontent⟩

/-- What remains always fits: the payload that is dropped makes room for the one that comes. -/
theorem Coherent.fits (h : t.Coherent) (issued : r.Issued t.payloads)
    (there : (key, some old) ∈ t.entries r) : t.Fits r key := by
  intro budget hbudget
  obtain ⟨slot, found, live, hold⟩ := h.slotFor?_of_mem_entries there
  obtain ⟨hslot, -, -⟩ := h.slotFor?_eq_some_iff.mp found
  have hwithin := issued.within budget hbudget
  have hsuits := (h.suited slot hslot).2
  rw [remaining, found, Option.toList_some, List.flatMap_singleton, Reclaimer.release]
  cases hstrength : t.config.valueStrength with
  | strong => exact (List.length_filter_le _ _).trans hwithin
  | reclaimable =>
    rw [hstrength] at hsuits
    obtain ⟨payload, hpayload⟩ := Holder.eq_reclaimable hsuits hold
    have hmem : payload ∈ slot.value.payloads := by
      rw [hpayload]
      exact List.mem_singleton_self _
    have hlive := Slot.mem_live live (List.mem_append_right _ hmem)
    refine le_trans (Nat.succ_le_of_lt ?_) hwithin
    rw [List.length_filter_lt_length_iff_exists]
    exact ⟨payload, hlive, by simpa using hmem⟩

/-- The replacement that a put comes to once the stale slots of the bucket are dropped. -/
def replacement (t : Table K V) (r : Reclaimer) (key : Option K) (slot : Slot K V) (value : V) :
    Step (Table K V) (Notice K V) (Placement K V) :=
  (t.purge r (t.indexOf key)).andThen fun t r _ => t.replaceValue r key slot (some value)

/-- A put to a key with a live slot is a replacement. -/
theorem Coherent.put_eq_replacement (h : t.Coherent) (issued : r.Issued t.payloads) {value : V}
    (admitted : t.refusal key (some value) = none) {slot : Slot K V}
    (found : t.slotFor? r key = some slot) (live : slot.isStale r = false) :
    t.put r key (some value) =
      (t.replacement r key slot value).map fun placement => .ok placement.previous.join := by
  obtain ⟨hslot, -, hkey⟩ := h.slotFor?_eq_some_iff.mp found
  -- The slot of the key outlasts the purge and is found after it.
  obtain ⟨hstays, hlive⟩ := mem_purge_of_live issued (t.indexOf key) hslot live
  have hfound := (h.purge r (t.indexOf key)).slotFor?_eq_some_iff.mpr
    ⟨hstays, (Slot.isStale_eq_false_iff.mp hlive).1, hkey⟩
  rw [Table.put, admitted, insert_eq, replacement]
  simp only [Step.andThen, Table.insertFound, hfound]

/-- A replacement is as it should be just if no live slot holds what is doomed. -/
theorem Coherent.replacement_iff (h : t.Coherent) (issued : r.Issued t.payloads) {slot : Slot K V}
    (found : t.slotFor? r key = some slot) (live : slot.isStale r = false)
    (hold : slot.value.content = some old) (value : V) :
    ((t.replacement r key slot value).result.previous.join = some old ∧
      (key, some value) ∈ (t.replacement r key slot value).state.entries
        (t.replacement r key slot value).reclaimer ∧
      ∀ entry ∈ t.entries r, entry.1 ≠ key →
        entry ∈ (t.replacement r key slot value).state.entries
          (t.replacement r key slot value).reclaimer) ↔
      ∀ s ∈ t.buckets.slots, s.isStale r = false → ∀ payload ∈ s.payloads,
        payload ∉ t.config.valueStrength.dooms (t.purge r (t.indexOf key)).reclaimer := by
  obtain ⟨hslot, -, hkey⟩ := h.slotFor?_eq_some_iff.mp found
  obtain ⟨hstays, hlive⟩ := mem_purge_of_live issued (t.indexOf key) hslot live
  have hcoherent := h.purge r (t.indexOf key)
  have hfound := hcoherent.slotFor?_eq_some_iff.mpr
    ⟨hstays, (Slot.isStale_eq_false_iff.mp hlive).1, hkey⟩
  have hpurge := accounts_purge issued (t.indexOf key)
  have hreplaced := hcoherent.replaceValue_iff hpurge.issued hfound hlive value hold
  simp only [mem_entries_purge_iff issued] at hreplaced
  refine hreplaced.trans ⟨fun hspared s hs alive => ?_, fun hspared s hs alive => ?_⟩
  · obtain ⟨hs, alive⟩ := mem_purge_of_live issued _ hs alive
    exact hspared s hs alive
  · obtain ⟨hs, alive⟩ := mem_of_mem_purge issued _ hs alive
    exact hspared s hs alive

/-- A value is replaced as it should be just if no live slot holds what is doomed once the stale
slots of the bucket are dropped. -/
theorem Sound.replacing_iff (h : t.Sound) (issued : r.Issued t.payloads) (full : t.Full)
    (got : (t.get r key).result = some old) (value : V) :
    t.Replaces r key old value ↔
      ∀ s ∈ t.buckets.slots, s.isStale r = false → ∀ payload ∈ s.payloads,
        payload ∉ t.config.valueStrength.dooms (t.purge r (t.indexOf key)).reclaimer := by
  have there := (h.result_get_iff full.admits).mp got
  have hfits := h.fits issued there
  obtain ⟨slot, found, live, hold⟩ := h.slotFor?_of_mem_entries there
  -- The key was admitted when it came, and the value is not null.
  have hadmitted : t.refusal key (some value) = none :=
    refusal_eq_none_iff.mpr
      ⟨(refusal_eq_none_iff.mp (full.refusal_of_mem_entries there)).1,
        fun _ => Option.some_ne_none _⟩
  have hput := h.put_eq_replacement issued hadmitted found live
  have hsound := (upholds_put h issued key (some value)).sound
  have hfull := full.put h.capacity_pos issued key (some value)
  rw [hput] at hsound hfull
  have hget {r' : Reclaimer} : ((t.replacement r key slot value).state.get r' key).result =
      some value ↔ (key, some value) ∈ (t.replacement r key slot value).state.entries r' :=
    hsound.result_get_iff hfull.admits
  rw [← h.replacement_iff issued found live hold value]
  constructor
  · rintro ⟨hanswer, hrenewed, hkept⟩
    rw [hput] at hanswer hrenewed hkept
    exact ⟨Except.ok.inj hanswer, hget.mp (hrenewed hfits), hkept hfits⟩
  · rintro ⟨hanswer, hrenewed, hkept⟩
    refine ⟨?_, fun _ => ?_, fun _ => ?_⟩
    all_goals rw [hput]
    · exact congrArg Except.ok hanswer
    · exact hget.mpr hrenewed
    · exact hkept

end Table

end SoftCache
