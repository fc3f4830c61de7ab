import SoftCache.Proofs.Registering
import SoftCache.Proofs.Table.Accounts

/-!
# Reading a table

What is answered for a key is just what the live entries say, in any coherent table, whatever in it
is stale: a slot with a live key is the one that is found for its key
(`Table.Coherent.slotFor?_eq_some_iff`), so a lookup finds the live entry of a key
(`Table.Coherent.result_lookup_iff`), and a removal takes it out and leaves the others
(`Table.Coherent.entries_removeEntry`).
-/

open scoped List

namespace SoftCache.Table

variable {K V : Type} {t t' : Table K V} {r r' : Reclaimer} {key : Option K} {value : Option V}

/-- Slots that are as stale under another reclaimer have the same live entries. -/
theorem entries_congr (buckets : t'.buckets = t.buckets)
    (same : ∀ s ∈ t.buckets.slots, s.isStale r' = s.isStale r) : t'.entries r' = t.entries r := by
  rw [entries_eq_map_content, entries_eq_map_content, buckets]
  refine congrArg (List.map _) (List.filter_congr fun s hs => ?_)
  rw [same s hs]

/-- Just the values of live entries are said to be in the table. -/
theorem containsValue_iff [DecidableEq V] :
    t.containsValue r value = true ↔ ∃ key, (key, value) ∈ t.entries r := by
  unfold containsValue
  simp only [List.any_eq_true, Bool.and_eq_true, Bool.not_eq_true', Holder.holds_iff,
    mem_entries_iff, Slot.isStale_eq_false_iff]
  constructor
  · rintro ⟨s, hs, hkey, hvalue, rfl⟩
    exact ⟨_, s, hs, ⟨hkey, hvalue⟩, rfl⟩
  · rintro ⟨key, s, hs, ⟨hkey, hvalue⟩, hcontent⟩
    exact ⟨s, hs, hkey, hvalue, congrArg Prod.snd hcontent⟩

/-- An entry that is not refused has a key that the table can have. -/
theorem excludes_of_refusal (admitted : t.refusal key value = none) : t.excludes key = false := by
  by_contra hkey
  rw [refusal, if_pos (by simpa using hkey)] at admitted
  cases admitted

namespace Coherent

variable [Hashed K]

/-- A key has one slot at most. -/
theorem slot_eq (h : t.Coherent) {s s' : Slot K V} (hs : s ∈ t.buckets.slots)
    (hs' : s' ∈ t.buckets.slots) (hkey : s.key.content = s'.key.content) : s = s' :=
  List.inj_on_of_nodup_map h.distinct hs hs' hkey

variable [DecidableEq K]

/-! ## What is found -/

/-- The slot that is found for a key is the one that has the key, if the key is live. -/
theorem slotFor?_eq_some_iff (h : t.Coherent) {slot : Slot K V} :
    t.slotFor? r key = some slot ↔
      slot ∈ t.buckets.slots ∧ slot.key.isCleared r = false ∧ slot.key.content = key := by
  constructor
  · intro found
    obtain ⟨hmem, -, hlive, hkey⟩ := slotFor?_spec found
    exact ⟨Buckets.mem_slots.mpr ⟨_, hmem⟩, hlive, hkey⟩
  · rintro ⟨hslot, hlive, rfl⟩
    -- The slot lies where its key is looked for, so some slot is found.
    have hsome : (t.slotFor? r slot.key.content).isSome := by
      rw [slotFor?, List.find?_isSome]
      exact ⟨slot, h.mem_bucket hslot, Slot.isFor_iff.mpr ⟨h.hashed slot hslot, hlive, rfl⟩⟩
    obtain ⟨other, found⟩ := Option.isSome_iff_exists.mp hsome
    obtain ⟨hmem, -, -, hkey⟩ := slotFor?_spec found
    rw [found, h.slot_eq (Buckets.mem_slots.mpr ⟨_, hmem⟩) hslot hkey]

/-- The slot of a key, if its value is live too, has the live entry of the key. -/
theorem find_live_iff (h : t.Coherent) :
    ((t.slotFor? r key).filter fun slot => !slot.value.isCleared r).map (·.value.content) =
      some value ↔ (key, value) ∈ t.entries r := by
  simp only [Option.map_eq_some_iff, Option.filter_eq_some_iff, h.slotFor?_eq_some_iff,
    mem_entries_iff, Slot.isStale_eq_false_iff, Bool.not_eq_true']
  constructor
  · rintro ⟨s, ⟨⟨hs, hkey, rfl⟩, hvalue⟩, rfl⟩
    exact ⟨s, hs, ⟨hkey, hvalue⟩, rfl⟩
  · rintro ⟨s, hs, ⟨hkey, hvalue⟩, hcontent⟩
    exact ⟨s, ⟨⟨hs, hkey, congrArg Prod.fst hcontent⟩, hvalue⟩, congrArg Prod.snd hcontent⟩

/-- In a bucket without stale slots the slot of a key has the live entry of the key. -/
theorem find_clean_iff (h : t.Coherent)
    (clean : ∀ s ∈ t.buckets.bucket (t.indexOf key), s.isStale r = false) :
    (t.slotFor? r key).map (·.value.content) = some value ↔ (key, value) ∈ t.entries r := by
  rw [← h.find_live_iff]
  rcases found : t.slotFor? r key with _ | slot
  · rfl
  · have hlive := (Slot.isStale_eq_false_iff.mp (clean slot (slotFor?_spec found).1)).2
    rw [Option.filter_some_pos (by simpa using hlive)]

/-! ## Answers

A key that the table excludes is not looked for at all, so these hold of tables in which no such key
has a live entry. -/

section Answers

variable (admits : ∀ entry ∈ t.entries r, t.excludes entry.1 = false)

include admits

/-- A lookup finds the live entry of the key. -/
theorem result_lookup_iff (h : t.Coherent) :
    (t.lookup r key).result = some value ↔ (key, value) ∈ t.entries r := by
  cases hkey : t.excludes key with
  | true =>
    rw [lookup, if_pos hkey]
    refine iff_of_false (Option.some_ne_none _).symm fun hentry => ?_
    exact Bool.false_ne_true ((admits _ hentry).symm.trans hkey)
  | false =>
    rw [← h.find_live_iff, lookup_eq r hkey, Step.andThen_result]
    split
    · next hfound =>
      rw [hfound]
      rfl
    · next slot hfound =>
      have hlive := (Option.filter_eq_some_iff.mp hfound).2
      -- The slot is live, so what is read of it is its content.
      rw [hfound, Step.done, Holder.get_eq_content (by simpa using hlive)]
      rfl

/-- A value is found just if a live entry has it for the key. -/
theorem result_get_iff (h : t.Coherent) {value : V} :
    (t.get r key).result = some value ↔ (key, some value) ∈ t.entries r :=
  Option.join_eq_some_iff.trans (h.result_lookup_iff admits)

/-- Just the keys of live entries are said to be in the table. -/
theorem containsKey_iff (h : t.Coherent) :
    t.containsKey r key = true ↔ ∃ value, (key, value) ∈ t.entries r := by
  simp only [containsKey, List.any_eq_true, Bool.and_eq_true, Slot.isFor_iff, Bool.not_eq_true']
  constructor
  · rintro ⟨-, s, hs, ⟨-, hlive, rfl⟩, hvalue⟩
    exact ⟨_, mem_entries_iff.mpr
      ⟨s, Buckets.mem_slots.mpr ⟨_, hs⟩, Slot.isStale_eq_false_iff.mpr ⟨hlive, hvalue⟩, rfl⟩⟩
  · rintro ⟨value, hentry⟩
    obtain ⟨s, hs, hstale, hcontent⟩ := mem_entries_iff.mp hentry
    obtain ⟨hlive, hvalue⟩ := Slot.isStale_eq_false_iff.mp hstale
    obtain rfl : s.key.content = key := congrArg Prod.fst hcontent
    exact ⟨admits _ hentry, s, h.mem_bucket hs, ⟨h.hashed s hs, hlive, rfl⟩, hvalue⟩

/-- A removal answers the value of the live entry of the key, if that is accepted. -/
theorem result_removeIf_iff (h : t.Coherent) (issued : r.Issued t.payloads)
    {accept : Option V → Bool} :
    (t.removeIf r key accept).result = some value ↔
      (key, value) ∈ t.entries r ∧ accept value = true := by
  cases hkey : t.excludes key with
  | true =>
    rw [removeIf, if_pos hkey]
    refine iff_of_false (Option.some_ne_none _).symm fun hentry => ?_
    exact Bool.false_ne_true ((admits _ hentry.1).symm.trans hkey)
  | false =>
    have hpurge := accounts_purge issued (t.indexOf key)
    have hentries := hpurge.entries issued rfl
      (Departure.evictions_all fun s hs => (List.mem_filter.mp hs).2)
    have hclean := clean_purge_indexOf issued key
    simp only [List.filter_nil, List.map_nil, List.append_nil] at hentries
    -- The purge leaves the live entries, and no slot of the bucket is stale after it.
    rw [hentries.mem_iff, ← (h.purge r _).find_clean_iff hclean, removeIf_eq r accept hkey,
      Step.andThen_result]
    unfold removeFound
    rcases found : slotFor? _ _ key with _ | slot
    · simp [Step.done]
    · have hlive := (Slot.isStale_eq_false_iff.mp (hclean slot (slotFor?_spec found).1)).2
      dsimp only
      rw [Holder.get_eq_content hlive, Option.map_some, Option.some_inj]
      split
      · next accepted =>
        rw [removal, Holder.get_eq_content hlive, Option.some_inj]
        exact ⟨fun hvalue => ⟨hvalue, hvalue ▸ accepted⟩, And.left⟩
      · next refused =>
        refine iff_of_false (Option.some_ne_none _).symm fun haccepted => refused ?_
        exact haccepted.1 ▸ haccepted.2

/-- A removal answers the value of the live entry of the key. -/
theorem result_removeEntry_iff (h : t.Coherent) (issued : r.Issued t.payloads) :
    (t.removeEntry r key).result = some value ↔ (key, value) ∈ t.entries r :=
  (h.result_removeIf_iff admits issued).trans (and_iff_left rfl)

variable (key) in
/-- A removal takes the live entry of the key out, if its value is accepted, and leaves the
others. -/
theorem entries_removeIf (h : t.Coherent) (issued : r.Issued t.payloads)
    (accept : Option V → Bool) :
    t.entries r ~ (t.removeIf r key accept).state.entries (t.removeIf r key accept).reclaimer ++
      (t.removeIf r key accept).result.toList.map fun value => (key, value) := by
  obtain ⟨departed, left, haccounts, hnone, hremoved⟩ := accounts_removeIf issued key accept
  have hquiet := haccounts.handover.quiet (.inr (t.next_removeIf r key _))
  have hentries := haccounts.entries issued hquiet hnone
  rw [List.filter_nil, List.map_nil, List.append_nil] at hentries
  refine hentries.trans (.of_eq (congrArg _ ?_))
  rcases hremoved with ⟨hresult, rfl⟩ | ⟨slot, rfl, rfl, -, hresult⟩
  · rw [hresult]
    rfl
  · -- The slot that leaves is the one with the live entry.
    obtain ⟨s, hs, hlive, hcontent⟩ :=
      mem_entries_iff.mp ((h.result_removeIf_iff admits issued).mp hresult).1
    have hslot : slot ∈ t.buckets.slots :=
      (haccounts.mem_slots (List.mem_append_right _ (List.mem_singleton_self _))).resolve_right
        List.not_mem_nil
    obtain rfl := h.slot_eq hs hslot (congrArg Prod.fst hcontent)
    have hlasts : s.lasts r = true := by
      rw [lasts_eq issued hs, hlive]
      rfl
    rw [List.filter_cons_of_pos hlasts, hresult]
    rfl

variable (key) in
/-- A removal takes the live entry of the key out and leaves the others. -/
theorem entries_removeEntry (h : t.Coherent) (issued : r.Issued t.payloads) :
    t.entries r ~ (t.removeEntry r key).state.entries (t.removeEntry r key).reclaimer ++
      (t.removeEntry r key).result.toList.map fun value => (key, value) :=
  h.entries_removeIf key admits issued fun _ => true

end Answers

end Coherent

end SoftCache.Table
