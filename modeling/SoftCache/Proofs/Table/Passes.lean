import SoftCache.Proofs.Table.Refinement

/-!
# Passes over a table that models a map

A pass clears the oldest payloads of its reclaimer. From the map that a table models it strikes just
the keys of the slots that hold one of these payloads, on either side (`Table.Models.clear`), and as
many slots become stale as keys are struck.
-/

open scoped List

namespace SoftCache

variable {K V : Type}

/-- A key is struck by a pass if a slot of it holds one of the payloads that the pass clears. -/
def Table.Struck (t : Table K V) (r : Reclaimer) (limit : Nat) (key : Option K) : Prop :=
  ∃ s ∈ t.buckets.slots, s.key.content = key ∧ ∃ payload ∈ s.payloads, payload ∈ r.live.take limit

namespace Table

/-- The keys of live entries are not there twice. -/
theorem Coherent.nodup_entries [Hashed K] {t : Table K V} (h : t.Coherent) (r : Reclaimer) :
    ((t.entries r).map Prod.fst).Nodup := by
  rw [entries_eq_map_content, List.map_map]
  exact (List.filter_sublist.map _).nodup h.distinct

namespace Models

variable [DecidableEq K] [Hashed K] {t : Table K V} {r : Reclaimer} {m : PlainMap K V}

/-- A slot that is live after a pass was live before, and its key is not struck. -/
theorem live_clear_iff (h : t.Models r m) (limit : Nat) {s : Slot K V}
    (hs : s ∈ t.buckets.slots) :
    s.isStale (r.clear limit) = false ↔
      s.isStale r = false ∧ ¬t.Struck r limit s.key.content := by
  have hclear : ∀ payload, payload ∈ (r.clear limit).live ↔ _ := fun _ =>
    h.issued.toFiled.mem_live_clear
  rw [Slot.isStale_eq_false_iff_live, Slot.isStale_eq_false_iff_live]
  constructor
  · intro hlive
    refine ⟨fun payload hp => ((hclear payload).mp (hlive payload hp)).1, ?_⟩
    rintro ⟨other, hother, hkey, payload, hp, htake⟩
    -- No other slot has the key.
    have hsame : other = s := List.inj_on_of_nodup_map h.sound.distinct hother hs hkey
    subst hsame
    exact ((hclear payload).mp (hlive payload hp)).2 htake
  · -- If a payload of the slot were cleared, then its key would be struck.
    rintro ⟨hlive, hnot⟩ payload hp
    exact (hclear payload).mpr
      ⟨hlive payload hp, fun htake => hnot ⟨s, hs, rfl, payload, hp, htake⟩⟩

/-- A pass strikes just the keys of the slots that hold one of the payloads that it clears. -/
theorem clear (h : t.Models r m) (limit : Nat) :
    ∃ m', (∀ key value, m'.lookup key = some value ↔
        m.lookup key = some value ∧ ¬t.Struck r limit key) ∧
      t.Models (r.clear limit) m' ∧
      (t.stale (r.clear limit)).length + m'.keys.card = (t.stale r).length + m.keys.card := by
  -- The map is read off the table after the pass.
  obtain ⟨m', hm'⟩ := PlainMap.exists_lists (h.sound.nodup_entries (r.clear limit))
  have hlookup : ∀ key value, m'.lookup key = some value ↔
      m.lookup key = some value ∧ ¬t.Struck r limit key := by
    intro key value
    rw [← hm'.mem_iff, ← h.lists.mem_iff, mem_entries_iff, mem_entries_iff]
    constructor
    · rintro ⟨s, hs, hlive, hcontent⟩
      obtain ⟨hold, hnot⟩ := (h.live_clear_iff limit hs).mp hlive
      have hkey : s.key.content = key := congrArg Prod.fst hcontent
      exact ⟨⟨s, hs, hold, hcontent⟩, hkey ▸ hnot⟩
    · rintro ⟨⟨s, hs, hold, hcontent⟩, hnot⟩
      have hkey : s.key.content = key := congrArg Prod.fst hcontent
      exact ⟨s, hs, (h.live_clear_iff limit hs).mpr ⟨hold, hkey ▸ hnot⟩, hcontent⟩
  refine ⟨m', hlookup, ?_, ?_⟩
  · refine ⟨h.sound, h.issued.clear limit, h.swept.clear limit, ?_, h.bound, hm', ?_⟩
    · rw [Reclaimer.budget_clear]
      exact h.budget
    · exact fun key value hvalue => h.admitted key value ((hlookup key value).mp hvalue).1
  · calc (t.stale (r.clear limit)).length + m'.keys.card
      _ = (t.stale (r.clear limit)).length + (t.entries (r.clear limit)).length := by
        rw [hm'.card_keys]
      _ = t.buckets.slots.length := (t.length_slots _).symm
      _ = (t.stale r).length + (t.entries r).length := t.length_slots r
      _ = (t.stale r).length + m.keys.card := by rw [h.lists.card_keys]

/-- A compaction is nothing to a table. -/
theorem compact (h : t.Models r m) : t.Models r.compact m :=
  ⟨h.sound, h.issued.compact, ⟨h.swept.epoch_le, h.swept.live⟩, h.budget, h.bound, h.lists,
    h.admitted⟩

/-- A pass, or a compaction as a pass over no payloads, strikes just the keys of the slots that hold
one of the payloads that it clears. -/
theorem overReclaimer (h : t.Models r m) {limit : Nat} {r' : Reclaimer}
    (passes : r' = r.clear limit ∨ limit = 0 ∧ r' = r.compact) :
    ∃ m', (∀ key value, m'.lookup key = some value ↔
        m.lookup key = some value ∧ ¬t.Struck r limit key) ∧
      t.Models r' m' ∧ (t.stale r').length + m'.keys.card = (t.stale r).length + m.keys.card := by
  rcases passes with rfl | ⟨rfl, rfl⟩
  · exact h.clear limit
  · refine ⟨m, fun key value => (and_iff_left ?_).symm, h.compact, rfl⟩
    rintro ⟨s, -, -, payload, -, htake⟩
    rw [List.take_zero] at htake
    cases htake

end Models

end Table

end SoftCache
