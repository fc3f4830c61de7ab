import SoftCache.Proofs.Cache.Upkeep
import SoftCache.Proofs.Table.Sweeping

/-!
# Counting a cache

What can be read of a cache is `legible`: its pinned entries and the live entries of its tiers. Just
that is read of it (`Cache.Tiered.map_contents`), and so many entries are counted
(`Cache.Tiered.result_length`).
-/

open scoped List

namespace SoftCache.Cache

variable {K V : Type} {c : Cache K V} {r : Reclaimer}

/-- The entries that can be read: those of the pins, those of the hard tier, and those of the soft
tier that are live. -/
def legible (c : Cache K V) (r : Reclaimer) : List (Entry K V) :=
  c.pinned ++ c.hard.entries r ++ c.soft.entries r

/-- The entries of a tier are all read there, if each has a key. -/
theorem map_tierEntries (tier : Tier) {l : List (Entry K V)} (named : ∀ entry ∈ l, entry.1 ≠ none) :
    (tierEntries tier l).map (fun entry => (some entry.2.1, entry.2.2)) = l := by
  rw [tierEntries, List.map_filterMap]
  refine (List.filterMap_congr fun entry hentry => ?_).trans List.filterMap_some
  obtain ⟨_ | key, value⟩ := entry
  · exact absurd rfl (named _ hentry)
  · rfl

/-- The pinned values are counted. -/
theorem length_pinned (c : Cache K V) : c.pinned.length = (c.pins.filter (·.2.isSome)).length := by
  unfold pinned
  induction c.pins with
  | nil => rfl
  | cons pin rest ih =>
    obtain ⟨key, _ | value⟩ := pin <;> simpa [List.filterMap_cons, pinEntry] using ih

/-- The entries that can be read of a tier have keys. -/
theorem named_entries {t : Table K V} (named : none ∉ t.contents.map Prod.fst) :
    ∀ entry ∈ t.entries r, entry.1 ≠ none := by
  intro entry hentry hnone
  have hsub : t.entries r ⊆ t.contents := by
    rw [Table.entries_eq_map_content]
    exact (List.filter_sublist.map _).subset
  exact named (hnone ▸ List.mem_map_of_mem (hsub hentry))

section Tiers

variable [Hashed K]

/-- What is read of a cache are all the entries that can be read. -/
theorem Tiered.map_contents (h : c.Tiered []) (r : Reclaimer) :
    (c.contents r).map (fun entry => (some entry.2.1, entry.2.2)) = c.legible r := by
  have hnamed := h.keyed.named
  rw [List.map_nil, List.append_nil, roster, List.mem_append, List.mem_append, not_or, not_or]
    at hnamed
  obtain ⟨⟨-, hhard⟩, hsoft⟩ := hnamed
  rw [contents, List.map_append, List.map_append, map_tierEntries .hard (named_entries hhard),
    map_tierEntries .soft (named_entries hsoft), List.map_filterMap, legible, pinned]
  congr 2
  refine List.filterMap_congr fun pin _ => ?_
  obtain ⟨key, _ | value⟩ := pin <;> rfl

/-- The keys of a cache are those of what can be read. -/
theorem Tiered.map_keys (h : c.Tiered []) (r : Reclaimer) :
    (c.keys r).map some = (c.legible r).map Prod.fst := by
  rw [← h.map_contents r, keys, List.map_map, List.map_map]
  rfl

/-- If all that can be read has a key and a value, then the entries are those pairs. -/
theorem Tiered.entries_eq_of_legible (h : c.Tiered []) {l : List (K × V)}
    (hl : c.legible r = l.map fun entry => (some entry.1, some entry.2)) : c.entries r = l := by
  have hvalues := congrArg
    (List.filterMap fun entry => entry.1.bind fun key => entry.2.map fun value => (key, value))
    ((h.map_contents r).trans hl)
  rw [List.filterMap_map, List.filterMap_map] at hvalues
  exact hvalues.trans List.filterMap_some

/-- Counting the hard tier drops nothing. -/
theorem Tiered.reclaimer_hardLength (h : c.Tiered []) (r : Reclaimer) :
    (c.hard.length r).reclaimer = r := by
  have hside : c.hard.hasReclaimableSide = false := by
    rw [Table.hasReclaimableSide, h.hardStrengths.1, h.hardStrengths.2]
    rfl
  show (c.hard.sweep r).reclaimer = r
  unfold Table.sweep
  split
  · rfl
  · rw [Table.removeExpired, if_neg (by simp [hside])]
    rfl

/-- As many entries are counted as there are keys, if nothing of the soft tier is stale in the epoch
of its last sweep. -/
theorem Tiered.result_length (h : c.Tiered []) (issued : r.Issued c.payloads)
    (quiet : c.soft.sweptEpoch = r.epoch → c.soft.stale r = []) :
    (c.length r).result = (c.keys r).length := by
  have hhard : (c.hard.length r).result = (c.hard.entries r).length :=
    h.hard.result_length issued.left fun _ => Table.stale_eq_nil_iff.mpr (h.hard_live r)
  have hsoft : (c.soft.length r).result = (c.soft.entries r).length :=
    h.soft.result_length issued.right quiet
  have hkeys := congrArg List.length (h.map_keys r)
  simp only [legible, List.length_map, List.length_append] at hkeys
  calc (c.length r).result
    _ = (c.pins.filter (·.2.isSome)).length + (c.hard.length r).result +
          (c.soft.length (c.hard.length r).reclaimer).result := rfl
    _ = c.pinned.length + (c.hard.entries r).length + (c.soft.entries r).length := by
      rw [h.reclaimer_hardLength, hhard, hsoft, length_pinned]
    _ = (c.keys r).length := hkeys.symm

end Tiers

end SoftCache.Cache
