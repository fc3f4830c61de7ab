import SoftCache.Proofs.Table.Agreement
import SoftCache.Proofs.Table.Copying
import SoftCache.Proofs.Table.Waning

/-!
# What a walk removes

A removal drops the stale slots of one bucket and takes one slot out of it. What is live and left
stays in its order, so the live entries are afterwards those that were live before, without that of
the key (`Table.Sound.entries_removeEntry_eq`). A walk that has a key to remove answers whether the
key was live, and one that has none removes nothing (`Walk.removes`).
-/

open scoped List

namespace SoftCache

variable {K V α : Type}

namespace Table

variable {t : Table K V} {r : Reclaimer} {step : Step (Table K V) (Notice K V) α}

/-! ## What is left is in order -/

/-- Slots that are taken out leave the others in their order. -/
theorem Wanes.slots_sublist {t' : Table K V} (h : t.Wanes t') :
    t'.buckets.slots <+ t.buckets.slots := by
  have hlength : t'.buckets.toList.length = t.buckets.toList.length := h.capacity
  refine sublist_flatten (List.forall₂_iff_get.mpr ⟨hlength, fun i hi hi' => ?_⟩)
  have hthinned := h.buckets i
  rw [Array.length_toList] at hi hi'
  simpa [Buckets.bucket, Array.getD, hi, hi'] using hthinned

/-- If nothing is put in and nothing comes back to life, the live entries that are left are in their
order. -/
theorem Wanes.entries_sublist (h : t.Wanes step.state) (issued : r.Issued t.payloads)
    (precedes : r.Precedes step.reclaimer) :
    step.state.entries step.reclaimer <+ t.entries r := by
  have hslots := h.slots_sublist
  have hlive : ∀ s ∈ step.state.buckets.slots,
      s.isStale step.reclaimer = false → s.isStale r = false := by
    intro s hs
    simp only [Slot.isStale_eq_false_iff_live]
    intro hlast payload hp
    have hissued := issued.lt_next payload (mem_payloads (hslots.subset hs) hp)
    exact precedes.live payload hissued (hlast payload hp)
  -- What is live in the end is live all along.
  have hboth : step.state.buckets.slots.filter (fun s => !s.isStale step.reclaimer) =
      (step.state.buckets.slots.filter fun s => !s.isStale r).filter
        fun s => !s.isStale step.reclaimer := by
    rw [List.filter_filter]
    refine List.filter_congr fun s hs => ?_
    have hs := hlive s hs
    cases hnow : s.isStale step.reclaimer with
    | true => rfl
    | false => rw [hs hnow]; rfl
  rw [entries_eq_map_content, entries_eq_map_content, hboth]
  exact (List.filter_sublist.trans (hslots.filter _)).map _

/-! ## Removing an entry -/

variable [DecidableEq K] [Hashed K]

/-- After a removal the live entries are the same in the same order, without that of the key. -/
theorem Sound.entries_removeEntry_eq (h : t.Sound) (issued : r.Issued t.payloads) (full : t.Full)
    (key : Option K) :
    (t.removeEntry r key).state.entries (t.removeEntry r key).reclaimer =
      (t.entries r).filter fun entry => entry.1 ≠ key := by
  set after := (t.removeEntry r key).state.entries (t.removeEntry r key).reclaimer
  have hupholds := upholds_removeIf h issued key fun _ => true
  have hwithin : after <+ t.entries r :=
    (t.wanes_removeIf r key _).entries_sublist issued hupholds.handover.precedes
  have hperm := h.entries_removeEntry key full.admits issued
  -- The key is not left: it was there once at most, and that was taken out.
  have hgone : ∀ entry ∈ after, entry.1 ≠ key := by
    rintro ⟨_, value⟩ hentry rfl
    cases hresult : (t.removeEntry r _).result with
    | none =>
      have hthere := (h.result_removeEntry_iff full.admits issued).mpr (hwithin.subset hentry)
      exact Option.some_ne_none _ (hthere.symm.trans hresult)
    | some found =>
      rw [hresult] at hperm
      have hkeys := (hperm.map Prod.fst).nodup_iff.mp (h.nodup_entries r)
      rw [List.map_append, List.nodup_append] at hkeys
      exact hkeys.2.2 _ (List.mem_map_of_mem hentry) _ (List.mem_singleton_self _) rfl
  have hothers : (t.entries r).filter (fun entry => entry.1 ≠ key) ~
      after.filter fun entry => entry.1 ≠ key := by
    have hfiltered := hperm.filter fun entry => entry.1 ≠ key
    rw [List.filter_append] at hfiltered
    refine hfiltered.trans (.of_eq ?_)
    rw [List.append_right_eq_self, List.filter_eq_nil_iff]
    simp
  calc after
    _ = after.filter fun entry => entry.1 ≠ key :=
      (List.filter_eq_self.mpr fun entry hentry => by simpa using hgone entry hentry).symm
    _ = (t.entries r).filter fun entry => entry.1 ≠ key :=
      (hwithin.filter _).eq_of_length hothers.length_eq.symm

end Table

/-! ## Walks -/

/-- What it means that a walk removes from a table the entry that it came to last. -/
structure Walk.Removes [DecidableEq K] [Hashed K] (walk : Walk K V) (t : Table K V)
    (r : Reclaimer) : Prop where
  /-- It answers whether there is a live entry of the key. -/
  result : (walk.remove t r).1.result = (t.entries r).any fun entry => walk.last = some entry.1
  /-- The live entries are left in their order, without that one. -/
  entries : (walk.remove t r).1.state.entries (walk.remove t r).1.reclaimer =
    (t.entries r).filter fun entry => walk.last ≠ some entry.1
  /-- There is nothing to remove any more. -/
  last : (walk.remove t r).2 = { walk with last := none }

/-- A walk removes just the entry that it came to last, if that is live, and nothing otherwise. -/
theorem Walk.removes [DecidableEq K] [Hashed K] {t : Table K V} {r : Reclaimer} (h : t.Sound)
    (issued : r.Issued t.payloads) (full : t.Full) (walk : Walk K V) : walk.Removes t r := by
  obtain ⟨view, remaining, _ | key⟩ := walk
  · constructor
    case result => exact (List.any_eq_false.mpr fun entry _ => by simp).symm
    case entries => exact (List.filter_eq_self.mpr fun entry _ => by simp).symm
    case last => rfl
  · constructor
    case result =>
      have hanswer : ∀ value, (t.removeEntry r key).result = some value ↔
          (key, value) ∈ t.entries r := fun _ => h.result_removeEntry_iff full.admits issued
      have hthere : (t.removeEntry r key).result.isSome = true ↔
          ∃ entry ∈ t.entries r, key = entry.1 := by
        simp [Option.isSome_iff_exists, hanswer]
      refine Bool.eq_iff_iff.mpr (hthere.trans ?_)
      simp
    case entries =>
      have hentries := h.entries_removeEntry_eq issued full key
      refine hentries.trans (List.filter_congr fun entry _ => ?_)
      simp [eq_comm]
    case last => rfl

end SoftCache
