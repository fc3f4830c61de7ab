import SoftCache.Proofs.Table.Reading

/-!
# Tables without stale slots

A table is `Intact` if nothing in it is stale and nothing can become so without a pass. It is read
by its contents then, whatever bound it has: just the entries that the slots have are said to be
there and can be removed (`Table.Intact.containsKey_iff`, `Table.Intact.result_removeEntry_iff`).
Work from which nothing live departs is not heard of at all (`Step.Accounts.departed_eq_nil`).
-/

open scoped List

namespace SoftCache

variable {K V α : Type} {t : Table K V} {r : Reclaimer}

/-- In an epoch that lasts, what departs from a table without stale slots is live when it does. -/
theorem Step.Accounts.live_departures {came left : List (Slot K V)}
    {departed : List (Departure K V)} {step : Step (Table K V) (Notice K V) α}
    (h : Step.Accounts t r step came departed left) (issued : r.Issued t.payloads)
    (quiet : step.reclaimer.epoch = r.epoch)
    (live : ∀ s ∈ t.buckets.slots, s.isStale r = false)
    (lasting : ∀ s ∈ came, s.lasts r = true) : ∀ d ∈ departed, d.expired = false := by
  intro d hd
  -- What departs was there or came, and so it lasts.
  have hmem : d.slot ∈ step.state.buckets.slots ++ departed.map (·.slot) ++ left :=
    List.mem_append_left _ (List.mem_append_right _ (List.mem_map_of_mem hd))
  refine h.expired_eq_false quiet hd ?_
  rcases h.mem_slots hmem with hthere | hcame
  · rw [Table.lasts_eq issued hthere, live _ hthere]
    rfl
  · exact lasting _ hcame

/-- In an epoch that lasts, nothing departs from a table without stale slots, unless it is
evicted. -/
theorem Step.Accounts.departed_eq_nil {came left : List (Slot K V)}
    {departed : List (Departure K V)} {step : Step (Table K V) (Notice K V) α}
    (h : Step.Accounts t r step came departed left) (issued : r.Issued t.payloads)
    (quiet : step.reclaimer.epoch = r.epoch) (hnone : Departure.evictions departed = [])
    (live : ∀ s ∈ t.buckets.slots, s.isStale r = false)
    (lasting : ∀ s ∈ came, s.lasts r = true) : departed = [] := by
  rw [Departure.evictions_of_live (h.live_departures issued quiet live lasting)] at hnone
  exact List.map_eq_nil_iff.mp hnone

namespace Table

/-- A sound table in which nothing is stale, under a reclaimer without a budget. -/
structure Intact [Hashed K] (t : Table K V) (r : Reclaimer) : Prop where
  /-- The table is sound. -/
  sound : t.Sound
  /-- The payloads of the table have been issued. -/
  issued : r.Issued t.payloads
  /-- No registration clears anything. -/
  budget : r.budget = none
  /-- Nothing is stale. -/
  live : ∀ s ∈ t.buckets.slots, s.isStale r = false
  /-- The table has only entries that it admits. -/
  admitted : ∀ entry ∈ t.contents, t.refusal entry.1 entry.2 = none

namespace Intact

/-- The entries that can be read are the contents of the slots. -/
theorem entries_eq [Hashed K] (h : t.Intact r) : t.entries r = t.contents :=
  entries_eq_contents h.live

/-- The table excludes no key that it has. -/
theorem admits [Hashed K] (h : t.Intact r) : ∀ entry ∈ t.entries r, t.excludes entry.1 = false :=
  fun _ hentry => excludes_of_refusal (h.admitted _ (t.entries_subset_contents r hentry))

variable {key : Option K} {value : Option V}

/-- Just the values of the slots are said to be in the table. -/
theorem containsValue_iff [Hashed K] [DecidableEq V] (h : t.Intact r) :
    t.containsValue r value = true ↔ ∃ key, (key, value) ∈ t.contents := by
  rw [← h.entries_eq]
  exact Table.containsValue_iff

variable [DecidableEq K] [Hashed K]

/-- A removal of a key answers just what the slots have. -/
theorem result_removeEntry_iff (h : t.Intact r) :
    (t.removeEntry r key).result = some value ↔ (key, value) ∈ t.contents := by
  rw [← h.entries_eq]
  exact h.sound.result_removeEntry_iff h.admits h.issued

/-- Just the keys of the slots are said to be in the table. -/
theorem containsKey_iff (h : t.Intact r) :
    t.containsKey r key = true ↔ ∃ value, (key, value) ∈ t.contents := by
  rw [← h.entries_eq]
  exact h.sound.containsKey_iff h.admits

end Intact

end Table

end SoftCache
