import SoftCache.Proofs.Table.Ledger

/-!
# Quiet work

As long as no epoch begins, a slot of a table is live after some work just if it was live before or
is new. So the account of the work, which is one of all slots, is also one of the live entries
(`Step.Accounts.entries`), and no slot becomes stale (`Step.Accounts.stale_le`).
-/

open scoped List

namespace SoftCache

variable {K V α : Type}

/-- Whether none of the payloads of a slot had been cleared at the time of the reclaimer. A payload
that had not been handed out by then counts as well. -/
def Slot.lasts (r : Reclaimer) (s : Slot K V) : Bool :=
  s.payloads.all fun payload => r.isLive payload || decide (r.next ≤ payload)

namespace Slot

variable {r r' : Reclaimer} {s : Slot K V}

/-- A slot lasts if each of its payloads is live or new. -/
theorem lasts_iff :
    s.lasts r = true ↔ ∀ payload ∈ s.payloads, payload ∈ r.live ∨ r.next ≤ payload := by
  simp [lasts, Reclaimer.isLive_iff]

/-- A slot is stale if one of its payloads is not live. -/
theorem isStale_iff : s.isStale r = true ↔ ∃ payload ∈ s.payloads, payload ∉ r.live := by
  unfold isStale payloads
  rw [Bool.or_eq_true, Holder.isCleared_iff, Holder.isCleared_iff]
  simp only [List.mem_append, or_and_right, exists_or]

/-- A slot is not stale if all its payloads are live. -/
theorem isStale_eq_false_iff_live :
    s.isStale r = false ↔ ∀ payload ∈ s.payloads, payload ∈ r.live := by
  rw [← Bool.not_eq_true, isStale_iff]
  push Not
  exact Iff.rfl

/-- What has been handed out lasts just if it is live. -/
theorem lasts_eq_of_lt (h : ∀ payload ∈ s.payloads, payload < r.next) :
    s.lasts r = !s.isStale r := by
  rw [Bool.eq_iff_iff, lasts_iff, Bool.not_eq_true', isStale_eq_false_iff_live]
  refine forall₂_congr fun payload hp => ?_
  have hn := h payload hp
  constructor
  · exact fun hlive => hlive.resolve_right (by omega)
  · exact .inl

/-- In an epoch that lasts, a slot that is handed over lasts just if it is live in the end. -/
theorem lasts_eq_of_handover {before after : List Nat} (hand : Handover r r' before after)
    (quiet : r'.epoch = r.epoch) (h : ∀ payload ∈ s.payloads, payload ∈ after) :
    s.lasts r = !s.isStale r' := by
  rw [Bool.eq_iff_iff, lasts_iff, Bool.not_eq_true', isStale_eq_false_iff_live]
  refine forall₂_congr fun payload hp => ?_
  by_cases hn : payload < r.next
  · rw [hand.mem_live_iff quiet hn fun _ => h payload hp]
    constructor
    · exact fun hlive => hlive.resolve_right (by omega)
    · exact .inl
  · -- What was handed out meanwhile is live, since no pass has been made.
    have hnew := hand.live_of_new quiet (h payload hp) (by omega)
    exact ⟨fun _ => hnew, fun _ => .inr (by omega)⟩

end Slot

namespace Table

/-- The stale slots of a table. -/
def stale (t : Table K V) (r : Reclaimer) : List (Slot K V) :=
  t.buckets.slots.filter (·.isStale r)

/-- The live entries are the contents of the slots that are not stale. -/
theorem liveEntries_eq_map_content (r : Reclaimer) (slots : List (Slot K V)) :
    liveEntries r slots = (slots.filter fun s => !s.isStale r).map Slot.content := by
  unfold liveEntries
  refine List.map_congr_left fun s hs => Slot.entry_eq_content ?_
  simpa using (List.mem_filter.mp hs).2

/-- The live entries of a table are the contents of its live slots. -/
theorem entries_eq_map_content (t : Table K V) (r : Reclaimer) :
    t.entries r = (t.buckets.slots.filter fun s => !s.isStale r).map Slot.content :=
  liveEntries_eq_map_content r t.buckets.slots

/-- An entry can be read just if a live slot has it. -/
theorem mem_entries_iff {t : Table K V} {r : Reclaimer} {entry : Entry K V} :
    entry ∈ t.entries r ↔
      ∃ s ∈ t.buckets.slots, s.isStale r = false ∧ s.content = entry := by
  rw [entries_eq_map_content]
  simp only [List.mem_map, List.mem_filter, Bool.not_eq_true', and_assoc]

/-- Slots are live or stale. -/
theorem length_slots (t : Table K V) (r : Reclaimer) :
    t.buckets.slots.length = (t.stale r).length + (t.entries r).length := by
  have hsplit := (List.filter_append_perm (Slot.isStale r) t.buckets.slots).length_eq
  rw [List.length_append] at hsplit
  rw [entries_eq_map_content, List.length_map, ← hsplit]
  rfl

end Table

section Quiet

variable {t : Table K V} {r : Reclaimer} {came left : List (Slot K V)}
  {departed : List (Departure K V)} {step : Step (Table K V) (Notice K V) α}

/-- In an epoch that lasts, a slot that had not been cleared before does not depart as expired. -/
theorem Step.Accounts.expired_eq_false (h : Step.Accounts t r step came departed left)
    (quiet : step.reclaimer.epoch = r.epoch) {d : Departure K V} (hd : d ∈ departed)
    (lasts : d.slot.lasts r = true) : d.expired = false := by
  refine Slot.isStale_eq_false_iff_live.mpr fun payload hp => ?_
  by_contra hdead
  -- It was live or new, so only a pass in a later epoch can have cleared it.
  obtain ⟨-, ⟨hn, hdead⟩ | hcleared⟩ := h.lost d hd payload hp hdead
  · rcases Slot.lasts_iff.mp lasts payload hp with hlive | hnew
    · exact hdead hlive
    · omega
  · exact hcleared.epoch_lt.ne' quiet

/-- In an epoch that lasts, a slot that departs as expired had been cleared before. -/
theorem Step.Accounts.not_lasts (h : Step.Accounts t r step came departed left)
    (quiet : step.reclaimer.epoch = r.epoch) (hnone : Departure.evictions departed = []) :
    ∀ d ∈ departed, d.slot.lasts r = false := by
  intro d hd
  have hexpired := Departure.expired_of_evictions_eq_nil hnone hd
  by_contra hlasts
  have hlive := h.expired_eq_false quiet hd (by simpa using hlasts)
  rw [hexpired] at hlive
  cases hlive

/-- A slot of a table lasts just if it is live. -/
theorem Table.lasts_eq (issued : r.Issued t.payloads) {s : Slot K V} (hs : s ∈ t.buckets.slots) :
    s.lasts r = !s.isStale r :=
  Slot.lasts_eq_of_lt fun payload hp => issued.lt_next payload (mem_payloads hs hp)

/-- A slot that there is after some work lasts just if it is live then. -/
theorem Step.Accounts.lasts_eq (h : Step.Accounts t r step came departed left)
    (quiet : step.reclaimer.epoch = r.epoch) {s : Slot K V} (hs : s ∈ step.state.buckets.slots) :
    s.lasts r = !s.isStale step.reclaimer :=
  Slot.lasts_eq_of_handover h.handover quiet fun _ hp => Table.mem_payloads hs hp

/-- In an epoch that lasts, the live entries that there were and came are there still, or left. -/
theorem Step.Accounts.entries (h : Step.Accounts t r step came departed left)
    (issued : r.Issued t.payloads) (quiet : step.reclaimer.epoch = r.epoch)
    (hnone : Departure.evictions departed = []) :
    t.entries r ++ (came.filter (·.lasts r)).map Slot.content ~
      step.state.entries step.reclaimer ++ (left.filter (·.lasts r)).map Slot.content := by
  have hdeparted : (departed.map (·.slot)).filter (·.lasts r) = [] := by
    rw [List.filter_eq_nil_iff]
    intro s hs
    obtain ⟨d, hd, rfl⟩ := List.mem_map.mp hs
    simp [h.not_lasts quiet hnone d hd]
  -- The account is read of the slots that last.
  have hbalance := (h.balance.filter (·.lasts r)).map Slot.content
  simp only [List.filter_append, List.map_append] at hbalance
  rw [List.filter_congr fun s hs => Table.lasts_eq issued hs,
    List.filter_congr fun s hs => h.lasts_eq quiet hs, hdeparted, List.map_nil,
    List.append_nil] at hbalance
  rwa [Table.entries_eq_map_content, Table.entries_eq_map_content]

/-- In an epoch that lasts, nothing becomes stale. -/
theorem Step.Accounts.stale_le (h : Step.Accounts t r step came departed left)
    (issued : r.Issued t.payloads) (quiet : step.reclaimer.epoch = r.epoch)
    (lasting : ∀ s ∈ came, s.lasts r = true) :
    (step.state.stale step.reclaimer).length ≤ (t.stale r).length := by
  have hcame : came.filter (fun s => !s.lasts r) = [] := by
    rw [List.filter_eq_nil_iff]
    intro s hs
    simp [lasting s hs]
  have hold : t.buckets.slots.filter (fun s => !s.lasts r) = t.stale r := by
    refine List.filter_congr fun s hs => ?_
    rw [Table.lasts_eq issued hs, Bool.not_not]
  have hnew : step.state.buckets.slots.filter (fun s => !s.lasts r) =
      step.state.stale step.reclaimer := by
    refine List.filter_congr fun s hs => ?_
    rw [h.lasts_eq quiet hs, Bool.not_not]
  -- The account is read of the slots that do not last.
  have hlength := (h.balance.filter fun s => !s.lasts r).length_eq
  simp only [List.filter_append, List.length_append] at hlength
  rw [hold, hcame, hnew, List.length_nil] at hlength
  omega

end Quiet

end SoftCache
