import SoftCache.Proofs.Table.Accounts

/-!
# Lively tables

A table is lively if nothing in it is stale and its reclaimer has no budget, so that only a pass can
clear something. Work on a lively table leaves a lively one (`Step.Accounts.lively`). All that the
operations do about stale slots comes to nothing there, and what is read of a slot is its content.
-/

open scoped List

namespace SoftCache

variable {K V α β : Type}

/-- No slots are dismissed. -/
theorem Reclaimer.dismiss_nil (r : Reclaimer) : r.dismiss ([] : List (Slot K V)) = r := by
  have hlive : r.live.filter (fun payload => !([] : List Nat).contains payload) = r.live :=
    List.filter_eq_self.mpr fun _ _ => rfl
  rw [dismiss, List.flatMap_nil, release, hlive]

/-- A table in which nothing is stale, and nothing can become so but by a pass. -/
structure Table.Lively (t : Table K V) (r : Reclaimer) : Prop where
  /-- The payloads of the table have been issued. -/
  issued : r.Issued t.payloads
  /-- No registration leads to a pass. -/
  budget : r.budget = none
  /-- Nothing is stale. -/
  live : ∀ s ∈ t.buckets.slots, s.isStale r = false

/-- Work on a lively table leaves a lively one. -/
theorem Step.Accounts.lively {t : Table K V} {r : Reclaimer}
    {step : Step (Table K V) (Notice K V) α} {came left : List (Slot K V)}
    {departed : List (Departure K V)} (h : Step.Accounts t r step came departed left)
    (lively : t.Lively r) (lasting : ∀ s ∈ came, s.lasts r = true) :
    step.state.Lively step.reclaimer where
  issued := h.issued
  budget := h.handover.precedes.budget.trans lively.budget
  live := by
    have hle := h.stale_le lively.issued (h.handover.quiet (.inl lively.budget)) lasting
    have hnone : t.stale r = [] := by
      rw [Table.stale, List.filter_eq_nil_iff]
      intro s hs
      simp [lively.live s hs]
    rw [hnone, List.length_nil, Nat.le_zero, List.length_eq_zero_iff, Table.stale,
      List.filter_eq_nil_iff] at hle
    exact fun s hs => by simpa using hle s hs

namespace Table.Lively

variable {t : Table K V} {r : Reclaimer}

/-- Nothing in a bucket is stale. -/
theorem live_bucket (h : t.Lively r) (i : Nat) : ∀ s ∈ t.buckets.bucket i, s.isStale r = false :=
  fun s hs => h.live s (Buckets.mem_slots.mpr ⟨i, hs⟩)

/-- There are no stale slots among all. -/
theorem filter_isStale (h : t.Lively r) : t.buckets.slots.filter (·.isStale r) = [] := by
  rw [List.filter_eq_nil_iff]
  intro s hs
  simp [h.live s hs]

/-- All slots are live. -/
theorem filter_live (h : t.Lively r) :
    t.buckets.slots.filter (fun s => !s.isStale r) = t.buckets.slots :=
  List.filter_eq_self.mpr fun s hs => by simp [h.live s hs]

/-- All that is in the table can be read. -/
theorem entries (h : t.Lively r) : t.entries r = t.contents :=
  entries_eq_contents h.live

/-- A purge does nothing. -/
theorem purge (h : t.Lively r) (i : Nat) : t.purge r i = .done t r () := by
  have hnone : (t.buckets.bucket i).filter (·.isStale r) = [] := by
    rw [List.filter_eq_nil_iff]
    intro s hs
    simp [h.live_bucket i s hs]
  have hall : (t.buckets.bucket i).filter (fun s => !s.isStale r) = t.buckets.bucket i :=
    List.filter_eq_self.mpr fun s hs => by simp [h.live_bucket i s hs]
  rw [Table.purge, hnone, hall, Buckets.set_bucket, Reclaimer.dismiss_nil]
  rfl

/-- A sweep finds nothing. The table remembers at most that it was made. -/
theorem removeExpired (h : t.Lively r) :
    ∃ epoch log, t.removeExpired r = ⟨0, { t with sweptEpoch := epoch }, r, [], log⟩ := by
  unfold Table.removeExpired
  split
  · have hbuckets :
        (t.buckets.map fun bucket => bucket.filter fun s => !s.isStale r) = t.buckets := by
      refine Array.ext (Array.size_map ..) fun i hi hi' => ?_
      rw [Array.getElem_map]
      refine List.filter_eq_self.mpr fun s hs => ?_
      have hslot : s ∈ t.buckets.slots :=
        List.mem_flatten.mpr ⟨t.buckets[i], Array.getElem_mem_toList hi', hs⟩
      simp [h.live s hslot]
    rw [Table.purgeAll, h.filter_isStale, hbuckets, Reclaimer.dismiss_nil]
    exact ⟨_, _, rfl⟩
  · exact ⟨_, _, rfl⟩

/-- Counting finds all slots. -/
theorem length (h : t.Lively r) :
    ∃ epoch log, t.length r = ⟨t.count, { t with sweptEpoch := epoch }, r, [], log⟩ := by
  unfold Table.length Table.sweep
  split
  · exact ⟨_, _, rfl⟩
  · obtain ⟨epoch, log, heq⟩ := h.removeExpired
    rw [heq]
    exact ⟨_, _, rfl⟩

/-- A registration clears nothing. -/
theorem isStale_hold (h : t.Lively r) {s : Slot K V} (hs : s ∈ t.buckets.slots)
    (strength : Strength)
    (content : Option α) : s.isStale (Held.of strength content r).reclaimer = false := by
  have hhold := Handover.hold h.issued strength content
  rw [Slot.isStale_congr fun payload hp => hhold.mem_live_iff (hhold.quiet (.inl h.budget))
    (h.issued.lt_next payload (mem_payloads hs hp)) fun hthere => List.mem_append_left _ hthere]
  exact h.live s hs

section Keys

variable [DecidableEq K] [Hashed K]

/-- A lookup finds the slot of the key, or none. -/
theorem lookup (h : t.Lively r) {key : Option K} (hkey : t.excludes key = false) :
    t.lookup r key =
      match t.slotFor? r key with
      | none => .done (t.tally fun m => { m with misses := m.misses + 1 }) r none
      | some slot =>
        .done ((t.tally fun m => { m with hits := m.hits + 1 }).touch r key) r
          (some slot.value.content) := by
  have htidy : t.tidy r key = .done t r () := by
    unfold tidy
    split
    · exact h.purge _
    · rfl
  rw [lookup_eq r hkey, htidy]
  cases found : t.slotFor? r key with
  | none => rfl
  | some slot =>
    have hlive := h.live_bucket _ slot (slotFor?_spec found).1
    have hvalue := (Slot.isStale_eq_false_iff.mp hlive).2
    simp [Step.andThen, Step.done, Option.filter, hvalue, Holder.get_eq_content hvalue]

/-- A removal takes the slot of the key, or nothing. -/
theorem removeIf (h : t.Lively r) {key : Option K} (hkey : t.excludes key = false)
    (accept : Option V → Bool) : t.removeIf r key accept = t.removeFound r key accept := by
  rw [removeIf_eq r accept hkey, h.purge]
  rfl

/-- An entry is put into the slot of its key, or into a new one. -/
theorem insert (h : t.Lively r) (key : Option K) (value : Option V) :
    t.insert r key value = t.insertFound r key value := by
  rw [insert_eq, h.purge]
  rfl

end Keys

end Table.Lively

end SoftCache
