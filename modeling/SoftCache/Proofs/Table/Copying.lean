import Mathlib.Data.List.Forall2
import SoftCache.Proofs.Table.Upkeep

/-!
# Copies of tables

A copy of a sound table is sound (`Table.Sound.copy`), and its payloads are new ones
(`Table.handover_copy`). What the reclaimer clears while the copies of earlier slots are registered
is not copied, so a copy can have fewer slots than its original, but its slots are in the order and
in the buckets of their originals. The copies themselves outlast the copying, since the original of
what is copied is older than all of them and would be cleared first (`Table.swept_copy`).
-/

open scoped List

namespace SoftCache

variable {K V α : Type}

/-- What is held once more is held in the same way. -/
theorem Held.suits_again {s : Strength} {h : Holder α} (suits : h.Suits s) (r : Reclaimer) :
    (again h r).holder.Suits s := by
  cases h with
  | null => exact suits
  | strong content => exact suits
  | reclaimable payload content =>
    cases suits
    exact suits_of ..

/-- What is held once more is the same, unless it has been cleared. -/
theorem Held.content_again {h : Holder α} {r : Reclaimer} (live : h.isCleared r = false) :
    (again h r).holder.content = h.content := by
  cases h with
  | null => rfl
  | strong content => rfl
  | reclaimable payload content =>
    show (of .reclaimable (Holder.get r (.reclaimable payload content)) r).holder.content = _
    rw [content_of, Holder.get_eq_content live]

/-- What is held once more has a payload of its own. -/
theorem Handover.holdAgain {r : Reclaimer} {l : List Nat} (issued : r.Issued l) (h : Holder α) :
    Handover r (Held.again h r).reclaimer l (l ++ (Held.again h r).holder.payloads) := by
  cases h with
  | null => simpa [Held.again, Holder.payloads] using refl issued
  | strong content => simpa [Held.again, Holder.payloads] using refl issued
  | reclaimable payload content => exact hold issued .reclaimable _

/-! ## What a copy spares -/

/-- An orderly reclaimer that has cleared nothing of what was registered from some number on. -/
structure Reclaimer.Spares (r : Reclaimer) (start : Nat) : Prop extends r.Orderly where
  /-- What was registered from there on is live. -/
  live : ∀ payload, start ≤ payload → payload < r.next → payload ∈ r.live

namespace Reclaimer.Spares

variable {r : Reclaimer} {start : Nat}

/-- While something older is live, a registration clears nothing newer. -/
theorem register (h : r.Spares start) {old : Nat} (hold : old ∈ r.live) (hlt : old < start) :
    r.register.Spares start where
  toOrderly := h.toOrderly.register
  live payload hstart hnext := by
    rw [next_register] at hnext
    have hmem : payload ∈ r.live ++ [r.next] := by
      rw [List.mem_append, List.mem_singleton]
      by_cases hnew : payload = r.next
      · exact .inr hnew
      · exact .inl (h.live payload hstart (by omega))
    rw [h.live_register]
    split
    · -- The oldest payload goes, and that is not newer than the old one.
      obtain ⟨first, rest, hlive⟩ := List.exists_cons_of_ne_nil (List.ne_nil_of_mem hold)
      have hsorted := h.sorted_live
      rw [hlive, List.pairwise_cons] at hsorted
      rw [hlive] at hmem hold ⊢
      have hle : first ≤ old := by
        rcases List.mem_cons.mp hold with rfl | hrest
        · exact le_rfl
        · exact (hsorted.1 old hrest).le
      exact (List.mem_cons.mp hmem).resolve_left (by omega)
    · exact hmem

/-- Holding once more what is held by an old payload clears nothing newer. -/
theorem again (h : r.Spares start) {holder : Holder α}
    (old : ∀ payload ∈ holder.payloads, payload < start) :
    (Held.again holder r).reclaimer.Spares start := by
  cases holder with
  | null => exact h
  | strong content => exact h
  | reclaimable payload content =>
    -- Only what is live is registered once more.
    by_cases hlive : payload ∈ r.live
    · have hget : Holder.get r (.reclaimable payload content) = some content :=
        if_pos (isLive_iff.mpr hlive)
      rw [Held.again, hget]
      exact h.register hlive (old payload (List.mem_singleton_self _))
    · have hget : Holder.get r (.reclaimable payload content) = none :=
        if_neg fun hl => hlive (isLive_iff.mp hl)
      rw [Held.again, hget]
      exact h

/-- Copying old slots clears nothing newer. -/
theorem copyBucket (h : r.Spares start) {l : List (Slot K V)}
    (old : ∀ s ∈ l, ∀ payload ∈ s.payloads, payload < start) :
    (Table.copyBucket r l).reclaimer.Spares start := by
  induction l generalizing r with
  | nil => exact h
  | cons slot rest ih =>
    have hrest := fun s hs => old s (List.mem_cons_of_mem _ hs)
    have hslot := old slot List.mem_cons_self
    unfold Table.copyBucket
    split
    · exact ih h hrest
    · have hkey := h.again fun payload hp => hslot payload (List.mem_append_left _ hp)
      have hvalue := hkey.again fun payload hp => hslot payload (List.mem_append_right _ hp)
      exact ih hvalue hrest

/-- To copy old buckets spares whatever came later. -/
theorem copyBuckets (h : r.Spares start) {l : List (List (Slot K V))}
    (old : ∀ bucket ∈ l, ∀ s ∈ bucket, ∀ payload ∈ s.payloads, payload < start) :
    (Table.copyBuckets r l).reclaimer.Spares start := by
  induction l generalizing r with
  | nil => exact h
  | cons bucket rest ih =>
    exact ih (h.copyBucket (old bucket List.mem_cons_self)) fun bucket hbucket =>
      old bucket (List.mem_cons_of_mem _ hbucket)

end Reclaimer.Spares

/-- The hash and the key of a slot, which decide where it lies. -/
def Slot.place (s : Slot K V) : UInt64 × Option K :=
  (s.hash, s.key.content)

namespace Table

/-! ## Copies of slots -/

/-- The copies in a bucket are copies of some of its slots, in order. -/
theorem place_copyBucket (r : Reclaimer) (l : List (Slot K V)) :
    ((copyBucket r l).copies.map Slot.place).Sublist (l.map Slot.place) := by
  induction l generalizing r with
  | nil => exact List.Sublist.refl _
  | cons slot rest ih =>
    unfold copyBucket
    split
    · exact (ih r).cons _
    · next live =>
      -- Only live slots are copied, so the key of the copy can be read.
      have hkey := (Slot.isStale_eq_false_iff.mp (by simpa using live)).1
      have hplace : Slot.place (K := K) (V := V)
          ⟨slot.hash, (Held.again slot.key r).holder,
            (Held.again slot.value (Held.again slot.key r).reclaimer).holder⟩ = slot.place := by
        rw [Slot.place, Slot.place, Held.content_again hkey]
      rw [List.map_cons, List.map_cons, hplace]
      exact (ih _).cons_cons _

/-- The sides of copies are held as those of their originals. -/
theorem suits_copyBucket {key value : Strength} (r : Reclaimer) {l : List (Slot K V)}
    (suited : ∀ s ∈ l, s.key.Suits key ∧ s.value.Suits value) :
    ∀ s ∈ (copyBucket r l).copies, s.key.Suits key ∧ s.value.Suits value := by
  induction l generalizing r with
  | nil => exact fun s hs => nomatch hs
  | cons slot rest ih =>
    have hslot := suited slot List.mem_cons_self
    have hrest := fun s hs => suited s (List.mem_cons_of_mem _ hs)
    unfold copyBucket
    split
    · exact ih r hrest
    · intro s hs
      rcases List.mem_cons.mp hs with rfl | hs
      · exact ⟨Held.suits_again hslot.1 _, Held.suits_again hslot.2 _⟩
      · exact ih _ hrest s hs

/-- The payloads of copies in a bucket come into custody. -/
theorem handover_copyBucket {r : Reclaimer} {held : List Nat} (issued : r.Issued held)
    (l : List (Slot K V)) :
    Handover r (copyBucket r l).reclaimer held
      (held ++ (copyBucket r l).copies.flatMap Slot.payloads) := by
  induction l generalizing r held with
  | nil => simpa [copyBucket] using Handover.refl issued
  | cons slot rest ih =>
    unfold copyBucket
    split
    · exact ih issued
    · -- The copy of the key is registered first, then the copy of the value.
      have hkey := Handover.holdAgain issued slot.key
      have hvalue := Handover.holdAgain hkey.issued slot.value
      have hrest := ih hvalue.issued
      refine (hkey.trans (hvalue.trans hrest)).perm .rfl (.of_eq ?_)
      simp [Slot.payloads]

/-- The copies of buckets are the copies of one bucket after the other. -/
theorem place_copyBuckets (r : Reclaimer) (l : List (List (Slot K V))) :
    List.Forall₂ (fun copies bucket => (copies.map Slot.place).Sublist (bucket.map Slot.place))
      (copyBuckets r l).copies l := by
  induction l generalizing r with
  | nil => exact .nil
  | cons bucket rest ih => exact .cons (place_copyBucket r bucket) (ih _)

/-- Copies are held with the strengths of what was copied. -/
theorem suits_copyBuckets {key value : Strength} (r : Reclaimer) {l : List (List (Slot K V))}
    (suited : ∀ bucket ∈ l, ∀ s ∈ bucket, s.key.Suits key ∧ s.value.Suits value) :
    ∀ copies ∈ (copyBuckets r l).copies, ∀ s ∈ copies,
      s.key.Suits key ∧ s.value.Suits value := by
  induction l generalizing r with
  | nil => exact fun copies h => nomatch h
  | cons bucket rest ih =>
    intro copies h
    rcases List.mem_cons.mp h with rfl | h
    · exact suits_copyBucket r (suited bucket List.mem_cons_self)
    · exact ih _ (fun bucket hb => suited bucket (List.mem_cons_of_mem _ hb)) copies h

/-- The payloads of the copies come into custody beside those that were held. -/
theorem handover_copyBuckets {r : Reclaimer} {held : List Nat} (issued : r.Issued held)
    (l : List (List (Slot K V))) :
    Handover r (copyBuckets r l).reclaimer held
      (held ++ (copyBuckets r l).copies.flatten.flatMap Slot.payloads) := by
  induction l generalizing r held with
  | nil => simpa [copyBuckets] using Handover.refl issued
  | cons bucket rest ih =>
    have hfirst := handover_copyBucket issued bucket
    have hrest := ih hfirst.issued
    refine (hfirst.trans hrest).perm .rfl (.of_eq ?_)
    simp [copyBuckets]

/-- Some elements of each list are some of all. -/
theorem sublist_flatten {l l' : List (List α)} (h : List.Forall₂ (· <+ ·) l l') :
    l.flatten <+ l'.flatten := by
  induction h with
  | nil => exact List.Sublist.refl _
  | cons hfirst _ ih =>
    rw [List.flatten_cons, List.flatten_cons]
    exact hfirst.append ih

/-! ## Copies of tables -/

variable {t : Table K V} {r : Reclaimer}

/-- The slots of a copy are copies of slots, in order. -/
theorem place_copy (t : Table K V) (r : Reclaimer) :
    ((t.copy r).result.buckets.slots.map Slot.place).Sublist (t.buckets.slots.map Slot.place) := by
  have hcopies := place_copyBuckets r t.buckets.toList
  rw [← List.forall₂_map_right_iff (f := List.map Slot.place),
    ← List.forall₂_map_left_iff (f := List.map Slot.place)] at hcopies
  have hsome := sublist_flatten hcopies
  rwa [← List.map_flatten, ← List.map_flatten] at hsome

/-- The slots in a bucket of a copy are copies of slots in that bucket. -/
theorem place_bucket_copy (t : Table K V) (r : Reclaimer) (i : Nat) :
    (((t.copy r).result.buckets.bucket i).map Slot.place).Sublist
      ((t.buckets.bucket i).map Slot.place) := by
  have hcopies := place_copyBuckets r t.buckets.toList
  have hlength := hcopies.length_eq
  rw [List.forall₂_iff_get] at hcopies
  have hbuckets : (t.copy r).result.buckets = (copyBuckets r t.buckets.toList).copies.toArray := rfl
  by_cases hi : i < t.buckets.toList.length
  · have hcopy : i < (copyBuckets r t.buckets.toList).copies.length := by omega
    have hsize : i < t.buckets.size := by simpa using hi
    have hsublist := hcopies.2 i hcopy hi
    simpa [hbuckets, Buckets.bucket, Array.getD_eq_getD_getElem?, hcopy, hsize] using hsublist
  · -- Past the last bucket there is nothing to copy.
    have hnil : (t.copy r).result.buckets.bucket i = [] := by
      refine Buckets.bucket_eq_nil ?_
      rw [hbuckets, List.size_toArray]
      omega
    rw [hnil]
    exact List.nil_sublist _

/-- A copy has as many buckets as its original. -/
@[simp] theorem capacity_copy (t : Table K V) (r : Reclaimer) :
    (t.copy r).result.capacity = t.capacity := by
  have hlength := (place_copyBuckets r t.buckets.toList).length_eq
  rwa [Array.length_toList] at hlength

/-- The payloads of a copy come into custody beside those of its original. -/
theorem handover_copy {held : List Nat} (issued : r.Issued held) (t : Table K V) :
    Handover r (t.copy r).reclaimer held (held ++ (t.copy r).result.payloads) :=
  handover_copyBuckets issued t.buckets.toList

/-- Nothing of a copy is lost while it is made. -/
theorem swept_copy (issued : r.Issued t.payloads) :
    (t.copy r).result.Swept (t.copy r).reclaimer where
  epoch_le := le_rfl
  live _ payload hp := by
    have hand := handover_copy issued t
    have hafter : payload ∈ t.payloads ++ (t.copy r).result.payloads :=
      List.mem_append_right _ hp
    have hspares : r.Spares r.next :=
      ⟨issued.toOrderly, fun payload hold hnew => absurd hnew (by omega)⟩
    have hcopied := hspares.copyBuckets (l := t.buckets.toList) fun bucket hbucket s hs =>
      fun payload hp => issued.lt_next payload
        (mem_payloads (List.mem_flatten.mpr ⟨bucket, hbucket, hs⟩) hp)
    -- What the copy holds is not held by the table, so it is new.
    rcases hand.origin payload hafter with hold | hnew
    · exact absurd hp (hand.issued.not_mem_right hold)
    · exact hcopied.live payload hnew (hand.issued.lt_next payload hafter)

variable [Hashed K]

/-- A copy of a sound table is sound. -/
theorem Sound.copy (h : t.Sound) (r : Reclaimer) : (t.copy r).result.Sound := by
  have hplace := place_copy t r
  -- No more slots are copied than there are.
  have hcount : (t.copy r).result.count ≤ t.count := by
    have hlength := hplace.length_le
    rw [List.length_map, List.length_map] at hlength
    rw [h.counted]
    exact hlength
  constructor
  case within_threshold =>
    have hthreshold : (t.copy r).result.threshold = t.threshold := h.threshold_eq.symm
    rw [hthreshold]
    exact hcount.trans h.within_threshold
  case within_bound => exact fun bound hbound => hcount.trans (h.within_bound bound hbound)
  case toCoherent =>
    constructor
    case capacity_pos =>
      rw [capacity_copy]
      exact h.capacity_pos
    case counted => rfl
    -- A copy has the hash of its original, and lies in the bucket of the same number.
    case placed =>
      intro i s hs
      obtain ⟨original, horiginal, hsame⟩ :=
        List.mem_map.mp ((place_bucket_copy t r i).subset (List.mem_map_of_mem hs))
      have hhash : original.hash = s.hash := congrArg Prod.fst hsame
      rw [capacity_copy, ← hhash]
      exact h.placed i original horiginal
    case hashed =>
      intro s hs
      obtain ⟨original, horiginal, hsame⟩ :=
        List.mem_map.mp (hplace.subset (List.mem_map_of_mem hs))
      have hhash : original.hash = s.hash := congrArg Prod.fst hsame
      have hkey : original.key.content = s.key.content := congrArg Prod.snd hsame
      rw [← hhash, ← hkey]
      exact h.hashed original horiginal
    -- The keys of the copies are among those of the originals.
    case distinct =>
      have hkeys := hplace.map Prod.snd
      rw [List.map_map, List.map_map] at hkeys
      exact hkeys.nodup h.distinct
    case threshold_eq =>
      rw [capacity_copy]
      rfl
    case suited =>
      intro s hs
      obtain ⟨copies, hcopies, hs⟩ := List.mem_flatten.mp hs
      refine suits_copyBuckets r (fun bucket hbucket s hs => ?_) copies hcopies s hs
      exact h.suited s (List.mem_flatten.mpr ⟨bucket, hbucket, hs⟩)

end Table

end SoftCache
