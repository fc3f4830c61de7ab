import Mathlib.Data.List.TakeWhile
import Mathlib.Tactic.Conv
import SoftCache.Table.Update

/-!
# What lies in the buckets

A holder has a *content* whether or not the reclaimer has cleared it, and so has a slot. What is
said of contents does not depend on a reclaimer, so a pass cannot make it false. The lemmas here say
what the operations on buckets do to the list of all slots, up to its order: one bucket is a stretch
of that list (`slots_split`), a slot that is pushed is one more (`slots_push`), and what a probe
takes out is what it answers (`slots_probe`).
-/

open scoped List

namespace SoftCache

variable {K V α : Type}

/-! ## Contents -/

/-- What was put under a holder, whether or not it has been cleared since. -/
def Holder.content : Holder α → Option α
  | null => none
  | strong content => some content
  | reclaimable _ content => some content

/-- Whether the holder is one that a side of this strength can have. A null can be on either. -/
def Holder.Suits (s : Strength) : Holder α → Prop
  | null => True
  | strong _ => s = .strong
  | reclaimable .. => s = .reclaimable

namespace Holder

/-- What has not been cleared can be read. -/
theorem get_eq_content {r : Reclaimer} {h : Holder α} (live : h.isCleared r = false) :
    h.get r = h.content := by
  cases h with
  | null => rfl
  | strong content => rfl
  | reclaimable payload content =>
    simp only [isCleared, Bool.not_eq_false'] at live
    simp [get, Holder.content, live]

/-- A holder matches just its own content, and only while that is not cleared. -/
theorem holds_iff [DecidableEq α] {r : Reclaimer} {wanted : Option α} {h : Holder α} :
    h.holds r wanted = true ↔ h.isCleared r = false ∧ h.content = wanted := by
  rw [holds, Bool.and_eq_true, Bool.not_eq_true', beq_iff_eq]
  constructor
  · rintro ⟨live, same⟩
    exact ⟨live, by rw [← get_eq_content live, same]⟩
  · rintro ⟨live, same⟩
    exact ⟨live, by rw [get_eq_content live, same]⟩

/-- A strong side is never cleared. -/
theorem isCleared_of_suits_strong {r : Reclaimer} {h : Holder α} (suits : h.Suits .strong) :
    h.isCleared r = false := by
  cases h with
  | null => rfl
  | strong content => rfl
  | reclaimable payload content => cases suits

/-- On a reclaimable side a content has a payload. -/
theorem eq_reclaimable {h : Holder α} {a : α} (suits : h.Suits .reclaimable)
    (there : h.content = some a) : ∃ payload, h = .reclaimable payload a := by
  cases h with
  | null => cases there
  | strong content => cases suits
  | reclaimable payload content =>
    cases there
    exact ⟨payload, rfl⟩

end Holder

/-- A new holder has the content that it was made for. -/
@[simp] theorem Held.content_of (s : Strength) (content : Option α) (r : Reclaimer) :
    (Held.of s content r).holder.content = content := by
  cases content <;> cases s <;> rfl

/-- A new holder suits its strength. -/
theorem Held.suits_of (s : Strength) (content : Option α) (r : Reclaimer) :
    (Held.of s content r).holder.Suits s := by
  cases content <;> cases s <;> simp [of, Holder.Suits]

/-- The key and the value of a slot, whether or not they have been cleared since. -/
def Slot.content (s : Slot K V) : Entry K V :=
  (s.key.content, s.value.content)

/-- Whether a table with this configuration can have the slot. -/
def Slot.Suits (config : Table.Config) (s : Slot K V) : Prop :=
  s.key.Suits config.keyStrength ∧ s.value.Suits config.valueStrength

namespace Slot

/-- The content begins with the key. -/
@[simp] theorem content_fst (s : Slot K V) : s.content.1 = s.key.content := rfl

/-- The content ends with the value. -/
@[simp] theorem content_snd (s : Slot K V) : s.content.2 = s.value.content := rfl

/-- Neither side of a slot that is not stale has been cleared. -/
theorem isStale_eq_false_iff {r : Reclaimer} {s : Slot K V} :
    s.isStale r = false ↔ s.key.isCleared r = false ∧ s.value.isCleared r = false := by
  rw [isStale, Bool.or_eq_false_iff]

/-- A slot with two strong sides is never stale. -/
theorem isStale_of_suits_strong {config : Table.Config} {s : Slot K V} (suits : s.Suits config)
    (hkey : config.keyStrength = .strong) (hvalue : config.valueStrength = .strong)
    (r : Reclaimer) : s.isStale r = false := by
  obtain ⟨hk, hv⟩ := suits
  rw [hkey] at hk
  rw [hvalue] at hv
  exact isStale_eq_false_iff.mpr
    ⟨Holder.isCleared_of_suits_strong hk, Holder.isCleared_of_suits_strong hv⟩

/-- The entry in a slot that is not stale is its content. -/
theorem entry_eq_content {r : Reclaimer} {s : Slot K V} (live : s.isStale r = false) :
    s.entry r = s.content := by
  obtain ⟨hk, hv⟩ := isStale_eq_false_iff.mp live
  rw [entry, content, Holder.get_eq_content hk, Holder.get_eq_content hv]

/-- A slot has a key if that is its content, has not been cleared, and has this hash. -/
theorem isFor_iff [DecidableEq K] {r : Reclaimer} {hash : UInt64} {key : Option K} {s : Slot K V} :
    s.isFor r hash key = true ↔
      s.hash = hash ∧ s.key.isCleared r = false ∧ s.key.content = key := by
  rw [isFor, Bool.and_eq_true, beq_iff_eq, Holder.holds_iff]

end Slot

/-! ## Lists that one element is taken from -/

/-- A list falls apart at the first element that a test accepts. That element can be taken out or
replaced, and the rest stays as it is. -/
theorem Table.split_of_find? {test : α → Bool} {l : List α} {a : α}
    (found : l.find? test = some a) :
    test a = true ∧ ∃ before after, l = before ++ a :: after ∧ l.eraseP test = before ++ after ∧
      ∀ new, Table.replaceFirst test new l = before ++ new :: after := by
  induction l with
  | nil => cases found
  | cons b rest ih =>
    -- The element is the first one or one of the rest.
    by_cases hb : test b = true
    · rw [List.find?_cons_of_pos hb] at found
      cases found
      refine ⟨hb, [], rest, rfl, ?_, fun new => ?_⟩
      · rw [List.eraseP_cons_of_pos hb]
        rfl
      · rw [Table.replaceFirst, if_pos hb]
        rfl
    · rw [List.find?_cons_of_neg hb] at found
      obtain ⟨ha, before, after, hl, herase, hreplace⟩ := ih found
      refine ⟨ha, b :: before, after, ?_, ?_, fun new => ?_⟩
      · rw [hl]
        rfl
      · rw [List.eraseP_cons_of_neg hb, herase]
        rfl
      · rw [Table.replaceFirst, if_neg hb, hreplace]
        rfl

/-- Moving an element to the end only changes the order. -/
theorem Table.moveToBack_perm (test : α → Bool) (l : List α) :
    Table.moveToBack test l ~ l := by
  rw [moveToBack]
  cases found : l.find? test with
  | none =>
    rw [List.eraseP_of_forall_not (List.find?_eq_none.mp found)]
    simp
  | some a =>
    -- The element is taken from between what is before and what is after it.
    obtain ⟨-, before, after, hl, herase, -⟩ := split_of_find? found
    rw [herase, hl, Option.toList_some, List.append_assoc]
    have hswap : after ++ [a] ~ [a] ++ after := List.perm_append_comm
    exact hswap.append_left before

namespace Buckets

/-! ## All slots -/

/-- The slots are those of the buckets. -/
theorem mem_slots {b : Buckets K V} {s : Slot K V} : s ∈ b.slots ↔ ∃ i, s ∈ b.bucket i := by
  rw [slots, List.mem_flatten]
  constructor
  · rintro ⟨l, hl, hs⟩
    obtain ⟨i, hi, rfl⟩ := List.mem_iff_getElem.mp hl
    refine ⟨i, ?_⟩
    rw [Array.length_toList] at hi
    simpa [bucket, Array.getD, hi] using hs
  · rintro ⟨i, hs⟩
    by_cases hi : i < b.size
    · refine ⟨b[i], by simp, ?_⟩
      simpa [bucket, Array.getD, hi] using hs
    · simp [bucket, Array.getD, hi] at hs

/-- There is nothing past the last bucket. -/
theorem bucket_eq_nil {b : Buckets K V} {i : Nat} (h : b.size ≤ i) : b.bucket i = [] := by
  simp [bucket, Array.getD, Nat.not_lt.mpr h]

/-- A bucket with something in it is one of the buckets. -/
theorem lt_size_of_mem {b : Buckets K V} {i : Nat} {s : Slot K V} (h : s ∈ b.bucket i) :
    i < b.size := by
  by_contra hi
  rw [bucket_eq_nil (Nat.le_of_not_lt hi)] at h
  cases h

/-- Putting the slots of a bucket back changes nothing. -/
theorem set_bucket (b : Buckets K V) (i : Nat) : b.set i (b.bucket i) = b := by
  unfold set bucket
  by_cases hi : i < b.size
  · simp [Array.setIfInBounds, Array.getD, hi]
  · rw [Array.setIfInBounds, dif_neg hi]

/-- One bucket is a stretch of the list of all slots, and replacing it replaces that stretch. -/
theorem slots_split (b : Buckets K V) {i : Nat} (h : i < b.size) :
    ∃ before after, b.slots = before ++ b.bucket i ++ after ∧
      ∀ l, (b.set i l).slots = before ++ l ++ after := by
  have hlen : i < b.toList.length := by simpa using h
  have hi : b.bucket i = b.toList[i] := by simp [bucket, Array.getD, h]
  refine ⟨(b.toList.take i).flatten, (b.toList.drop (i + 1)).flatten, ?_, fun l => ?_⟩
  · have hcut : b.toList = b.toList.take i ++ b.toList[i] :: b.toList.drop (i + 1) := by
      rw [← List.drop_eq_getElem_cons hlen, List.take_append_drop]
    rw [slots, hi]
    conv_lhs => rw [hcut]
    simp
  · rw [slots, set, Array.toList_setIfInBounds, List.set_eq_take_append_cons_drop, if_pos hlen]
    simp

/-- What a bucket is given and loses, the table is given and loses. -/
theorem slots_exchange (b : Buckets K V) {i : Nat} (hi : i < b.size) {l came gone : List (Slot K V)}
    (h : b.bucket i ++ came ~ l ++ gone) : b.slots ++ came ~ (b.set i l).slots ++ gone := by
  classical
  obtain ⟨before, after, hslots, hset⟩ := b.slots_split hi
  rw [hslots, hset, List.perm_iff_count]
  intro s
  have hcount := h.count_eq s
  simp only [List.count_append] at *
  omega

/-- Replacing a bucket by what is left of it leaves the slots that are left. -/
theorem slots_set_perm (b : Buckets K V) (i : Nat) {l : List (Slot K V)} (gone : List (Slot K V))
    (h : b.bucket i ~ l ++ gone) : b.slots ~ (b.set i l).slots ++ gone := by
  by_cases hi : i < b.size
  · have hnew : b.bucket i ++ [] ~ l ++ gone := by rwa [List.append_nil]
    simpa using b.slots_exchange hi hnew
  · -- Past the last bucket there is nothing to lose.
    have hnil : b.bucket i = [] := bucket_eq_nil (Nat.le_of_not_lt hi)
    have hgone : l = [] ∧ gone = [] := by simpa [hnil] using h
    rw [hgone.1, hgone.2, List.append_nil, set, Array.setIfInBounds, dif_neg hi]

/-- A slot that is pushed is one more. -/
theorem slots_push (b : Buckets K V) (s : Slot K V) (h : 0 < b.size) :
    (b.push s).slots ~ b.slots ++ [s] := by
  have hi : bucketOf b.size s.hash < b.size := Nat.mod_lt _ h
  have hnew : b.bucket (bucketOf b.size s.hash) ++ [s] ~
      (b.bucket (bucketOf b.size s.hash) ++ [s]) ++ [] := by rw [List.append_nil]
  rw [← List.append_nil (slots (b.push s))]
  exact (b.slots_exchange hi hnew).symm

/-- Slots that are spread over new buckets are all there. -/
theorem slots_ofSlots {capacity : Nat} (l : List (Slot K V)) (h : 0 < capacity) :
    (ofSlots capacity l).slots ~ l := by
  have hempty : (empty (K := K) (V := V) capacity).slots = [] := by
    simp [empty, slots]
  -- The slots are pushed one by one, so the claim is made of any buckets to start with.
  suffices hall : ∀ b : Buckets K V, 0 < b.size → (l.foldl push b).slots ~ b.slots ++ l by
    have := hall (empty capacity) (by simpa using h)
    rwa [hempty, List.nil_append] at this
  induction l with
  | nil => simp
  | cons s rest ih =>
    intro b hb
    rw [List.foldl_cons]
    calc (rest.foldl push (b.push s)).slots
      _ ~ (b.push s).slots ++ rest := ih _ (by simpa using hb)
      _ ~ b.slots ++ [s] ++ rest := (b.slots_push s hb).append_right rest
      _ ~ b.slots ++ s :: rest := by simp

/-- Filtering every bucket filters the slots. -/
theorem slots_map_filter (b : Buckets K V) (keep : Slot K V → Bool) :
    slots (Array.map (List.filter keep) b) = b.slots.filter keep := by
  rw [slots, slots, Array.toList_map, List.filter_flatten]

/-- Filtering every bucket filters this one. -/
theorem bucket_map_filter (b : Buckets K V) (keep : Slot K V → Bool) (i : Nat) :
    bucket (Array.map (List.filter keep) b) i = (b.bucket i).filter keep := by
  by_cases hi : i < b.size
  · simp [bucket, Array.getD, hi]
  · simp [bucket, Array.getD, hi]

/-- Empty buckets have no slots. -/
@[simp] theorem slots_empty (capacity : Nat) : (empty (K := K) (V := V) capacity).slots = [] := by
  simp [empty, slots]

/-! ## Probes -/

section Probe

variable {r : Reclaimer}

/-- A probe leaves the number of buckets as it is. -/
@[simp] theorem size_probe (order : List Nat) (b : Buckets K V) :
    (probe r order b).buckets.size = b.size := by
  induction order generalizing b with
  | nil => rfl
  | cons i order ih =>
    unfold probe
    split
    · exact size_set ..
    · simp [ih]

/-- A probe takes slots out of a bucket and leaves the others in their order. -/
theorem bucket_probe_sublist (order : List Nat) (b : Buckets K V) (j : Nat) :
    (probe r order b).buckets.bucket j <+ b.bucket j := by
  induction order generalizing b with
  | nil => exact .refl _
  | cons i order ih =>
    unfold probe
    split
    next slot rest hrest =>
      dsimp only
      rw [bucket_set]
      split
      · next hij =>
        rw [← hij.1]
        exact (hrest ▸ List.sublist_cons_self slot rest).trans (List.dropWhile_sublist _)
      · exact .refl _
    next =>
      refine (ih _).trans ?_
      rw [bucket_set]
      split
      · exact List.nil_sublist _
      · exact .refl _

/-- A probe leaves in a bucket only what was there. -/
theorem bucket_probe_subset (order : List Nat) (b : Buckets K V) (j : Nat) :
    (probe r order b).buckets.bucket j ⊆ b.bucket j :=
  (bucket_probe_sublist order b j).subset

/-- What a probe takes out is what it answers. -/
theorem slots_probe (order : List Nat) (b : Buckets K V) :
    b.slots ~
      (probe r order b).buckets.slots ++ (probe r order b).stale ++
        (probe r order b).found.toList := by
  induction order generalizing b with
  | nil => simp [probe]
  | cons i order ih =>
    have hcut : (b.bucket i).takeWhile (·.isStale r) ++ (b.bucket i).dropWhile (·.isStale r) =
        b.bucket i := List.takeWhile_append_dropWhile
    unfold probe
    split
    next slot rest hrest =>
      rw [hrest] at hcut
      have hbucket : b.bucket i ~ rest ++ ((b.bucket i).takeWhile (·.isStale r) ++ [slot]) := by
        conv_lhs => rw [← hcut]
        rw [List.append_cons]
        exact List.perm_append_comm
      -- The probe ends here with the first slot that is not stale.
      simpa using b.slots_set_perm i _ hbucket
    next hrest =>
      -- All slots of the bucket are stale, and the probe goes on.
      rw [hrest, List.append_nil] at hcut
      have hbucket : b.bucket i ~ [] ++ (b.bucket i).takeWhile (·.isStale r) := by
        rw [hcut, List.nil_append]
      have hnext := ih (b.set i [])
      refine ((b.slots_set_perm i _ hbucket).trans (hnext.append_right _)).trans ?_
      simp only [List.append_assoc]
      refine List.Perm.append_left _ ?_
      rw [← List.append_assoc]
      exact List.perm_append_comm

/-- The slots that a probe drops on its way are stale. -/
theorem isStale_of_mem_stale (order : List Nat) (b : Buckets K V) :
    ∀ s ∈ (probe r order b).stale, s.isStale r = true := by
  induction order generalizing b with
  | nil => simp [probe]
  | cons i order ih =>
    unfold probe
    split
    next =>
      intro s hs
      exact (List.mem_takeWhile_imp hs)
    next =>
      intro s hs
      rcases List.mem_append.mp hs with hs | hs
      · exact List.mem_takeWhile_imp hs
      · exact ih _ s hs

/-- The slot that a probe takes is not stale. -/
theorem isStale_of_found (order : List Nat) (b : Buckets K V) {s : Slot K V}
    (h : (probe r order b).found = some s) : s.isStale r = false := by
  induction order generalizing b with
  | nil => cases h
  | cons i order ih =>
    rw [probe] at h
    split at h
    next slot rest hrest =>
      cases h
      have := List.head?_dropWhile_not (·.isStale r) (b.bucket i)
      rw [hrest] at this
      simpa using this
    next => exact ih _ h

/-- A probe that takes nothing leaves nothing in the buckets that it visits. -/
theorem bucket_probe_eq_nil (order : List Nat) (b : Buckets K V)
    (h : (probe r order b).found = none) :
    ∀ i ∈ order, (probe r order b).buckets.bucket i = [] := by
  induction order generalizing b with
  | nil => simp
  | cons j order ih =>
    rw [probe] at h ⊢
    split at h
    next => cases h
    next hrest =>
      intro i hi
      rcases List.mem_cons.mp hi with rfl | hi
      · -- The bucket was emptied here, and the rest of the probe puts nothing into it.
        have hsub := bucket_probe_subset (r := r) order (b.set i []) i
        apply List.eq_nil_of_subset_nil
        refine List.Subset.trans hsub ?_
        rw [bucket_set]
        split
        · exact List.Subset.refl _
        · next hout =>
          rw [bucket_eq_nil (by omega)]
          exact List.Subset.refl _
      · exact ih _ h i hi

end Probe

end Buckets

end SoftCache
