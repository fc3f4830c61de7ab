import SoftCache.Proofs.Table.Copying
import SoftCache.Proofs.Table.Lively

/-!
# Likeness of tables

Two tables are alike if what can be seen of them is alike, bucket by bucket and slot by slot, and
their counters differ by what one had counted before. How their slots are held may differ. Two
lively tables that are alike are *twins*, and a copy of a lively table is a twin of it
(`Table.Lively.twins_copy`): nothing is cleared while it is made, so every slot is copied to its
place.
-/

open scoped List

namespace SoftCache

variable {K V α β : Type}

/-! ## What can be seen of a slot -/

/-- What can be seen of a slot that is not stale: its hash and its content. -/
def Slot.seen (s : Slot K V) : UInt64 × Entry K V :=
  (s.hash, s.content)

/-- Whether a slot of which so much is seen has the key. -/
def isSeenFor [DecidableEq K] (hash : UInt64) (key : Option K) (seen : UInt64 × Entry K V) : Bool :=
  seen.1 == hash && seen.2.1 == key

/-- Whether a slot of which so much is seen has the value. -/
def isSeenWith [DecidableEq V] (value : Option V) (seen : UInt64 × Entry K V) : Bool :=
  seen.2.2 == value

/-- It can be seen whether a live slot has a key. -/
theorem Slot.isFor_eq_isSeenFor [DecidableEq K] {r : Reclaimer} {s : Slot K V}
    (live : s.isStale r = false) (hash : UInt64) (key : Option K) :
    s.isFor r hash key = isSeenFor hash key s.seen := by
  rw [Bool.eq_iff_iff, isFor_iff, isSeenFor, Bool.and_eq_true, beq_iff_eq, beq_iff_eq]
  simp [seen, (isStale_eq_false_iff.mp live).1]

/-- What is seen of slots tells their contents. -/
theorem map_content_of_seen {l l' : List (Slot K V)} (h : l.map Slot.seen = l'.map Slot.seen) :
    l.map Slot.content = l'.map Slot.content := by
  have hcontents := congrArg (List.map Prod.snd) h
  rw [List.map_map, List.map_map] at hcontents
  exact hcontents

section Tests

variable {f : α → β} {test : α → Bool} {seenTest : β → Bool} {l : List α}

/-- What a test finds by what is seen is seen. -/
theorem map_find?_of_seen (h : ∀ a ∈ l, test a = seenTest (f a)) :
    (l.find? test).map f = (l.map f).find? seenTest := by
  induction l with
  | nil => rfl
  | cons a rest ih =>
    have hrest := ih fun b hb => h b (List.mem_cons_of_mem a hb)
    rw [List.map_cons, List.find?_cons, List.find?_cons, h a List.mem_cons_self]
    cases seenTest (f a) with
    | true => rfl
    | false => exact hrest

/-- What is left by a test by what is seen is seen. -/
theorem map_eraseP_of_seen (h : ∀ a ∈ l, test a = seenTest (f a)) :
    (l.eraseP test).map f = (l.map f).eraseP seenTest := by
  induction l with
  | nil => rfl
  | cons a rest ih =>
    have hrest := ih fun b hb => h b (List.mem_cons_of_mem a hb)
    rw [List.map_cons, List.eraseP_cons, List.eraseP_cons, h a List.mem_cons_self]
    cases seenTest (f a) with
    | true => rfl
    | false => exact congrArg (f a :: ·) hrest

/-- What is replaced by a test by what is seen is seen. -/
theorem map_replaceFirst_of_seen (h : ∀ a ∈ l, test a = seenTest (f a)) (new : α) :
    (Table.replaceFirst test new l).map f = Table.replaceFirst seenTest (f new) (l.map f) := by
  induction l with
  | nil => rfl
  | cons a rest ih =>
    have hrest := ih fun b hb => h b (List.mem_cons_of_mem a hb)
    rw [List.map_cons, Table.replaceFirst, Table.replaceFirst, h a List.mem_cons_self]
    cases seenTest (f a) with
    | true => rfl
    | false => exact congrArg (f a :: ·) hrest

/-- Whether a test by what is seen accepts anything is seen. -/
theorem any_eq_of_seen (h : ∀ a ∈ l, test a = seenTest (f a)) :
    l.any test = (l.map f).any seenTest := by
  induction l with
  | nil => rfl
  | cons a rest ih =>
    rw [List.map_cons, List.any_cons, List.any_cons, h a List.mem_cons_self,
      ih fun b hb => h b (List.mem_cons_of_mem a hb)]

end Tests

/-! ## Buckets that are alike -/

/-- Buckets of which the same is seen. -/
structure Buckets.Alike (b b' : Buckets K V) : Prop where
  /-- There are as many buckets. -/
  size : b.size = b'.size
  /-- In each the same is seen. -/
  bucket : ∀ i, (b.bucket i).map Slot.seen = (b'.bucket i).map Slot.seen

namespace Buckets

variable {b b' : Buckets K V} {l l' : List (Slot K V)}

namespace Alike

/-- One bucket is replaced in both. -/
theorem set (h : b.Alike b') (i : Nat) (hl : l.map Slot.seen = l'.map Slot.seen) :
    (b.set i l).Alike (b'.set i l') := by
  refine ⟨?_, fun j => ?_⟩
  · rw [size_set, size_set, h.size]
  · rw [bucket_set, bucket_set, h.size]
    split
    · exact hl
    · exact h.bucket j

/-- A slot is pushed into both. -/
theorem push (h : b.Alike b') {s s' : Slot K V} (hs : s.seen = s'.seen) :
    (b.push s).Alike (b'.push s') := by
  have hhash : s.hash = s'.hash := congrArg Prod.fst hs
  rw [Buckets.push, Buckets.push, h.size, hhash]
  refine h.set _ ?_
  rw [List.map_append, List.map_append, h.bucket, List.map_singleton, List.map_singleton, hs]

/-- The same is seen of all slots, one bucket after the other. -/
theorem toList (h : b.Alike b') :
    b.toList.map (List.map Slot.seen) = b'.toList.map (List.map Slot.seen) := by
  refine List.ext_getElem ?_ fun i hi hi' => ?_
  · simpa using h.size
  · have hbucket := h.bucket i
    have hb : i < b.size := by simpa using hi
    have hb' : i < b'.size := by simpa using hi'
    simpa [Buckets.bucket, Array.getD, hb, hb'] using hbucket

/-- Buckets that are alike have slots that are seen alike. -/
theorem slots (h : b.Alike b') : b.slots.map Slot.seen = b'.slots.map Slot.seen := by
  rw [Buckets.slots, Buckets.slots, List.map_flatten, List.map_flatten, h.toList]

end Alike

/-- Buckets are alike if the same is seen in one after the other. -/
theorem alike_of_toList
    (h : b.toList.map (List.map Slot.seen) = b'.toList.map (List.map Slot.seen)) : b.Alike b' := by
  have hsize : b.size = b'.size := by
    have hlength := congrArg List.length h
    rwa [List.length_map, List.length_map, Array.length_toList, Array.length_toList] at hlength
  refine ⟨hsize, fun i => ?_⟩
  by_cases hi : i < b.size
  · have hi' := hi
    rw [hsize] at hi'
    have hget := congrArg (·[i]?) h
    simpa [Buckets.bucket, Array.getD, hi, hi'] using hget
  · rw [Buckets.bucket_eq_nil (Nat.le_of_not_lt hi),
      Buckets.bucket_eq_nil (hsize ▸ Nat.le_of_not_lt hi)]

/-- Empty buckets are alike. -/
theorem alike_empty (capacity : Nat) : (empty (K := K) (V := V) capacity).Alike (empty capacity) :=
  ⟨rfl, fun _ => rfl⟩

/-- Slots of which the same is seen are spread alike. -/
theorem alike_ofSlots (capacity : Nat) (hl : l.map Slot.seen = l'.map Slot.seen) :
    (ofSlots capacity l).Alike (ofSlots capacity l') := by
  suffices spread : ∀ b b' : Buckets K V, b.Alike b' → (l.foldl Buckets.push b).Alike
      (l'.foldl Buckets.push b') from spread _ _ (alike_empty capacity)
  induction l generalizing l' with
  | nil =>
    rw [List.map_nil, eq_comm, List.map_eq_nil_iff] at hl
    rw [hl]
    exact fun _ _ h => h
  | cons s rest ih =>
    obtain ⟨s', rest', rfl, hs, hrest⟩ := List.map_eq_cons_iff.mp hl.symm
    exact fun b b' h => ih hrest.symm _ _ (h.push hs.symm)

/-- In buckets without stale slots a probe takes the first slot that it meets. -/
theorem alike_probe {r r' : Reclaimer} (order : List Nat) (h : b.Alike b')
    (live : ∀ i, ∀ s ∈ b.bucket i, s.isStale r = false)
    (live' : ∀ i, ∀ s ∈ b'.bucket i, s.isStale r' = false) :
    (probe r order b).stale = [] ∧ (probe r' order b').stale = [] ∧
      (probe r order b).found.map Slot.seen = (probe r' order b').found.map Slot.seen ∧
      (probe r order b).buckets.Alike (probe r' order b').buckets := by
  -- By induction on the buckets that are visited, as long as they are empty.
  induction order generalizing b b' with
  | nil => exact ⟨rfl, rfl, rfl, h⟩
  | cons i order ih =>
    have hsame := h.bucket i
    rw [probe, probe]
    cases hb : b.bucket i with
    | nil =>
      have hb' : b'.bucket i = [] := by simpa [hb] using hsame.symm
      have hempty : ∀ b : Buckets K V, b.bucket i = [] → b.set i [] = b := fun b hb => by
        conv_lhs => rw [← hb]
        exact b.set_bucket i
      rw [hb', hempty b hb, hempty b' hb']
      exact ih h live live'
    | cons s rest =>
      rw [hb] at hsame
      obtain ⟨s', rest', hb', hs, hrest⟩ := List.map_eq_cons_iff.mp hsame.symm
      have hlive := live i s (by rw [hb]; exact List.mem_cons_self)
      have hlive' := live' i s' (by rw [hb']; exact List.mem_cons_self)
      rw [hb', List.takeWhile_cons, List.takeWhile_cons, List.dropWhile_cons, List.dropWhile_cons,
        hlive, hlive']
      exact ⟨rfl, rfl, congrArg some hs.symm, h.set i hrest.symm⟩

end Buckets

/-! ## Tables that are alike -/

namespace Table

/-- What was counted before and what is counted since. -/
def Metrics.plus (base m : Metrics) : Metrics where
  hits := base.hits + m.hits
  misses := base.misses + m.misses
  inserts := base.inserts + m.inserts
  updates := base.updates + m.updates
  removes := base.removes + m.removes
  evictions := base.evictions + m.evictions
  expirations := base.expirations + m.expirations
  resizes := base.resizes + m.resizes

/-- Tables that are alike but for how their slots are held, for when they were last swept, and for
what the first one had counted before. -/
structure Alike (base : Metrics) (t t' : Table K V) : Prop where
  /-- The same was fixed when they were made. -/
  config : t.config = t'.config
  /-- The same is seen in their buckets. -/
  buckets : t.buckets.Alike t'.buckets
  /-- They have as many slots. -/
  count : t.count = t'.count
  /-- They grow above as many slots. -/
  threshold : t.threshold = t'.threshold
  /-- They have the same bound. -/
  bound : t.bound = t'.bound
  /-- Their cursors are at the same place. -/
  cursor : t.cursor = t'.cursor
  /-- They have counted the same since. -/
  metrics : t.metrics = base.plus t'.metrics

/-- Lively tables that are alike. -/
structure Twins (base : Metrics) (t : Table K V) (r : Reclaimer) (t' : Table K V) (r' : Reclaimer) :
    Prop extends Alike base t t' where
  /-- The first is lively. -/
  first : t.Lively r
  /-- The second is lively. -/
  second : t'.Lively r'

end Table

/-! ## Copies -/

/-- In an epoch that lasts, what stays in custody is as stale as it was. -/
theorem Handover.isStale_eq {r r' : Reclaimer} {held more : List Nat}
    (h : Handover r r' held (held ++ more)) (issued : r.Issued held) (budget : r.budget = none)
    {s : Slot K V} (inside : ∀ payload ∈ s.payloads, payload ∈ held) :
    s.isStale r' = s.isStale r :=
  Slot.isStale_congr fun payload hp => h.mem_live_iff (h.quiet (.inl budget))
    (issued.lt_next payload (inside payload hp)) fun hheld => List.mem_append_left _ hheld

namespace Table

section Copies

variable {r : Reclaimer} {held : List Nat}

/-- Without a budget, every slot of a bucket without stale slots is copied. -/
theorem seen_copyBucket (issued : r.Issued held) (budget : r.budget = none) {l : List (Slot K V)}
    (inside : ∀ s ∈ l, ∀ payload ∈ s.payloads, payload ∈ held)
    (live : ∀ s ∈ l, s.isStale r = false) :
    (copyBucket r l).copies.map Slot.seen = l.map Slot.seen := by
  induction l generalizing r held with
  | nil => rfl
  | cons slot rest ih =>
    -- The key is registered first, then the value, and neither clears anything of the bucket.
    have hkey := Handover.holdAgain issued slot.key
    have hvalue := Handover.holdAgain hkey.issued slot.value
    have hbudget := hkey.precedes.budget.trans budget
    have hinside := fun s hs payload hp => List.mem_append_left
      (Held.again slot.key r).holder.payloads (inside s hs payload hp)
    have hmiddle : ∀ s ∈ slot :: rest, s.isStale (Held.again slot.key r).reclaimer = false :=
      fun s hs => (hkey.isStale_eq issued budget (inside s hs)).trans (live s hs)
    have hlive : ∀ s ∈ rest, s.isStale
        (Held.again slot.value (Held.again slot.key r).reclaimer).reclaimer = false := by
      intro s hs
      have hs := List.mem_cons_of_mem slot hs
      exact (hvalue.isStale_eq hkey.issued hbudget (hinside s hs)).trans (hmiddle s hs)
    have hrest := ih hvalue.issued (hvalue.precedes.budget.trans hbudget)
      (fun s hs payload hp => List.mem_append_left _
        (hinside s (List.mem_cons_of_mem _ hs) payload hp)) hlive
    have hslot := live slot List.mem_cons_self
    have hfirst := (Slot.isStale_eq_false_iff.mp hslot).1
    have hsecond := (Slot.isStale_eq_false_iff.mp (hmiddle slot List.mem_cons_self)).2
    rw [copyBucket, hslot]
    simp only [Bool.false_eq_true, if_false, List.map_cons, hrest]
    rw [Slot.seen, Slot.seen, Slot.content, Slot.content, Held.content_again hfirst,
      Held.content_again hsecond]

/-- Without a budget, every slot of buckets without stale slots is copied to its place. -/
theorem seen_copyBuckets (issued : r.Issued held) (budget : r.budget = none)
    {l : List (List (Slot K V))}
    (inside : ∀ bucket ∈ l, ∀ s ∈ bucket, ∀ payload ∈ s.payloads, payload ∈ held)
    (live : ∀ bucket ∈ l, ∀ s ∈ bucket, s.isStale r = false) :
    (copyBuckets r l).copies.map (List.map Slot.seen) = l.map (List.map Slot.seen) := by
  induction l generalizing r held with
  | nil => rfl
  | cons bucket rest ih =>
    have hcopied := handover_copyBucket issued bucket
    have hfirst := seen_copyBucket issued budget (inside bucket List.mem_cons_self)
      (live bucket List.mem_cons_self)
    have hinside := fun other (hother : other ∈ rest) =>
      inside other (List.mem_cons_of_mem _ hother)
    have hlive : ∀ other ∈ rest, ∀ s ∈ other, s.isStale (copyBucket r bucket).reclaimer = false :=
      fun other hother s hs => (hcopied.isStale_eq issued budget (hinside other hother s hs)).trans
        (live other (List.mem_cons_of_mem _ hother) s hs)
    have hrest := ih hcopied.issued (hcopied.precedes.budget.trans budget)
      (fun other hother s hs payload hp =>
        List.mem_append_left _ (hinside other hother s hs payload hp))
      hlive
    rw [copyBuckets]
    simp only [List.map_cons, hfirst, hrest]

end Copies

variable {t : Table K V} {r : Reclaimer}

/-- A lively table is its own twin. -/
theorem Lively.twins_self (h : t.Lively r) : Twins {} t r t r := by
  refine ⟨⟨rfl, ⟨rfl, fun _ => rfl⟩, rfl, rfl, rfl, rfl, ?_⟩, h, h⟩
  simp [Metrics.plus]

/-- A table stays lively while it is copied. -/
theorem Lively.outlasts_copy (h : t.Lively r) : t.Lively (t.copy r).reclaimer where
  issued := (handover_copy h.issued t).issued.left
  budget := (handover_copy h.issued t).precedes.budget.trans h.budget
  live s hs := ((handover_copy h.issued t).isStale_eq h.issued h.budget fun _ hp =>
    mem_payloads hs hp).trans (h.live s hs)

/-- A copy of a lively table is lively. -/
theorem Lively.copy (h : t.Lively r) : (t.copy r).result.Lively (t.copy r).reclaimer where
  issued := (handover_copy h.issued t).issued.right
  budget := (handover_copy h.issued t).precedes.budget.trans h.budget
  live _ hs := Slot.isStale_eq_false_iff_live.mpr fun payload hp =>
    (swept_copy h.issued).live rfl payload (mem_payloads hs hp)

/-- A copy of a lively table is its twin, and counts from zero. -/
theorem Lively.twins_copy [Hashed K] (h : t.Lively r) (sound : t.Sound) :
    Twins t.metrics t (t.copy r).reclaimer (t.copy r).result (t.copy r).reclaimer := by
  have hslot : ∀ bucket ∈ t.buckets.toList, ∀ s ∈ bucket, s ∈ t.buckets.slots :=
    fun bucket hbucket s hs => List.mem_flatten.mpr ⟨bucket, hbucket, hs⟩
  have hseen := seen_copyBuckets h.issued h.budget (l := t.buckets.toList)
    (fun bucket hbucket s hs payload hp => mem_payloads (hslot bucket hbucket s hs) hp)
    fun bucket hbucket s hs => h.live s (hslot bucket hbucket s hs)
  have hbuckets : t.buckets.Alike (t.copy r).result.buckets := Buckets.alike_of_toList hseen.symm
  refine ⟨⟨rfl, hbuckets, ?_, sound.threshold_eq, rfl, rfl, rfl⟩, h.outlasts_copy, h.copy⟩
  have hlength := congrArg List.length hbuckets.slots
  rw [List.length_map, List.length_map] at hlength
  rw [sound.counted, hlength, (sound.copy r).counted]

end Table

end SoftCache
