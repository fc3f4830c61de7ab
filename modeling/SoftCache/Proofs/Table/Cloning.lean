import SoftCache.Proofs.Renewal
import SoftCache.Proofs.Table.Nulls

/-!
# What a copy has

A copy has in each bucket some of the live entries that its original had there, in the same order,
and among them all that the original still has when it is made. The original has lost by then what
holds one of the oldest payloads, as many as the payloads of the copy bring over the budget
(`Table.Cloning`). So copy and original have all that there was just if the payloads of all live
entries can be registered once more without clearing one of them (`Table.Sound.cloned_iff`).
-/

open scoped List

namespace SoftCache

variable {K V : Type}

namespace Table

variable {t : Table K V} {r r' : Reclaimer} {config : Config} {later : List Nat}

/-- The live entries, in a list for each bucket. -/
def bucketEntries (t : Table K V) (r : Reclaimer) : List (List (Entry K V)) :=
  t.buckets.toList.map (liveEntries r)

/-- The live entries of the buckets are those of the table. -/
theorem flatten_bucketEntries (t : Table K V) (r : Reclaimer) :
    (t.bucketEntries r).flatten = t.entries r := by
  unfold bucketEntries entries Buckets.slots liveEntries
  rw [List.filter_flatten, List.map_flatten, List.map_map]
  rfl

/-! ## Live slots while payloads are registered -/

/-- A slot that is stale stays so while payloads are registered. -/
theorem isStale_of_renews (h : r.Renews r' later) {s : Slot K V}
    (below : ∀ payload ∈ s.payloads, payload < r.next) (stale : s.isStale r = true) :
    s.isStale r' = true := by
  rw [Slot.isStale_iff] at stale ⊢
  obtain ⟨payload, hp, hcleared⟩ := stale
  exact ⟨payload, hp, fun hlive => hcleared (h.mem_live_of_lt (below payload hp) hlive)⟩

/-- A live slot is listed with what it has. -/
theorem liveEntries_cons_of_live {s : Slot K V} (l : List (Slot K V)) (live : s.isStale r = false) :
    liveEntries r (s :: l) = s.content :: liveEntries r l := by
  unfold liveEntries
  rw [List.filter_cons_of_pos (by simpa using live), List.map_cons, Slot.entry_eq_content live]

/-- A stale slot is not listed. -/
theorem liveEntries_cons_of_stale {s : Slot K V} (l : List (Slot K V))
    (stale : s.isStale r = true) :
    liveEntries r (s :: l) = liveEntries r l := by
  unfold liveEntries
  rw [List.filter_cons_of_neg (by simpa using stale)]

/-- Registrations make nothing live. -/
theorem liveEntries_sublist (h : r.Renews r' later) {l : List (Slot K V)}
    (below : ∀ s ∈ l, ∀ payload ∈ s.payloads, payload < r.next) :
    liveEntries r' l <+ liveEntries r l := by
  induction l with
  | nil => exact List.Sublist.refl _
  | cons s rest ih =>
    obtain ⟨hs, hrest⟩ := List.forall_mem_cons.mp below
    cases hlive : s.isStale r with
    | true =>
      rw [liveEntries_cons_of_stale rest hlive,
        liveEntries_cons_of_stale rest (isStale_of_renews h hs hlive)]
      exact ih hrest
    | false =>
      rw [liveEntries_cons_of_live rest hlive]
      cases hstays : s.isStale r' with
      | true =>
        rw [liveEntries_cons_of_stale rest hstays]
        exact (ih hrest).cons _
      | false =>
        rw [liveEntries_cons_of_live rest hstays]
        exact (ih hrest).cons_cons _

/-- A slot and its copy: what was registered for it comes before what the rest needs. -/
theorem renews_again {s : Slot K V} (h : r.Orderly) :
    r.Renews (Held.again s.value (Held.again s.key r).reclaimer).reclaimer
      (s.again r).payloads := by
  have hkey := Held.renews_again h s.key
  exact hkey.trans (Held.renews_again hkey.orderly s.value)

/-- The copies in a bucket have what some of its live slots have, and all that is live later. -/
theorem content_copyBucket (h : r.Orderly) {l : List (Slot K V)} (full : ∀ s ∈ l, s.Full config)
    (below : ∀ s ∈ l, ∀ payload ∈ s.payloads, payload < r.next)
    (hlater : (copyBucket r l).reclaimer.Renews r' later) :
    (copyBucket r l).copies.map Slot.content <+ liveEntries r l ∧
      liveEntries r' l <+ (copyBucket r l).copies.map Slot.content := by
  induction l generalizing r with
  | nil => exact ⟨List.Sublist.refl _, List.Sublist.refl _⟩
  | cons slot rest ih =>
    obtain ⟨hslot, hrest⟩ := List.forall_mem_cons.mp full
    obtain ⟨hbelow, hbelows⟩ := List.forall_mem_cons.mp below
    have hall := (renews_copyBucket h (slot :: rest)).trans hlater
    cases hlive : slot.isStale r with
    | true =>
      -- What is stale already is not copied and does not become live.
      have hstale := isStale_of_renews hall hbelow hlive
      rw [copyBucket, if_pos hlive] at hlater ⊢
      rw [liveEntries_cons_of_stale rest hlive, liveEntries_cons_of_stale rest hstale]
      exact ih h hrest hbelows hlater
    | false =>
      have hagain := renews_again (s := slot) h
      rw [copyBucket, if_neg (by simp [hlive])] at hlater ⊢
      obtain ⟨hupper, hlower⟩ := ih hagain.orderly hrest
        (fun s hs payload hp => (hbelows s hs payload hp).trans_le hagain.next) hlater
      rw [liveEntries_cons_of_live rest hlive]
      have hcontent : Slot.content (slot.again r) = slot.content := hslot.content_again h hlive
      refine ⟨?_, ?_⟩
      · show Slot.content (slot.again r) :: _ <+ _
        rw [hcontent]
        exact (hupper.trans (liveEntries_sublist hagain hbelows)).cons_cons _
      · show _ <+ Slot.content (slot.again r) :: _
        rw [hcontent]
        cases hstays : slot.isStale r' with
        | true =>
          rw [liveEntries_cons_of_stale rest hstays]
          exact hlower.cons _
        | false =>
          rw [liveEntries_cons_of_live rest hstays]
          exact hlower.cons_cons _

/-- Bucket by bucket the copies have some of what was live before, and all that is live later. -/
theorem content_copyBuckets {r₀ : Reclaimer} {earlier : List Nat} (since : r₀.Renews r earlier)
    {l : List (List (Slot K V))} (full : ∀ bucket ∈ l, ∀ s ∈ bucket, s.Full config)
    (below : ∀ bucket ∈ l, ∀ s ∈ bucket, ∀ payload ∈ s.payloads, payload < r₀.next)
    (hlater : (copyBuckets r l).reclaimer.Renews r' later) :
    List.Forall₂ (· <+ ·) ((copyBuckets r l).copies.map (List.map Slot.content))
        (l.map (liveEntries r₀)) ∧
      List.Forall₂ (· <+ ·) (l.map (liveEntries r'))
        ((copyBuckets r l).copies.map (List.map Slot.content)) := by
  induction l generalizing r earlier with
  | nil => exact ⟨.nil, .nil⟩
  | cons bucket rest ih =>
    obtain ⟨hbucket, hrest⟩ := List.forall_mem_cons.mp full
    obtain ⟨hbelow, hbelows⟩ := List.forall_mem_cons.mp below
    have hfirst := renews_copyBucket since.orderly bucket
    have hothers := renews_copyBuckets hfirst.orderly rest
    obtain ⟨hupper, hlower⟩ := content_copyBucket since.orderly hbucket
      (fun s hs payload hp => (hbelow s hs payload hp).trans_le since.next)
      (hothers.trans hlater)
    obtain ⟨huppers, hlowers⟩ := ih (since.trans hfirst) hrest hbelows hlater
    exact ⟨.cons (hupper.trans (liveEntries_sublist since hbelow)) huppers, .cons hlower hlowers⟩

/-! ## The whole table -/

/-- A copy that is as one expects: it has the live entries of the table, bucket by bucket, and the
table keeps them. -/
structure Cloned (t : Table K V) (r : Reclaimer) : Prop where
  /-- The copy has the live entries. -/
  copied : (t.copy r).result.bucketEntries (t.copy r).reclaimer = t.bucketEntries r
  /-- The table keeps them. -/
  kept : (t.copy r).state.bucketEntries (t.copy r).reclaimer = t.bucketEntries r

/-- What a copy is in any case. -/
structure Cloning (t : Table K V) (r : Reclaimer) : Prop where
  /-- In each bucket the copy has some of the live entries that the table had, in order. -/
  some : List.Forall₂ (· <+ ·) ((t.copy r).result.bucketEntries (t.copy r).reclaimer)
    (t.bucketEntries r)
  /-- Among them are all that the table still has. -/
  rest : List.Forall₂ (· <+ ·) ((t.copy r).state.bucketEntries (t.copy r).reclaimer)
    ((t.copy r).result.bucketEntries (t.copy r).reclaimer)
  /-- No slot of the copy is stale. -/
  whole : ∀ s ∈ (t.copy r).result.buckets.slots, s.isStale (t.copy r).reclaimer = false
  /-- The table has the same slots as before. -/
  same : (t.copy r).state = t
  /-- Of those that were live the ones are stale that hold one of the oldest payloads, as many as
  the payloads of the copy bring over the budget. -/
  lost : ∀ s ∈ t.buckets.slots, s.isStale r = false →
    (s.isStale (t.copy r).reclaimer = true ↔ ∃ payload ∈ s.payloads, payload ∈
      r.doomed (t.config.weight * ((t.copy r).result.entries (t.copy r).reclaimer).length))

/-- Slots of a table with full slots have as many payloads as entries have. -/
theorem Full.length_payloads (full : t.Full)
    (suited : ∀ s ∈ t.buckets.slots, s.Suits t.config) :
    t.payloads.length = t.config.weight * t.buckets.slots.length := by
  have hslots : t.buckets.slots.map (fun s => s.payloads.length) =
      t.buckets.slots.map fun _ => t.config.weight :=
    List.map_congr_left fun s hs => (full s hs).length_payloads (suited s hs)
  rw [payloads, List.length_flatMap, hslots, List.map_const', List.sum_replicate_nat,
    Nat.mul_comm]

/-- Nothing of a copy is stale when it is made. -/
theorem isStale_copy (issued : r.Issued t.payloads) :
    ∀ s ∈ (t.copy r).result.buckets.slots, s.isStale (t.copy r).reclaimer = false := by
  intro s hs
  refine Slot.isStale_eq_false_iff_live.mpr fun payload hp => ?_
  exact (swept_copy issued).live rfl payload (mem_payloads hs hp)

/-- There is room for the payloads of a copy if those of its original may go. -/
theorem room_copy (issued : r.Issued t.payloads) :
    r.overrun (t.copy r).result.payloads.length ≤ r.live.length := by
  refine (renews_copy issued.toOrderly t).room ?_ fun payload hp => ?_
  · exact (handover_copy issued t).issued.right.nodup
  · exact (swept_copy issued).live rfl payload hp

variable [Hashed K]

/-- The copy has as many payloads as its entries have. -/
theorem Sound.length_payloads_copy (h : t.Sound) (issued : r.Issued t.payloads) (full : t.Full) :
    (t.copy r).result.payloads.length =
      t.config.weight * ((t.copy r).result.entries (t.copy r).reclaimer).length := by
  have hentries : ((t.copy r).result.entries (t.copy r).reclaimer).length =
      (t.copy r).result.buckets.slots.length := by
    rw [entries_eq_map_content, List.length_map, List.filter_eq_self.mpr]
    exact fun s hs => by simpa using isStale_copy issued s hs
  rw [hentries]
  exact (full.copy issued.toOrderly).length_payloads (h.copy r).suited

/-- What a copy is in any case. -/
theorem Sound.copying (h : t.Sound) (issued : r.Issued t.payloads) (full : t.Full) :
    t.Cloning r := by
  have hcopied : (t.copy r).result.bucketEntries (t.copy r).reclaimer =
      (copyBuckets r t.buckets.toList).copies.map (List.map Slot.content) := by
    refine List.map_congr_left fun copies hcopies => ?_
    rw [liveEntries_eq_map_content, List.filter_eq_self.mpr]
    intro s hs
    have hlive := isStale_copy issued s (List.mem_flatten.mpr ⟨copies, hcopies, hs⟩)
    rw [hlive]
    rfl
  have hmem {bucket : List (Slot K V)} (hbucket : bucket ∈ t.buckets.toList) {s : Slot K V}
      (hs : s ∈ bucket) : s ∈ t.buckets.slots := List.mem_flatten.mpr ⟨bucket, hbucket, hs⟩
  have hrenews := renews_copy issued.toOrderly t
  obtain ⟨hsome, hrest⟩ := content_copyBuckets (.refl issued.toOrderly)
    (fun bucket hbucket s hs => full s (hmem hbucket hs))
    (fun bucket hbucket s hs payload hp =>
      issued.lt_next payload (mem_payloads (hmem hbucket hs) hp))
    (.refl hrenews.orderly)
  constructor
  case some =>
    rw [hcopied]
    exact hsome
  case rest =>
    rw [hcopied]
    exact hrest
  case whole => exact isStale_copy issued
  case same => rfl
  case lost =>
    intro s hs live
    rw [← h.length_payloads_copy issued full, Slot.isStale_iff]
    refine exists_congr fun payload => and_congr_right fun hp => ?_
    rw [hrenews.mem_live_iff issued.toOrderly (room_copy issued) (Slot.mem_live live hp), not_not]

/-- Lists that are bucket by bucket part of each other are the same. -/
theorem eq_of_forall₂_sublist {α : Type} {l l' : List (List α)}
    (h : List.Forall₂ (· <+ ·) l l') (h' : List.Forall₂ (· <+ ·) l' l) : l = l' := by
  induction h with
  | nil => rfl
  | cons hfirst _ ih =>
    cases h' with
    | cons hfirst' hrest => rw [hfirst.antisymm hfirst', ih hrest]

/-- A copy has all there was, and its original keeps it, just if no live entry holds one of the
payloads that would be too many if the payloads of all live entries were registered once more. -/
theorem Sound.cloned_iff (h : t.Sound) (issued : r.Issued t.payloads) (full : t.Full) :
    t.Cloned r ↔ ∀ s ∈ t.buckets.slots, s.isStale r = false → ∀ payload ∈ s.payloads,
      payload ∉ r.doomed (t.config.weight * (t.entries r).length) := by
  have hcloning := h.copying issued full
  constructor
  · rintro ⟨hcopied, hkept⟩ s hs live payload hp hdoomed
    -- The copy has as many entries, and the table still has this one.
    have hentries : (t.copy r).result.entries (t.copy r).reclaimer = t.entries r := by
      rw [← flatten_bucketEntries, hcopied, flatten_bucketEntries]
    have hthere : s.content ∈ t.entries (t.copy r).reclaimer := by
      rw [← flatten_bucketEntries, show t.bucketEntries (t.copy r).reclaimer = _ from hkept,
        flatten_bucketEntries]
      exact mem_entries_iff.mpr ⟨s, hs, live, rfl⟩
    obtain ⟨other, hother, hlive, hcontent⟩ := mem_entries_iff.mp hthere
    obtain rfl := List.inj_on_of_nodup_map h.distinct hother hs (congrArg Prod.fst hcontent)
    rw [(hcloning.lost other hs live).mpr ⟨payload, hp, hentries ▸ hdoomed⟩] at hlive
    cases hlive
  · intro hspared
    -- The copy has no more entries, so it cannot clear more.
    have hle : ((t.copy r).result.entries (t.copy r).reclaimer).length ≤ (t.entries r).length := by
      rw [← flatten_bucketEntries, ← flatten_bucketEntries]
      exact (sublist_flatten hcloning.some).length_le
    have hkept : t.bucketEntries (t.copy r).reclaimer = t.bucketEntries r := by
      refine List.map_congr_left fun bucket hbucket => ?_
      rw [liveEntries_eq_map_content, liveEntries_eq_map_content]
      refine congrArg (List.map _) (List.filter_congr fun s hs => congrArg Bool.not ?_)
      have hs : s ∈ t.buckets.slots := List.mem_flatten.mpr ⟨bucket, hbucket, hs⟩
      rw [Bool.eq_iff_iff]
      constructor
      · intro hstale
        by_contra hne
        have live : s.isStale r = false := by simpa using hne
        obtain ⟨payload, hp, hdoomed⟩ := (hcloning.lost s hs live).mp hstale
        exact hspared s hs live payload hp
          (r.doomed_subset (Nat.mul_le_mul_left _ hle) hdoomed)
      · exact isStale_of_renews (renews_copy issued.toOrderly t) fun payload hp =>
          issued.lt_next payload (mem_payloads hs hp)
    refine ⟨?_, hkept⟩
    exact eq_of_forall₂_sublist hcloning.some (hkept ▸ hcloning.rest)

end Table

end SoftCache
