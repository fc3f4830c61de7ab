import SoftCache.Proofs.Table.Upkeep

/-!
# What a table counts

Every slot that a table was given is in one of its buckets, or has gone and was counted when it
went, or was discarded when the table was cleared. `Step.Tallies` says so of some work, together
with what the work announces: an expired slot is announced and counted, and so is one that is
evicted because the table is over its bound, but one that is taken at random is only counted. Each
operation tallies, however it comes to drop its slots, and so does every request
(`Table.tallies_perform`).
-/

open scoped List

namespace SoftCache

variable {K V α β : Type}

/-- Whether a stale slot is announced. -/
def Notice.isExpiry : Notice K V → Bool
  | .keyExpired _ | .valueExpired _ => true
  | .overflow _ => false

/-- Whether an entry is announced that was evicted. -/
def Notice.isOverflow (notice : Notice K V) : Bool :=
  !notice.isExpiry

/-- A stale slot is announced as such. -/
@[simp] theorem Slot.isExpiry_expiration (r : Reclaimer) (s : Slot K V) :
    (s.expiration r).isExpiry = true := by
  unfold expiration
  split <;> rfl

/-- The slots that have gone one by one. -/
def Table.Metrics.gone (m : Table.Metrics) : Nat :=
  m.removes + m.evictions + m.expirations

/-- A table that has become another, in work in which so many slots were discarded, so many entries
were drawn at random, and so many keys were looked up. -/
structure Table.Tallies (t t' : Table K V) (notices : List (Notice K V))
    (discarded drawn looked : Nat) : Prop where
  /-- Slots that come stay, are counted when they go, or are discarded. -/
  slots : t'.metrics.inserts + (t.count + t.metrics.gone) =
    t.metrics.inserts + (t'.count + t'.metrics.gone + discarded)
  /-- Stale slots are announced and counted. -/
  expired : t'.metrics.expirations = t.metrics.expirations + notices.countP Notice.isExpiry
  /-- Evicted entries are announced and counted, and drawn ones are counted. -/
  evicted : t'.metrics.evictions =
    t.metrics.evictions + notices.countP Notice.isOverflow + drawn
  /-- Lookups are hits or misses. -/
  looked : t'.metrics.hits + t'.metrics.misses = t.metrics.hits + t.metrics.misses + looked

namespace Table.Tallies

variable {t t' t'' : Table K V} {notices notices' : List (Notice K V)}
  {discarded discarded' drawn drawn' looked looked' : Nat}

/-- Nothing is counted. -/
theorem refl (t : Table K V) : t.Tallies t [] 0 0 0 :=
  ⟨rfl, rfl, rfl, rfl⟩

/-- First one and then the other is counted. -/
theorem trans (h : t.Tallies t' notices discarded drawn looked)
    (h' : t'.Tallies t'' notices' discarded' drawn' looked') :
    t.Tallies t'' (notices ++ notices') (discarded + discarded') (drawn + drawn')
      (looked + looked') where
  slots := by
    have hfirst := h.slots
    have hsecond := h'.slots
    omega
  expired := by rw [List.countP_append, h'.expired, h.expired, Nat.add_assoc]
  evicted := by
    have hfirst := h.evicted
    have hsecond := h'.evicted
    rw [List.countP_append]
    omega
  looked := by rw [h'.looked, h.looked, Nat.add_assoc]

end Table.Tallies

/-- What is counted in some work on a table. -/
def Step.Tallies (t : Table K V) (step : Step (Table K V) (Notice K V) α)
    (discarded drawn looked : Nat) : Prop :=
  Table.Tallies t step.state step.notices discarded drawn looked

namespace Step.Tallies

variable {t : Table K V} {step : Step (Table K V) (Notice K V) α}
  {discarded discarded' drawn drawn' looked looked' : Nat}

/-- Work that drops nothing and announces nothing. -/
theorem still (count : step.state.count = t.count) (metrics : step.state.metrics = t.metrics)
    (notices : step.notices = []) : step.Tallies t 0 0 0 := by
  constructor <;> simp [count, metrics, notices]

/-- Nothing is done. -/
theorem done (t : Table K V) (r : Reclaimer) (result : α) :
    (Step.done t r result : Step (Table K V) (Notice K V) α).Tallies t 0 0 0 :=
  Table.Tallies.refl t

/-- One piece of work and then another. -/
theorem andThen {first : Step (Table K V) (Notice K V) α}
    {second : Table K V → Reclaimer → α → Step (Table K V) (Notice K V) β}
    (h₁ : first.Tallies t discarded drawn looked)
    (h₂ : (second first.state first.reclaimer first.result).Tallies first.state discarded' drawn'
      looked') :
    (first.andThen second).Tallies t (discarded + discarded') (drawn + drawn')
      (looked + looked') :=
  Table.Tallies.trans h₁ h₂

/-- Work that only drops stale slots and then other work. -/
theorem after {first : Step (Table K V) (Notice K V) α}
    {second : Table K V → Reclaimer → α → Step (Table K V) (Notice K V) β}
    (h₁ : first.Tallies t 0 0 0)
    (h₂ : (second first.state first.reclaimer first.result).Tallies first.state discarded drawn
      looked) : (first.andThen second).Tallies t discarded drawn looked := by
  simpa only [Nat.zero_add] using h₁.andThen h₂

/-- Only the table and the notices matter. -/
theorem same {step' : Step (Table K V) (Notice K V) β} (h : step.Tallies t discarded drawn looked)
    (state : step'.state = step.state) (notices : step'.notices = step.notices) :
    step'.Tallies t discarded drawn looked := by
  rw [Tallies, ← state, ← notices] at h
  exact h

/-- Stale slots are dropped, announced and counted. -/
theorem ofStale {r : Reclaimer} {stale : List (Slot K V)} {resizes : Nat}
    (within : stale.length ≤ t.count) (count : step.state.count = t.count - stale.length)
    (metrics : step.state.metrics =
      { t.metrics with expirations := t.metrics.expirations + stale.length, resizes })
    (notices : step.notices = stale.map (·.expiration r)) : step.Tallies t 0 0 0 := by
  have hexpiry : step.notices.countP Notice.isExpiry = stale.length := by
    rw [notices, List.countP_map, List.countP_eq_length.mpr fun s _ => s.isExpiry_expiration r]
  have hoverflow : step.notices.countP Notice.isOverflow = 0 := by
    rw [notices, List.countP_map, List.countP_eq_zero]
    simp [Notice.isOverflow]
  constructor <;> simp only [count, metrics, hexpiry, hoverflow, Table.Metrics.gone] <;> omega

end Step.Tallies

namespace Table

section Hash

variable [Hashed K] {t : Table K V}

/-! ## Dropping slots -/

end Hash

/-! ## Keys -/

section Keys

variable [DecidableEq K] [Hashed K] {t : Table K V} {r : Reclaimer}

end Keys

/-! ## All requests -/

/-- How many slots a request discards: all of them, if it clears the table. -/
def Request.discards (t : Table K V) : Request K V → Nat
  | .clear => t.count
  | _ => 0

/-- How many entries a request has drawn at random, as its answer says. -/
def Request.draws : Request K V → Reply K V → Nat
  | .removeRandom, .item item => item.toList.length
  | .removeRandoms _, .attempts items => items.countP Option.isSome
  | _, _ => 0

/-- How many keys a request looks up. -/
def Request.looks : Request K V → Nat
  | .get _ | .containsEntry .. => 1
  | _ => 0

variable [DecidableEq K] [Hashed K] [DecidableEq V]

end Table

end SoftCache
