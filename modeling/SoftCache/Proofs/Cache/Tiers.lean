import SoftCache.Proofs.Cache.Mirror
import SoftCache.Proofs.Table.Upkeep

/-!
# The tiers of a cache

A cache is `Tiered` if no key is in it twice, pinned or in a tier, its tiers are sound tables with
the strengths and bounds that they should have, and no null is in the soft tier. Slots that have
been cleared count, since an entry may come back to a tier while such a slot is there. Between two
pieces of work some entries are *loose*: they are in no tier, but still in the cache. `Step.Attends`
is the contract of work on a cache that begins with some loose entries and ends with others: the
cache stays tiered, and what is announced leads from the entries before to those afterwards. The
contract also names the entries that *settle* in the soft tier on the way, one after the other,
since their values are all that is registered (`Cache.Settled`).
-/

open scoped List

namespace SoftCache

variable {K V α β : Type}

/-- Keys none of which is null, and none of which is there twice. -/
structure Keyed (keys : List (Option K)) : Prop where
  /-- No key is there twice. -/
  nodup : keys.Nodup
  /-- No key is null. -/
  named : none ∉ keys

/-- Keys that are there no more often than they were. -/
theorem Keyed.of_count_le [DecidableEq K] {l l' : List (Option K)} (h : Keyed l)
    (hcount : ∀ key, l'.count key ≤ l.count key) : Keyed l' where
  nodup := by
    rw [List.nodup_iff_count_le_one]
    exact fun key => (hcount key).trans (List.nodup_iff_count_le_one.mp h.nodup key)
  named hnone := by
    have hcount := hcount none
    rw [List.count_eq_zero_of_not_mem h.named] at hcount
    exact absurd (List.count_pos_iff.mpr hnone) (by omega)

namespace Cache

/-- The entry of a pin. A pin without a value is none. -/
def pinEntry (pin : K × Option V) : Option (Entry K V) :=
  pin.2.map fun value => (some pin.1, some value)

/-- The pinned entries. -/
def pinned (c : Cache K V) : List (Entry K V) :=
  c.pins.filterMap pinEntry

/-- All entries, in whatever tier. A slot of the soft tier counts until it is dropped, cleared or
not. -/
def holdings (c : Cache K V) : List (Entry K V) :=
  c.pinned ++ c.hard.contents ++ c.soft.contents

/-- The pinned keys, with a value or without. -/
def pinKeys (c : Cache K V) : List (Option K) :=
  c.pins.map fun pin => some pin.1

/-- All keys: the pinned ones, with a value or without, and those of the tiers. -/
def roster (c : Cache K V) : List (Option K) :=
  c.pinKeys ++ c.hard.contents.map Prod.fst ++ c.soft.contents.map Prod.fst

/-- The payloads that the tiers hold. -/
def payloads (c : Cache K V) : List Nat :=
  c.hard.payloads ++ c.soft.payloads

/-- A cache with its keys in one place each, where `loose` entries are in none of the tiers. -/
structure Tiered [Hashed K] (c : Cache K V) (loose : List (Entry K V)) : Prop where
  /-- No key is in the cache twice. -/
  keyed : Keyed (c.roster ++ loose.map Prod.fst)
  /-- The hard tier is a sound table. -/
  hard : c.hard.Sound
  /-- The soft tier is a sound table. -/
  soft : c.soft.Sound
  /-- The hard tier holds keys and values strongly. -/
  hardStrengths : c.hard.config.keyStrength = .strong ∧ c.hard.config.valueStrength = .strong
  /-- The soft tier holds keys strongly and values reclaimably. -/
  softStrengths : c.soft.config.keyStrength = .strong ∧ c.soft.config.valueStrength = .reclaimable
  /-- The bound of the hard tier is the size of the cache. -/
  hardBound : c.hard.bound = some c.size
  /-- The bound of the soft tier is the one chosen. -/
  softBound : c.soft.bound = Cache.softBound c.softSize
  /-- A negative size of the soft tier is -1. -/
  softSize : -1 ≤ c.softSize
  /-- The soft tier has no null. -/
  full : ∀ entry ∈ c.soft.contents, entry.2 ≠ none

/-- The value of the key is one of those that settle in the soft tier, and it has this payload,
where payloads are registered for them in turn from the first one on. -/
def Settled (settled : List (K × V)) (first payload : Nat) (key : K) (value : V) : Prop :=
  ∃ i, settled[i]? = some (key, value) ∧ payload = first + i

/-- A key that may expire with its value: the payload of this very value, which the soft tier held
for the key or which has settled there since, has been cleared by a pass. -/
def Lost (c : Cache K V) (settled : List (K × V)) (r r' : Reclaimer) (key : K) (value : V) : Prop :=
  ∃ payload, ((∃ s ∈ c.soft.buckets.slots,
      s.key.content = some key ∧ s.value = .reclaimable payload value) ∨
        Settled settled r.next payload key value) ∧
    r.Lost r' payload

end Cache

/-- Work on a cache that begins and ends with loose entries, and during which some entries settle in
the soft tier. -/
structure Step.Attends [DecidableEq K] [Hashed K] (c : Cache K V) (r : Reclaimer)
    (loose : List (Entry K V)) (step : Step (Cache K V) (Cache.Notice K V) α)
    (loose' : List (Entry K V)) (settled : List (K × V) := []) : Prop where
  /-- The cache stays tiered. -/
  tiered : step.state.Tiered loose'
  /-- The payloads of the tiers are handed over. -/
  handover : Handover r step.reclaimer c.payloads step.state.payloads
  /-- Just the values that settle are registered. -/
  registered : step.reclaimer.next = r.next + settled.length
  /-- A slot of the soft tier was there before or is that of a value that has settled. -/
  origin : ∀ s ∈ step.state.soft.buckets.slots, s ∈ c.soft.buckets.slots ∨
    ∃ key value payload, Cache.Settled settled r.next payload key value ∧
      s.key.content = some key ∧ s.value = .reclaimable payload value
  /-- What a sweep of the soft tier has seen to is still seen to. -/
  swept : c.soft.Swept r → step.state.soft.Swept step.reclaimer
  /-- What is announced leads from the entries before to those afterwards. -/
  follows : Cache.Follows (c.Lost settled r step.reclaimer) (c.holdings ++ loose) step.notices
    (step.state.holdings ++ loose')

namespace Cache

section Lost

variable {c : Cache K V} {r r' r'' : Reclaimer} {settled settled' : List (K × V)}

/-- A value that settles settles also if more do so later. -/
theorem Settled.append_right {first payload : Nat} {key : K} {value : V}
    (h : Settled settled first payload key value) (settled' : List (K × V)) :
    Settled (settled ++ settled') first payload key value := by
  obtain ⟨i, hentry, rfl⟩ := h
  exact ⟨i, by rw [List.getElem?_append_left (List.getElem?_eq_some_iff.mp hentry).1, hentry], rfl⟩

/-- A value that settles after others has the payload that is its turn after theirs. -/
theorem Settled.append_left {first payload : Nat} {key : K} {value : V}
    (h : Settled settled' (first + settled.length) payload key value) :
    Settled (settled ++ settled') first payload key value := by
  obtain ⟨i, hentry, rfl⟩ := h
  refine ⟨settled.length + i, ?_, by omega⟩
  rw [List.getElem?_append_right (by omega), Nat.add_sub_cancel_left, hentry]

/-- The payload of a value that settles is new. -/
theorem Settled.le {first payload : Nat} {key : K} {value : V}
    (h : Settled settled first payload key value) : first ≤ payload := by
  obtain ⟨i, -, rfl⟩ := h
  exact Nat.le_add_right first i

/-- What may expire may still do so later, and when more has settled. -/
theorem Lost.mono {key : K} {value : V} (h : c.Lost settled r r' key value)
    (later : r'.Precedes r'') (settled' : List (K × V)) :
    c.Lost (settled ++ settled') r r'' key value := by
  obtain ⟨payload, hheld, hlost⟩ := h
  exact ⟨payload, hheld.imp_right (·.append_right settled'), hlost.mono later⟩

/-- The payload of a slot of the soft tier is one of the cache. -/
theorem mem_payloads_of_soft {s : Slot K V} (hs : s ∈ c.soft.buckets.slots) {payload : Nat}
    (hp : payload ∈ s.value.payloads) : payload ∈ c.payloads :=
  List.mem_append_right _ (Table.mem_payloads hs (List.mem_append_right _ hp))

/-- A slot that a soft tier can have, with a key and a value, is stale only if its value has been
cleared. -/
theorem exists_of_suits_soft {config : Table.Config} {s : Slot K V} (suits : s.Suits config)
    (strengths : config.keyStrength = .strong ∧ config.valueStrength = .reclaimable)
    (named : s.content.1 ≠ none) (full : s.content.2 ≠ none) :
    ∃ key value payload, s.key = .strong key ∧ s.value = .reclaimable payload value ∧
      ∀ r, s.isStale r = true → payload ∉ r.live := by
  obtain ⟨hkey, hvalue⟩ := suits
  rw [strengths.1] at hkey
  rw [strengths.2] at hvalue
  obtain ⟨value, hcontent⟩ := Option.ne_none_iff_exists'.mp full
  obtain ⟨payload, hreclaimable⟩ := Holder.eq_reclaimable hvalue hcontent
  obtain ⟨hash, key, held⟩ := s
  -- Of the holders that a key can have, only a strong one suits.
  cases key with
  | null => exact absurd rfl named
  | reclaimable other content => cases hkey
  | strong key =>
    refine ⟨key, value, payload, rfl, hreclaimable, fun r hstale => ?_⟩
    rw [Slot.isStale, hreclaimable] at hstale
    simpa [Holder.isCleared, Reclaimer.isLive] using hstale

/-- What the hard tier hands over, the cache hands over. -/
theorem handover_hard (issued : r.Issued c.payloads) {t : Table K V}
    (buckets : t.buckets = c.hard.buckets) {t' : Table K V} {r' : Reclaimer}
    (hand : Handover r r' t.payloads t'.payloads) (size : Nat) (metrics : Metrics) :
    Handover r r' c.payloads ({ c with hard := t', size, metrics } : Cache K V).payloads := by
  have hpayloads : t.payloads = c.hard.payloads := by
    rw [Table.payloads, buckets, Table.payloads]
  rw [hpayloads] at hand
  exact hand.frame issued

variable (c) in
/-- Work elsewhere in the cache leaves the soft tier as swept as it was. -/
theorem swept_soft {c' : Cache K V} (same : c'.soft = c.soft) (hswept : c.soft.Swept r)
    (hand : Handover r r' c.payloads c'.payloads) : c'.soft.Swept r' := by
  have hpayloads : c'.soft.payloads = c.soft.payloads := by rw [same]
  refine hswept.handover hand (fun _ hp => List.mem_append_right _ hp) (fun _ hp _ => ?_) ?_
  · rwa [← hpayloads]
  · rw [same]

/-- What the soft tier hands over, the cache hands over. -/
theorem handover_soft (issued : r.Issued c.payloads) {t : Table K V}
    (buckets : t.buckets = c.soft.buckets) {t' : Table K V} {r' : Reclaimer}
    (hand : Handover r r' t.payloads t'.payloads) (softSize : Int) (metrics : Metrics) :
    Handover r r' c.payloads ({ c with soft := t', softSize, metrics } : Cache K V).payloads := by
  have hpayloads : t.payloads = c.soft.payloads := by
    unfold Table.payloads
    rw [buckets]
  rw [hpayloads] at hand
  -- The soft tier comes last in the cache, and first in what is handed over with the rest.
  have hframe := hand.frame (issued.perm List.perm_append_comm)
  exact hframe.perm List.perm_append_comm List.perm_append_comm

end Lost

variable [DecidableEq K] [Hashed K] {c : Cache K V} {r r' : Reclaimer}
  {loose loose' : List (Entry K V)} {settled settled' : List (K × V)}

/-- What may expire after some work may expire after the work before it too. -/
theorem Lost.earlier {step : Step (Cache K V) (Notice K V) α}
    (h : step.Attends c r loose loose' settled) (later : step.reclaimer.Precedes r') {key : K}
    {value : V} (lost : step.state.Lost settled' step.reclaimer r' key value) :
    c.Lost (settled ++ settled') r r' key value := by
  obtain ⟨payload, ⟨s, hs, hkey, hvalue⟩ | hnew, hlost⟩ := lost
  · have hp : payload ∈ s.value.payloads := by
      rw [hvalue]
      exact List.mem_singleton_self _
    have hlost := h.handover.lost_trans (mem_payloads_of_soft hs hp) hlost later
    rcases h.origin s hs with hold | ⟨other, content, payload', hsettled, hother, hcontent⟩
    · exact ⟨payload, .inl ⟨s, hold, hkey, hvalue⟩, hlost⟩
    · -- The slot is that of the value that has settled, so it has its payload.
      cases hkey.symm.trans hother
      cases hvalue.symm.trans hcontent
      exact ⟨payload, .inr (hsettled.append_right settled'), hlost⟩
  · -- The payload is new, so it cannot have been lost before it was handed out.
    have hcleared := hlost.2.resolve_left fun hold => absurd hold.1 (Nat.not_lt.mpr hnew.le)
    rw [h.registered] at hnew
    exact ⟨payload, .inr hnew.append_left, hlost.1, .inr (hcleared.earlier h.handover.precedes)⟩

end Cache

namespace Step.Attends

variable [DecidableEq K] [Hashed K] {c : Cache K V} {r : Reclaimer}
  {loose loose' loose'' : List (Entry K V)} {settled settled' : List (K × V)}

/-- What is in custody after the work has been issued. -/
theorem issued {step : Step (Cache K V) (Cache.Notice K V) α}
    (h : step.Attends c r loose loose' settled) :
    step.reclaimer.Issued step.state.payloads :=
  h.handover.issued

/-- In an epoch that lasts, work that leaves the soft tier alone leaves its slots as stale as they
were. -/
theorem isStale_soft {step : Step (Cache K V) (Cache.Notice K V) α}
    (h : step.Attends c r loose loose' settled) (issued : r.Issued c.payloads)
    (quiet : step.reclaimer.epoch = r.epoch)
    (same : step.state.soft = c.soft) :
    ∀ s ∈ c.soft.buckets.slots, s.isStale step.reclaimer = s.isStale r := by
  intro s hs
  refine Slot.isStale_congr fun payload hp => ?_
  have hthere := Table.mem_payloads hs hp
  refine h.handover.mem_live_iff quiet (issued.right.lt_next payload hthere) fun _ => ?_
  rw [← same] at hthere
  exact List.mem_append_right _ hthere

/-- Work that announces nothing and changes neither the tiers nor the pins. -/
theorem still {step : Step (Cache K V) (Cache.Notice K V) α} (issued : r.Issued c.payloads)
    (tiered : step.state.Tiered loose)
    (pins : step.state.pins = c.pins) (hard : step.state.hard = c.hard)
    (soft : step.state.soft = c.soft) (reclaimer : step.reclaimer = r)
    (notices : step.notices = []) : step.Attends c r loose loose where
  tiered := tiered
  handover := by
    have hpayloads : step.state.payloads = c.payloads := by
      rw [Cache.payloads, hard, soft]
      rfl
    rw [reclaimer, hpayloads]
    exact .refl issued
  registered := congrArg Reclaimer.next reclaimer
  origin s hs := by
    rw [soft] at hs
    exact .inl hs
  swept h := by
    rw [soft, reclaimer]
    exact h
  follows := by
    have hholdings : step.state.holdings = c.holdings := by
      rw [Cache.holdings, Cache.pinned, pins, hard, soft]
      rfl
    rw [notices, hholdings]
    exact .silent .rfl

/-- Nothing is done. -/
theorem done (h : c.Tiered loose) (issued : r.Issued c.payloads) (result : α) :
    (Step.done c r result).Attends c r loose loose :=
  .still issued h rfl rfl rfl rfl rfl

/-- One piece of work and then another. -/
theorem andThen {first : Step (Cache K V) (Cache.Notice K V) α}
    (h₁ : first.Attends c r loose loose' settled)
    (second : Cache K V → Reclaimer → α → Step (Cache K V) (Cache.Notice K V) β)
    (h₂ : (second first.state first.reclaimer first.result).Attends first.state first.reclaimer
      loose' loose'' settled') :
    (first.andThen second).Attends c r loose loose'' (settled ++ settled') where
  tiered := h₂.tiered
  handover := h₁.handover.trans h₂.handover
  registered := by
    rw [Step.andThen_reclaimer, h₂.registered, h₁.registered, List.length_append, Nat.add_assoc]
  origin s hs := by
    rcases h₂.origin s hs with hs | ⟨key, value, payload, hsettled, hslot⟩
    · refine (h₁.origin s hs).imp_right ?_
      rintro ⟨key, value, payload, hsettled, hslot⟩
      exact ⟨key, value, payload, hsettled.append_right settled', hslot⟩
    · rw [h₁.registered] at hsettled
      exact .inr ⟨key, value, payload, hsettled.append_left, hslot⟩
  swept h := h₂.swept (h₁.swept h)
  follows := by
    have hlater := h₂.handover.precedes
    -- What is lost by the end counts as lost all the way.
    exact (h₁.follows.mono fun _ _ h => h.mono hlater settled').trans
      (h₂.follows.mono fun _ _ h => h.earlier h₁ hlater)

/-- One piece of work and then another, chosen by what the first one answered. -/
theorem andThenOf {first : Step (Cache K V) (Cache.Notice K V) α}
    {second : Cache K V → Reclaimer → α → Step (Cache K V) (Cache.Notice K V) β} {answer : α}
    (h₁ : first.Attends c r loose loose' settled) (answered : first.result = answer)
    (h₂ : (second first.state first.reclaimer answer).Attends first.state first.reclaimer
      loose' loose'' settled') :
    (first.andThen second).Attends c r loose loose'' (settled ++ settled') := by
  rw [← answered] at h₂
  exact h₁.andThen second h₂

/-- Only what is left and what is announced matters. -/
theorem same {step : Step (Cache K V) (Cache.Notice K V) α}
    {step' : Step (Cache K V) (Cache.Notice K V) β} (h : step.Attends c r loose loose' settled)
    (state : step'.state = step.state) (reclaimer : step'.reclaimer = step.reclaimer)
    (notices : step'.notices = step.notices) : step'.Attends c r loose loose' settled := by
  obtain ⟨tiered, handover, registered, origin, swept, follows⟩ := h
  rw [← state, ← reclaimer] at *
  rw [← notices] at follows
  exact ⟨tiered, handover, registered, origin, swept, follows⟩

end Step.Attends

/-! ## Work on one tier -/

namespace Cache

section Tiers

variable [Hashed K] {c : Cache K V} {r : Reclaimer} {loose : List (Entry K V)}

/-- No slot of the hard tier is ever stale. -/
theorem Tiered.hard_live (h : c.Tiered loose) (r : Reclaimer) :
    ∀ s ∈ c.hard.buckets.slots, s.isStale r = false := fun s hs =>
  Slot.isStale_of_suits_strong (h.hard.suited s hs) h.hardStrengths.1 h.hardStrengths.2 r

/-- In the hard tier nothing expires, so what departs is evicted. -/
theorem Tiered.hard_contents (h : c.Tiered loose) {t : Table K V}
    (buckets : t.buckets = c.hard.buckets) (config : t.config = c.hard.config)
    {step : Step (Table K V) (SoftCache.Notice K V) α} {came left : List (Slot K V)}
    {departed : List (Departure K V)} (accounts : Step.Accounts t r step came departed left) :
    c.hard.contents ++ came.map Slot.content ~
      step.state.contents ++ Departure.evictions departed ++ left.map Slot.content := by
  have hsuits : ∀ s ∈ t.buckets.slots, s.Suits t.config := by
    rw [buckets, config]
    exact h.hard.suited
  have hlive : ∀ d ∈ departed, d.expired = false := by
    intro d hd
    have hslot := accounts.suits_of_mem hsuits
      (List.mem_append_left _ (List.mem_append_right _ (List.mem_map_of_mem hd)))
    rw [config] at hslot
    exact Slot.isStale_of_suits_strong hslot h.hardStrengths.1 h.hardStrengths.2 _
  have hbalance := accounts.contents
  rw [Table.contents, buckets] at hbalance
  rw [Departure.evictions_of_live hlive]
  exact hbalance

/-- The hard tier has worked, perhaps under another bound. -/
theorem Tiered.setHard (h : c.Tiered loose) {loose' : List (Entry K V)} {t : Table K V}
    {size : Nat} (sound : t.Sound) (config : t.config = c.hard.config) (bound : t.bound = some size)
    (keyed : Keyed (({ c with hard := t, size } : Cache K V).roster ++ loose'.map Prod.fst))
    (metrics : Metrics) : Tiered { c with hard := t, size, metrics } loose' where
  keyed := keyed
  hard := sound
  soft := h.soft
  hardStrengths := by
    rw [config]
    exact h.hardStrengths
  softStrengths := h.softStrengths
  hardBound := bound
  softBound := h.softBound
  softSize := h.softSize
  full := h.full

/-- The soft tier has worked, perhaps under another bound. -/
theorem Tiered.setSoft (h : c.Tiered loose) {loose' : List (Entry K V)} {t : Table K V}
    {softSize : Int} (sound : t.Sound) (config : t.config = c.soft.config)
    (bound : t.bound = Cache.softBound softSize) (size : -1 ≤ softSize)
    (full : ∀ entry ∈ t.contents, entry.2 ≠ none)
    (keyed : Keyed (({ c with soft := t, softSize } : Cache K V).roster ++ loose'.map Prod.fst))
    (metrics : Metrics) : Tiered { c with soft := t, softSize, metrics } loose' where
  keyed := keyed
  hard := h.hard
  soft := sound
  hardStrengths := h.hardStrengths
  softStrengths := by
    rw [config]
    exact h.softStrengths
  hardBound := h.hardBound
  softBound := bound
  softSize := size
  full := full

section Departures

variable {t : Table K V} {step : Step (Table K V) (SoftCache.Notice K V) α}
  {came left : List (Slot K V)} {departed : List (Departure K V)} {settled : List (K × V)}

/-- No slot that the soft tier has had during some work has a null value. -/
theorem Tiered.soft_full (h : c.Tiered loose) (buckets : t.buckets = c.soft.buckets)
    (accounts : Step.Accounts t r step came departed left)
    (full : ∀ s ∈ came, s.content.2 ≠ none) {s : Slot K V}
    (hs : s ∈ step.state.buckets.slots ++ departed.map (·.slot) ++ left) : s.content.2 ≠ none := by
  rcases accounts.mem_slots hs with hold | hcame
  · rw [buckets] at hold
    exact h.full _ (List.mem_map_of_mem hold)
  · exact full s hcame

/-- A slot that departs from the soft tier has a key and a value. If it departs as expired, then the
key has lost its value. -/
theorem Tiered.soft_departure (h : c.Tiered loose) (buckets : t.buckets = c.soft.buckets)
    (config : t.config = c.soft.config) (accounts : Step.Accounts t r step came departed left)
    (full : ∀ s ∈ came, s.content.2 ≠ none)
    (settles : ∀ s ∈ came, ∃ key value payload, Settled settled r.next payload key value ∧
      s.key.content = some key ∧ s.value = .reclaimable payload value) {d : Departure K V}
    (hd : d ∈ departed) (named : d.slot.content.1 ≠ none) :
    ∃ key value, d.slot.key = .strong key ∧ d.slot.value.content = some value ∧
      (d.expired = true → c.Lost settled r step.reclaimer key value) := by
  have hsuits : ∀ s ∈ t.buckets.slots, s.Suits t.config := by
    rw [buckets, config]
    exact h.soft.suited
  have hmem := List.mem_append_left left (List.mem_append_right step.state.buckets.slots
    (List.mem_map_of_mem (f := (·.slot)) hd))
  have hslot := accounts.suits_of_mem hsuits hmem
  rw [config] at hslot
  obtain ⟨key, value, payload, hstrong, hreclaimable, hstale⟩ :=
    exists_of_suits_soft hslot h.softStrengths named (h.soft_full buckets accounts full hmem)
  have hpayload : payload ∈ d.slot.value.payloads := by
    rw [hreclaimable]
    exact List.mem_singleton_self _
  have hvalue : d.slot.value.content = some value := by
    rw [hreclaimable]
    rfl
  refine ⟨key, value, hstrong, hvalue, fun hexpired => ⟨payload, ?_, ?_⟩⟩
  · -- The slot was in the soft tier before, or its value has settled there since.
    have hkey : d.slot.key.content = some key := by
      rw [hstrong]
      rfl
    rcases accounts.mem_slots hmem with hthere | hcame
    · rw [buckets] at hthere
      exact .inl ⟨d.slot, hthere, hkey, hreclaimable⟩
    · obtain ⟨other, content, payload', hsettled, hother, hcontent⟩ := settles _ hcame
      cases hkey.symm.trans hother
      cases hreclaimable.symm.trans hcontent
      exact .inr hsettled
  · exact accounts.lost d hd payload (List.mem_append_right _ hpayload) (hstale _ hexpired)

end Departures

end Tiers

variable [DecidableEq K] [Hashed K] {c : Cache K V} {r : Reclaimer} {loose : List (Entry K V)}

omit [Hashed K] in
/-- A pinned entry is there no more often than its key is pinned. -/
theorem count_pinned_le (c : Cache K V) (key : Option K) :
    (c.pinned.map Prod.fst).count key ≤ c.pinKeys.count key := by
  refine List.Sublist.count_le key ?_
  rw [pinned, pinKeys]
  induction c.pins with
  | nil => exact List.Sublist.refl _
  | cons pin rest ih =>
    obtain ⟨key, _ | value⟩ := pin
    · exact ih.cons _
    · exact ih.cons_cons _

omit [Hashed K] in
/-- An entry is in the cache no more often than its key. -/
theorem count_holdings_le (c : Cache K V) (key : Option K) :
    (c.holdings.map Prod.fst).count key ≤ c.roster.count key := by
  have hpinned := count_pinned_le c key
  simp only [holdings, roster, List.map_append, List.count_append]
  omega

/-- No two entries of a tiered cache have the same key. -/
theorem Tiered.distinct (h : c.Tiered loose) : ((c.holdings ++ loose).map Prod.fst).Nodup := by
  rw [List.nodup_iff_count_le_one]
  intro key
  -- A pin without a value has a key but no entry, so entries are counted below keys.
  have hle := count_holdings_le c key
  have hone := List.nodup_iff_count_le_one.mp h.keyed.nodup key
  rw [List.count_append] at hone
  rw [List.map_append, List.count_append]
  omega

omit [DecidableEq K] in
/-- The soft tier is swept when it is asked to drop what is stale. -/
theorem Tiered.hasReclaimableSide_soft (h : c.Tiered loose) : c.soft.hasReclaimableSide = true := by
  rw [Table.hasReclaimableSide, h.softStrengths.2]
  simp [Strength.isStrong]

/-- Every entry of a tiered cache has a key. -/
theorem Tiered.named (h : c.Tiered loose) {entry : Entry K V}
    (hentry : entry ∈ c.holdings ++ loose) :
    entry.1 ≠ none := by
  intro hnone
  have hmem : none ∈ (c.holdings ++ loose).map Prod.fst := hnone ▸ List.mem_map_of_mem hentry
  have hpos := List.count_pos_iff.mpr hmem
  have hle := count_holdings_le c none
  have hzero := List.count_eq_zero_of_not_mem h.keyed.named
  rw [List.count_append] at hzero
  rw [List.map_append, List.count_append] at hpos
  omega

/-- The hard tier works, perhaps under another bound, and registers nothing. What it gives up is
loose afterwards, and what comes was loose before. -/
theorem attends_hard (came : List (Slot K V)) {left : List (Slot K V)}
    (h : c.Tiered (came.map Slot.content ++ loose)) (issued : r.Issued c.payloads) {t : Table K V}
    {size : Nat} (buckets : t.buckets = c.hard.buckets) (config : t.config = c.hard.config)
    (bound : t.bound = some size) {step : Step (Table K V) (SoftCache.Notice K V) α}
    {departed : List (Departure K V)} (accounts : Step.Accounts t r step came departed left)
    (sound : step.state.Sound) (next : step.reclaimer.next = r.next) (log : List LogLine) :
    Step.Attends c r (came.map Slot.content ++ loose)
      ⟨step.result, { c with hard := step.state, size }, step.reclaimer, [], log⟩
      (Departure.evictions departed ++ left.map Slot.content ++ loose) := by
  have hcontents := h.hard_contents buckets config accounts
  constructor
  case tiered =>
    refine h.setHard sound (accounts.config.trans config) (accounts.bound.trans bound) ?_ c.metrics
    refine h.keyed.of_count_le fun key => ?_
    have hcount := (hcontents.map Prod.fst).count_eq key
    simp only [roster, pinKeys, List.map_append, List.count_append] at hcount ⊢
    omega
  case handover => exact handover_hard issued buckets accounts.handover size c.metrics
  case registered => exact next
  case origin => exact fun s hs => .inl hs
  case swept =>
    intro hswept
    have hand := handover_hard issued buckets accounts.handover size c.metrics
    exact c.swept_soft rfl hswept hand
  case follows =>
    classical
    -- The entries only change their places.
    refine .silent (List.perm_iff_count.mpr fun entry => ?_)
    have hcount := hcontents.count_eq entry
    simp only [holdings, pinned, List.count_append] at hcount ⊢
    omega

/-- The soft tier works, perhaps under another bound. What departs is announced, and what is given
up in silence is loose afterwards. What comes was loose before and settles. -/
theorem attends_soft (came : List (Slot K V)) {left : List (Slot K V)} (settled : List (K × V))
    (h : c.Tiered (came.map Slot.content ++ loose)) (issued : r.Issued c.payloads) {t : Table K V}
    {softSize : Int} (buckets : t.buckets = c.soft.buckets) (config : t.config = c.soft.config)
    (epoch : t.sweptEpoch = c.soft.sweptEpoch) (bound : t.bound = Cache.softBound softSize)
    (size : -1 ≤ softSize) {step : Step (Table K V) (SoftCache.Notice K V) α}
    {departed : List (Departure K V)}
    (accounts : Step.Accounts t r step came departed left) (sound : step.state.Sound)
    (full : ∀ s ∈ came, s.content.2 ≠ none) (next : step.reclaimer.next = r.next + settled.length)
    (settles : ∀ s ∈ came, ∃ key value payload, Settled settled r.next payload key value ∧
      s.key.content = some key ∧ s.value = .reclaimable payload value) (metrics : Metrics)
    (log : List LogLine) :
    Step.Attends c r (came.map Slot.content ++ loose)
      ⟨step.result, { c with soft := step.state, softSize, metrics }, step.reclaimer,
        step.notices.filterMap ofSoft, log⟩ (left.map Slot.content ++ loose) settled := by
  have hcontents : c.soft.contents ++ came.map Slot.content ~
      step.state.contents ++ departed.map (·.slot.content) ++ left.map Slot.content := by
    have hbalance := accounts.contents
    rwa [Table.contents, buckets] at hbalance
  constructor
  case tiered =>
    refine h.setSoft sound (accounts.config.trans config) (accounts.bound.trans bound) size
      (fun entry hentry => ?_) ?_ metrics
    · obtain ⟨s, hs, rfl⟩ := List.mem_map.mp hentry
      exact h.soft_full buckets accounts full
        (List.mem_append_left _ (List.mem_append_left _ hs))
    · refine h.keyed.of_count_le fun key => ?_
      have hcount := (hcontents.map Prod.fst).count_eq key
      simp only [roster, pinKeys, List.map_append, List.count_append] at hcount ⊢
      omega
  case handover => exact handover_soft issued buckets accounts.handover softSize metrics
  case registered => exact next
  case origin =>
    intro s hs
    rcases accounts.mem_slots (List.mem_append_left _ (List.mem_append_left _ hs)) with hs | hs
    · rw [buckets] at hs
      exact .inl hs
    · exact .inr (settles s hs)
  case swept =>
    intro hswept
    have hpayloads : t.payloads = c.soft.payloads := by
      unfold Table.payloads
      rw [buckets]
    refine accounts.swept ⟨epoch.trans_le hswept.epoch_le, ?_⟩
    rw [epoch, hpayloads]
    exact hswept.live
  case follows =>
    have hperm : c.holdings ++ (came.map Slot.content ++ loose) ~
        departed.map (·.slot.content) ++
          (({ c with soft := step.state, softSize, metrics } : Cache K V).holdings ++
            (left.map Slot.content ++ loose)) := by
      classical
      rw [List.perm_iff_count]
      intro entry
      have hcount := hcontents.count_eq entry
      simp only [holdings, pinned, List.count_append] at hcount ⊢
      omega
    -- Each key departs once, since none was there twice.
    have hdistinct := h.distinct
    rw [(hperm.map Prod.fst).nodup_iff] at hdistinct
    rw [accounts.notices]
    refine (Follows.departures (fun d hd => ?_) hdistinct).perm hperm .rfl
    have hnamed : d.slot.content.1 ≠ none :=
      h.named (hperm.symm.subset (List.mem_append_left _ (List.mem_map_of_mem hd)))
    exact h.soft_departure buckets config accounts full settles hd hnamed

end Cache

end SoftCache
