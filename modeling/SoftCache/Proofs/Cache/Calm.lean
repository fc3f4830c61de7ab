import SoftCache.Proofs.Cache.Upkeep
import SoftCache.Proofs.PlainCache
import SoftCache.Proofs.Table.Intact

/-!
# Calm caches

A cache is `Calm` if its soft tier has no bound and none of its payloads has been cleared, under a
reclaimer without a budget. What attends to a calm cache leaves it calm (`Cache.Calm.attends`), and
its soft tier works in silence (`Cache.Calm.silent`). A calm cache `Carries` a plain cache if just
the entries of the plain one are in it, in whatever tier or loose, and `Step.Brings` says of some
work which plain cache is carried afterwards and which entries were announced to leave.
-/

open scoped List

namespace SoftCache

variable {K V α β : Type}

namespace Cache

open Mirror

/-! ## Calm -/

/-- A cache whose soft tier has no bound and none of whose payloads has been cleared, under a
reclaimer without a budget. -/
structure Calm [Hashed K] (c : Cache K V) (r : Reclaimer) (loose : List (Entry K V)) : Prop where
  /-- The cache is tiered. -/
  tiered : c.Tiered loose
  /-- The payloads of the tiers have been issued. -/
  issued : r.Issued c.payloads
  /-- No registration clears anything. -/
  budget : r.budget = none
  /-- The soft tier has no bound. -/
  unbounded : c.softSize < 0
  /-- Nothing has been cleared. -/
  live : ∀ payload ∈ c.payloads, payload ∈ r.live

namespace Calm

variable [Hashed K] {c : Cache K V} {r r' : Reclaimer} {loose loose' : List (Entry K V)}

/-- A negative size of the soft tier is -1. -/
theorem softSize_eq (h : c.Calm r loose) : c.softSize = -1 := by
  have hsize := h.tiered.softSize
  have hunbounded := h.unbounded
  omega

/-- In a calm cache the soft tier has no bound. -/
theorem soft_bound (h : c.Calm r loose) : c.soft.bound = none := by
  rw [h.tiered.softBound, h.softSize_eq]
  rfl

/-- The hard tier can be read. -/
theorem hard (h : c.Calm r loose) : c.hard.Intact r where
  sound := h.tiered.hard
  issued := h.issued.left
  budget := h.budget
  live := h.tiered.hard_live r
  admitted entry _ := by
    rw [Table.refusal, h.tiered.hard_excludes, h.tiered.hardStrengths.2]
    simp [Strength.isStrong]

/-- The soft tier can be read. -/
theorem soft (h : c.Calm r loose) : c.soft.Intact r where
  sound := h.tiered.soft
  issued := h.issued.right
  budget := h.budget
  live _ hs := Slot.isStale_eq_false_iff_live.mpr fun payload hp =>
    h.live payload (List.mem_append_right _ (Table.mem_payloads hs hp))
  admitted entry hentry := by
    obtain ⟨value, hvalue⟩ := Option.ne_none_iff_exists'.mp (h.tiered.full entry hentry)
    rw [Table.refusal, h.tiered.soft_excludes, hvalue]
    simp

/-- A reclaimer under which as much is live does as well. -/
theorem under (h : c.Calm r loose) (issued : r'.Issued c.payloads) (budget : r'.budget = none)
    (live : ∀ payload ∈ c.payloads, payload ∈ r.live → payload ∈ r'.live) : c.Calm r' loose :=
  ⟨h.tiered, issued, budget, h.unbounded, fun payload hp => live payload hp (h.live payload hp)⟩

/-- Nothing is heard of the soft tier while nothing is evicted from it. -/
theorem silent (h : c.Calm r loose)
    {work : Table K V → Reclaimer → Step (Table K V) (SoftCache.Notice K V) α}
    {came left : List (Slot K V)} {departed : List (Departure K V)}
    (accounts : Step.Accounts c.soft r (work c.soft r) came departed left)
    (hnone : Departure.evictions departed = []) (lasting : ∀ s ∈ came, s.lasts r = true) :
    (c.overSoft r work).notices = [] := by
  have hquiet := accounts.handover.quiet (.inl h.budget)
  have hdeparted := accounts.departed_eq_nil h.issued.right hquiet hnone h.soft.live lasting
  show (work c.soft r).notices.filterMap ofSoft = []
  rw [accounts.notices, hdeparted]
  rfl

variable [DecidableEq K]

/-- A cache stays calm when it is attended to, as long as its soft tier is not given a bound. -/
theorem attends {settled : List (K × V)} {step : Step (Cache K V) (Notice K V) α}
    (h : c.Calm r loose)
    (work : step.Attends c r loose loose' settled) (unbounded : step.state.softSize < 0) :
    step.state.Calm step.reclaimer loose' where
  tiered := work.tiered
  issued := work.issued
  budget := work.handover.precedes.budget.trans h.budget
  unbounded := unbounded
  live payload hp := by
    -- Without a budget no epoch begins, so what is old stays live and what is new is live.
    have hquiet := work.handover.quiet (.inl h.budget)
    rcases work.handover.origin payload hp with hold | hnew
    · have hn := h.issued.lt_next payload hold
      exact work.handover.live_of_live hquiet hn (h.live payload hold) fun _ => hp
    · exact work.handover.live_of_new hquiet hp hnew

end Calm

/-! ## Carrying a plain cache -/

variable [DecidableEq K] [Hashed K]

/-- A calm cache in which there is just what is in a plain cache. -/
structure Carries (c : Cache K V) (r : Reclaimer) (loose : List (Entry K V)) (p : PlainCache K V) :
    Prop extends c.Calm r loose where
  /-- The entries, in whatever tier or loose, are those of the plain cache. -/
  reads : p.mirror.Reads (c.holdings ++ loose)
  /-- The same keys are pinned. -/
  pins_iff : ∀ key, key ∈ c.pinnedKeys ↔ key ∈ p.pins
  /-- The size is the same. -/
  size_eq : c.size = p.size

end Cache

/-- Work after which a cache carries a plain cache, where `gone` are the entries that were announced
to leave on the way. -/
structure Step.Brings [DecidableEq K] [Hashed K] (step : Step (Cache K V) (Cache.Notice K V) α)
    (loose : List (Entry K V)) (p : PlainCache K V) (gone : List (K × V)) : Prop where
  /-- The cache carries the plain one. -/
  carries : step.state.Carries step.reclaimer loose p
  /-- These entries left, and no others. -/
  gone_eq : step.notices.filter Cache.Notice.isRemoval = gone.map PlainCache.farewell

namespace Step.Brings

variable [DecidableEq K] [Hashed K] {loose loose' : List (Entry K V)} {p p' : PlainCache K V}
  {gone gone' : List (K × V)}

/-- One piece of work and then another. -/
theorem andThen {first : Step (Cache K V) (Cache.Notice K V) α} (h₁ : first.Brings loose p gone)
    (second : Cache K V → Reclaimer → α → Step (Cache K V) (Cache.Notice K V) β)
    (h₂ : (second first.state first.reclaimer first.result).Brings loose' p' gone') :
    (first.andThen second).Brings loose' p' (gone ++ gone') where
  carries := h₂.carries
  gone_eq := by
    rw [Step.andThen_notices, List.filter_append, h₁.gone_eq, h₂.gone_eq, List.map_append]

/-- One piece of work and then another, chosen by what the first one answered. -/
theorem andThenOf {first : Step (Cache K V) (Cache.Notice K V) α}
    {second : Cache K V → Reclaimer → α → Step (Cache K V) (Cache.Notice K V) β} {answer : α}
    (h₁ : first.Brings loose p gone) (answered : first.result = answer)
    (h₂ : (second first.state first.reclaimer answer).Brings loose' p' gone') :
    (first.andThen second).Brings loose' p' (gone ++ gone') := by
  rw [← answered] at h₂
  exact h₁.andThen second h₂

/-- Only what is left and what is announced matters. -/
theorem same {step : Step (Cache K V) (Cache.Notice K V) α}
    {step' : Step (Cache K V) (Cache.Notice K V) β} (h : step.Brings loose p gone)
    (state : step'.state = step.state) (reclaimer : step'.reclaimer = step.reclaimer)
    (notices : step'.notices = step.notices) : step'.Brings loose p gone := by
  obtain ⟨carries, gone_eq⟩ := h
  rw [← state, ← reclaimer] at carries
  rw [← notices] at gone_eq
  exact ⟨carries, gone_eq⟩

end Step.Brings

namespace Cache

open Mirror

variable [DecidableEq K] [Hashed K] {c : Cache K V} {r : Reclaimer}
    {loose loose' : List (Entry K V)}
  {p : PlainCache K V}

/-- Work that leaves the pinned keys and the sizes of a cache as they are. -/
def Frames (c : Cache K V) (step : Step (Cache K V) (Notice K V) α) : Prop :=
  step.state.pinnedKeys = c.pinnedKeys ∧ step.state.size = c.size ∧
    step.state.softSize = c.softSize

namespace Carries

/-! ### What is carried -/

/-- A value of the plain cache is one of an entry of the cache. -/
theorem lookup_iff (h : c.Carries r loose p) {key : K} {value : V} :
    p.map.lookup key = some value ↔ (some key, some value) ∈ c.holdings ++ loose := by
  rw [← h.reads, PlainCache.mirror]
  exact (Option.map_injective (Option.some_injective V)).eq_iff.symm

/-- Every entry of the cache has a key and a value. -/
theorem valued (h : c.Carries r loose p) {entry : Entry K V}
    (hentry : entry ∈ c.holdings ++ loose) :
    ∃ key value, entry = (some key, some value) := by
  obtain ⟨key, value⟩ := entry
  obtain ⟨key, rfl⟩ := Option.ne_none_iff_exists'.mp (h.tiered.named hentry)
  have hmirror := (h.reads key value).mpr hentry
  obtain ⟨value, -, rfl⟩ := Option.map_eq_some_iff.mp hmirror
  exact ⟨key, value, rfl⟩

/-- A reclaimer under which as much is live does as well. -/
theorem under {r' : Reclaimer} (h : c.Carries r loose p) (issued : r'.Issued c.payloads)
    (budget : r'.budget = none)
    (live : ∀ payload ∈ c.payloads, payload ∈ r.live → payload ∈ r'.live) :
    c.Carries r' loose p :=
  ⟨h.toCalm.under issued budget live, h.reads, h.pins_iff, h.size_eq⟩

/-! ### Work -/

variable {step : Step (Cache K V) (Notice K V) α} {settled : List (K × V)}

/-- What attends to a cache makes of the plain one what is heard of it. -/
theorem attends (h : c.Carries r loose p) (work : step.Attends c r loose loose' settled)
    (unbounded : step.state.softSize < 0) {p' : PlainCache K V}
    (pins : ∀ key, key ∈ step.state.pinnedKeys ↔ key ∈ p'.pins) (size : step.state.size = p'.size)
    (becomes : ∀ m', Replays (c.Lost settled r step.reclaimer) p.mirror step.notices m' →
      m'.Reads (step.state.holdings ++ loose') → m' = p'.mirror) :
    step.state.Carries step.reclaimer loose' p' where
  toCalm := h.toCalm.attends work unbounded
  reads := by
    obtain ⟨m', hreplays, hreads⟩ := work.follows _ h.reads
    rwa [becomes m' hreplays hreads] at hreads
  pins_iff := pins
  size_eq := size

/-- Work of which nothing is heard changes at most the pins and the size. -/
theorem unheard (h : c.Carries r loose p) (work : step.Attends c r loose loose' settled)
    (unbounded : step.state.softSize < 0) (silent : step.notices = []) {pins : Finset K}
    (hpins : ∀ key, key ∈ step.state.pinnedKeys ↔ key ∈ pins) {size : Nat}
    (hsize : step.state.size = size) : step.Brings loose' { p with pins, size } [] where
  carries := by
    refine h.attends work unbounded hpins hsize fun m' hreplays _ => ?_
    rw [silent] at hreplays
    cases hreplays
    rfl
  gone_eq := by
    rw [silent]
    rfl

/-- Work that leaves the pinned keys and the sizes makes of the map what is heard of it. -/
theorem framed (h : c.Carries r loose p) (work : step.Attends c r loose loose' settled)
    (frames : c.Frames step) {map : Finmap fun _ : K => V}
    (becomes : ∀ m', Replays (c.Lost settled r step.reclaimer) p.mirror step.notices m' →
      m'.Reads (step.state.holdings ++ loose') → m' = PlainCache.mirror { p with map }) :
    step.state.Carries step.reclaimer loose' { p with map } := by
  obtain ⟨hpins, hsize, hsoftSize⟩ := frames
  refine h.attends work ?_ (fun key => ?_) (hsize.trans h.size_eq) becomes
  · rw [hsoftSize]
    exact h.unbounded
  · rw [hpins]
    exact h.pins_iff key

/-- Work of which nothing is heard, and which leaves the pinned keys and the sizes, changes
nothing. -/
theorem idle (h : c.Carries r loose p) (work : step.Attends c r loose loose' settled)
    (frames : c.Frames step) (silent : step.notices = []) : step.Brings loose' p [] where
  carries := by
    refine h.framed work frames fun m' hreplays _ => ?_
    rw [silent] at hreplays
    cases hreplays
    rfl
  gone_eq := by
    rw [silent]
    rfl

/-- An entry that is announced as added takes the place of the one that its key had. -/
theorem replaces (h : c.Carries r loose p) (work : step.Attends c r loose loose' settled)
    (frames : c.Frames step) {key : K} {value : V} {old : Option (Option V)}
    (announced : step.notices =
      (old.toList.map fun old => .removed key old false) ++ [.added key (some value)]) :
    step.Brings loose' { p with map := p.map.insert key value } (p.entryOf key) ∧
      p.mirror key = old := by
  obtain ⟨m', hreplays, -⟩ := work.follows _ h.reads
  rw [announced] at hreplays
  obtain ⟨rfl, -⟩ := hreplays.of_replace
  refine ⟨⟨h.framed work frames fun m' hreplays _ => ?_, ?_⟩, rfl⟩
  · rw [announced] at hreplays
    rw [hreplays.of_replace.2, PlainCache.mirror_insert]
  · rw [announced, List.filter_append, PlainCache.removals_mirror]
    exact List.append_nil _

/-- A key that is announced as removed goes with the value that it had. -/
theorem strikes (h : c.Carries r loose p) (work : step.Attends c r loose loose' settled)
    (frames : c.Frames step) {key : K} {old : Option (Option V)}
    (announced : step.notices = old.toList.map fun old => .removed key old false)
    (absent : old = none → p.map.lookup key = none) :
    step.Brings loose' { p with map := p.map.erase key } (p.entryOf key) ∧
      p.mirror key = old := by
  have hknown := fun hnone => congrArg (Option.map some) (absent hnone)
  obtain ⟨m', hreplays, -⟩ := work.follows _ h.reads
  rw [announced] at hreplays
  obtain ⟨rfl, -⟩ := hreplays.of_remove hknown
  refine ⟨⟨h.framed work frames fun m' hreplays _ => ?_, ?_⟩, rfl⟩
  · rw [announced] at hreplays
    rw [(hreplays.of_remove hknown).2, PlainCache.mirror_erase]
  · rw [announced, PlainCache.removals_mirror]

/-- Nothing is done. -/
theorem done (h : c.Carries r loose p) (result : α) : (Step.done c r result).Brings loose p [] :=
  ⟨h, rfl⟩

/-- The cache counts. -/
theorem tally (h : c.Carries r loose p) (count : Metrics → Metrics) (result : α) :
    (Step.done (c.tally count) r result).Brings loose p [] :=
  h.idle (attends_tally h.tiered h.issued count result) ⟨rfl, rfl, rfl⟩ rfl

end Carries

end Cache

end SoftCache
