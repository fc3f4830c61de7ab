import SoftCache.Proofs.Cache.Writing

/-!
# Reading leaves a cache still

A read of a cache drops slots of its soft tier that had been cleared, and announces them as expired.
It takes no live entry from its place (`Cache.retains_perform`), so a key is in the same tier
afterwards, and the same value is found for it (`Step.Retains.locate`, `Step.Retains.result_get`). A
pass does no more to a key of which it clears no payload (`Cache.Tiered.locate_congr`,
`Cache.Tiered.result_get_congr`). Where a key is and whether it is there agree with what is found
for it (`Cache.Tiered.agrees`).
-/

open scoped List

namespace SoftCache

variable {K V α β : Type}

namespace Cache

/-- Whether a request only reads. -/
def Request.reads : Request K V → Bool
  | .put .. | .putAll .. | .remove _ | .pin _ | .unpin _ | .setSize _ | .setSoftSize _ | .clear =>
    false
  | _ => true

/-- The notice that the value of a key of the soft tier has expired, of a value that has been
cleared. -/
def Expires (c : Cache K V) (r : Reclaimer) (notice : Notice K V) : Prop :=
  ∃ key, ∃ s ∈ c.soft.buckets.slots, s.key.content = some key ∧ s.value.isCleared r = true ∧
    notice = .removed key none true

end Cache

/-- Work that moves no live entry of a cache. -/
structure Step.Retains (c : Cache K V) (r : Reclaimer)
    (step : Step (Cache K V) (Cache.Notice K V) α) : Prop where
  /-- The pins stay as they are. -/
  pins : step.state.pins = c.pins
  /-- The live entries of the hard tier stay there. -/
  hard : c.hard.entries r ~ step.state.hard.entries step.reclaimer
  /-- The live entries of the soft tier stay there. -/
  soft : c.soft.entries r ~ step.state.soft.entries step.reclaimer
  /-- No slot comes to the soft tier, and each is as cleared as it was. -/
  slots : ∀ s ∈ step.state.soft.buckets.slots, s ∈ c.soft.buckets.slots ∧
    ∀ payload ∈ s.payloads, payload ∈ step.reclaimer.live ↔ payload ∈ r.live
  /-- Just values of the soft tier that had been cleared are announced, as expired. -/
  notices : ∀ notice ∈ step.notices, c.Expires r notice

namespace Step.Retains

variable {c : Cache K V} {r : Reclaimer}

/-- Nothing is done but counted. -/
theorem done (c : Cache K V) (r : Reclaimer) (count : Cache.Metrics → Cache.Metrics) (result : α) :
    (Step.done (c.tally count) r result).Retains c r where
  pins := rfl
  hard := .rfl
  soft := .rfl
  slots _ hs := ⟨hs, fun _ _ => Iff.rfl⟩
  notices _ hnotice := absurd hnotice List.not_mem_nil

/-- One piece of work and then another. -/
theorem andThen {first : Step (Cache K V) (Cache.Notice K V) α} (h₁ : first.Retains c r)
    (second : Cache K V → Reclaimer → α → Step (Cache K V) (Cache.Notice K V) β)
    (h₂ : (second first.state first.reclaimer first.result).Retains first.state first.reclaimer) :
    (first.andThen second).Retains c r where
  pins := h₂.pins.trans h₁.pins
  hard := h₁.hard.trans h₂.hard
  soft := h₁.soft.trans h₂.soft
  slots s hs := by
    obtain ⟨hold, hlive⟩ := h₂.slots s hs
    obtain ⟨holder, hlive'⟩ := h₁.slots s hold
    exact ⟨holder, fun payload hp => (hlive payload hp).trans (hlive' payload hp)⟩
  notices notice hnotice := by
    rcases List.mem_append.mp hnotice with hnotice | hnotice
    · exact h₁.notices notice hnotice
    · -- What is cleared after the first piece had been cleared before it.
      obtain ⟨key, s, hs, hkey, hcleared, rfl⟩ := h₂.notices notice hnotice
      obtain ⟨hold, hlive⟩ := h₁.slots s hs
      refine ⟨key, s, hold, hkey, ?_, rfl⟩
      rw [Holder.isCleared_iff] at hcleared ⊢
      obtain ⟨payload, hp, hdead⟩ := hcleared
      exact ⟨payload, hp, (hlive payload (List.mem_append_right _ hp)).not.mp hdead⟩

/-- Only what is left and what is announced matters. -/
theorem same {step : Step (Cache K V) (Cache.Notice K V) α}
    {step' : Step (Cache K V) (Cache.Notice K V) β} (h : step.Retains c r)
    (state : step'.state = step.state) (reclaimer : step'.reclaimer = step.reclaimer)
    (notices : step'.notices = step.notices) : step'.Retains c r := by
  obtain ⟨pins, hard, soft, slots, announced⟩ := h
  rw [← state, ← reclaimer] at *
  rw [← notices] at announced
  exact ⟨pins, hard, soft, slots, announced⟩

end Step.Retains

namespace Cache

variable [DecidableEq K] [Hashed K] {c c' : Cache K V} {r r' : Reclaimer}
  {loose loose' : List (Entry K V)} {departed : List (Departure K V)} {key : K}

/-! ## Work on one tier -/

/-- Work in which nothing but stale slots of the hard tier goes moves no live entry. -/
theorem retains_overHard (h : c.Tiered loose) (issued : r.Issued c.payloads)
    (work : Table K V → Reclaimer → Step (Table K V) (SoftCache.Notice K V) α)
    (accounts : Step.Accounts c.hard r (work c.hard r) [] departed [])
    (hnone : Departure.evictions departed = []) (sound : (work c.hard r).state.Sound)
    (next : (work c.hard r).reclaimer.next = r.next) : (c.overHard r work).Retains c r := by
  have hattends := attends_overHard_quiet work h issued accounts hnone sound next
  have hquiet := hattends.handover.quiet (.inr next)
  constructor
  case pins => rfl
  case hard =>
    have hentries := accounts.entries issued.left hquiet hnone
    simp only [List.filter_nil, List.map_nil, List.append_nil] at hentries
    exact hentries
  case soft => exact .of_eq (hattends.entries_soft issued hquiet rfl).symm
  case slots =>
    intro s hs
    refine ⟨hs, fun payload hp => ?_⟩
    have hthere : payload ∈ c.payloads := List.mem_append_right _ (Table.mem_payloads hs hp)
    exact hattends.handover.mem_live_iff hquiet (issued.lt_next payload hthere) fun _ =>
      List.mem_append_right _ (Table.mem_payloads hs hp)
  case notices => exact fun notice hnotice => absurd hnotice List.not_mem_nil

omit [DecidableEq K] in
/-- The entries of the hard tier can be read at any time. -/
theorem Tiered.entries_hard (h : c.Tiered loose) (r r' : Reclaimer) :
    c.hard.entries r' = c.hard.entries r := by
  refine Table.entries_congr rfl fun s hs => ?_
  rw [h.hard_live r' s hs, h.hard_live r s hs]

omit [DecidableEq K] in
/-- What the cache passes on of a stale slot of its soft tier that departs. -/
theorem Tiered.expires_of_departure (h : c.Tiered loose) {d : Departure K V} {notice : Notice K V}
    (hslot : d.slot ∈ c.soft.buckets.slots) (hstale : d.slot.isStale r = true)
    (hexpired : d.expired = true) (hnotice : ofSoft d.notice = some notice) :
    c.Expires r notice := by
  have hstrong : d.slot.key.Suits .strong := h.softStrengths.1 ▸ (h.soft.suited d.slot hslot).1
  have hkey : ∀ r, d.slot.key.isCleared r = false := fun _ =>
    Holder.isCleared_of_suits_strong hstrong
  have hvalue : d.slot.value.isCleared r = true := by
    simpa [Slot.isStale, hkey] using hstale
  rw [Departure.notice, if_pos hexpired, Slot.expiration, hkey, if_neg Bool.false_ne_true,
    Holder.get_eq_content (hkey _)] at hnotice
  rcases hcontent : d.slot.key.content with _ | key
  · rw [hcontent] at hnotice
    cases hnotice
  · rw [hcontent] at hnotice
    cases hnotice
    exact ⟨key, d.slot, hslot, hcontent, hvalue, rfl⟩

omit [DecidableEq K] in
/-- Work in which nothing but stale slots of the soft tier goes moves no live entry. -/
theorem retains_overSoft (h : c.Tiered loose) (issued : r.Issued c.payloads)
    (work : Table K V → Reclaimer → Step (Table K V) (SoftCache.Notice K V) α)
    (accounts : Step.Accounts c.soft r (work c.soft r) [] departed [])
    (hnone : Departure.evictions departed = [])
    (next : (work c.soft r).reclaimer.next = r.next) : (c.overSoft r work).Retains c r := by
  have hquiet := accounts.handover.quiet (.inr next)
  have hslots : ∀ s ∈ (work c.soft r).state.buckets.slots ++ departed.map (·.slot) ++ [],
      s ∈ c.soft.buckets.slots := fun s hs =>
    (accounts.mem_slots hs).resolve_right List.not_mem_nil
  constructor
  case pins => rfl
  case hard => exact .of_eq (h.entries_hard _ _)
  case soft =>
    have hentries := accounts.entries issued.right hquiet hnone
    simp only [List.filter_nil, List.map_nil, List.append_nil] at hentries
    exact hentries
  case slots =>
    intro s hs
    have hold := hslots s (List.mem_append_left _ (List.mem_append_left _ hs))
    refine ⟨hold, fun payload hp => ?_⟩
    have hn := issued.right.lt_next payload (Table.mem_payloads hold hp)
    exact accounts.handover.mem_live_iff hquiet hn fun _ => Table.mem_payloads hs hp
  case notices =>
    intro notice hnotice
    obtain ⟨notice', hnotice', hpassed⟩ := List.mem_filterMap.mp hnotice
    rw [accounts.notices] at hnotice'
    obtain ⟨d, hd, rfl⟩ := List.mem_map.mp hnotice'
    have hslot := hslots d.slot
      (List.mem_append_left _ (List.mem_append_right _ (List.mem_map_of_mem hd)))
    -- It was stale before, in the same epoch.
    have hstale : d.slot.isStale r = true := by
      have hlasts := accounts.not_lasts hquiet hnone d hd
      rw [Table.lasts_eq issued.right hslot] at hlasts
      simpa using hlasts
    have hexpired := Departure.expired_of_evictions_eq_nil hnone hd
    exact h.expires_of_departure hslot hstale hexpired hpassed

/-! ## Reads -/

/-- A lookup moves no live entry. In particular one that is found in the soft tier stays there. -/
theorem retains_get (h : c.Tiered loose) (issued : r.Issued c.payloads) (key : K) :
    (c.get r key).Retains c r := by
  unfold get
  split
  · exact .done c r _ _
  · obtain ⟨departed, accounts, hnone⟩ := Table.accounts_lookup issued.left (some key)
    have hsound := (Table.upholds_lookup h.hard issued.left (some key)).sound
    have hattends := attends_overHard_quiet (·.get · (some key)) h issued
      (accounts.map Option.join) hnone hsound (c.hard.next_lookup r _)
    have hhard := retains_overHard h issued (·.get · (some key)) (accounts.map Option.join) hnone
      hsound (c.hard.next_lookup r (some key))
    refine hhard.andThen _ ?_
    split
    · exact .done _ _ _ _
    · -- A key that the hard tier does not have is sought in the soft tier.
      obtain ⟨departed, accounts, hnone⟩ :=
        Table.accounts_lookup hattends.issued.right (some key)
      have hsoft := retains_overSoft hattends.tiered hattends.issued (·.get · (some key))
        (accounts.map Option.join) hnone (Table.next_lookup _ _ (some key))
      refine hsoft.andThen _ ?_
      split <;> exact .done _ _ _ _

omit [DecidableEq K] in
/-- Counting the soft tier moves no live entry. -/
theorem retains_softLength (h : c.Tiered loose) (issued : r.Issued c.payloads) :
    (c.overSoft r Table.length).Retains c r := by
  obtain ⟨departed, accounts, hnone⟩ := Table.accounts_length issued.right
  exact retains_overSoft h issued _ accounts hnone (c.soft.next_length r)

/-- To count a cache retains all that can be read of it. -/
theorem retains_length (h : c.Tiered loose) (issued : r.Issued c.payloads) :
    (c.length r).Retains c r := by
  obtain ⟨departed, accounts, hnone⟩ := Table.accounts_length issued.left
  have hsound := (Table.upholds_length h.hard issued.left).sound
  have hattends := attends_overHard_quiet _ h issued accounts hnone hsound (c.hard.next_length r)
  have hhard := retains_overHard h issued _ accounts hnone hsound (c.hard.next_length r)
  have hsoft := retains_softLength hattends.tiered hattends.issued
  exact hhard.andThen _ (hsoft.andThen _ (.done _ _ id _))

omit [DecidableEq K] in
/-- A sweep retains all that can be read of a cache. -/
theorem retains_removeExpired (h : c.Tiered loose) (issued : r.Issued c.payloads) :
    (c.removeExpired r).Retains c r := by
  obtain ⟨departed, accounts, hnone⟩ := Table.accounts_removeExpired issued.right
  exact retains_overSoft h issued _ accounts hnone (c.soft.next_removeExpired r)

/-- The self-check retains all that can be read of a cache. -/
theorem retains_violation? (h : c.Tiered loose) (issued : r.Issued c.payloads) :
    (c.violation? r).Retains c r := by
  have hbound : (c.softOverBound? r).Retains c r := by
    unfold softOverBound?
    split
    · exact .done c r id none
    · exact (retains_softLength h issued).same rfl rfl rfl
  rw [h.violation?_eq r]
  exact hbound.andThen _ (.done _ _ id _)

/-- A read moves no live entry. -/
theorem retains_perform [Ordered K] [Literal K] [DecidableEq V] [Literal V] (h : c.Tiered [])
    (issued : r.Issued c.payloads) {request : Request K V} (reads : request.reads = true) :
    (c.perform r request).Retains c r := by
  cases request with
  | put | putAll | remove | pin | unpin | setSize | setSoftSize | clear => cases reads
  | get key => exact (retains_get h issued key).same rfl rfl rfl
  | length => exact (retains_length h issued).same rfl rfl rfl
  | isEmpty => exact (retains_length h issued).same rfl rfl rfl
  | removeExpired => exact (retains_removeExpired h issued).same rfl rfl rfl
  | check => exact (retains_violation? h issued).same rfl rfl rfl
  | containsKey | containsValue | locate | pinnedKeys | keys | entries | values | size | softSize
  | byUse | metrics | snapshot | literal => exact .done c r id _

/-! ## Where a key is, and what is found for it -/

/-- A key that has the same pin, and the same live entries in both tiers, is in the same tier. -/
theorem Tiered.locate_congr (h : c.Tiered loose) (h' : c'.Tiered loose')
    (pins : c'.pins = c.pins)
    (hard : ∀ value, (some key, value) ∈ c'.hard.entries r' ↔ (some key, value) ∈ c.hard.entries r)
    (soft : ∀ value,
      (some key, value) ∈ c'.soft.entries r' ↔ (some key, value) ∈ c.soft.entries r) :
    c'.locate r' key = c.locate r key := by
  have hhard : c'.hard.containsKey r' (some key) = c.hard.containsKey r (some key) := by
    rw [Bool.eq_iff_iff, h'.hard.containsKey_iff fun entry _ => h'.hard_excludes entry.1,
      h.hard.containsKey_iff fun entry _ => h.hard_excludes entry.1]
    exact exists_congr hard
  have hsoft : c'.soft.containsKey r' (some key) = c.soft.containsKey r (some key) := by
    rw [Bool.eq_iff_iff, h'.soft.containsKey_iff fun entry _ => h'.soft_excludes entry.1,
      h.soft.containsKey_iff fun entry _ => h.soft_excludes entry.1]
    exact exists_congr soft
  rw [locate, locate, pinnedValue, pinnedValue, pins, hhard, hsoft]

/-- For a key that has the same pin, and the same live entries in both tiers, the same is found. -/
theorem Tiered.result_get_congr (h : c.Tiered loose) (h' : c'.Tiered loose')
    (issued : r.Issued c.payloads) (issued' : r'.Issued c'.payloads) (pins : c'.pins = c.pins)
    (hard : ∀ value, (some key, value) ∈ c'.hard.entries r' ↔ (some key, value) ∈ c.hard.entries r)
    (soft : ∀ value,
      (some key, value) ∈ c'.soft.entries r' ↔ (some key, value) ∈ c.soft.entries r) :
    (c'.get r' key).result = (c.get r key).result := by
  have hpinned : c'.pinned = c.pinned := by
    rw [pinned, pinned, pins]
  refine Option.ext fun value => ?_
  rw [h'.result_get_iff issued', h.result_get_iff issued]
  simp only [legible, List.mem_append, hpinned, hard, soft]

end Cache

namespace Step.Retains

variable [DecidableEq K] [Hashed K] {c : Cache K V} {r : Reclaimer} {loose : List (Entry K V)}
  {step : Step (Cache K V) (Cache.Notice K V) α} {settled : List (K × V)}

/-- A key stays in its tier. -/
theorem locate (h : step.Retains c r) (attends : step.Attends c r loose loose settled)
    (tiered : c.Tiered loose) (key : K) :
    step.state.locate step.reclaimer key = c.locate r key :=
  tiered.locate_congr attends.tiered h.pins (fun _ => h.hard.symm.mem_iff)
    fun _ => h.soft.symm.mem_iff

/-- The same value is found for a key. -/
theorem result_get (h : step.Retains c r) (attends : step.Attends c r loose loose settled)
    (tiered : c.Tiered loose) (issued : r.Issued c.payloads) (key : K) :
    (step.state.get step.reclaimer key).result = (c.get r key).result :=
  tiered.result_get_congr attends.tiered issued attends.issued h.pins
    (fun _ => h.hard.symm.mem_iff) fun _ => h.soft.symm.mem_iff

end Step.Retains

namespace Cache

variable [DecidableEq K] [Hashed K] {c : Cache K V} {r : Reclaimer} {loose : List (Entry K V)}

/-! ## Passes -/

omit [DecidableEq K] [Hashed K] in
/-- A key whose slot in the soft tier, if it has one, is as live as it was, keeps its live entry
there. -/
theorem mem_softEntries_congr {r' : Reclaimer} {key : K}
    (same : ∀ s ∈ c.soft.buckets.slots, s.key.content = some key → s.isStale r' = s.isStale r)
    (value : Option V) :
    (some key, value) ∈ c.soft.entries r' ↔ (some key, value) ∈ c.soft.entries r := by
  rw [Table.mem_entries_iff, Table.mem_entries_iff]
  refine exists_congr fun s => and_congr_right fun hs => and_congr_left fun hcontent => ?_
  rw [same s hs (congrArg Prod.fst hcontent)]

/-! ## Agreement -/

/-- What is answered for a key agrees. -/
structure Agrees (c : Cache K V) (r : Reclaimer) (key : K) : Prop where
  /-- A key is there if it is pinned with a value or in one of the other tiers. -/
  there : c.containsKey r key = ((c.pinnedValue key).isSome || c.hard.containsKey r (some key) ||
    c.soft.containsKey r (some key))
  /-- Just a key that is there is located. -/
  located : (c.locate r key).isSome = true ↔ c.containsKey r key = true
  /-- A key that a value is found for is there. -/
  contained : ∀ value, (c.get r key).result = some value → c.containsKey r key = true
  /-- Just a key with a null in the hard tier is there although no value is found for it. -/
  null : c.containsKey r key = true ∧ (c.get r key).result = none ↔
    (some key, none) ∈ c.hard.entries r

/-- A key is there if any of the tiers has it. -/
theorem containsKey_eq (c : Cache K V) (r : Reclaimer) (key : K) :
    c.containsKey r key = ((c.pinnedValue key).isSome || c.hard.containsKey r (some key) ||
      c.soft.containsKey r (some key)) := by
  unfold containsKey locate
  cases (c.pinnedValue key).isSome <;> cases c.hard.containsKey r (some key) <;>
    cases c.soft.containsKey r (some key) <;> rfl

/-- A key is there just if there is an entry for it that can be read. -/
theorem Tiered.containsKey_iff (h : c.Tiered loose) {key : K} :
    c.containsKey r key = true ↔ ∃ value, (some key, value) ∈ c.legible r := by
  have hpinned : (c.pinnedValue key).isSome = true ↔ ∃ value, (some key, value) ∈ c.pinned := by
    rw [Option.isSome_iff_exists]
    constructor
    · rintro ⟨value, hvalue⟩
      exact ⟨some value, h.mem_pinned_iff.mpr (Option.join_eq_some_iff.mp hvalue)⟩
    · rintro ⟨_ | value, hentry⟩
      · obtain ⟨⟨key', value⟩, -, hentry⟩ := List.mem_filterMap.mp hentry
        obtain ⟨value, -, heq⟩ := Option.map_eq_some_iff.mp hentry
        cases heq
      · exact ⟨value, Option.join_eq_some_iff.mpr (h.mem_pinned_iff.mp hentry)⟩
  have hhard : c.hard.containsKey r (some key) = true ↔
      ∃ value, (some key, value) ∈ c.hard.entries r :=
    h.hard.containsKey_iff fun entry _ => h.hard_excludes entry.1
  have hsoft : c.soft.containsKey r (some key) = true ↔
      ∃ value, (some key, value) ∈ c.soft.entries r :=
    h.soft.containsKey_iff fun entry _ => h.soft_excludes entry.1
  simp only [legible, List.mem_append, exists_or, ← hpinned, ← hhard, ← hsoft, containsKey_eq,
    Bool.or_eq_true]

/-- What a tiered cache answers for a key agrees. -/
theorem Tiered.agrees (h : c.Tiered []) (issued : r.Issued c.payloads) (key : K) :
    c.Agrees r key where
  there := c.containsKey_eq r key
  located := Iff.rfl
  contained value hvalue := h.containsKey_iff.mpr ⟨some value, (h.result_get_iff issued).mp hvalue⟩
  null := by
    rw [h.containsKey_iff]
    constructor
    · rintro ⟨⟨value, hentry⟩, hnone⟩
      -- No value is found, so the entry has none, and only the hard tier has nulls.
      obtain rfl : value = none := by
        rcases value with _ | value
        · rfl
        · exact absurd (((h.result_get_iff issued).mpr hentry).symm.trans hnone) (by simp)
      rw [legible, List.mem_append, List.mem_append] at hentry
      rcases hentry with (hpinned | hhard) | hsoft
      · obtain ⟨pin, -, hpin⟩ := List.mem_filterMap.mp hpinned
        obtain ⟨value, -, heq⟩ := Option.map_eq_some_iff.mp hpin
        cases heq
      · exact hhard
      · exact absurd rfl (h.full _ (c.soft.entries_subset_contents r hsoft))
    · intro hnull
      have hlegible : (some key, none) ∈ c.legible r :=
        List.mem_append_left _ (List.mem_append_right _ hnull)
      refine ⟨⟨none, hlegible⟩, Option.eq_none_iff_forall_ne_some.mpr fun value hvalue => ?_⟩
      -- The key has one entry only.
      have hdistinct := h.distinct
      rw [List.append_nil] at hdistinct
      have hsame := List.inj_on_of_nodup_map hdistinct (legible_subset_holdings c r hlegible)
        (legible_subset_holdings c r ((h.result_get_iff issued).mp hvalue)) rfl
      cases hsame

end Cache

end SoftCache
