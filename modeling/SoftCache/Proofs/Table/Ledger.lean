import SoftCache.Proofs.Custody

/-!
# The ledger of a table

Every slot that leaves a table is accounted for. It *departs* with a notice, as expired if it is
stale and as evicted otherwise, or it *leaves* in silence, because it was asked for. `Step.Accounts`
says of some work which slots came, departed and left, in such a way that what was there before and
what came add up to what is there afterwards, what departed and what left, and that the notices of
the work are those of the departures. Work done piece after piece is accounted for piece after piece
(`Step.Accounts.andThen`), so one statement for each piece gives that of every operation.
-/

open scoped List

namespace SoftCache

variable {K V α β : Type}

/-! ## Departures -/

/-- A slot that departs from its table, and the reclaimer at that moment. -/
structure Departure (K V : Type) where
  /-- The slot. -/
  slot : Slot K V
  /-- The reclaimer when it departs. -/
  reclaimer : Reclaimer

namespace Departure

/-- Whether the slot departs because it is stale. -/
def expired (d : Departure K V) : Bool :=
  d.slot.isStale d.reclaimer

/-- The notice of a departure. -/
def notice (d : Departure K V) : Notice K V :=
  if d.expired then d.slot.expiration d.reclaimer else .overflow (d.slot.entry d.reclaimer)

/-- The entries that depart although they are live. -/
def evictions (departed : List (Departure K V)) : List (Entry K V) :=
  (departed.filter fun d => !d.expired).map fun d => d.slot.entry d.reclaimer

/-- Slots that are live when they depart are evicted, and with what they have. -/
theorem evictions_of_live {departed : List (Departure K V)}
    (live : ∀ d ∈ departed, d.expired = false) :
    evictions departed = departed.map (·.slot.content) := by
  have hall : departed.filter (fun d => !d.expired) = departed :=
    List.filter_eq_self.mpr fun d hd => by simp [live d hd]
  rw [evictions, hall]
  exact List.map_congr_left fun d hd => Slot.entry_eq_content (live d hd)

/-- If nothing is evicted, then all that departs is stale. -/
theorem expired_of_evictions_eq_nil {departed : List (Departure K V)}
    (spared : evictions departed = []) {d : Departure K V} (hd : d ∈ departed) :
    d.expired = true := by
  rw [evictions, List.map_eq_nil_iff, List.filter_eq_nil_iff] at spared
  simpa using spared d hd

/-- Slots that depart at one moment. -/
def all (r : Reclaimer) (slots : List (Slot K V)) : List (Departure K V) :=
  slots.map fun slot => ⟨slot, r⟩

/-- The slots that depart at one moment are those that were given. -/
@[simp] theorem map_slot_all (r : Reclaimer) (slots : List (Slot K V)) :
    (all r slots).map (·.slot) = slots := by
  simp [all, Function.comp_def]

/-- The notices of stale slots. -/
theorem map_notice_all {r : Reclaimer} {slots : List (Slot K V)}
    (h : ∀ s ∈ slots, s.isStale r = true) :
    (all r slots).map (·.notice) = slots.map (·.expiration r) := by
  rw [all, List.map_map]
  refine List.map_congr_left fun s hs => ?_
  simp [notice, expired, h s hs]

/-- What is announced of a departure depends only on whether the payloads of the slot are live. -/
theorem notice_congr {r r' : Reclaimer} {s : Slot K V}
    (same : ∀ payload ∈ s.payloads, payload ∈ r'.live ↔ payload ∈ r.live) :
    (⟨s, r'⟩ : Departure K V).notice = (⟨s, r⟩ : Departure K V).notice := by
  have hkey := fun payload hp => same payload (List.mem_append_left _ hp)
  have hvalue := fun payload hp => same payload (List.mem_append_right _ hp)
  simp only [notice, expired, Slot.isStale_congr same, Slot.expiration, Slot.entry,
    Holder.isCleared_congr hkey, Holder.get_congr hkey, Holder.get_congr hvalue]

/-- What is evicted first comes first. -/
@[simp] theorem evictions_append (first second : List (Departure K V)) :
    evictions (first ++ second) = evictions first ++ evictions second := by
  simp [evictions]

/-- Of slots that depart at one moment the live ones are evicted. -/
theorem evictions_all_eq (r : Reclaimer) (slots : List (Slot K V)) :
    evictions (all r slots) = (slots.filter fun s => !s.isStale r).map Slot.content := by
  rw [evictions, all, List.filter_map, List.map_map]
  refine List.map_congr_left fun s hs => Slot.entry_eq_content ?_
  simpa [expired] using (List.mem_filter.mp hs).2

/-- Stale slots are not evicted. -/
theorem evictions_all {r : Reclaimer} {slots : List (Slot K V)}
    (h : ∀ s ∈ slots, s.isStale r = true) : evictions (all r slots) = [] := by
  have hnone : slots.filter (fun s => !s.isStale r) = [] :=
    List.filter_eq_nil_iff.mpr fun s hs => by simp [h s hs]
  rw [evictions_all_eq, hnone, List.map_nil]

end Departure

/-! ## Accounts -/

/-- The keys and values in a table, whether or not they have been cleared. -/
def Table.contents (t : Table K V) : List (Entry K V) :=
  t.buckets.slots.map Slot.content

/-- The account of some work on a table that began with `t` and `r`: which slots came, which
departed with a notice, and which left in silence. -/
structure Step.Accounts (t : Table K V) (r : Reclaimer) (step : Step (Table K V) (Notice K V) α)
    (came : List (Slot K V)) (departed : List (Departure K V)) (left : List (Slot K V)) : Prop
    extends Step.Tends t r step where
  /-- Slots neither appear nor vanish. -/
  balance : t.buckets.slots ++ came ~ step.state.buckets.slots ++ departed.map (·.slot) ++ left
  /-- The notices are those of the departures. -/
  notices : step.notices = departed.map (·.notice)
  /-- What comes has payloads of the table or new ones. -/
  arrival : ∀ s ∈ came, ∀ payload ∈ s.payloads, payload ∈ t.payloads ∨ r.next ≤ payload
  /-- What comes is held as the table holds its slots. -/
  suits : (∀ s ∈ t.buckets.slots, s.Suits t.config) → ∀ s ∈ came, s.Suits t.config
  /-- What is found cleared has been cleared by a pass. -/
  lost : ∀ d ∈ departed, ∀ payload ∈ d.slot.payloads, payload ∉ d.reclaimer.live →
    r.Lost step.reclaimer payload
  /-- What departs does so while the work is done. -/
  during : ∀ d ∈ departed, r.Precedes d.reclaimer ∧ d.reclaimer.Precedes step.reclaimer

namespace Step.Accounts

variable {t : Table K V} {r : Reclaimer} {came came' : List (Slot K V)}
  {departed departed' : List (Departure K V)} {left left' : List (Slot K V)}

/-- Nothing is done. -/
theorem done (issued : r.Issued t.payloads) (result : α) :
    Step.Accounts t r (Step.done t r result) [] [] [] where
  toTends := .done issued result
  balance := by simp [Step.done]
  notices := rfl
  arrival := by simp
  suits := by simp
  lost := by simp
  during := by simp

/-- Work that only changes the order of slots, what is counted, or where the cursor points. -/
theorem still {step : Step (Table K V) (Notice K V) α} (issued : r.Issued t.payloads)
    (config : step.state.config = t.config) (bound : step.state.bound = t.bound)
    (swept : step.state.sweptEpoch = t.sweptEpoch)
    (slots : t.buckets.slots ~ step.state.buckets.slots) (notices : step.notices = [])
    (reclaimer : step.reclaimer = r) : Step.Accounts t r step [] [] [] where
  toTends := by
    refine .ofHandover ?_ config bound swept
    rw [reclaimer]
    exact (Handover.refl issued).perm .rfl (Table.payloads_perm slots)
  balance := by simpa using slots
  notices := notices
  arrival := by simp
  suits := by simp
  lost := by simp
  during := by simp

/-- What there was and what comes is there still, departs or leaves. -/
theorem contents {step : Step (Table K V) (Notice K V) α}
    (h : Step.Accounts t r step came departed left) :
    t.contents ++ came.map Slot.content ~
      step.state.contents ++ departed.map (·.slot.content) ++ left.map Slot.content := by
  have hcontents := h.balance.map Slot.content
  rw [List.map_append, List.map_append, List.map_append, List.map_map] at hcontents
  exact hcontents

/-- Every slot that there is, or that departs or leaves, was there or came. -/
theorem mem_slots {step : Step (Table K V) (Notice K V) α}
    (h : Step.Accounts t r step came departed left) {s : Slot K V}
    (hs : s ∈ step.state.buckets.slots ++ departed.map (·.slot) ++ left) :
    s ∈ t.buckets.slots ∨ s ∈ came :=
  List.mem_append.mp (h.balance.symm.subset hs)

/-- Every slot that there is, or that departs or leaves, is held as the table holds its slots. -/
theorem suits_of_mem {step : Step (Table K V) (Notice K V) α}
    (h : Step.Accounts t r step came departed left)
    (hsuits : ∀ s ∈ t.buckets.slots, s.Suits t.config) {s : Slot K V}
    (hs : s ∈ step.state.buckets.slots ++ departed.map (·.slot) ++ left) : s.Suits t.config := by
  rcases h.mem_slots hs with hs | hs
  · exact hsuits s hs
  · exact h.suits hsuits s hs

/-- What is left is held as the table holds its slots. -/
theorem suits_state {step : Step (Table K V) (Notice K V) α}
    (h : Step.Accounts t r step came departed left)
    (hsuits : ∀ s ∈ t.buckets.slots, s.Suits t.config) :
    ∀ s ∈ step.state.buckets.slots, s.Suits step.state.config := by
  intro s hs
  rw [h.config]
  exact h.suits_of_mem hsuits (List.mem_append_left _ (List.mem_append_left _ hs))

/-- One piece of work and then another. -/
theorem andThen {first : Step (Table K V) (Notice K V) α}
    {second : Table K V → Reclaimer → α → Step (Table K V) (Notice K V) β}
    (h₁ : Step.Accounts t r first came departed left)
    (h₂ : Step.Accounts first.state first.reclaimer
      (second first.state first.reclaimer first.result) came' departed' left') :
    Step.Accounts t r (first.andThen second) (came ++ came') (departed ++ departed')
      (left ++ left') where
  toTends := h₁.toTends.andThen h₂.toTends
  balance := by
    -- Every slot is counted, over both pieces of work.
    classical
    rw [List.perm_iff_count]
    intro s
    have hcount₁ := h₁.balance.count_eq s
    have hcount₂ := h₂.balance.count_eq s
    simp only [List.count_append, List.map_append, andThen_state] at *
    omega
  notices := by rw [andThen_notices, h₁.notices, h₂.notices, List.map_append]
  arrival s hs payload hp := by
    have hnext := h₁.handover.precedes.next_le
    rcases List.mem_append.mp hs with hs | hs
    · exact h₁.arrival s hs payload hp
    · rcases h₂.arrival s hs payload hp with hthere | hnew
      · exact h₁.handover.origin payload hthere
      · exact .inr (hnext.trans hnew)
  suits hsuits s hs := by
    rcases List.mem_append.mp hs with hs | hs
    · exact h₁.suits hsuits s hs
    · rw [← h₁.config]
      exact h₂.suits (h₁.suits_state hsuits) s hs
  lost d hd payload hp hdead := by
    have hlater := h₂.handover.precedes
    rcases List.mem_append.mp hd with hd | hd
    · exact (h₁.lost d hd payload hp hdead).mono hlater
    · have hlost := h₂.lost d hd payload hp hdead
      -- The slot was there after the first piece, or came in the second.
      have hslot : d.slot ∈ first.state.buckets.slots ∨ d.slot ∈ came' :=
        h₂.mem_slots (List.mem_append_left _ (List.mem_append_right _ (List.mem_map_of_mem hd)))
      rcases hslot with hslot | hslot
      · exact h₁.handover.lost_trans (Table.mem_payloads hslot hp) hlost hlater
      · rcases h₂.arrival d.slot hslot payload hp with hthere | hnew
        · exact h₁.handover.lost_trans hthere hlost hlater
        · refine ⟨hlost.1, .inr ?_⟩
          have hcleared := hlost.2.resolve_left fun hold => absurd hold.1 (by omega)
          exact hcleared.earlier h₁.handover.precedes
  during d hd := by
    rcases List.mem_append.mp hd with hd | hd
    · exact ⟨(h₁.during d hd).1, (h₁.during d hd).2.trans h₂.handover.precedes⟩
    · exact ⟨h₁.handover.precedes.trans (h₂.during d hd).1, (h₂.during d hd).2⟩

/-- The answer does not matter. -/
theorem map {step : Step (Table K V) (Notice K V) α} (f : α → β)
    (h : Step.Accounts t r step came departed left) :
    Step.Accounts t r (step.map f) came departed left :=
  ⟨h.toTends.map f, h.balance, h.notices, h.arrival, h.suits, h.lost, h.during⟩

/-- The account of work in which stale slots depart at once and others leave. -/
theorem ofStale {step : Step (Table K V) (Notice K V) α} {stale left : List (Slot K V)}
    (issued : r.Issued t.payloads) (config : step.state.config = t.config)
    (bound : step.state.bound = t.bound) (swept : step.state.sweptEpoch = t.sweptEpoch)
    (hstale : ∀ s ∈ stale, s.isStale r = true)
    (balance : t.buckets.slots ~ step.state.buckets.slots ++ stale ++ left)
    (notices : step.notices = stale.map (·.expiration r))
    (reclaimer : step.reclaimer = r.dismiss (stale ++ left)) :
    Step.Accounts t r step [] (Departure.all r stale) left where
  toTends := by
    refine .ofHandover ?_ config bound swept
    rw [reclaimer]
    refine Table.handover_dismiss issued ?_
    rwa [← List.append_assoc]
  balance := by
    rw [List.append_nil, Departure.map_slot_all]
    exact balance
  notices := by rw [notices, Departure.map_notice_all hstale]
  arrival := by simp
  suits := by simp
  lost d hd payload hp hdead := by
    obtain ⟨s, hs, rfl⟩ := List.mem_map.mp hd
    have hslot : s ∈ t.buckets.slots :=
      balance.symm.subset (List.mem_append_left _ (List.mem_append_right _ hs))
    have hn := issued.lt_next payload (Table.mem_payloads hslot hp)
    have hnext : step.reclaimer.next = r.next := by
      rw [reclaimer]
      rfl
    -- A stale slot had been cleared before the work began.
    exact ⟨by omega, .inl ⟨hn, hdead⟩⟩
  during d hd := by
    obtain ⟨s, hs, rfl⟩ := List.mem_map.mp hd
    refine ⟨.refl r, ?_⟩
    rw [reclaimer]
    exact r.precedes_release _

end Step.Accounts

namespace Table

/-- A list is what a test accepts and what it does not. -/
theorem perm_filter_append (test : α → Bool) (l : List α) :
    l ~ (l.filter fun a => !test a) ++ l.filter test :=
  (List.perm_append_comm.trans (List.filter_append_perm test l)).symm

section Drops

variable {t : Table K V} {r : Reclaimer}

/-- In a bucket that is purged there is nothing stale. -/
theorem bucket_purge (t : Table K V) (r : Reclaimer) (i : Nat) :
    (t.purge r i).state.buckets.bucket i = (t.buckets.bucket i).filter fun s => !s.isStale r := by
  show (t.buckets.set i _).bucket i = _
  rw [Buckets.bucket_set]
  split
  · rfl
  · next hout =>
    rw [Buckets.bucket_eq_nil (by omega), List.filter_nil]

/-- A purge leaves the number of buckets as it is. -/
@[simp] theorem capacity_purge (t : Table K V) (r : Reclaimer) (i : Nat) :
    (t.purge r i).state.capacity = t.capacity :=
  Buckets.size_set ..

/-- A table that moves has the number of buckets that it moves to. -/
@[simp] theorem capacity_rehash (t : Table K V) (r : Reclaimer) (capacity : Nat) :
    (t.rehash r capacity).state.capacity = capacity :=
  Buckets.size_ofSlots ..

/-- In a table that is purged there is nothing stale. -/
theorem slots_purgeAll (t : Table K V) (r : Reclaimer) :
    (t.purgeAll r).state.buckets.slots = t.buckets.slots.filter fun s => !s.isStale r :=
  Buckets.slots_map_filter _ _

/-- A table that moves leaves its stale slots behind. -/
theorem slots_rehash (t : Table K V) (r : Reclaimer) {capacity : Nat} (h : 0 < capacity) :
    t.buckets.slots ~
      (t.rehash r capacity).state.buckets.slots ++ t.buckets.slots.filter fun s => s.isStale r :=
  (perm_filter_append (Slot.isStale r) _).trans ((Buckets.slots_ofSlots _ h).symm.append_right _)

/-- The probe from where the cursor points. -/
def nearest (t : Table K V) (r : Reclaimer) : Buckets.Probe K V :=
  t.buckets.probe r (probeOrder (t.cursor.target t.capacity) t.capacity)

variable (issued : r.Issued t.payloads)
include issued

/-- From a bucket that is purged its stale slots depart. -/
theorem accounts_purge (i : Nat) :
    Step.Accounts t r (t.purge r i) []
      (Departure.all r ((t.buckets.bucket i).filter fun s => s.isStale r)) [] := by
  have hstale : ∀ s ∈ (t.buckets.bucket i).filter (·.isStale r), s.isStale r = true :=
    fun s hs => (List.mem_filter.mp hs).2
  refine .ofStale issued rfl rfl rfl hstale ?_ rfl ?_
  · rw [List.append_nil]
    exact t.buckets.slots_set_perm i _ (perm_filter_append (Slot.isStale r) _)
  · rw [List.append_nil]
    rfl

/-- From a table that is purged all its stale slots depart. -/
theorem accounts_purgeAll :
    Step.Accounts t r (t.purgeAll r) []
      (Departure.all r (t.buckets.slots.filter fun s => s.isStale r)) [] := by
  refine .ofStale issued rfl rfl rfl (fun s hs => (List.mem_filter.mp hs).2) ?_ rfl ?_
  · rw [List.append_nil, slots_purgeAll]
    exact perm_filter_append (Slot.isStale r) _
  · rw [List.append_nil]
    rfl

/-- What is left in a table that was purged is not stale, even now that the stale slots have been
dismissed. -/
theorem isStale_purgeAll : ∀ s ∈ (t.purgeAll r).state.buckets.slots,
    s.isStale (t.purgeAll r).reclaimer = false := by
  intro s hstays
  have hs := hstays
  rw [slots_purgeAll] at hs
  obtain ⟨hs, hlive⟩ := List.mem_filter.mp hs
  -- A release begins no epoch, so the slots that stay are as live as before.
  have hsame := same_of_mem (accounts_purgeAll issued).handover rfl issued hs hstays
  rw [Slot.isStale_congr hsame]
  simpa using hlive

/-- After a sweep by request nothing in a table with a reclaimable side is stale. -/
theorem isStale_removeExpired (h : t.hasReclaimableSide = true) :
    ∀ s ∈ (t.removeExpired r).state.buckets.slots,
      s.isStale (t.removeExpired r).reclaimer = false := by
  rw [removeExpired, if_pos h]
  exact isStale_purgeAll issued

/-- After a sweep by request every payload that is left is live. -/
theorem accounts_removeExpired :
    ∃ departed, Step.Accounts t r (t.removeExpired r) [] departed [] ∧
      Departure.evictions departed = [] := by
  unfold removeExpired
  split
  · -- The account is that of the purge, but the table remembers the epoch.
    have h := accounts_purgeAll issued
    refine ⟨_, ⟨⟨h.handover, h.config, h.bound, fun _ => ⟨le_rfl, fun _ payload hp => ?_⟩⟩,
      h.balance, h.notices, h.arrival, h.suits, h.lost, h.during⟩, ?_⟩
    · obtain ⟨s, hs, hpayload⟩ := List.mem_flatMap.mp hp
      exact Slot.mem_live (isStale_purgeAll issued s hs) hpayload
    · exact Departure.evictions_all fun s hs => (List.mem_filter.mp hs).2
  · exact ⟨[], .done issued 0, rfl⟩

/-- A sweep lets stale slots depart. -/
theorem accounts_sweep :
    ∃ departed, Step.Accounts t r (t.sweep r) [] departed [] ∧
      Departure.evictions departed = [] := by
  unfold sweep
  split
  · exact ⟨[], .done issued (), rfl⟩
  · obtain ⟨departed, h, hnone⟩ := accounts_removeExpired issued
    exact ⟨departed, h.map _, hnone⟩

/-- Counting sweeps. -/
theorem accounts_length :
    ∃ departed, Step.Accounts t r (t.length r) [] departed [] ∧
      Departure.evictions departed = [] := by
  obtain ⟨departed, h, hnone⟩ := accounts_sweep issued
  refine ⟨departed, ?_, hnone⟩
  rw [length, ← List.append_nil departed]
  exact h.andThen (.done h.issued _)

/-- From a table that moves its stale slots depart. -/
theorem accounts_rehash (capacity : Nat) (h : 0 < capacity) :
    Step.Accounts t r (t.rehash r capacity) []
      (Departure.all r (t.buckets.slots.filter fun s => s.isStale r)) [] := by
  refine .ofStale issued rfl rfl rfl (fun s hs => (List.mem_filter.mp hs).2) ?_ rfl ?_
  · rw [List.append_nil]
    exact t.slots_rehash r h
  · rw [List.append_nil]
    rfl

/-- A probe lets the stale slots on its way depart and takes the entry that it answers. -/
theorem accounts_takeNear :
    Step.Accounts t r (t.takeNear r) [] (Departure.all r (t.nearest r).stale)
      (t.nearest r).found.toList :=
  .ofStale issued rfl rfl rfl (Buckets.isStale_of_mem_stale _ _) (Buckets.slots_probe _ _) rfl rfl

/-- An entry that is taken at random leaves, as in a probe. -/
theorem accounts_removeRandom :
    Step.Accounts t r (t.removeRandom r) [] (Departure.all r (t.nearest r).stale ++ [])
      ((t.nearest r).found.toList ++ []) := by
  have h := accounts_takeNear issued
  refine h.andThen ?_
  split
  · exact .still h.issued rfl rfl rfl .rfl rfl rfl
  · exact .done h.issued _

/-- A table that is cleared lets all its slots go in silence. -/
theorem accounts_clear : Step.Accounts t r (t.clear r) [] [] t.buckets.slots := by
  have hnone : ∀ s ∈ ([] : List (Slot K V)), s.isStale r = true := List.forall_mem_nil _
  refine .ofStale issued rfl rfl rfl hnone ?_ rfl rfl
  show t.buckets.slots ~ (Buckets.empty t.capacity).slots ++ [] ++ t.buckets.slots
  rw [Buckets.slots_empty, List.append_nil, List.nil_append]

end Drops

/-! ## Growth and eviction -/

/-- From a table that grows only stale slots depart. -/
theorem accounts_enlarge {t : Table K V} {r : Reclaimer} (issued : r.Issued t.payloads) :
    ∃ departed, Step.Accounts t r (t.enlarge r) [] departed [] ∧
      Departure.evictions departed = [] := by
  -- By induction on the moves, each of which leaves what is stale behind.
  induction t, r using enlarge_induction with
  | case1 t r moved enough =>
    rw [enlarge_eq, if_pos enough]
    exact ⟨_, accounts_rehash issued _ (by omega),
      Departure.evictions_all fun s hs => (List.mem_filter.mp hs).2⟩
  | case2 t r moved more ih =>
    rw [enlarge_eq, if_neg more]
    have hmoved := accounts_rehash issued (2 * t.capacity + 1) (by omega)
    obtain ⟨departed, h, hnone⟩ := ih hmoved.issued
    refine ⟨_, hmoved.andThen h, ?_⟩
    rw [Departure.evictions_append, hnone,
      Departure.evictions_all fun s hs => (List.mem_filter.mp hs).2]
    rfl

/-- From a table that grows only stale slots depart, and none from one that does not have to. -/
theorem accounts_grow {t : Table K V} {r : Reclaimer} (issued : r.Issued t.payloads) :
    ∃ departed, Step.Accounts t r (t.grow r) [] departed [] ∧
      Departure.evictions departed = [] := by
  rw [grow_eq]
  split
  · exact ⟨[], .done issued (), rfl⟩
  · exact accounts_enlarge issued

/-- One eviction: the entry that a probe answers is announced and counted. -/
def evicting (t : Table K V) (bound : Nat) (r : Reclaimer) (entry : Entry K V) :
    Step (Table K V) (Notice K V) (Entry K V) where
  result := entry
  state := (t.takeNear r).state.tallyEviction
  reclaimer := (t.takeNear r).reclaimer
  notices := (t.takeNear r).notices ++ [.overflow entry]
  log := (t.takeNear r).log ++ [.overBound bound]

/-- The entry that is evicted departs after the stale slots on the way to it. -/
theorem accounts_evicting {t : Table K V} {r : Reclaimer} (issued : r.Issued t.payloads)
    (bound : Nat) {entry : Entry K V} (found : (t.takeNear r).result = some entry) :
    ∃ departed, Step.Accounts t r (t.evicting bound r entry) [] departed [] ∧
      [entry] = Departure.evictions departed := by
  obtain ⟨slot, hslot, rfl⟩ := Option.map_eq_some_iff.mp found
  have hslot : (t.nearest r).found = some slot := hslot
  have h := accounts_takeNear issued
  have hlive : slot.isStale r = false := Buckets.isStale_of_found _ _ hslot
  have hstale : ∀ s ∈ (t.nearest r).stale, s.isStale r = true :=
    Buckets.isStale_of_mem_stale _ _
  rw [hslot] at h
  -- The slot leaves the probe in silence, and departs with the notice of its eviction.
  refine ⟨Departure.all r (t.nearest r).stale ++ [⟨slot, r⟩],
    ⟨.ofHandover h.handover rfl rfl rfl, ?_, ?_, by simp, by simp, ?_, ?_⟩, ?_⟩
  · have hbuckets : (t.evicting bound r (slot.entry r)).state.buckets =
        (t.takeNear r).state.buckets := rfl
    rw [hbuckets]
    simpa using h.balance
  · show _ ++ [_] = _
    rw [h.notices, List.map_append]
    simp [Departure.notice, Departure.expired, hlive]
  · intro d hd payload hp hdead
    rcases List.mem_append.mp hd with hd | hd
    · exact h.lost d hd payload hp hdead
    · cases List.mem_singleton.mp hd
      exact absurd (Slot.mem_live hlive hp) hdead
  · intro d hd
    rcases List.mem_append.mp hd with hd | hd
    · exact h.during d hd
    · cases List.mem_singleton.mp hd
      exact ⟨.refl r, h.handover.precedes⟩
  · rw [Departure.evictions_append, Departure.evictions_all hstale]
    simp [Departure.evictions, Departure.expired, hlive]

/-- An eviction that finds nothing to evict ends there. -/
theorem evictDownTo_of_none {bound : Nat} {t : Table K V} {r : Reclaimer} (more : ¬t.count ≤ bound)
    (nothing : (t.takeNear r).result = none) :
    evictDownTo bound t r = (t.takeNear r).map fun _ => [] := by
  rw [evictDownTo, if_neg more]
  dsimp only
  split
  · rfl
  · next found =>
    rw [nothing] at found
    cases found

/-- An eviction that finds an entry announces it and goes on. -/
theorem evictDownTo_of_some {bound : Nat} {t : Table K V} {r : Reclaimer} {entry : Entry K V}
    (more : ¬t.count ≤ bound) (found : (t.takeNear r).result = some entry) :
    evictDownTo bound t r =
      (t.evicting bound r entry).andThen fun t r entry =>
        (evictDownTo bound t r).map (entry :: ·) := by
  rw [evictDownTo, if_neg more]
  dsimp only
  split
  · next nothing =>
    rw [nothing] at found
    cases found
  · next other hother =>
    rw [found] at hother
    cases hother
    simp [evicting, Step.andThen, Step.map]

/-- What an eviction answers are the entries that depart although they are live. -/
theorem accounts_evictDownTo {t : Table K V} {r : Reclaimer} (issued : r.Issued t.payloads)
    (bound : Nat) :
    ∃ departed, Step.Accounts t r (evictDownTo bound t r) [] departed [] ∧
      (evictDownTo bound t r).result = Departure.evictions departed := by
  -- By induction on the evictions, each of which takes one slot at least.
  induction t, r using evictDownTo.induct bound with
  | case1 t r enough =>
    rw [evictDownTo, if_pos enough]
    exact ⟨[], .done issued [], rfl⟩
  | case2 t r more taken nothing =>
    rw [evictDownTo_of_none more nothing]
    have h := accounts_takeNear issued
    have hfound : (t.nearest r).found = none := Option.map_eq_none_iff.mp nothing
    rw [hfound] at h
    exact ⟨_, h.map _, (Departure.evictions_all (Buckets.isStale_of_mem_stale _ _)).symm⟩
  | case3 t r more taken entry found ih =>
    rw [evictDownTo_of_some more found]
    obtain ⟨departed, h, hresult⟩ := accounts_evicting issued bound found
    obtain ⟨departed', h', hresult'⟩ := ih h.issued
    refine ⟨departed ++ departed', h.andThen (h'.map _), ?_⟩
    rw [Departure.evictions_append, ← hresult, ← hresult']
    rfl

/-- What a table over its bound gives up are the entries that depart although they are live. -/
theorem accounts_enforceBound {t : Table K V} {r : Reclaimer} (issued : r.Issued t.payloads) :
    ∃ departed, Step.Accounts t r (t.enforceBound r) [] departed [] ∧
      (t.enforceBound r).result = Departure.evictions departed := by
  unfold enforceBound
  split
  · exact ⟨[], .done issued [], rfl⟩
  · exact accounts_evictDownTo issued _

end Table

end SoftCache
