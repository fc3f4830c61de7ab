import Mathlib.Data.List.DropRight
import SoftCache.Proofs.Table.Replacing
import SoftCache.Proofs.Table.Tallies

/-!
# What keeping the bound costs

A table over its bound probes for entries and evicts them until it is within its bound. A probe
drops the stale slots that it meets, and no pass is made meanwhile, so each slot that goes was live
or stale all the time (`Table.Coherent.sheds`): a live one is evicted, announced and answered, and a
stale one is announced as expired. The bound is one of slots. So while a stale slot has not been met
it takes up room, and a live entry may have to go in its place (`Table.Spares`).
-/

open scoped List

namespace SoftCache

variable {K V : Type}

/-! ## Announcements -/

/-- The entries that are announced as evicted, in order. -/
def Notice.overflows (notices : List (Notice K V)) : List (Entry K V) :=
  notices.filterMap fun
    | .overflow entry => some entry
    | .keyExpired _ | .valueExpired _ => none

/-- What expires is not announced as evicted. -/
theorem Notice.overflows_cons_expiration (r : Reclaimer) (s : Slot K V)
    (notices : List (Notice K V)) : overflows (s.expiration r :: notices) = overflows notices := by
  rw [Slot.expiration]
  split <;> rfl

/-- Just the slots that depart although they are live are announced as evicted. -/
theorem Notice.overflows_departures (departed : List (Departure K V)) :
    overflows (departed.map (·.notice)) = Departure.evictions departed := by
  induction departed with
  | nil => rfl
  | cons d departed ih =>
    rw [List.map_cons, Departure.notice, Departure.evictions]
    cases hexpired : d.expired with
    | true =>
      rw [if_pos rfl, overflows_cons_expiration, ih, List.filter_cons_of_neg (by simp [hexpired])]
      rfl
    | false =>
      rw [if_neg Bool.false_ne_true, List.filter_cons_of_pos (by simp [hexpired]), List.map_cons]
      exact congrArg _ ih

/-- What work announces as evicted is what departs although it is live. -/
theorem Step.Accounts.overflows {α : Type} {t : Table K V} {r : Reclaimer}
    {step : Step (Table K V) (Notice K V) α} {came left : List (Slot K V)}
    {departed : List (Departure K V)} (h : Step.Accounts t r step came departed left) :
    Notice.overflows step.notices = Departure.evictions departed := by
  rw [h.notices, Notice.overflows_departures]

/-! ## Departures at one moment -/

/-- What is announced of slots depends only on whether their payloads are live. -/
theorem Departure.notices_congr {r r' : Reclaimer} {slots : List (Slot K V)}
    (same : ∀ s ∈ slots, ∀ payload ∈ s.payloads, payload ∈ r'.live ↔ payload ∈ r.live) :
    (Departure.all r' slots).map (·.notice) = (Departure.all r slots).map (·.notice) := by
  rw [Departure.all, Departure.all, List.map_map, List.map_map]
  exact List.map_congr_left fun s hs => Departure.notice_congr (same s hs)

/-- A live slot that departs is announced as evicted. -/
theorem Departure.notice_of_live {r : Reclaimer} {s : Slot K V} (live : s.isStale r = false) :
    (⟨s, r⟩ : Departure K V).notice = .overflow (s.entry r) := by
  rw [notice, expired, live, if_neg Bool.false_ne_true]

/-- A stale slot that departs is announced as expired. -/
theorem Departure.isExpiry_notice {r : Reclaimer} {s : Slot K V} (stale : s.isStale r = true) :
    (⟨s, r⟩ : Departure K V).notice.isExpiry = true := by
  rw [notice, expired, if_pos stale, Slot.isExpiry_expiration]

namespace Table

/-- Dropping from the end of a list begins with what was appended. -/
theorem rdropWhile_append_of_forall {α : Type} {test : α → Bool} (l : List α) {added : List α}
    (h : ∀ a ∈ added, test a = true) : (l ++ added).rdropWhile test = l.rdropWhile test := by
  rw [List.rdropWhile, List.reverse_append, List.dropWhile_append_of_pos (by simpa using h),
    List.rdropWhile]

/-- Work that lets the slots `gone` go until there are no more than `bound` left. -/
structure Sheds (t : Table K V) (r : Reclaimer) (bound : Nat)
    (step : Step (Table K V) (Notice K V) (List (Entry K V))) (gone : List (Slot K V)) : Prop where
  /-- A slot stays or goes. -/
  balance : t.buckets.slots ~ step.state.buckets.slots ++ gone
  /-- What goes is announced as what it was when the work began. -/
  notices : step.notices = (Departure.all r gone).map (·.notice)
  /-- A live slot goes only while there are more slots than the bound: `before` have gone by the
  time of the probe that takes it. -/
  beyond : ∀ first slot last, gone = first ++ slot :: last → slot.isStale r = false →
    ∃ before front, first = before ++ front ∧ (∀ s ∈ front, s.isStale r = true) ∧
      bound + before.length < t.buckets.slots.length

/-- When nothing goes, that is within any bound. -/
theorem Sheds.done (t : Table K V) (r : Reclaimer) (bound : Nat) :
    t.Sheds r bound (.done t r []) [] where
  balance := by rw [List.append_nil]; exact .rfl
  notices := rfl
  beyond first slot last hgone := by simp at hgone

variable {t : Table K V} {r : Reclaimer} {bound : Nat}

/-- When a probe finds nothing, only stale slots go. -/
theorem sheds_of_none (nothing : (t.takeNear r).result = none) :
    t.Sheds r bound ((t.takeNear r).map fun _ => []) (t.nearest r).stale where
  balance := by
    have hbalance := Buckets.slots_probe (r := r)
      (probeOrder (t.cursor.target t.capacity) t.capacity) t.buckets
    have hfound : (t.nearest r).found = none := Option.map_eq_none_iff.mp nothing
    rw [← nearest, hfound, Option.toList_none, List.append_nil] at hbalance
    exact hbalance
  notices := (Departure.map_notice_all (Buckets.isStale_of_mem_stale _ _)).symm
  beyond first slot last hgone hlive := by
    have hmem : slot ∈ (t.nearest r).stale := hgone ▸ List.mem_append_right _ List.mem_cons_self
    have hstale := Buckets.isStale_of_mem_stale _ _ slot hmem
    rw [hlive] at hstale
    cases hstale

/-- An element of a list that is split at another one lies before that, is that one, or lies after
it. -/
theorem split_cases {α : Type} {front rest first last : List α} {a b : α}
    (h : front ++ a :: rest = first ++ b :: last) :
    b ∈ front ∨ (first = front ∧ b = a) ∨
      ∃ middle, first = front ++ a :: middle ∧ rest = middle ++ b :: last := by
  rcases List.append_eq_append_iff.mp h with
    ⟨_ | ⟨c, middle⟩, rfl, hlast⟩ | ⟨_ | ⟨c, middle⟩, rfl, hlast⟩
  · obtain ⟨rfl, -⟩ := List.cons_eq_cons.mp hlast
    exact .inr (.inl ⟨List.append_nil _, rfl⟩)
  · obtain ⟨rfl, rfl⟩ := List.cons_eq_cons.mp hlast
    exact .inr (.inr ⟨middle, rfl, rfl⟩)
  · obtain ⟨rfl, -⟩ := List.cons_eq_cons.mp hlast
    exact .inr (.inl ⟨(List.append_nil _).symm, rfl⟩)
  · obtain ⟨rfl, -⟩ := List.cons_eq_cons.mp hlast
    exact .inl (List.mem_append_right _ List.mem_cons_self)

/-- A live slot that is met after stale ones goes, and then what goes in the rest of the work. -/
theorem Sheds.evicting (issued : r.Issued t.payloads) {slot : Slot K V}
    (more : bound < t.buckets.slots.length) (found : (t.nearest r).found = some slot)
    {rest : Step (Table K V) (Notice K V) (List (Entry K V))} {gone : List (Slot K V)}
    (h : (t.evicting bound r (slot.entry r)).state.Sheds (t.takeNear r).reclaimer bound rest gone) :
    t.Sheds r bound
      ((t.evicting bound r (slot.entry r)).andThen fun _ _ entry => rest.map (entry :: ·))
      ((t.nearest r).stale ++ slot :: gone) := by
  have hstale : ∀ s ∈ (t.nearest r).stale, s.isStale r = true :=
    Buckets.isStale_of_mem_stale _ _
  have hlive : slot.isStale r = false := Buckets.isStale_of_found _ _ found
  have hwork := accounts_takeNear issued
  have hprobe : t.buckets.slots ~
      (t.takeNear r).state.buckets.slots ++ (t.nearest r).stale ++ [slot] := by
    have hbalance := Buckets.slots_probe (r := r)
      (probeOrder (t.cursor.target t.capacity) t.capacity) t.buckets
    rwa [← nearest, found, Option.toList_some] at hbalance
  have hrest : (t.takeNear r).state.buckets.slots ~ rest.state.buckets.slots ++ gone := h.balance
  -- What goes later is as live as it was before the probe.
  have hsame : ∀ s ∈ gone, ∀ payload ∈ s.payloads,
      payload ∈ (t.takeNear r).reclaimer.live ↔ payload ∈ r.live := by
    intro s hs
    have hstays := hrest.symm.subset (List.mem_append_right _ hs)
    have hthere := hprobe.symm.subset
      (List.mem_append_left _ (List.mem_append_left _ hstays))
    exact same_of_mem hwork.handover rfl issued hthere hstays
  constructor
  case balance =>
    classical
    rw [List.perm_iff_count]
    intro s
    have hfirst := hprobe.count_eq s
    have hsecond := hrest.count_eq s
    simp only [List.count_append, List.count_cons, List.count_nil, Step.andThen_state,
      Step.map] at *
    omega
  case notices =>
    show ((t.nearest r).stale.map (·.expiration r) ++ [.overflow (slot.entry r)]) ++
      rest.notices = _
    rw [h.notices, Departure.notices_congr hsame, ← Departure.map_notice_all hstale]
    simp [Departure.all, Departure.notice_of_live hlive]
  case beyond =>
    intro first other last hgone hother
    have hlength := hprobe.length_eq
    simp only [List.length_append, List.length_singleton] at hlength
    rcases split_cases hgone with hmem | ⟨rfl, rfl⟩ | ⟨later, rfl, rfl⟩
    · -- What this probe drops before the slot is stale.
      rw [hstale other hmem] at hother
      cases hother
    · -- It is the slot that this probe takes.
      exact ⟨[], (t.nearest r).stale, rfl, hstale, more⟩
    · -- It is taken by a later probe, when the slots up to this one have gone.
      have hthere : other ∈ later ++ other :: last := List.mem_append_right _ List.mem_cons_self
      obtain ⟨before, front, rfl, hfront, hover⟩ := h.beyond later other last rfl
        ((Slot.isStale_congr (hsame other hthere)).trans hother)
      refine ⟨(t.nearest r).stale ++ slot :: before, front, by simp, fun s hs => ?_, ?_⟩
      · rw [← hfront s hs]
        exact (Slot.isStale_congr (hsame s (List.mem_append_left _
          (List.mem_append_right _ hs)))).symm
      · have hless : bound + before.length < (t.takeNear r).state.buckets.slots.length := hover
        rw [List.length_append, List.length_cons]
        omega

section Hash

variable [Hashed K]

/-- A table that gives entries up lets slots go. -/
theorem Coherent.sheds (h : t.Coherent) (issued : r.Issued t.payloads) (bound : Nat) :
    ∃ gone, t.Sheds r bound (Table.evictDownTo bound t r) gone := by
  -- By induction on the evictions, each of which takes one slot at least.
  induction t, r using evictDownTo.induct bound with
  | case1 t r enough =>
    rw [Table.evictDownTo, if_pos enough]
    exact ⟨[], .done t r bound⟩
  | case2 t r more taken nothing =>
    rw [evictDownTo_of_none more nothing]
    exact ⟨_, sheds_of_none nothing⟩
  | case3 t r more taken entry found ih =>
    rw [evictDownTo_of_some more found]
    obtain ⟨slot, hslot, rfl⟩ := Option.map_eq_some_iff.mp found
    obtain ⟨gone, hgone⟩ := ih ((h.takeNear r).adjust ..) (accounts_takeNear issued).issued
    refine ⟨_, Sheds.evicting issued ?_ hslot hgone⟩
    rw [← h.counted]
    omega

/-! ## The account of evictions -/

/-- The account of work that brings a table with slots over a bound down to it. -/
structure Evicts (t : Table K V) (r : Reclaimer) (bound : Nat)
    (step : Step (Table K V) (Notice K V) (List (Entry K V))) : Prop where
  /-- The bound is kept. -/
  within : step.state.buckets.slots.length ≤ bound
  /-- A live entry stays or is evicted. -/
  entries : t.entries r ~ step.state.entries step.reclaimer ++ step.result
  /-- What is evicted is announced in the same order. -/
  announced : step.result = Notice.overflows step.notices
  /-- No more are evicted than there are slots over the bound. -/
  few : step.result.length ≤ t.buckets.slots.length - bound
  /-- As many are evicted if no slot is stale. -/
  exact : t.stale r = [] → step.result.length = t.buckets.slots.length - bound
  /-- Every slot that goes is announced once, as expired if it is stale and as evicted if not. -/
  gone : ∃ gone, t.buckets.slots ~ step.state.buckets.slots ++ gone ∧
    step.notices =
      gone.map fun s => if s.isStale r then s.expiration r else .overflow (s.entry r)

/-- Work that brings a table down to a bound of slots does not evict more than it has to, as far as
it can know: a stale slot takes up room until it is met. -/
structure Spares (t : Table K V) (r : Reclaimer) (bound : Nat)
    (step : Step (Table K V) (Notice K V) (List (Entry K V))) : Prop where
  /-- What is evicted is announced in the same order. -/
  announced : step.result = Notice.overflows step.notices
  /-- An entry is evicted only while there are more slots than the bound: all that there were, less
  those that were announced before the probe that takes the entry. -/
  beyond : ∀ first entry last, step.notices = first ++ .overflow entry :: last →
    bound + (first.rdropWhile Notice.isExpiry).length < t.buckets.slots.length
  /-- A stale slot costs one live entry its place at most. -/
  cost : step.result.length ≤ (t.entries r).length - bound + (t.stale r).length
  /-- As many live entries are left as have room beside the stale slots. -/
  at_least : min (t.entries r).length (bound - (t.stale r).length) ≤
    (step.state.entries step.reclaimer).length
  /-- No more are left than the bound allows. -/
  at_most : (step.state.entries step.reclaimer).length ≤ min bound (t.entries r).length
  /-- As many are left if no slot is stale. -/
  exact : t.stale r = [] →
    (step.state.entries step.reclaimer).length = min bound (t.entries r).length

omit [Hashed K] in
/-- The live slots that go are at most as many as there are slots over the bound. -/
theorem Sheds.length_evictions_le {step : Step (Table K V) (Notice K V) (List (Entry K V))}
    {gone : List (Slot K V)} (h : t.Sheds r bound step gone) :
    (Departure.evictions (Departure.all r gone)).length ≤ t.buckets.slots.length - bound := by
  have hlength : (Departure.evictions (Departure.all r gone)).length =
      gone.countP fun s => !s.isStale r := by
    rw [Departure.evictions_all_eq, List.length_map, ← List.countP_eq_length_filter]
  -- The last live slot is looked at, and what follows it.
  have hsplit : gone.rdropWhile (·.isStale r) ++ gone.rtakeWhile (·.isStale r) = gone :=
    List.rdropWhile_append_rtakeWhile ..
  have htail : (gone.rtakeWhile (·.isStale r)).countP (fun s => !s.isStale r) = 0 := by
    rw [List.countP_eq_zero]
    intro s hs
    simpa using List.mem_rtakeWhile_imp hs
  rw [hlength, ← hsplit, List.countP_append, htail, Nat.add_zero]
  rcases List.eq_nil_or_concat (gone.rdropWhile (·.isStale r)) with hnil | ⟨first, slot, hlast⟩
  · rw [hnil, List.countP_nil]
    exact Nat.zero_le _
  · have hlive : slot.isStale r = false := by
      have hnot := List.rdropWhile_last_not (·.isStale r) gone (by simp [hlast])
      simpa [hlast] using hnot
    rw [hlast, List.concat_eq_append, List.append_assoc] at hsplit
    obtain ⟨before, front, rfl, hfront, hover⟩ := h.beyond first slot _ hsplit.symm hlive
    have hdead : front.countP (fun s => !s.isStale r) = 0 := by
      rw [List.countP_eq_zero]
      intro s hs
      simp [hfront s hs]
    have hle : before.countP (fun s => !s.isStale r) ≤ before.length := List.countP_le_length
    rw [hlast, List.concat_eq_append, List.countP_append, List.countP_append, hdead,
      List.countP_singleton]
    split <;> omega

/-- A table that gives entries up accounts for them. -/
theorem Coherent.evicts (h : t.Coherent) (issued : r.Issued t.payloads) (bound : Nat) :
    t.Evicts r bound (Table.evictDownTo bound t r) := by
  obtain ⟨gone, hgone⟩ := h.sheds issued bound
  obtain ⟨departed, haccounts, hresult⟩ := accounts_evictDownTo issued bound
  obtain ⟨hcoherent, -, -, -, hcount⟩ := h.evictDownTo bound r
  have hwithin := hcount
  rw [hcoherent.counted] at hwithin
  have hannounced : (Table.evictDownTo bound t r).result =
      Notice.overflows (Table.evictDownTo bound t r).notices := by
    rw [hresult, haccounts.overflows]
  have hanswer : (Table.evictDownTo bound t r).result =
      Departure.evictions (Departure.all r gone) := by
    rw [hannounced, hgone.notices, Notice.overflows_departures]
  -- No pass is made, so what stays is as live as it was.
  have hquiet := haccounts.handover.quiet (.inr (t.next_evictDownTo r bound))
  have hsame : ∀ s ∈ (Table.evictDownTo bound t r).state.buckets.slots,
      s.isStale (Table.evictDownTo bound t r).reclaimer = s.isStale r := fun s hs =>
    Slot.isStale_congr (same_of_mem haccounts.handover hquiet issued
      (hgone.balance.symm.subset (List.mem_append_left _ hs)) hs)
  have hfew := hgone.length_evictions_le
  rw [← hanswer] at hfew
  constructor
  case within => exact hwithin
  case announced => exact hannounced
  case few => exact hfew
  case entries =>
    have hlive := (hgone.balance.filter fun s => !s.isStale r).map Slot.content
    rw [List.filter_append, List.map_append, ← Departure.evictions_all_eq r gone, ← hanswer,
      List.filter_congr fun s hs => congrArg Bool.not (hsame s hs).symm] at hlive
    rwa [entries_eq_map_content, entries_eq_map_content]
  case exact =>
    intro hnone
    have hlength := hgone.balance.length_eq
    have hall : gone.filter (fun s => !s.isStale r) = gone := by
      refine List.filter_eq_self.mpr fun s hs => ?_
      have hthere := hgone.balance.symm.subset (List.mem_append_right _ hs)
      simpa using List.filter_eq_nil_iff.mp hnone s hthere
    have hgonelength : (Table.evictDownTo bound t r).result.length = gone.length := by
      rw [hanswer, Departure.evictions_all_eq, hall, List.length_map]
    rw [List.length_append] at hlength
    omega
  case gone =>
    refine ⟨gone, hgone.balance, ?_⟩
    rw [hgone.notices, Departure.all, List.map_map]
    rfl

/-- A table that gives entries up spares as many as it can. -/
theorem Coherent.spares (h : t.Coherent) (issued : r.Issued t.payloads) (bound : Nat) :
    t.Spares r bound (Table.evictDownTo bound t r) := by
  have hevicts := h.evicts issued bound
  have hentries := hevicts.entries.length_eq
  have hslots := t.length_slots r
  have hleft := (Table.evictDownTo bound t r).state.length_slots
    (Table.evictDownTo bound t r).reclaimer
  have hfew := hevicts.few
  have hwithin := hevicts.within
  rw [List.length_append] at hentries
  constructor
  case announced => exact hevicts.announced
  case beyond =>
    intro first entry last hnotices
    obtain ⟨gone, hgone⟩ := h.sheds issued bound
    rw [hgone.notices, Departure.all, List.map_map, List.map_eq_append_iff] at hnotices
    obtain ⟨early, late, rfl, rfl, hlate⟩ := hnotices
    obtain ⟨slot, rest, rfl, hnotice, rfl⟩ := List.map_eq_cons_iff.mp hlate
    have hlive : slot.isStale r = false := by
      by_contra hstale
      have hexpiry : Notice.isExpiry (.overflow entry : Notice K V) = true := by
        rw [← hnotice]
        exact Departure.isExpiry_notice (by simpa using hstale)
      cases hexpiry
    obtain ⟨before, front, rfl, hfront, hover⟩ := hgone.beyond early slot rest rfl hlive
    have hexpire : ∀ notice ∈ front.map ((·.notice) ∘ fun s => (⟨s, r⟩ : Departure K V)),
        notice.isExpiry = true := by
      intro notice hnotice
      obtain ⟨s, hs, rfl⟩ := List.mem_map.mp hnotice
      exact Departure.isExpiry_notice (hfront s hs)
    have hdrop := (List.rdropWhile_prefix (p := Notice.isExpiry)
      (before.map ((·.notice) ∘ fun s => (⟨s, r⟩ : Departure K V)))).length_le
    rw [List.length_map] at hdrop
    rw [List.map_append, rdropWhile_append_of_forall _ hexpire]
    omega
  case cost => omega
  case at_least => omega
  case at_most => omega
  case exact =>
    intro hnone
    have hexact := hevicts.exact hnone
    rw [hnone, List.length_nil] at hslots
    omega

/-- A table that is given a bound accounts for what it gives up. -/
theorem Coherent.evicts_setBound (h : t.Coherent) (issued : r.Issued t.payloads) (bound : Nat) :
    t.Evicts r bound (t.setBound r (some bound)) :=
  have hevicts := (h.adjust (some bound) t.cursor t.metrics t.sweptEpoch).evicts issued bound
  ⟨hevicts.within, hevicts.entries, hevicts.announced, hevicts.few, hevicts.exact, hevicts.gone⟩

/-- A table that is given a bound spares as many entries as it can. -/
theorem Coherent.spares_setBound (h : t.Coherent) (issued : r.Issued t.payloads) (bound : Nat) :
    t.Spares r bound (t.setBound r (some bound)) :=
  have hspares := (h.adjust (some bound) t.cursor t.metrics t.sweptEpoch).spares issued bound
  ⟨hspares.announced, hspares.beyond, hspares.cost, hspares.at_least, hspares.at_most,
    hspares.exact⟩

/-! ## Putting -/

/-- Puts a slot for a key that has none and lets the table grow: what is done before a table looks
whether it is over its bound. -/
def enter (t : Table K V) (r : Reclaimer) (key : Option K) (value : Option V) :
    Step (Table K V) (Notice K V) Unit :=
  (t.purge r (t.indexOf key)).andThen fun t r _ =>
    (t.addSlot r key value).andThen fun t r _ => t.grow r

/-- What putting an entry without a slot of its key comes to under a bound. -/
structure PutEvicts [DecidableEq K] (t : Table K V) (r : Reclaimer) (key : Option K)
    (value : Option V) (bound : Nat) : Prop where
  /-- The entry is put and answers the value that was replaced. -/
  put : t.put r key value = (t.insert r key value).map fun placement => .ok placement.previous.join
  /-- First the entry comes and then the bound is looked at. -/
  insert : t.insert r key value =
    (t.enter r key value).andThen fun t r _ =>
      (t.enforceBound r).map fun evicted => ⟨none, evicted⟩
  /-- What is over the bound then is accounted for. -/
  evicts : (t.enter r key value).state.Evicts (t.enter r key value).reclaimer bound
    ((t.enter r key value).state.enforceBound (t.enter r key value).reclaimer)
  /-- All that is announced as evicted in the whole work is answered, in the same order. -/
  announced : (t.insert r key value).result.evicted =
    Notice.overflows (t.insert r key value).notices
  /-- That is one entry at most. -/
  one : (t.insert r key value).result.evicted.length ≤ 1

/-- A put that costs no entry its place, and moves neither the buckets nor the cursor. -/
structure PutsQuietly [DecidableEq K] (t : Table K V) (r : Reclaimer) (key : Option K)
    (value : Option V) : Prop where
  /-- Nothing is evicted. -/
  evicted : (t.insert r key value).result.evicted = []
  /-- Nothing is announced as evicted. -/
  announced : Notice.overflows (t.put r key value).notices = []
  /-- There are as many buckets as before. -/
  capacity : (t.put r key value).state.capacity = t.capacity
  /-- The cursor points where it did. -/
  cursor : (t.put r key value).state.cursor = t.cursor

section Put

variable [DecidableEq K] {key : Option K} {value : Option V}

/-- What putting announces as evicted is what it answers as evicted. -/
theorem Coherent.overflows_insert (h : t.Coherent) (issued : r.Issued t.payloads) :
    (t.insert r key value).result.evicted = Notice.overflows (t.insert r key value).notices := by
  obtain ⟨came, departed, left, hinsert⟩ := insertion_insert h.capacity_pos issued key value
  rw [hinsert.evicted, hinsert.accounts.overflows]

/-- An entry without a slot of its key is put into a new one. -/
theorem insert_of_missing (value : Option V) (missing : (t.purge r (t.indexOf key)).state.slotFor?
    (t.purge r (t.indexOf key)).reclaimer key = none) :
    t.insert r key value =
      (t.enter r key value).andThen fun t r _ =>
        (t.enforceBound r).map fun evicted => ⟨none, evicted⟩ := by
  rw [insert_eq, enter]
  simp only [Step.andThen, insertFound, missing, Step.map, List.append_assoc]

/-- A key that is said to have no entry has no slot once its bucket was purged. -/
theorem Coherent.missing_of_containsKey (h : t.Coherent) (issued : r.Issued t.payloads)
    (admits : ∀ entry ∈ t.entries r, t.excludes entry.1 = false)
    (absent : t.containsKey r key = false) :
    (t.purge r (t.indexOf key)).state.slotFor? (t.purge r (t.indexOf key)).reclaimer key =
      none := by
  refine missing_of_stale issued fun slot hthere hkey => ?_
  -- A live slot would be an entry of the key.
  by_contra hlive
  have hentry : (key, slot.value.content) ∈ t.entries r :=
    mem_entries_iff.mpr ⟨slot, hthere, by simpa using hlive, by rw [Slot.content, hkey]⟩
  have hcontains : t.containsKey r key = true := (h.containsKey_iff admits).mpr ⟨_, hentry⟩
  rw [absent] at hcontains
  cases hcontains

omit [DecidableEq K] in
/-- An entry comes in a slot, and only stale slots depart before the table looks at its bound. -/
theorem accounts_enter (pos : 0 < t.capacity) (issued : r.Issued t.payloads) (key : Option K)
    (value : Option V) :
    ∃ came departed, Step.Accounts t r (t.enter r key value) [came] departed [] := by
  have hpurge := accounts_purge issued (t.indexOf key)
  have hadd := accounts_addSlot (by rwa [capacity_purge]) hpurge.issued key value
  obtain ⟨grown, hgrow, -⟩ := accounts_grow hadd.issued
  exact ⟨_, _, hpurge.andThen (hadd.andThen hgrow)⟩

/-- A table that an entry came into is coherent, and has one slot more at most. -/
theorem Coherent.enter (h : t.Coherent) (issued : r.Issued t.payloads)
    (missing : (t.purge r (t.indexOf key)).state.slotFor?
      (t.purge r (t.indexOf key)).reclaimer key = none) (value : Option V) :
    (t.enter r key value).state.Coherent ∧
      (t.enter r key value).reclaimer.Issued (t.enter r key value).state.payloads ∧
      (t.enter r key value).state.bound = t.bound ∧
      (t.enter r key value).state.buckets.slots.length ≤ t.buckets.slots.length + 1 := by
  have hpurged := h.purge r (t.indexOf key)
  have habsent := hpurged.absent_of_missing (clean_purge_indexOf issued key) missing
  obtain ⟨came, departed, hwork⟩ := accounts_enter h.capacity_pos issued key value
  have hlength := hwork.balance.length_eq
  simp only [List.length_append, List.length_singleton, List.length_nil] at hlength
  refine ⟨((hpurged.addSlot _ value habsent).grow _).1, hwork.issued, hwork.bound, ?_⟩
  omega

/-- What is put without a slot of its key under a bound is accounted for. -/
theorem Sound.putEvicts (h : t.Sound) (issued : r.Issued t.payloads)
    (admits : ∀ entry ∈ t.entries r, t.excludes entry.1 = false) (hbound : t.bound = some bound)
    (admitted : t.refusal key value = none) (absent : t.containsKey r key = false) :
    t.PutEvicts r key value bound := by
  have hmissing := h.missing_of_containsKey issued admits absent
  have hinsert := insert_of_missing value hmissing
  obtain ⟨hcoherent, hissued, hkept, hlength⟩ := h.toCoherent.enter issued hmissing value
  have henforce : (t.enter r key value).state.enforceBound (t.enter r key value).reclaimer =
      Table.evictDownTo bound (t.enter r key value).state (t.enter r key value).reclaimer := by
    rw [enforceBound, hkept, hbound]
  have hevicts := hcoherent.evicts hissued bound
  rw [← henforce] at hevicts
  constructor
  case put => rw [Table.put, admitted]
  case insert => exact hinsert
  case evicts => exact hevicts
  case announced => exact h.overflows_insert issued
  case one =>
    -- Before, the table was within its bound.
    have hwithin := h.within_bound bound hbound
    rw [h.counted] at hwithin
    have hfew := hevicts.few
    rw [hinsert]
    show
      ((t.enter r key value).state.enforceBound (t.enter r key value).reclaimer).result.length ≤ 1
    omega

/-- A put is refused and does nothing, or it inserts the entry. -/
theorem put_cases (t : Table K V) (r : Reclaimer) (key : Option K) (value : Option V) :
    (∃ error, t.put r key value = .done t r (.error error)) ∨
      t.put r key value =
        (t.insert r key value).map fun placement => .ok placement.previous.join := by
  unfold put
  cases t.refusal key value with
  | some error => exact .inl ⟨error, rfl⟩
  | none => exact .inr rfl

/-- A put to a key that has an entry evicts nothing. -/
theorem Sound.putsQuietly (h : t.Sound) (issued : r.Issued t.payloads)
    (admits : ∀ entry ∈ t.entries r, t.excludes entry.1 = false)
    (there : t.containsKey r key = true) : t.PutsQuietly r key value := by
  obtain ⟨old, hentry⟩ := (h.containsKey_iff admits).mp there
  obtain ⟨slot, hslot, hlive, hcontent⟩ := mem_entries_iff.mp hentry
  -- The slot outlasts the purge, so it is found.
  obtain ⟨hstays, hkept⟩ := mem_purge_of_live issued (t.indexOf key) hslot hlive
  have hfound : (t.purge r (t.indexOf key)).state.slotFor?
      (t.purge r (t.indexOf key)).reclaimer key = some slot :=
    (h.toCoherent.purge r _).slotFor?_eq_some_iff.mpr
      ⟨hstays, (Slot.isStale_eq_false_iff.mp hkept).1, congrArg Prod.fst hcontent⟩
  have hinsert : t.insert r key value =
      (t.purge r (t.indexOf key)).andThen fun t r _ => t.replaceValue r key slot value := by
    rw [insert_eq]
    simp only [Step.andThen, Table.insertFound, hfound]
  have hevicted : (t.insert r key value).result.evicted = [] := by
    rw [hinsert]
    rfl
  have hstate : (t.insert r key value).state.capacity = t.capacity ∧
      (t.insert r key value).state.cursor = t.cursor := by
    obtain ⟨rest, l, -, -, hset⟩ := buckets_replaceValue _ _ key value hfound
    rw [hinsert, Step.andThen_state]
    refine ⟨?_, rfl⟩
    rw [Table.capacity, hset, Buckets.size_set]
    exact capacity_purge t r _
  have hannounced : Notice.overflows (t.insert r key value).notices = [] :=
    (h.overflows_insert issued).symm.trans hevicted
  -- A put that is refused does nothing at all.
  rcases put_cases t r key value with ⟨error, hput⟩ | hput
  · exact ⟨hevicted, by rw [hput]; rfl, by rw [hput]; rfl, by rw [hput]; rfl⟩
  · constructor
    case evicted => exact hevicted
    case announced => rwa [hput]
    case capacity =>
      rw [hput]
      exact hstate.1
    case cursor =>
      rw [hput]
      exact hstate.2

end Put

end Hash

end Table

end SoftCache
