import SoftCache.Proofs.Cache.Stillness
import SoftCache.Proofs.PlainCache

/-!
# Whole caches

A cache is `Whole` if none of its payloads has been cleared and it has no null. What attends to a
whole cache in an epoch that lasts leaves it whole, unless a null is announced as added
(`Cache.Whole.attends`), and among the requests only one to put a null does that
(`Cache.Whole.perform`). While nothing expires, the notices balance the entries: what there was and
what is announced as added is there still or is announced as removed (`Step.Attends.balance`).
-/

open scoped List

namespace SoftCache

variable {K V α β : Type}

namespace Cache

/-! ## Notices as a balance -/

/-- The entries that are announced as added, in order. -/
def arrivals (notices : List (Notice K V)) : List (Entry K V) :=
  notices.filterMap fun
    | .added key value => some (some key, value)
    | .removed .. => none

/-- The entries that are announced as removed, in order. -/
def departures (notices : List (Notice K V)) : List (Entry K V) :=
  notices.filterMap fun
    | .removed key value _ => some (some key, value)
    | .added .. => none

/-- What arrives does so in the order of the notices. -/
@[simp] theorem arrivals_append (notices notices' : List (Notice K V)) :
    arrivals (notices ++ notices') = arrivals notices ++ arrivals notices' :=
  List.filterMap_append

/-- What departs does so in the order of the notices. -/
@[simp] theorem departures_append (notices notices' : List (Notice K V)) :
    departures (notices ++ notices') = departures notices ++ departures notices' :=
  List.filterMap_append

namespace Mirror

variable {lost : K → V → Prop} {m m' : Mirror K V} {notices : List (Notice K V)}

/-- What a mirror shows can be in one order or another. -/
theorem Reads.perm_of_keyed {l l' : List (Entry K V)} (h : m.Reads l) (h' : m.Reads l')
    (keyed : Keyed (l.map Prod.fst)) (keyed' : Keyed (l'.map Prod.fst)) : l ~ l' := by
  refine (List.perm_ext_iff_of_nodup keyed.nodup.of_map keyed'.nodup.of_map).mpr fun entry => ?_
  obtain ⟨_ | key, value⟩ := entry
  · exact iff_of_false (fun hmem => keyed.named (List.mem_map_of_mem hmem))
      fun hmem => keyed'.named (List.mem_map_of_mem hmem)
  · exact (h key value).symm.trans (h' key value)

variable [DecidableEq K]

/-- While nothing expires, the entries that a mirror shows and those that are announced as added are
those that it shows afterwards and those that are announced as removed. -/
theorem Replays.balance (h : Replays lost m notices m') {before after : List (Entry K V)}
    (hm : m.Reads before) (hm' : m'.Reads after) (keyed : Keyed (before.map Prod.fst))
    (keyed' : Keyed (after.map Prod.fst))
    (unexpired : ∀ key value, .removed key value true ∉ notices) :
    before ++ arrivals notices ~ after ++ departures notices := by
  induction h generalizing before with
  | nil m => simpa [arrivals, departures] using hm.perm_of_keyed hm' keyed keyed'
  | @added m m' key value rest hnone _ ih =>
    have habsent := hm.eq_none_iff.mp hnone
    have hrest := ih (Follows.reads_enter hm habsent value) hm' (keyed_cons keyed habsent)
      fun key value hmem => unexpired key value (List.mem_cons_of_mem _ hmem)
    exact List.perm_middle.trans hrest
  | @removed m m' key value rest hsome _ ih =>
    obtain ⟨first, last, rfl⟩ := List.append_of_mem ((hm key value).mp hsome)
    have hsplit : first ++ (some key, value) :: last ~ (some key, value) :: (first ++ last) :=
      List.perm_middle
    have hkeyed : (some key :: (first ++ last).map Prod.fst).Nodup :=
      (hsplit.map Prod.fst).nodup_iff.mp keyed.nodup
    obtain ⟨halone, hnodup⟩ := List.nodup_cons.mp hkeyed
    have hnamed : none ∉ (first ++ last).map Prod.fst := fun hmem =>
      keyed.named ((hsplit.map Prod.fst).symm.subset (List.mem_cons_of_mem _ hmem))
    have hrest := ih (Follows.reads_strike (hm.perm hsplit) halone).2 hm' ⟨hnodup, hnamed⟩
      fun key value hmem => unexpired key value (List.mem_cons_of_mem _ hmem)
    exact (hsplit.append_right _).trans
      ((List.perm_cons (some key, value)).mpr hrest |>.trans List.perm_middle.symm)
  | expired => exact absurd List.mem_cons_self (unexpired _ _)

/-- A mirror without nulls has none while no null is announced as added. -/
theorem Replays.ne_null (h : Replays lost m notices m')
    (quiet : ∀ key, .added key none ∉ notices) (full : ∀ key, m key ≠ some none) :
    ∀ key, m' key ≠ some none := by
  induction h with
  | nil m => exact full
  | @added m _ key value _ _ _ ih =>
    have hvalue : value ≠ none := fun hnull => quiet key (hnull ▸ List.mem_cons_self)
    refine ih (fun key hmem => quiet key (List.mem_cons_of_mem _ hmem)) fun other => ?_
    rw [enter, Function.update_apply]
    split
    · exact fun hnull => hvalue (Option.some.inj hnull)
    · exact full other
  | @removed m _ key _ _ _ _ ih | @expired m _ key _ _ _ _ _ ih =>
    refine ih (fun key hmem => quiet key (List.mem_cons_of_mem _ hmem)) fun other => ?_
    rw [strike, Function.update_apply]
    split
    · exact Option.some_ne_none none |>.symm
    · exact full other

end Mirror

end Cache

variable [DecidableEq K] [Hashed K] {c : Cache K V} {r : Reclaimer}
  {loose loose' : List (Entry K V)}

omit [DecidableEq K] in
/-- The entries of a tiered cache have keys, and no two the same. -/
theorem Cache.Tiered.keyed_holdings (h : c.Tiered loose) :
    Keyed ((c.holdings ++ loose).map Prod.fst) := by
  classical
  refine ⟨h.distinct, fun hmem => ?_⟩
  obtain ⟨entry, hentry, hnull⟩ := List.mem_map.mp hmem
  exact h.named hentry hnull

/-- While nothing expires, the entries that there were and those that are announced as added are
those that there are and those that are announced as removed. -/
theorem Step.Attends.balance {settled : List (K × V)} {step : Step (Cache K V) (Cache.Notice K V) α}
    (work : step.Attends c r loose loose' settled) (h : c.Tiered loose)
    (unexpired : ∀ key value, .removed key value true ∉ step.notices) :
    c.holdings ++ loose ++ Cache.arrivals step.notices ~
      step.state.holdings ++ loose' ++ Cache.departures step.notices := by
  obtain ⟨m', hreplays, hreads⟩ := work.follows _ (Cache.Mirror.reads_find h.distinct)
  exact hreplays.balance (Cache.Mirror.reads_find h.distinct) hreads h.keyed_holdings
    work.tiered.keyed_holdings unexpired

namespace Cache

/-! ## Whole caches -/

/-- A cache in which nothing has been cleared and which has no null, whatever the bounds of its
tiers. -/
structure Whole [Hashed K] (c : Cache K V) (r : Reclaimer) (loose : List (Entry K V)) : Prop where
  /-- The cache is tiered. -/
  tiered : c.Tiered loose
  /-- The payloads of the tiers have been issued. -/
  issued : r.Issued c.payloads
  /-- Nothing has been cleared. -/
  live : ∀ payload ∈ c.payloads, payload ∈ r.live
  /-- Every entry has a value. -/
  full : ∀ entry ∈ c.holdings ++ loose, entry.2 ≠ none

namespace Whole

omit [DecidableEq K] in
/-- Nothing in the soft tier is stale. -/
theorem soft_live (h : c.Whole r loose) : ∀ s ∈ c.soft.buckets.slots, s.isStale r = false :=
  fun _ hs => Slot.isStale_eq_false_iff_live.mpr fun payload hp =>
    h.live payload (List.mem_append_right _ (Table.mem_payloads hs hp))

omit [DecidableEq K] in
/-- A reclaimer under which as much is live does as well. -/
theorem under {r' : Reclaimer} (h : c.Whole r loose) (issued : r'.Issued c.payloads)
    (live : ∀ payload ∈ c.payloads, payload ∈ r.live → payload ∈ r'.live) : c.Whole r' loose :=
  ⟨h.tiered, issued, fun payload hp => live payload hp (h.live payload hp), h.full⟩

omit [DecidableEq K] in
/-- All entries of the cache can be read. -/
theorem legible_eq (h : c.Whole r loose) : c.legible r = c.holdings := by
  rw [legible, Table.entries_eq_contents (h.tiered.hard_live r),
    Table.entries_eq_contents h.soft_live, holdings]

/-- A cache stays whole when it is attended to, as long as no null is announced as added. -/
theorem attends {settled : List (K × V)} {step : Step (Cache K V) (Notice K V) α}
    (h : c.Whole r loose) (work : step.Attends c r loose loose' settled)
    (quiet : step.reclaimer.epoch = r.epoch)
    (valued : ∀ key, .added key none ∉ step.notices) :
    step.state.Whole step.reclaimer loose' where
  tiered := work.tiered
  issued := work.issued
  live payload hp := by
    rcases work.handover.origin payload hp with hold | hnew
    · exact work.handover.live_of_live quiet (h.issued.lt_next payload hold)
        (h.live payload hold) fun _ => hp
    · exact work.handover.live_of_new quiet hp hnew
  full entry hentry hnull := by
    obtain ⟨m', hreplays, hreads⟩ := work.follows _ (Mirror.reads_find h.tiered.distinct)
    obtain ⟨_ | key, value⟩ := entry
    · exact work.tiered.named hentry rfl
    · refine hreplays.ne_null valued (fun key hmirror => ?_) key ((hreads key none).mpr ?_)
      · exact h.full _ (Directory.mem_of_find hmirror) rfl
      · cases hnull
        exact hentry

end Whole

/-! ## What is announced as added -/

/-- Work that announces nothing as added. -/
def AddsNothing (step : Step (Cache K V) (Notice K V) α) : Prop :=
  ∀ key value, .added key value ∉ step.notices

namespace AddsNothing

omit [DecidableEq K] [Hashed K]

/-- One piece of work and then another. -/
theorem andThen {first : Step (Cache K V) (Notice K V) α} (h₁ : AddsNothing first)
    (second : Cache K V → Reclaimer → α → Step (Cache K V) (Notice K V) β)
    (h₂ : ∀ answer, AddsNothing (second first.state first.reclaimer answer)) :
    AddsNothing (first.andThen second) := fun key value hmem =>
  (List.mem_append.mp hmem).elim (h₁ key value) (h₂ _ key value)

/-- The answer does not matter. -/
theorem map {step : Step (Cache K V) (Notice K V) α} (f : α → β) (h : AddsNothing step) :
    AddsNothing (step.map f) := h

/-- Nothing is announced. -/
theorem silent {step : Step (Cache K V) (Notice K V) α} (h : step.notices = []) :
    AddsNothing step := fun _ _ hmem => List.not_mem_nil (h ▸ hmem)

/-- The soft tier announces at most that something goes. -/
theorem overSoft (c : Cache K V) (r : Reclaimer)
    (work : Table K V → Reclaimer → Step (Table K V) (SoftCache.Notice K V) α) :
    AddsNothing (c.overSoft r work) := by
  intro key value hmem
  obtain ⟨notice, -, hnotice⟩ := List.mem_filterMap.mp hmem
  exact ofSoft_ne_added notice key value hnotice

/-- Removals are announced. -/
theorem announce (c : Cache K V) (r : Reclaimer) (gone : List (Entry K V)) :
    AddsNothing (c.announce r (removals gone)) := by
  intro key value hmem
  obtain ⟨⟨_ | other, old⟩, -, hnotice⟩ := List.mem_filterMap.mp hmem
  · cases hnotice
  · cases hnotice

end AddsNothing

/-- What the hard tier gives up is not announced as added. -/
theorem addsNothing_routeOverflow (c : Cache K V) (r : Reclaimer) (gone : List (Entry K V)) :
    AddsNothing (c.routeOverflow r gone) := not_added_routeOverflow c r gone

/-- To take a value announces nothing as added. -/
theorem addsNothing_takeValue (c : Cache K V) (r : Reclaimer) (key : K) :
    AddsNothing (c.takeValue r key) := by
  refine (AddsNothing.silent rfl).andThen _ ?_
  rintro (_ | _ | value)
  · exact .overSoft _ _ _
  · exact (AddsNothing.announce _ _ [(some key, none)]).map _
  · exact .silent rfl

/-- To pin a key announces nothing as added. -/
theorem addsNothing_pin [Ordered K] (c : Cache K V) (r : Reclaimer) (key : K) :
    AddsNothing (c.pin r key) := by
  cases found : c.pins.find key with
  | some value =>
    rw [pin, found]
    exact .silent rfl
  | none =>
    rw [pin_eq found]
    exact (addsNothing_takeValue c r key).andThen _ fun _ => .silent rfl

/-- What is unpinned is not announced as added. -/
theorem addsNothing_unpin (c : Cache K V) (r : Reclaimer) (key : K) :
    AddsNothing (c.unpin r key) := by
  unfold unpin
  split
  · exact .silent rfl
  · next value _ =>
    cases value with
    | none => exact .silent rfl
    | some value =>
      dsimp only
      split
      · exact addsNothing_routeOverflow _ r [(some key, some value)]
      · have hhard : AddsNothing ({ c with pins := c.pins.erase key }.overHard r
            (·.insert · (some key) (some value))) := .silent rfl
        exact hhard.andThen (fun c r placement => c.routeOverflow r placement.evicted)
          fun placement => addsNothing_routeOverflow _ _ placement.evicted

/-- A removal announces nothing as added. -/
theorem addsNothing_remove (c : Cache K V) (r : Reclaimer) (key : K) :
    AddsNothing (c.remove r key) := by
  cases found : c.pins.find key with
  | some old =>
    simp only [remove, found]
    intro other value
    cases old <;> simp [Step.map, Step.andThen, Step.done, Cache.announce]
  | none =>
    rw [remove_eq found]
    refine AddsNothing.andThen ?_ _ fun old => ?_
    · refine (AddsNothing.silent rfl).andThen _ ?_
      rintro (_ | value)
      · exact .overSoft _ _ _
      · exact .silent rfl
    · have hannounce := AddsNothing.announce (c.takeEntry r key).state
        (c.takeEntry r key).reclaimer (old.toList.map fun old => (some key, old))
      rwa [← removals_of_option] at hannounce

/-- A smaller hard tier announces nothing as added. -/
theorem addsNothing_setSize (c : Cache K V) (r : Reclaimer) (size : Nat) :
    AddsNothing (c.setSize r size) := by
  have hhard : AddsNothing ({ c with size }.overHard r (·.setBound · (some size))) := .silent rfl
  exact hhard.andThen (fun c r evicted => c.routeOverflow r evicted)
    fun evicted => addsNothing_routeOverflow _ _ evicted

omit [DecidableEq K] [Hashed K] in
/-- To clear a cache announces nothing as added. -/
theorem addsNothing_clear (c : Cache K V) (r : Reclaimer) : AddsNothing (c.clear r) := by
  have hpins : AddsNothing (c.clearPins r) := by
    intro key value hmem
    rw [notices_clearPins] at hmem
    exact AddsNothing.announce c r c.pinned key value hmem
  rw [clear_eq]
  refine hpins.andThen _ fun _ => (AddsNothing.overSoft _ _ _).andThen _ fun _ => ?_
  refine AddsNothing.andThen ?_ _ fun _ => ?_
  · exact (AddsNothing.announce _ _ _).andThen _ fun _ => .silent rfl
  · exact (AddsNothing.announce _ _ _).andThen _ fun _ => .overSoft _ _ _

/-- Of a value that is put just that is announced as added. -/
theorem valued_put (c : Cache K V) (r : Reclaimer) (key : K) (value : V) :
    ∀ other, .added other none ∉ (c.put r key (some value)).notices := by
  intro other hmem
  cases found : c.pins.find key with
  | some old =>
    rw [put, found] at hmem
    cases old <;> simp [Step.map, Cache.announce, pinNotices] at hmem
  | none =>
    by_cases hsize : c.size = 0
    · simp [put, found, hsize, Step.done] at hmem
    · rw [put_eq found hsize, Step.andThen_notices, notices_supersede, removals_of_option,
        List.mem_append, List.mem_append, List.mem_cons] at hmem
      rcases hmem with hsoft | hgone | hadded | hrouted
      · exact AddsNothing.overSoft _ _ _ _ _ hsoft
      · exact AddsNothing.announce c r _ _ _ hgone
      · cases hadded
      · exact addsNothing_routeOverflow _ _ _ _ _ hrouted

/-- Entries that are put together are not announced with null. -/
theorem valued_putAll (c : Cache K V) (r : Reclaimer) (replace : Bool) (entries : List (K × V)) :
    ∀ other, .added other none ∉ (c.putAll r replace entries).notices := by
  induction entries generalizing c r with
  | nil => exact fun _ => List.not_mem_nil
  | cons entry rest ih =>
    intro other
    unfold putAll
    split
    · exact ih c r other
    · rw [Step.andThen_notices, List.mem_append, not_or]
      exact ⟨valued_put c r entry.1 entry.2 other, ih _ _ other⟩

variable [Ordered K] [Literal K] [DecidableEq V] [Literal V]

/-- A null is announced as added only if one is put. -/
theorem Tiered.valued_perform (h : c.Tiered []) (issued : r.Issued c.payloads)
    {request : Request K V} (filled : ∀ key, request ≠ .put key none) :
    ∀ key, .added key none ∉ (c.perform r request).notices := by
  have hreads : ∀ {request : Request K V}, request.reads = true →
      ∀ key, .added key none ∉ (c.perform r request).notices := by
    intro request hreads key hmem
    obtain ⟨_, _, -, -, -, hnotice⟩ := (retains_perform h issued hreads).notices _ hmem
    cases hnotice
  cases request with
  | put key value =>
    cases value with
    | none => exact absurd rfl (filled key)
    | some value => exact valued_put c r key value
  | putAll entries replace => exact valued_putAll c r replace entries
  | remove key => exact fun other => addsNothing_remove c r key other none
  | pin key => exact fun other => addsNothing_pin c r key other none
  | unpin key => exact fun other => addsNothing_unpin c r key other none
  | setSize size => exact fun other => addsNothing_setSize c r size other none
  | setSoftSize softSize =>
    exact fun other hmem => AddsNothing.overSoft _ _ _ other none
      (by simpa [Cache.perform, setSoftSize, Step.map, Step.andThen, Step.done] using hmem)
  | clear => exact fun other => addsNothing_clear c r other none
  | _ => exact hreads rfl

/-- A cache stays whole when it is asked for something, as long as nothing is cleared and no null is
put. -/
theorem Whole.perform (h : c.Whole r []) {request : Request K V}
    (quiet : (c.perform r request).reclaimer.epoch = r.epoch)
    (filled : ∀ key, request ≠ .put key none) :
    (c.perform r request).state.Whole (c.perform r request).reclaimer [] :=
  h.attends (attends_perform h.tiered h.issued request) quiet
    (h.tiered.valued_perform h.issued filled)

omit [DecidableEq K] [Ordered K] [Literal K] [DecidableEq V] [Literal V] in
/-- A new cache is whole. -/
theorem whole_create {shared : SharedFractions} {o : Options} {epoch : Nat}
    (made : create shared o epoch = .ok c)
    (orderly : r.Issued []) : c.Whole r [] := by
  obtain ⟨htiered, hholdings, hpayloads⟩ := tiered_create made
  refine ⟨htiered, hpayloads ▸ orderly, ?_, ?_⟩
  · rw [hpayloads]
    exact List.forall_mem_nil _
  · rw [hholdings]
    exact List.forall_mem_nil _

end Cache

end SoftCache
