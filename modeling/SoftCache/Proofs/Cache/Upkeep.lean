import SoftCache.Proofs.Cache.Service

/-!
# The upkeep of caches

Pins, the clearing of a cache, and its self-check. With these every request `Attends` to a tiered
cache (`Cache.attends_perform`), and a tiered cache passes its self-check
(`Cache.Tiered.violation?_eq_none`).
-/

open scoped List

namespace SoftCache.Cache

variable {K V α : Type} [DecidableEq K] [Hashed K] {c : Cache K V} {r : Reclaimer}
  {loose gone : List (Entry K V)}

/-! ## A new cache -/

omit [DecidableEq K] [Hashed K] in
/-- A new cache is an empty one with the options that were checked. -/
theorem create_eq {shared : SharedFractions} {o : Options} {epoch : Nat}
    (made : create shared o epoch = .ok c) :
    ∃ (loadFactor : LoadFactor) (cursor : Cursor) (order : EvictionOrder), c =
      { pins := []
        hard := .empty ⟨.strong, .strong, loadFactor, order⟩ (hardCapacity o.size) (some o.size)
          cursor 0
        soft := .empty ⟨.strong, .reclaimable, loadFactor, order⟩ 16
          (softBound (max o.softSize (-1))) cursor epoch
        size := o.size
        softSize := max o.softSize (-1)
        byUse := o.byUse
        metrics := {} } := by
  simp only [create, bind, Except.bind, pure, Except.pure] at made
  split at made
  · cases made
  · split at made
    · cases made
    · cases made
      exact ⟨_, _, _, rfl⟩

omit [DecidableEq K] in
/-- A new cache is tiered, and there is nothing in it. -/
theorem tiered_create {shared : SharedFractions} {o : Options} {epoch : Nat}
    (made : create shared o epoch = .ok c) :
    c.Tiered [] ∧ c.holdings = [] ∧ c.payloads = [] := by
  obtain ⟨loadFactor, cursor, order, rfl⟩ := create_eq made
  refine ⟨⟨⟨?_, ?_⟩, Table.sound_empty .., Table.sound_empty .., ⟨rfl, rfl⟩, ⟨rfl, rfl⟩, rfl, rfl,
    ?_, ?_⟩, ?_, ?_⟩
  · simp [roster, pinKeys, Table.contents, Table.empty]
  · simp [roster, pinKeys, Table.contents, Table.empty]
  · show -1 ≤ max o.softSize (-1)
    omega
  · simp [Table.contents, Table.empty]
  · simp [holdings, pinned, Table.contents, Table.empty]
  · simp [payloads, Table.payloads, Table.empty]

omit [DecidableEq K] [Hashed K] in
/-- The soft tier of a new cache is as good as swept. -/
theorem sweptEpoch_create {shared : SharedFractions} {o : Options} {epoch : Nat}
    (made : create shared o epoch = .ok c) :
    c.soft.sweptEpoch = epoch := by
  obtain ⟨loadFactor, cursor, order, rfl⟩ := create_eq made
  rfl

/-! ## Pinning -/

/-- Takes the value of a key from its tier. A null in the hard tier leaves the cache. -/
def takeValue (c : Cache K V) (r : Reclaimer) (key : K) :
    Step (Cache K V) (Notice K V) (Option V) :=
  (c.overHard r (·.removeEntry · (some key))).andThen fun
    | c, r, some (some value) => .done c r (some value)
    | c, r, some none => (c.announce r [.removed key none false]).map fun _ => none
    | c, r, none => c.overSoft r (·.remove · (some key))

/-- The value of a key is taken from its tier, and afterwards the key is in none. -/
theorem attends_takeValue (h : c.Tiered []) (issued : r.Issued c.payloads) {key : K}
    (missing : c.pins.find key = none) :
    (c.takeValue r key).Attends c r [] (pinEntry (key, (c.takeValue r key).result)).toList ∧
      some key ∉ (c.takeValue r key).state.roster := by
  have hhard := attends_takeHard h issued key
  rw [List.append_nil] at hhard
  have hpins : some key ∉ c.pinKeys := not_mem_pinKeys (Directory.not_mem_of_find missing)
  have habsent := absent_of_takeHard h issued key
  set taken := c.overHard r (·.removeEntry · (some key)) with htaken
  have hresult : taken.result = (c.hard.removeEntry r (some key)).result := rfl
  rw [← hresult] at hhard habsent
  rw [show c.takeValue r key = taken.andThen _ from rfl]
  rcases htakes : taken.result with _ | _ | value
  · rw [htakes, Option.toList_none, List.map_nil] at hhard
    -- The hard tier does not have the key, so the soft tier is asked.
    have hsoft := attends_takeSoftValue hhard.tiered hhard.issued key
    rw [List.append_nil] at hsoft
    simp only [Step.andThen_result, Step.andThen_state, htakes]
    refine ⟨hhard.andThenOf htakes hsoft, ?_⟩
    have hgone := absent_of_takeSoft hhard.tiered hhard.issued key
    rw [roster, List.mem_append, List.mem_append, not_or, not_or]
    exact ⟨⟨hpins, habsent htakes⟩, hgone⟩
  · rw [htakes] at hhard
    -- A null leaves the cache.
    have hnull := attends_announceAll hhard.tiered hhard.issued
    simp only [Step.andThen_result, Step.andThen_state, htakes]
    exact ⟨hhard.andThenOf htakes (hnull.same rfl rfl rfl), hhard.tiered.not_mem_roster⟩
  · rw [htakes] at hhard
    simp only [Step.andThen_result, Step.andThen_state, htakes]
    exact ⟨hhard.andThenOf htakes (.done hhard.tiered hhard.issued _),
      hhard.tiered.not_mem_roster⟩

/-- A key that is not pinned is pinned with the value that is taken from its tier. -/
theorem pin_eq [Ordered K] {key : K} (missing : c.pins.find key = none) (r : Reclaimer) :
    c.pin r key = (c.takeValue r key).andThen fun c r value =>
      .done { c with pins := Directory.insertBefore (Ordered.before key) key value c.pins } r
        value.isSome := by
  rw [pin, missing]
  rfl

/-- A key is pinned with the value that it has. -/
theorem attends_pin [Ordered K] (h : c.Tiered []) (issued : r.Issued c.payloads) (key : K) :
    (c.pin r key).Attends c r [] [] := by
  cases found : c.pins.find key with
  | some value =>
    rw [pin, found]
    exact .done h issued _
  | none =>
    obtain ⟨htake, habsent⟩ := attends_takeValue h issued found
    have htiered := htake.tiered
    rw [← List.append_nil (pinEntry _).toList] at htake htiered
    rw [← List.append_nil (roster _)] at habsent
    rw [pin_eq found]
    exact htake.andThen _ (attends_pinLoose htiered htake.issued habsent _)

/-- A loose entry is put into the hard tier. What is then over the bound is loose. -/
theorem attends_stow {key : K} {value : Option V} (h : c.Tiered ((some key, value) :: loose))
    (issued : r.Issued c.payloads) :
    (c.overHard r (·.insert · (some key) value)).Attends c r ((some key, value) :: loose)
      ((c.hard.insert r (some key) value).result.evicted ++ loose) := by
  obtain ⟨came, departed, left, hinsertion⟩ :=
    Table.insertion_insert h.hard.capacity_pos issued.left (some key) value
  have hcame : [came].map Slot.content ++ loose = (some key, value) :: loose := by
    rw [List.map_singleton, hinsertion.content]
    rfl
  -- The key is loose, so the hard tier has no slot for it that could leave.
  have hleft : left = [] := hinsertion.left_eq_nil fun hmem =>
    h.not_mem_roster (List.mem_append_left _ (List.mem_append_right _ hmem))
  have hwork := attends_overHard [came] (·.insert · (some key) value) (hcame ▸ h) issued
    hinsertion.accounts
    (Table.upholds_insert h.hard issued.left (some key) value).sound (h.next_insertHard r key value)
  rw [hcame, hleft, ← hinsertion.evicted, List.map_nil, List.append_nil] at hwork
  exact hwork

/-- What settles in the soft tier when a key is unpinned: its value if there is no hard tier, and
otherwise what the hard tier gives up for the value. -/
def settledByUnpin (c : Cache K V) (r : Reclaimer) (key : K) : List (K × V) :=
  match c.pins.find key with
  | some (some value) =>
    if c.size = 0 then c.routed [(some key, some value)]
    else c.routed (c.hard.insert r (some key) (some value)).result.evicted
  | _ => []

/-- A key is unpinned, and its value goes to a tier. -/
theorem attends_unpin (h : c.Tiered []) (issued : r.Issued c.payloads) (key : K) :
    (c.unpin r key).Attends c r [] [] (c.settledByUnpin r key) := by
  rcases found : c.pins.find key with _ | _ | value
  · simp only [unpin, settledByUnpin, found]
    exact .done h issued false
  · have hunpin := attends_unpinLoose h issued found ()
    rw [List.append_nil] at hunpin
    simp only [unpin, settledByUnpin, found]
    exact hunpin.same rfl rfl rfl
  · have hunpin := attends_unpinLoose h issued found ()
    rw [List.append_nil] at hunpin
    simp only [unpin, settledByUnpin, found]
    split
    · -- Without a hard tier the value goes on to the soft tier at once.
      have hroute := attends_routeAll hunpin.tiered hunpin.issued
      exact (hunpin.andThen (fun c r _ => c.routeOverflow r [(some key, some value)])
        hroute).same rfl rfl rfl
    · -- The hard tier takes the value in, and what it gives up for it is routed.
      have hstow := attends_stow hunpin.tiered hunpin.issued
      rw [List.append_nil] at hstow
      have hroute := attends_routeAll hstow.tiered hstow.issued
      have hmoved := hstow.andThen
        (fun c r (placement : Table.Placement K V) =>
          c.routeOverflow r placement.evicted) hroute
      exact (hunpin.andThen (fun c r _ =>
        (c.overHard r (·.insert · (some key) (some value))).andThen fun c r placement =>
          c.routeOverflow r placement.evicted) hmoved).same rfl rfl rfl

/-! ## Clearing -/

/-- The cache with its pins, none of which has a value. -/
def bare (c : Cache K V) : Cache K V :=
  { c with pins := c.pins.map fun ((key, _) : K × Option V) => (key, none) }

omit [DecidableEq K] [Hashed K] in
/-- The values of the pins have no part in the roster. -/
@[simp] theorem roster_bare (c : Cache K V) : c.bare.roster = c.roster := by
  simp [bare, roster, pinKeys, Function.comp_def]

omit [DecidableEq K] [Hashed K] in
/-- A cache without its pinned values still has its pinned keys. -/
@[simp] theorem pinnedKeys_bare (c : Cache K V) : c.bare.pinnedKeys = c.pinnedKeys := by
  simp [bare, pinnedKeys, Function.comp_def]

omit [DecidableEq K] [Hashed K] in
/-- In a bare cache nothing is pinned. -/
@[simp] theorem pinned_bare (c : Cache K V) : c.bare.pinned = [] := by
  simp [bare, pinned, pinEntry]

omit [DecidableEq K] [Hashed K] in
/-- A bare cache holds what its tiers hold. -/
@[simp] theorem holdings_bare (c : Cache K V) :
    c.bare.holdings = c.hard.contents ++ c.soft.contents := by
  rw [holdings, pinned_bare]
  rfl

/-- Takes the values of all pins and announces them. -/
def clearPins (c : Cache K V) (r : Reclaimer) : Step (Cache K V) (Notice K V) Unit :=
  c.bare.announce r (c.pins.filterMap fun ((key, value) : K × Option V) =>
    value.map fun value => Notice.removed key (some value) false)

omit [DecidableEq K] [Hashed K] in
/-- What is announced of the pins are the removals of their entries. -/
theorem notices_clearPins (c : Cache K V) (r : Reclaimer) :
    (c.clearPins r).notices = removals c.pinned := by
  rw [removals, pinned, List.filterMap_filterMap]
  refine List.filterMap_congr fun pin _ => ?_
  obtain ⟨key, _ | value⟩ := pin <;> rfl

/-- The values of all pins leave the cache. The pins stay. -/
theorem attends_clearPins (h : c.Tiered []) (issued : r.Issued c.payloads) :
    (c.clearPins r).Attends c r [] [] := by
  have hholdings : c.holdings ++ [] = c.pinned ++ c.bare.holdings := by
    rw [List.append_nil, holdings_bare, holdings, List.append_assoc]
  have hdistinct := h.distinct
  rw [hholdings] at hdistinct
  refine ⟨Tiered.setPins h ?_ _, .refl issued, rfl, fun s hs => .inl hs, fun hswept => hswept, ?_⟩
  · exact (roster_bare c).symm ▸ h.keyed
  · rw [notices_clearPins, hholdings, ← List.append_nil (c.pinned ++ _), List.append_assoc]
    -- The pins without values have no entries, so only the others are announced.
    refine .removedAll (fun entry hentry => h.named ?_) (by rwa [List.append_nil])
    rw [hholdings]
    exact List.mem_append_left _ hentry

/-- Announces the entries of the hard tier and clears it. -/
def clearHard (c : Cache K V) (r : Reclaimer) : Step (Cache K V) (Notice K V) Unit :=
  (c.announce r (removals (c.hard.entries r))).andThen fun c r _ => c.overHard r Table.clear

/-- The entries of the hard tier leave the cache. -/
theorem attends_clearHard (h : c.Tiered []) (issued : r.Issued c.payloads) :
    (c.clearHard r).Attends c r [] [] := by
  have hclear : (c.overHard r Table.clear).Attends c r [] c.hard.contents := by
    have hwork := attends_overHard [] Table.clear h issued
      (Table.accounts_clear issued.left) (h.hard.clear r) rfl
    simp only [List.append_nil] at hwork
    exact hwork
  have hentries : c.hard.entries r = c.hard.contents := Table.entries_eq_contents (h.hard_live r)
  have hannounce := attends_announceAll hclear.tiered hclear.issued
  -- It makes no difference that the entries are announced before they go.
  refine (hclear.andThen (fun cleared after _ =>
    cleared.announce after (removals c.hard.contents)) hannounce).same ?_ ?_ ?_
  · rw [clearHard, hentries]
    rfl
  · rfl
  · rw [clearHard, hentries]
    exact List.append_nil _

/-- Announces the entries of the soft tier and clears it. -/
def clearSoft (c : Cache K V) (r : Reclaimer) : Step (Cache K V) (Notice K V) Unit :=
  (c.announce r (removals (c.soft.entries r))).andThen fun c r _ => c.overSoft r Table.clear

/-- The entries of the soft tier leave the cache, if none of them is stale. -/
theorem attends_clearSoft (h : c.Tiered []) (issued : r.Issued c.payloads)
    (live : ∀ s ∈ c.soft.buckets.slots, s.isStale r = false) :
    (c.clearSoft r).Attends c r [] [] := by
  have hclear : (c.overSoft r Table.clear).Attends c r [] c.soft.contents := by
    have hwork := attends_overSoft_quiet Table.clear h issued
      (Table.accounts_clear issued.right) (h.soft.clear r) rfl
    rwa [List.append_nil] at hwork
  have hannounce := attends_announceAll hclear.tiered hclear.issued
  refine (hclear.andThen (fun cleared after _ =>
    cleared.announce after (removals c.soft.contents)) hannounce).same ?_ ?_ ?_
  · rw [clearSoft, Table.entries_eq_contents live]
    rfl
  · rfl
  · rw [clearSoft, Table.entries_eq_contents live]
    exact List.append_nil _

omit [DecidableEq K] [Hashed K] in
/-- A cache is cleared tier by tier, and what is stale is swept before the hard tier is cleared. -/
theorem clear_eq (c : Cache K V) (r : Reclaimer) :
    c.clear r =
      (c.clearPins r).andThen fun c r _ => (c.removeExpired r).andThen fun c r _ =>
        (c.clearHard r).andThen fun c r _ => c.clearSoft r := by
  unfold clear clearPins clearHard clearSoft removeExpired bare
  simp only [Step.andThen, List.append_assoc]

omit [DecidableEq K] in
/-- The sweep leaves nothing stale in the soft tier. -/
theorem Tiered.isStale_removeExpired (h : c.Tiered loose) (issued : r.Issued c.payloads) :
    ∀ s ∈ (c.removeExpired r).state.soft.buckets.slots,
      s.isStale (c.removeExpired r).reclaimer = false :=
  Table.isStale_removeExpired issued.right h.hasReclaimableSide_soft

/-- Nor does anything become stale there when the hard tier is cleared, since no epoch begins. -/
theorem Tiered.isStale_clearHard (h : c.Tiered []) (issued : r.Issued c.payloads) :
    let swept := c.removeExpired r
    ∀ s ∈ (swept.state.clearHard swept.reclaimer).state.soft.buckets.slots,
      s.isStale (swept.state.clearHard swept.reclaimer).reclaimer = false := by
  intro swept s hs
  have hsweep := attends_removeExpired h issued
  have hhard := attends_clearHard hsweep.tiered hsweep.issued
  rw [hhard.isStale_soft hsweep.issued rfl rfl s hs]
  exact h.isStale_removeExpired issued s hs

/-- A cache is cleared, and all its entries are announced. -/
theorem attends_clear (h : c.Tiered []) (issued : r.Issued c.payloads) :
    (c.clear r).Attends c r [] [] := by
  have hpins := attends_clearPins h issued
  have hsweep := attends_removeExpired hpins.tiered hpins.issued
  have hhard := attends_clearHard hsweep.tiered hsweep.issued
  have hlive := hpins.tiered.isStale_clearHard hpins.issued
  have hsoft := attends_clearSoft hhard.tiered hhard.issued hlive
  have hcleared := hhard.andThen (fun c r _ => c.clearSoft r) hsoft
  have hswept := hsweep.andThen
    (fun c r _ => (c.clearHard r).andThen fun c r _ => c.clearSoft r) hcleared
  rw [clear_eq]
  exact hpins.andThen (fun c r _ => (c.removeExpired r).andThen fun c r _ =>
    (c.clearHard r).andThen fun c r _ => c.clearSoft r) hswept

/-! ## The self-check -/

/-- What the self-check looks for in both tables and in their sizes is not there. -/
theorem Tiered.violation?_eq (h : c.Tiered loose) (r : Reclaimer) :
    c.violation? r =
      (c.softOverBound? r).andThen fun c r found => .done c r (found <|> c.overlap? r) := by
  have hcount : ¬ c.size < c.hard.count := by
    have := h.hard.within_bound c.size h.hardBound
    omega
  rw [violation?, h.hard.violation?_eq_none, h.soft.violation?_eq_none]
  exact if_neg hcount

/-- The self-check counts the soft tier, unless that has no bound. -/
theorem attends_violation? (h : c.Tiered loose) (issued : r.Issued c.payloads) :
    (c.violation? r).Attends c r loose loose := by
  have hbound : (c.softOverBound? r).Attends c r loose loose := by
    unfold softOverBound?
    split
    · exact .done h issued none
    · exact (attends_softLength h issued).same rfl rfl rfl
  rw [h.violation?_eq r]
  exact hbound.andThen _ (.done hbound.tiered hbound.issued _)

omit [DecidableEq K] in
/-- The soft tier is within its bound. -/
theorem Tiered.softOverBound?_eq_none (h : c.Tiered loose) (r : Reclaimer) :
    (c.softOverBound? r).result = none := by
  unfold softOverBound?
  split
  · rfl
  · next bound hbound =>
    have hsound := h.soft.sweep r
    -- A sweep keeps the bound.
    have hkept : (c.soft.sweep r).state.bound = c.soft.bound := by
      unfold Table.sweep
      split
      · rfl
      · rw [Table.removeExpired]
        split <;> rfl
    have hwithin : (c.soft.sweep r).state.count ≤ bound := by
      refine hsound.within_bound bound ?_
      rw [hkept, h.softBound]
      exact hbound
    exact if_neg (Nat.not_lt.mpr hwithin)

/-- No key is in two tiers. -/
theorem Tiered.overlap?_eq_none (h : c.Tiered loose) (r : Reclaimer) : c.overlap? r = none := by
  obtain ⟨hpinned, hsoft, hapart⟩ := List.nodup_append.mp (List.nodup_append.mp h.keyed.nodup).1
  obtain ⟨-, -, hpins⟩ := List.nodup_append.mp hpinned
  have hpin : ∀ key ∈ c.pinnedKeys,
      ¬ (c.hard.containsKey r (some key) || c.soft.containsKey r (some key)) = true := by
    intro key hkey hfound
    have hmem : some key ∈ c.pinKeys := by
      obtain ⟨pin, hpin, rfl⟩ := List.mem_map.mp hkey
      exact List.mem_map_of_mem (f := fun pin : K × Option V => some pin.1) hpin
    rcases (Bool.or_eq_true _ _).mp hfound with hfound | hfound
    · exact hpins _ hmem _ (Table.mem_keys_of_containsKey hfound) rfl
    · exact hapart _ (List.mem_append_left _ hmem) _ (Table.mem_keys_of_containsKey hfound) rfl
  -- No key of the hard tier is in the soft one either.
  have htier : ∀ entry ∈ tierEntries .hard (c.hard.entries r),
      ¬ c.soft.containsKey r (some entry.2.1) = true := by
    rintro ⟨tier, key, value⟩ hentry hfound
    obtain ⟨entry, hmem, hsome⟩ := List.mem_filterMap.mp hentry
    obtain ⟨_ | key', value'⟩ := entry
    · cases hsome
    · cases hsome
      have hkey : some key ∈ c.hard.contents.map Prod.fst :=
        List.mem_map_of_mem (f := Prod.fst) (c.hard.entries_subset_contents r hmem)
      exact hapart _ (List.mem_append_right _ hkey) _ (Table.mem_keys_of_containsKey hfound) rfl
  rw [overlap?, if_neg, if_neg]
  · simpa using htier
  · simpa using hpin

/-- A tiered cache passes its self-check. -/
theorem Tiered.violation?_eq_none (h : c.Tiered loose) (issued : r.Issued c.payloads) :
    (c.violation? r).result = none := by
  have hbound : (c.softOverBound? r).state.Tiered loose := by
    unfold softOverBound?
    split
    · exact h
    · exact (attends_softLength h issued).tiered
  rw [h.violation?_eq r, Step.andThen_result]
  show ((c.softOverBound? r).result <|> _) = none
  rw [h.softOverBound?_eq_none r, hbound.overlap?_eq_none]
  rfl

/-! ## All requests -/

/-- What settles in the soft tier when a request is carried out, in order. -/
def settledBy (c : Cache K V) (r : Reclaimer) : Request K V → List (K × V)
  | .put key value => c.settledByPut r key value
  | .putAll entries replace => c.settledByPutAll r replace entries
  | .unpin key => c.settledByUnpin r key
  | .setSize size => c.routed (c.hard.setBound r (some size)).result
  | _ => []

variable [Ordered K] [Literal K] [DecidableEq V] [Literal V]

/-- Every request attends to a tiered cache. -/
theorem attends_perform (h : c.Tiered []) (issued : r.Issued c.payloads) (request : Request K V) :
    (c.perform r request).Attends c r [] [] (c.settledBy r request) := by
  cases request with
  | get key => exact (attends_get h issued key).same rfl rfl rfl
  | put key value => exact (attends_put h issued key value).same rfl rfl rfl
  | putAll entries replace => exact (attends_putAll h issued replace entries).same rfl rfl rfl
  | remove key => exact (attends_remove h issued key).same rfl rfl rfl
  | pin key => exact (attends_pin h issued key).same rfl rfl rfl
  | unpin key => exact (attends_unpin h issued key).same rfl rfl rfl
  | setSize size => exact (attends_setSize h issued size).same rfl rfl rfl
  | setSoftSize softSize => exact (attends_setSoftSize h issued softSize).same rfl rfl rfl
  | length => exact (attends_length h issued).same rfl rfl rfl
  | isEmpty => exact (attends_length h issued).same rfl rfl rfl
  | removeExpired => exact (attends_removeExpired h issued).same rfl rfl rfl
  | clear => exact (attends_clear h issued).same rfl rfl rfl
  | check => exact (attends_violation? h issued).same rfl rfl rfl
  | containsKey | containsValue | locate | pinnedKeys | keys | entries | values | size | softSize
  | byUse | metrics | snapshot | literal => exact .done h issued _

/-- A tiered cache answers that its self-check found nothing. -/
theorem Tiered.perform_check (h : c.Tiered []) (issued : r.Issued c.payloads) :
    (c.perform r .check).result = .done := by
  simp only [perform, Step.map, h.violation?_eq_none issued]

end SoftCache.Cache
