import SoftCache.Cache.Request
import SoftCache.Proofs.Cache.Tiers
import SoftCache.Proofs.Directory

/-!
# The service of a cache

Every operation `Attends` to a tiered cache. An entry that is taken from its tier is loose until it
is pinned, put into another tier or announced as removed, so each operation is followed piece by
piece: what one piece leaves loose the next one takes up. What settles in the soft tier is what is
routed to it from the hard one (`routed`), which is computed for each operation that routes any.
-/

open scoped List

namespace SoftCache.Cache

variable {K V α : Type} [DecidableEq K] [Hashed K] {c : Cache K V} {r : Reclaimer}
  {loose gone : List (Entry K V)}

/-! ## Pieces -/

/-- Loose entries can be forgotten. -/
theorem Tiered.forget (h : c.Tiered (gone ++ loose)) : c.Tiered loose where
  keyed := by
    refine h.keyed.of_count_le fun key => ?_
    simp only [List.map_append, List.count_append]
    omega
  hard := h.hard
  soft := h.soft
  hardStrengths := h.hardStrengths
  softStrengths := h.softStrengths
  hardBound := h.hardBound
  softBound := h.softBound
  softSize := h.softSize
  full := h.full

omit [DecidableEq K] in
/-- What the cache counts does not matter. -/
theorem Tiered.tally (h : c.Tiered loose) (count : Metrics → Metrics) :
    (c.tally count).Tiered loose :=
  ⟨h.keyed, h.hard, h.soft, h.hardStrengths, h.softStrengths, h.hardBound, h.softBound, h.softSize,
    h.full⟩

/-- The cache counts. -/
theorem attends_tally (h : c.Tiered loose) (issued : r.Issued c.payloads)
    (count : Metrics → Metrics) (result : α) :
    (Step.done (c.tally count) r result).Attends c r loose loose :=
  .still issued (h.tally count) rfl rfl rfl rfl rfl

/-- Loose entries are announced as removed. -/
theorem attends_announce (gone : List (Entry K V)) (h : c.Tiered (gone ++ loose))
    (issued : r.Issued c.payloads) :
    (c.announce r (removals gone)).Attends c r (gone ++ loose) loose where
  tiered := h.forget.tally fun m => (removals gone).foldl Metrics.hear m
  handover := .refl issued
  registered := rfl
  origin s hs := .inl hs
  swept h := h
  follows := by
    have hperm : c.holdings ++ (gone ++ loose) ~ gone ++ (c.holdings ++ loose) := by
      rw [← List.append_assoc, ← List.append_assoc]
      exact List.perm_append_comm.append_right _
    refine Follows.perm (Follows.removedAll (fun entry hentry => ?_) ?_) hperm .rfl
    · exact h.named (hperm.symm.subset (List.mem_append_left _ hentry))
    · exact (hperm.map Prod.fst).nodup_iff.mp h.distinct

/-- All loose entries are announced as removed. -/
theorem attends_announceAll (h : c.Tiered gone) (issued : r.Issued c.payloads) :
    (c.announce r (removals gone)).Attends c r gone [] := by
  rw [← List.append_nil gone] at h
  have hannounce := attends_announce gone h issued
  rwa [List.append_nil] at hannounce

section Tier

variable (came : List (Slot K V)) {left : List (Slot K V)} {departed : List (Departure K V)}
  (work : Table K V → Reclaimer → Step (Table K V) (SoftCache.Notice K V) α)

/-- The hard tier works and registers nothing. -/
theorem attends_overHard (h : c.Tiered (came.map Slot.content ++ loose))
    (issued : r.Issued c.payloads)
    (accounts : Step.Accounts c.hard r (work c.hard r) came departed left)
    (sound : (work c.hard r).state.Sound) (next : (work c.hard r).reclaimer.next = r.next) :
    (c.overHard r work).Attends c r (came.map Slot.content ++ loose)
      (Departure.evictions departed ++ left.map Slot.content ++ loose) :=
  attends_hard came h issued rfl rfl h.hardBound accounts sound next _

/-- The hard tier works and gives nothing up. -/
theorem attends_overHard_quiet (h : c.Tiered loose) (issued : r.Issued c.payloads)
    (accounts : Step.Accounts c.hard r (work c.hard r) [] departed [])
    (hnone : Departure.evictions departed = []) (sound : (work c.hard r).state.Sound)
    (next : (work c.hard r).reclaimer.next = r.next) :
    (c.overHard r work).Attends c r loose loose := by
  have hwork := attends_overHard [] work h issued accounts sound next
  rwa [hnone] at hwork

/-- The soft tier works, and the values that come settle. -/
theorem attends_overSoft (settled : List (K × V))
    (h : c.Tiered (came.map Slot.content ++ loose)) (issued : r.Issued c.payloads)
    (accounts : Step.Accounts c.soft r (work c.soft r) came departed left)
    (sound : (work c.soft r).state.Sound) (full : ∀ s ∈ came, s.content.2 ≠ none)
    (next : (work c.soft r).reclaimer.next = r.next + settled.length)
    (settles : ∀ s ∈ came, ∃ key value payload, Settled settled r.next payload key value ∧
      s.key.content = some key ∧ s.value = .reclaimable payload value) :
    (c.overSoft r work).Attends c r (came.map Slot.content ++ loose)
      (left.map Slot.content ++ loose) settled :=
  attends_soft came settled h issued rfl rfl rfl h.softBound h.softSize accounts sound full next
    settles _ _

/-- The soft tier works and takes nothing in. -/
theorem attends_overSoft_quiet (h : c.Tiered loose) (issued : r.Issued c.payloads)
    (accounts : Step.Accounts c.soft r (work c.soft r) [] departed left)
    (sound : (work c.soft r).state.Sound) (next : (work c.soft r).reclaimer.next = r.next) :
    (c.overSoft r work).Attends c r loose (left.map Slot.content ++ loose) :=
  attends_overSoft [] work [] h issued accounts sound (List.forall_mem_nil _) next
    (List.forall_mem_nil _)

end Tier

omit [DecidableEq K] in
/-- The hard tier can have any key. -/
theorem Tiered.hard_excludes (h : c.Tiered loose) (key : Option K) :
    c.hard.excludes key = false := by
  rw [Table.excludes, h.hardStrengths.1]
  exact Bool.and_false _

omit [DecidableEq K] in
/-- The soft tier can have any key. -/
theorem Tiered.soft_excludes (h : c.Tiered loose) (key : Option K) :
    c.soft.excludes key = false := by
  rw [Table.excludes, h.softStrengths.1]
  exact Bool.and_false _

omit [DecidableEq K] [Hashed K] in
/-- The slot that a removal takes out has what the removal answers. -/
theorem contents_of_removed {key : Option K} {result : Option (Option V)} {left : List (Slot K V)}
    (h : Table.Removed key (fun _ => true) result left) :
    left.map Slot.content = result.toList.map fun value => (key, value) := by
  rcases h with ⟨rfl, rfl⟩ | ⟨slot, rfl, rfl, -, rfl⟩
  · rfl
  · rfl

/-- An entry is taken from the hard tier. -/
theorem attends_takeHard (h : c.Tiered loose) (issued : r.Issued c.payloads) (key : K) :
    (c.overHard r (·.removeEntry · (some key))).Attends c r loose
      (((c.hard.removeEntry r (some key)).result.toList.map fun value => (some key, value)) ++
        loose) := by
  obtain ⟨departed, left, accounts, hnone, hremoved⟩ :=
    Table.accounts_removeIf issued.left (some key) fun _ => true
  have hwork := attends_overHard [] (·.removeEntry · (some key)) h issued
    accounts (Table.upholds_removeIf h.hard issued.left _ _).sound (c.hard.next_removeIf r _ _)
  rw [hnone, contents_of_removed hremoved] at hwork
  exact hwork

/-- An entry is taken from the soft tier. -/
theorem attends_takeSoft (h : c.Tiered loose) (issued : r.Issued c.payloads) (key : K) :
    (c.overSoft r (·.removeEntry · (some key))).Attends c r loose
      (((c.soft.removeEntry r (some key)).result.toList.map fun value => (some key, value)) ++
        loose) := by
  obtain ⟨departed, left, accounts, -, hremoved⟩ :=
    Table.accounts_removeIf issued.right (some key) fun _ => true
  have hwork := attends_overSoft_quiet (·.removeEntry · (some key)) h issued accounts
    (Table.upholds_removeIf h.soft issued.right _ _).sound (c.soft.next_removeIf r _ _)
  rw [contents_of_removed hremoved] at hwork
  exact hwork

/-- What is taken from the soft tier is not null. -/
theorem ne_null_of_takeSoft (h : c.Tiered loose) (issued : r.Issued c.payloads) (key : K) :
    (c.soft.removeEntry r (some key)).result ≠ some none := by
  obtain ⟨departed, left, accounts, -, hremoved⟩ :=
    Table.accounts_removeIf issued.right (some key) fun _ => true
  intro hnull
  rcases hremoved with ⟨hnone, -⟩ | ⟨slot, rfl, -, -, hsome⟩
  · rw [Table.removeEntry] at hnull
    rw [hnone] at hnull
    cases hnull
  · rw [Table.removeEntry] at hnull
    rw [hsome] at hnull
    -- The slot was in the soft tier, where there is no null.
    have hslot : slot ∈ c.soft.buckets.slots :=
      (accounts.mem_slots (List.mem_append_right _ (List.mem_singleton_self _))).resolve_right
        (by simp)
    exact h.full _ (List.mem_map_of_mem hslot) (Option.some.inj hnull)

/-- What is taken from the soft tier with its value is the entry that a pin with the value has. -/
theorem pinEntry_takeSoft (h : c.Tiered loose) (issued : r.Issued c.payloads) (key : K) :
    (pinEntry (key, (c.soft.remove r (some key)).result)).toList =
      (c.soft.removeEntry r (some key)).result.toList.map fun value => (some key, value) := by
  have hnull := ne_null_of_takeSoft h issued key
  rw [Table.remove]
  show (pinEntry (key, (c.soft.removeEntry r (some key)).result.join)).toList = _
  rcases hresult : (c.soft.removeEntry r (some key)).result with _ | _ | value
  · rfl
  · exact absurd hresult hnull
  · rfl

/-- An entry is taken from the soft tier with its value. -/
theorem attends_takeSoftValue (h : c.Tiered loose) (issued : r.Issued c.payloads) (key : K) :
    (c.overSoft r (·.remove · (some key))).Attends c r loose
      ((pinEntry (key, (c.soft.remove r (some key)).result)).toList ++ loose) := by
  rw [pinEntry_takeSoft h issued key]
  exact (attends_takeSoft h issued key).same rfl rfl rfl

omit [DecidableEq K] in
/-- A loose key is in no tier. -/
theorem Tiered.not_mem_roster {key : Option K} {value : Option V}
    (h : c.Tiered ((key, value) :: loose)) : key ∉ c.roster := fun hkey =>
  (List.nodup_append.mp h.keyed.nodup).2.2 key hkey key List.mem_cons_self rfl

/-! ## Overflow -/

/-- The slot in which a value comes to the soft tier has the payload that is next. -/
theorem Tiered.settled_insert (h : c.Tiered loose) {key : K} {value : V} {came : Slot K V}
    {departed : List (Departure K V)} {left : List (Slot K V)}
    (insertion : Table.Insertion c.soft r (some key) (some value)
      (c.soft.insert r (some key) (some value)) came departed left) :
    came.key.content = some key ∧ came.value = .reclaimable r.next value ∧
      (c.soft.insert r (some key) (some value)).reclaimer.next = r.next + 1 := by
  have hnext : (c.soft.insert r (some key) (some value)).reclaimer.next = r.next + 1 := by
    rw [c.soft.next_insert r h.softStrengths.1, h.softStrengths.2]
    rfl
  have hsuits := (insertion.accounts.suits h.soft.suited came (List.mem_singleton_self _)).2
  rw [h.softStrengths.2] at hsuits
  obtain ⟨payload, hvalue⟩ :=
    Holder.eq_reclaimable hsuits (congrArg Prod.snd insertion.content)
  have hlast := insertion.last payload (by rw [hvalue]; exact List.mem_singleton_self _)
  obtain rfl : payload = r.next := by omega
  exact ⟨congrArg Prod.fst insertion.content, hvalue, hnext⟩

/-- A loose entry with a value is put into the soft tier, and so settles there. -/
theorem attends_settle {key : K} {value : V} (h : c.Tiered ((some key, some value) :: loose))
    (issued : r.Issued c.payloads) :
    (c.overSoft r (·.insert · (some key) (some value))).Attends c r
      ((some key, some value) :: loose) loose [(key, value)] := by
  obtain ⟨came, departed, left, hinsertion⟩ :=
    Table.insertion_insert h.soft.capacity_pos issued.right (some key) (some value)
  have hcame : [came].map Slot.content ++ loose = (some key, some value) :: loose := by
    rw [List.map_singleton, hinsertion.content]
    rfl
  -- The key is loose, so the soft tier has no slot for it that could leave.
  have hleft : left = [] :=
    hinsertion.left_eq_nil fun hmem => h.not_mem_roster (List.mem_append_right _ hmem)
  have hfull : ∀ s ∈ [came], s.content.2 ≠ none := by
    intro s hs
    rw [List.mem_singleton.mp hs, hinsertion.content]
    exact Option.some_ne_none value
  obtain ⟨hkey, hvalue, hnext⟩ := h.settled_insert hinsertion
  have hsettles : ∀ s ∈ [came], ∃ key' value' payload,
      Settled [(key, value)] r.next payload key' value' ∧
        s.key.content = some key' ∧ s.value = .reclaimable payload value' := by
    intro s hs
    rw [List.mem_singleton.mp hs]
    exact ⟨key, value, r.next, ⟨0, rfl, rfl⟩, hkey, hvalue⟩
  have hwork := attends_overSoft [came] (·.insert · (some key) (some value)) [(key, value)]
    (hcame ▸ h) issued hinsertion.accounts
    (Table.upholds_insert h.soft issued.right (some key) (some value)).sound hfull hnext hsettles
  rw [hcame, hleft] at hwork
  exact hwork

/-- Routes one entry that the hard tier gave up. -/
def routeEntry (c : Cache K V) (r : Reclaimer) (key : K) (value : Option V) :
    Step (Cache K V) (Notice K V) Unit :=
  if value.isSome && c.softSize ≠ 0 then
    let counted := c.tally fun m => { m with overflows := m.overflows + 1 }
    (counted.overSoft r (·.insert · (some key) value)).map fun _ => ()
  else c.announce r [.removed key value false]

/-- To route an entry leaves the size of the soft tier. -/
theorem softSize_routeEntry (c : Cache K V) (r : Reclaimer) (key : K) (value : Option V) :
    (c.routeEntry r key value).state.softSize = c.softSize := by
  unfold routeEntry
  split <;> rfl

/-- Entries are routed one after the other. -/
theorem routeOverflow_cons (c : Cache K V) (r : Reclaimer) (key : K) (value : Option V)
    (rest : List (Entry K V)) :
    c.routeOverflow r ((some key, value) :: rest) =
      (c.routeEntry r key value).andThen fun c r _ => c.routeOverflow r rest := rfl

/-- Of entries that the hard tier gave up, those that settle in the soft tier: all that have values,
unless the soft tier takes nothing. -/
def routed (c : Cache K V) (gone : List (Entry K V)) : List (K × V) :=
  if c.softSize = 0 then []
  else gone.filterMap fun
    | (some key, some value) => some (key, value)
    | _ => none

omit [DecidableEq K] [Hashed K] in
/-- Nothing is routed if nothing was given up. -/
@[simp] theorem routed_nil (c : Cache K V) : c.routed [] = [] := by
  unfold routed
  split <;> rfl

omit [DecidableEq K] [Hashed K] in
/-- Each entry is routed on its own. -/
theorem routed_cons (c : Cache K V) (entry : Entry K V) (rest : List (Entry K V)) :
    c.routed (entry :: rest) = c.routed [entry] ++ c.routed rest := by
  unfold routed
  split
  · rfl
  · rw [← List.filterMap_append, List.singleton_append]

/-- An entry that the hard tier gave up goes to the soft tier or out of the cache. -/
theorem attends_routeEntry {key : K} {value : Option V} (h : c.Tiered ((some key, value) :: loose))
    (issued : r.Issued c.payloads) :
    (c.routeEntry r key value).Attends c r ((some key, value) :: loose) loose
      (c.routed [(some key, value)]) := by
  unfold routeEntry
  split
  · next hsettles =>
    rw [Bool.and_eq_true, decide_eq_true_eq] at hsettles
    obtain ⟨value, rfl⟩ := Option.isSome_iff_exists.mp hsettles.1
    have hrouted : c.routed [(some key, some value)] = [(key, value)] := if_neg hsettles.2
    rw [hrouted]
    -- Overflow is counted before the soft tier takes the entry.
    have htally := attends_tally h issued (fun m => { m with overflows := m.overflows + 1 }) ()
    have hsettle := attends_settle htally.tiered htally.issued
    have hboth := htally.andThen
      (fun c r _ => c.overSoft r (·.insert · (some key) (some value))) hsettle
    exact hboth.same rfl rfl rfl
  · next hleaves =>
    have hrouted : c.routed [(some key, value)] = [] := by
      rw [Bool.and_eq_true, decide_eq_true_eq, not_and_or, not_not] at hleaves
      unfold routed
      rcases hleaves with hnull | hnothing
      · obtain rfl : value = none := Option.not_isSome_iff_eq_none.mp hnull
        exact ite_self []
      · exact if_pos hnothing
    rw [hrouted]
    exact attends_announce [(some key, value)] h issued

/-- Entries that the hard tier gave up go to the soft tier or out of the cache. -/
theorem attends_routeOverflow (h : c.Tiered (gone ++ loose)) (issued : r.Issued c.payloads) :
    (c.routeOverflow r gone).Attends c r (gone ++ loose) loose (c.routed gone) := by
  -- By induction on the entries: one is routed while the others stay loose.
  induction gone generalizing c r with
  | nil =>
    rw [routed_nil]
    exact .done h issued ()
  | cons entry rest ih =>
    obtain ⟨_ | key, value⟩ := entry
    · -- An entry without a key is never loose.
      exact absurd rfl (h.named (List.mem_append_right _ List.mem_cons_self))
    · have hfirst := attends_routeEntry h issued
      have hsame : (c.routeEntry r key value).state.routed rest = c.routed rest := by
        rw [routed, softSize_routeEntry, routed]
      rw [routeOverflow_cons, routed_cons, ← hsame]
      exact hfirst.andThen _ (ih hfirst.tiered hfirst.issued)

/-- All loose entries are routed. -/
theorem attends_routeAll (h : c.Tiered gone) (issued : r.Issued c.payloads) :
    (c.routeOverflow r gone).Attends c r gone [] (c.routed gone) := by
  rw [← List.append_nil gone] at h
  have hroute := attends_routeOverflow h issued
  rwa [List.append_nil] at hroute

/-! ## Lookups, counts and sizes -/

/-- A lookup only lets slots of the soft tier expire. -/
theorem attends_get (h : c.Tiered loose) (issued : r.Issued c.payloads) (key : K) :
    (c.get r key).Attends c r loose loose := by
  unfold get
  split
  · exact attends_tally h issued _ _
  · obtain ⟨departed, accounts, hnone⟩ := Table.accounts_lookup issued.left (some key)
    have hhard := attends_overHard_quiet (·.get · (some key)) h issued
      (accounts.map Option.join) hnone (Table.upholds_lookup h.hard issued.left _).sound
      (c.hard.next_lookup r _)
    refine hhard.andThen _ ?_
    split
    · exact attends_tally hhard.tiered hhard.issued _ _
    · -- A key that the hard tier does not have is sought in the soft tier.
      obtain ⟨departed, accounts, -⟩ := Table.accounts_lookup hhard.issued.right (some key)
      have hsoft := attends_overSoft_quiet (·.get · (some key)) hhard.tiered hhard.issued
        (accounts.map Option.join)
        (Table.upholds_lookup hhard.tiered.soft hhard.issued.right _).sound
        (Table.next_lookup _ _ _)
      refine hsoft.andThen _ ?_
      split
      · exact attends_tally hsoft.tiered hsoft.issued _ _
      · exact attends_tally hsoft.tiered hsoft.issued _ _

/-- Counting the soft tier lets slots of it expire. -/
theorem attends_softLength (h : c.Tiered loose) (issued : r.Issued c.payloads) :
    (c.overSoft r Table.length).Attends c r loose loose := by
  obtain ⟨departed, accounts, -⟩ := Table.accounts_length issued.right
  exact attends_overSoft_quiet _ h issued accounts (Table.upholds_length h.soft issued.right).sound
    (c.soft.next_length r)

/-- To count a cache attends to it: only stale slots of the soft tier go. -/
theorem attends_length (h : c.Tiered loose) (issued : r.Issued c.payloads) :
    (c.length r).Attends c r loose loose := by
  obtain ⟨departed, accounts, hnone⟩ := Table.accounts_length issued.left
  have hhard := attends_overHard_quiet _ h issued accounts hnone
    (Table.upholds_length h.hard issued.left).sound (c.hard.next_length r)
  have hsoft := attends_softLength hhard.tiered hhard.issued
  exact hhard.andThen _ (hsoft.andThen _ (.done hsoft.tiered hsoft.issued _))

/-- A sweep attends to the cache: only stale slots of the soft tier go. -/
theorem attends_removeExpired (h : c.Tiered loose) (issued : r.Issued c.payloads) :
    (c.removeExpired r).Attends c r loose loose := by
  obtain ⟨departed, accounts, -⟩ := Table.accounts_removeExpired issued.right
  exact attends_overSoft_quiet _ h issued accounts
    (Table.upholds_removeExpired h.soft issued.right).sound (c.soft.next_removeExpired r)

/-- What is over a new size of the hard tier is loose. -/
theorem attends_boundHard (h : c.Tiered loose) (issued : r.Issued c.payloads) (size : Nat) :
    ({ c with size }.overHard r (·.setBound · (some size))).Attends c r loose
      ((c.hard.setBound r (some size)).result ++ loose) := by
  obtain ⟨departed, accounts, hevicted⟩ :=
    Table.accounts_enforceBound (t := { c.hard with bound := some size }) issued.left
  have hhard := attends_hard [] (t := { c.hard with bound := some size }) h issued
    rfl rfl rfl accounts (h.hard.setBound r (some size)) (c.hard.next_setBound r (some size))
    (c.hard.setBound r (some size)).log
  rw [← hevicted, List.map_nil, List.append_nil] at hhard
  exact hhard

/-- What is over a new size of the hard tier overflows. -/
theorem attends_setSize (h : c.Tiered loose) (issued : r.Issued c.payloads) (size : Nat) :
    (c.setSize r size).Attends c r loose loose
      (c.routed (c.hard.setBound r (some size)).result) := by
  have hhard := attends_boundHard h issued size
  have hroute := attends_routeOverflow hhard.tiered hhard.issued
  exact (hhard.andThen (fun c r evicted => c.routeOverflow r evicted) hroute).same rfl rfl rfl

/-- What is over a new size of the soft tier leaves the cache. -/
theorem attends_setSoftSize (h : c.Tiered loose) (issued : r.Issued c.payloads) (softSize : Int) :
    (c.setSoftSize r softSize).Attends c r loose loose := by
  obtain ⟨departed, accounts, -⟩ := Table.accounts_enforceBound
    (t := { c.soft with bound := softBound (max softSize (-1)) }) issued.right
  have hsoft := attends_soft [] []
    (t := { c.soft with bound := softBound (max softSize (-1)) }) h issued rfl rfl rfl rfl
    (by omega) accounts (h.soft.setBound r _) (List.forall_mem_nil _)
    (c.soft.next_setBound r _) (List.forall_mem_nil _)
    ((c.overSoft r (·.setBound · (softBound (max softSize (-1))))).state.metrics) []
  exact hsoft.same rfl rfl (List.append_nil _)

/-! ## Pins -/

section Pins

omit [DecidableEq K]

/-- The pins of a cache have changed. -/
theorem Tiered.setPins (h : c.Tiered loose) {loose' : List (Entry K V)}
    {pins : Directory K (Option V)}
    (keyed : Keyed (({ c with pins } : Cache K V).roster ++ loose'.map Prod.fst))
    (metrics : Metrics) : Tiered { c with pins, metrics } loose' :=
  ⟨keyed, h.hard, h.soft, h.hardStrengths, h.softStrengths, h.hardBound, h.softBound, h.softSize,
    h.full⟩

end Pins

omit [DecidableEq K] [Hashed K] in
/-- The pinned entries are that of one pin, if it has one, and those of the others. -/
theorem pinned_perm {pin : K × Option V} {rest : Directory K (Option V)}
    (pins : c.pins ~ pin :: rest) :
    c.pinned ~ (pinEntry pin).toList ++ rest.filterMap pinEntry := by
  refine (pins.filterMap pinEntry).trans (.of_eq ?_)
  rw [List.filterMap_cons]
  cases pinEntry pin <;> rfl

/-- A pin and the rest of a cache: its entry, if it has one, is alone with its key. -/
theorem Tiered.pin_apart (h : c.Tiered loose) {pin : K × Option V} {rest : Directory K (Option V)}
    (pins : c.pins ~ pin :: rest) :
    c.holdings ++ loose ~
        (pinEntry pin).toList ++ (({ c with pins := rest } : Cache K V).holdings ++ loose) ∧
      some pin.1 ∉ (({ c with pins := rest } : Cache K V).holdings ++ loose).map Prod.fst := by
  constructor
  · classical
    rw [List.perm_iff_count]
    intro entry
    have hcount := (pinned_perm pins).count_eq entry
    simp only [holdings, pinned, List.count_append] at hcount ⊢
    omega
  · -- The key is pinned once, so neither the other pins nor the tiers have it.
    have hkeys := (pins.map fun pin => some pin.1).count_eq (some pin.1)
    have hone := List.nodup_iff_count_le_one.mp h.keyed.nodup (some pin.1)
    have hle := count_holdings_le ({ c with pins := rest } : Cache K V) (some pin.1)
    rw [List.map_cons, List.count_cons_self] at hkeys
    rw [← List.count_eq_zero, List.map_append, List.count_append]
    simp only [roster, pinKeys, List.count_append] at hone hle
    omega

omit [DecidableEq K] in
/-- No key is pinned twice. -/
theorem Tiered.pins_distinct (h : c.Tiered loose) : (c.pins.map Prod.fst).Nodup := by
  have hroster := (List.nodup_append.mp h.keyed.nodup).1
  have hpins := (List.nodup_append.mp (List.nodup_append.mp hroster).1).1
  refine List.Nodup.of_map some ?_
  rw [List.map_map]
  exact hpins

/-- A pinned key is given another value, or none. -/
theorem attends_repin (h : c.Tiered loose) (issued : r.Issued c.payloads) {key : K}
    {old : Option V} (found : c.pins.find key = some old) (value : Option V) :
    ({ c with pins := c.pins.modify key value }.announce r (pinNotices key old value)).Attends
      c r loose loose := by
  obtain ⟨before, after, hpins, hmodify, -⟩ := Directory.split_of_find h.pins_distinct found
  have hbefore : c.pins ~ (key, old) :: (before ++ after) := by
    rw [hpins]
    exact List.perm_middle
  have hafter : c.pins.modify key value ~ (key, value) :: (before ++ after) := by
    rw [hmodify]
    exact List.perm_middle
  have htiered : Tiered { c with pins := c.pins.modify key value } loose := by
    refine h.setPins (h.keyed.of_count_le fun other => le_of_eq ?_) c.metrics
    have hcount := ((hafter.map fun pin => some pin.1).trans
      (hbefore.map fun pin => some pin.1).symm).count_eq other
    simp only [roster, pinKeys, List.count_append] at hcount ⊢
    omega
  obtain ⟨hold, halone⟩ := h.pin_apart hbefore
  obtain ⟨hnew, -⟩ := htiered.pin_apart hafter
  refine ⟨htiered.tally fun m => (pinNotices key old value).foldl Metrics.hear m, .refl issued,
    rfl, fun s hs => .inl hs, fun hswept => hswept, ?_⟩
  -- The old value is announced as removed, if there was one, and then the new one as added.
  have hgone : Follows (c.Lost [] r r)
      ((pinEntry (key, old)).toList ++
        (({ c with pins := before ++ after } : Cache K V).holdings ++ loose))
      (if old.isSome then [.removed key old false] else [])
      (({ c with pins := before ++ after } : Cache K V).holdings ++ loose) := by
    cases old with
    | none => exact .silent .rfl
    | some old => exact .removed halone
  have hcome : Follows (c.Lost [] r r)
      (({ c with pins := before ++ after } : Cache K V).holdings ++ loose)
      (if value.isSome then [.added key value] else [])
      ((pinEntry (key, value)).toList ++
        (({ c with pins := before ++ after } : Cache K V).holdings ++ loose)) := by
    cases value with
    | none => exact .silent .rfl
    | some value => exact .added halone
  exact (hgone.trans hcome).perm hold hnew.symm

/-- A key is pinned with the value that was loose, if one was. -/
theorem attends_pinLoose [Ordered K] {key : K} {value : Option V}
    (h : c.Tiered ((pinEntry (key, value)).toList ++ loose)) (issued : r.Issued c.payloads)
    (absent : some key ∉ c.roster ++ loose.map Prod.fst) (result : α) :
    (Step.done
      { c with pins := Directory.insertBefore (Ordered.before key) key value c.pins } r
      result).Attends c r ((pinEntry (key, value)).toList ++ loose) loose := by
  have hpins := Directory.insertBefore_perm (Ordered.before key) key value c.pins
  have htiered : Tiered
      { c with pins := Directory.insertBefore (Ordered.before key) key value c.pins } loose := by
    refine Tiered.setPins h ⟨?_, ?_⟩ c.metrics
    · rw [List.nodup_iff_count_le_one]
      intro other
      have hcount := (hpins.map fun pin => some pin.1).count_eq other
      have hone := List.nodup_iff_count_le_one.mp h.forget.keyed.nodup other
      rw [List.map_cons, List.count_cons] at hcount
      simp only [roster, pinKeys, List.count_append] at hcount hone ⊢
      split at hcount
      -- The key that comes was nowhere.
      · next hother =>
        have hzero := List.count_eq_zero_of_not_mem absent
        rw [beq_iff_eq.mp hother] at hzero
        simp only [roster, pinKeys, List.count_append] at hzero
        omega
      · omega
    · intro hnone
      have hcount := (hpins.map fun pin => some pin.1).count_eq none
      have hpos := List.count_pos_iff.mpr hnone
      have hzero := List.count_eq_zero_of_not_mem h.forget.keyed.named
      rw [List.map_cons, List.count_cons_of_ne (by simp)] at hcount
      simp only [roster, pinKeys, List.count_append] at hcount hpos hzero
      omega
  obtain ⟨hnew, -⟩ := htiered.pin_apart hpins
  refine ⟨htiered, .refl issued, rfl, fun s hs => .inl hs, fun hswept => hswept, .silent ?_⟩
  refine .trans ?_ hnew.symm
  rw [← List.append_assoc, ← List.append_assoc]
  exact List.perm_append_comm.append_right _

/-- A key is unpinned. Its value is loose, if it had one. -/
theorem attends_unpinLoose (h : c.Tiered loose) (issued : r.Issued c.payloads) {key : K}
    {value : Option V} (found : c.pins.find key = some value) (result : α) :
    (Step.done { c with pins := c.pins.erase key } r result).Attends c r loose
      ((pinEntry (key, value)).toList ++ loose) := by
  obtain ⟨before, after, hpins, -, herase⟩ := Directory.split_of_find h.pins_distinct found
  have hbefore : c.pins ~ (key, value) :: c.pins.erase key := by
    rw [hpins]
    rw [hpins] at herase
    rw [herase]
    exact List.perm_middle
  obtain ⟨hold, -⟩ := h.pin_apart hbefore
  refine ⟨?_, .refl issued, rfl, fun s hs => .inl hs, fun hswept => hswept, .silent ?_⟩
  · refine Tiered.setPins h (h.keyed.of_count_le fun other => ?_) c.metrics
    have hcount := (hbefore.map fun pin => some pin.1).count_eq other
    -- A pin without a value leaves nothing loose.
    have hentry : ((pinEntry (key, value)).toList.map Prod.fst).count other ≤
        [some key].count other := by
      cases value with
      | none => exact Nat.zero_le _
      | some value => exact le_rfl
    rw [List.map_cons, ← List.singleton_append, List.count_append] at hcount
    simp only [roster, pinKeys, List.map_append, List.count_append] at hcount ⊢
    omega
  · refine hold.trans ?_
    rw [← List.append_assoc, ← List.append_assoc]
    exact List.perm_append_comm.append_right _

/-! ## Putting -/

/-- An entry comes to the hard tier. Some of the entries there and of the loose ones are gone then,
and the rest, none of which has its key, are there still or evicted. -/
structure Replaces (c : Cache K V) (loose : List (Entry K V))
    (insertion : Step (Table K V) (SoftCache.Notice K V) (Table.Placement K V)) (key : K)
    (value : Option V) (gone rest : List (Entry K V)) : Prop where
  /-- What there is before. -/
  before : c.hard.contents ++ loose ~ gone ++ rest
  /-- What there is afterwards. -/
  after : (some key, value) :: rest ~ insertion.state.contents ++ insertion.result.evicted
  /-- The key has no other entry. -/
  alone : some key ∉ rest.map Prod.fst

/-- A key that the hard tier does not have comes to it. -/
theorem Tiered.replaces_new (h : c.Tiered loose) (issued : r.Issued c.payloads) {key : K}
    {value : Option V} {came : Slot K V} {departed : List (Departure K V)}
    (insertion : Table.Insertion c.hard r (some key) value (c.hard.insert r (some key) value) came
      departed [])
    (hnone : (c.hard.insert r (some key) value).result.previous = none) :
    c.Replaces loose (c.hard.insert r (some key) value) key value loose c.hard.contents where
  before := List.perm_append_comm
  after := by
    have hcontents := h.hard_contents rfl rfl insertion.accounts
    rw [List.map_singleton, insertion.content, ← insertion.evicted, List.map_nil,
      List.append_nil] at hcontents
    exact (List.perm_append_singleton _ _).symm.trans hcontents
  alone := by
    intro hmem
    obtain ⟨entry, hentry, hfst⟩ := List.mem_map.mp hmem
    obtain ⟨s, hs, rfl⟩ := List.mem_map.mp hentry
    -- The insertion found no slot of the key that is live, and in the hard tier all are.
    have hstale := h.hard.stale_of_insert issued.left hnone s hs hfst
    rw [h.hard_live r s hs] at hstale
    cases hstale

/-- A key that the hard tier has is given another value. -/
theorem Tiered.replaces_old (h : c.Tiered []) {key : K} {value : Option V}
    {came old : Slot K V} {departed : List (Departure K V)}
    (insertion : Table.Insertion c.hard r (some key) value (c.hard.insert r (some key) value) came
      departed [old])
    (hold : old ∈ c.hard.buckets.slots) (hkey : old.key.content = some key) :
    ∃ rest, c.Replaces [] (c.hard.insert r (some key) value) key value
      [(some key, old.value.content)] rest := by
  have hcontents := h.hard_contents rfl rfl insertion.accounts
  have hcontent : old.content = (some key, old.value.content) := by
    rw [Slot.content, hkey]
  rw [List.map_singleton, insertion.content, ← insertion.evicted, List.map_singleton,
    hcontent] at hcontents
  obtain ⟨before, after, hslots⟩ := List.append_of_mem hold
  have hsplit : c.hard.contents ~
      (some key, old.value.content) :: (before ++ after).map Slot.content := by
    rw [← hcontent, Table.contents, hslots]
    exact List.perm_middle.map Slot.content
  refine ⟨(before ++ after).map Slot.content, ?_⟩
  constructor
  case before =>
    rw [List.append_nil]
    exact hsplit
  case after =>
    classical
    rw [List.perm_iff_count] at hsplit hcontents ⊢
    intro entry
    have hcount := hsplit entry
    have hcount' := hcontents entry
    rw [← List.singleton_append, List.count_append] at hcount ⊢
    simp only [List.count_append] at hcount' ⊢
    omega
  case alone =>
    -- The key is in the cache once, and that is the old entry.
    have hkeys := (hsplit.map Prod.fst).count_eq (some key)
    have hone := List.nodup_iff_count_le_one.mp h.keyed.nodup (some key)
    rw [List.map_cons, List.count_cons_self] at hkeys
    simp only [roster, List.count_append] at hone
    rw [← List.count_eq_zero]
    omega

/-- What an entry replaces that is put into the hard tier: the entry that its key has there, or the
one that was taken from the soft tier, if there is either. -/
theorem Tiered.replaced {key : K} {fromSoft : Option V}
    (h : c.Tiered (pinEntry (key, fromSoft)).toList) (issued : r.Issued c.payloads)
    (value : Option V) :
    ∃ gone rest,
      (((c.hard.insert r (some key) value).result.previous.or (fromSoft.map some)).toList.map
        fun old => Notice.removed key old false) = removals gone ∧
      c.Replaces (pinEntry (key, fromSoft)).toList (c.hard.insert r (some key) value) key value
        gone rest := by
  obtain ⟨came, departed, left, hinsertion⟩ :=
    Table.insertion_insert h.hard.capacity_pos issued.left (some key) value
  rcases hinsertion.previous with ⟨hnone, rfl⟩ | ⟨old, hold, r', rfl, hkey, hsome⟩
  · refine ⟨_, _, ?_, h.replaces_new issued hinsertion hnone⟩
    rw [hnone]
    cases fromSoft <;> rfl
  · -- The key is in the hard tier, so nothing of it was in the soft one.
    have hhard : some key ∈ c.hard.contents.map Prod.fst :=
      hkey ▸ List.mem_map_of_mem (List.mem_map_of_mem hold)
    have hroster : some key ∈ c.roster := List.mem_append_left _ (List.mem_append_right _ hhard)
    have hsoft : fromSoft = none := by
      cases fromSoft with
      | none => rfl
      | some value => exact absurd hroster h.not_mem_roster
    subst hsoft
    have hvalue : old.value.get r' = old.value.content := by
      have hsuits := (h.hard.suited old hold).2
      rw [h.hardStrengths.2] at hsuits
      exact Holder.get_eq_content (Holder.isCleared_of_suits_strong hsuits)
    obtain ⟨rest, hreplaces⟩ := Tiered.replaces_old h hinsertion hold hkey
    refine ⟨_, rest, ?_, hreplaces⟩
    rw [hsome, hvalue]
    rfl

omit [DecidableEq K] [Hashed K] in
/-- A new key is added to keys. -/
theorem keyed_cons {key : K} {keys : List (Option K)} (h : Keyed keys) (absent : some key ∉ keys) :
    Keyed (some key :: keys) :=
  ⟨List.nodup_cons.mpr ⟨absent, h.nodup⟩, by simpa using h.named⟩

namespace Replaces

variable {insertion : Step (Table K V) (SoftCache.Notice K V) (Table.Placement K V)} {key : K}
  {value : Option V} {rest : List (Entry K V)}

omit [DecidableEq K] [Hashed K] in
/-- All entries there are before, those that are gone then and the others. -/
theorem holdings_before (h : c.Replaces loose insertion key value gone rest) :
    c.holdings ++ loose ~ gone ++ (c.pinned ++ rest ++ c.soft.contents) := by
  classical
  have hbefore := h.before
  rw [List.perm_iff_count] at hbefore ⊢
  intro entry
  have hcount := hbefore entry
  simp only [holdings, List.count_append] at hcount ⊢
  omega

omit [DecidableEq K] [Hashed K] in
/-- All entries there are afterwards, the one that has come and the others. -/
theorem holdings_after (h : c.Replaces loose insertion key value gone rest) (metrics : Metrics) :
    (some key, value) :: (c.pinned ++ rest ++ c.soft.contents) ~
      ({ c with hard := insertion.state, metrics } : Cache K V).holdings ++
        insertion.result.evicted := by
  classical
  have hafter := h.after
  rw [List.perm_iff_count] at hafter ⊢
  intro entry
  have hcount := hafter entry
  rw [← List.singleton_append, List.count_append] at hcount ⊢
  simp only [holdings, pinned, List.count_append] at hcount ⊢
  omega

omit [Hashed K] in
/-- None of the other entries has the key that comes. -/
theorem not_mem_others (h : c.Replaces loose insertion key value gone rest)
    (absent : some key ∉ c.pinKeys ++ c.soft.contents.map Prod.fst) :
    some key ∉ (c.pinned ++ rest ++ c.soft.contents).map Prod.fst := by
  have hle := count_pinned_le c (some key)
  have hzero := List.count_eq_zero_of_not_mem absent
  have hrest := List.count_eq_zero_of_not_mem h.alone
  rw [List.count_append] at hzero
  rw [← List.count_eq_zero]
  simp only [List.map_append, List.count_append]
  omega

/-- Every key is in one place afterwards. -/
theorem keyed (h : c.Replaces loose insertion key value gone rest) (tiered : c.Tiered loose)
    (absent : some key ∉ c.pinKeys ++ c.soft.contents.map Prod.fst) :
    Keyed (({ c with hard := insertion.state } : Cache K V).roster ++
      insertion.result.evicted.map Prod.fst) := by
  -- The other keys are in one place each, and the one that comes is not among them.
  have hothers : Keyed (c.pinKeys ++ rest.map Prod.fst ++ c.soft.contents.map Prod.fst) := by
    refine tiered.keyed.of_count_le fun other => ?_
    have hcount := (h.before.map Prod.fst).count_eq other
    simp only [roster, List.map_append, List.count_append] at hcount ⊢
    omega
  have habsent : some key ∉ c.pinKeys ++ rest.map Prod.fst ++ c.soft.contents.map Prod.fst := by
    simp only [List.mem_append, not_or] at absent ⊢
    exact ⟨⟨absent.1, h.alone⟩, absent.2⟩
  refine (keyed_cons hothers habsent).of_count_le fun other => ?_
  have hcount := (h.after.map Prod.fst).count_eq other
  rw [List.map_cons, ← List.singleton_append] at hcount
  rw [← List.singleton_append]
  simp only [roster, pinKeys, List.map_append, List.count_append] at hcount ⊢
  omega

end Replaces

/-- Nothing is registered for what comes to the hard tier. -/
theorem Tiered.next_insertHard (h : c.Tiered loose) (r : Reclaimer) (key : K) (value : Option V) :
    (c.hard.insert r (some key) value).reclaimer.next = r.next := by
  rw [c.hard.next_insert r h.hardStrengths.1, h.hardStrengths.2]
  rfl

/-- An entry comes to the hard tier, and is announced together with what it replaces. -/
theorem attends_replace {insertion : Step (Table K V) (SoftCache.Notice K V) (Table.Placement K V)}
    {key : K} {value : Option V} {gone rest : List (Entry K V)} (h : c.Tiered loose)
    (issued : r.Issued c.payloads) (upholds : insertion.Upholds c.hard r)
    (next : insertion.reclaimer.next = r.next)
    (replaces : c.Replaces loose insertion key value gone rest)
    (absent : some key ∉ c.pinKeys ++ c.soft.contents.map Prod.fst) (metrics : Metrics)
    (log : List LogLine) :
    Step.Attends c r loose
      ⟨insertion.result, { c with hard := insertion.state, metrics }, insertion.reclaimer,
        removals gone ++ [.added key value], log⟩ insertion.result.evicted := by
  constructor
  case tiered =>
    exact h.setHard upholds.sound upholds.config (upholds.bound.trans h.hardBound)
      (replaces.keyed h absent) metrics
  case handover => exact handover_hard issued rfl upholds.handover c.size metrics
  case registered => exact next
  case origin => exact fun s hs => .inl hs
  case swept =>
    intro hswept
    have hand := handover_hard issued rfl upholds.handover c.size metrics
    exact c.swept_soft rfl hswept hand
  case follows =>
    -- First what is gone is announced, which leaves no entry with the key, and then the entry.
    have hbefore := replaces.holdings_before
    have hgone : Follows (c.Lost [] r insertion.reclaimer)
        (gone ++ (c.pinned ++ rest ++ c.soft.contents)) (removals gone)
        (c.pinned ++ rest ++ c.soft.contents) :=
      .removedAll (fun _ hentry => h.named (hbefore.symm.subset (List.mem_append_left _ hentry)))
        ((hbefore.map Prod.fst).nodup_iff.mp h.distinct)
    exact (hgone.trans (.added (replaces.not_mem_others absent))).perm hbefore
      (replaces.holdings_after metrics)

/-- Puts an entry into the hard tier and announces it, together with what it replaces. -/
def place (c : Cache K V) (r : Reclaimer) (key : K) (fromSoft : Option V) (value : Option V) :
    Step (Cache K V) (Notice K V) (Table.Placement K V) :=
  (c.overHard r (·.insert · (some key) value)).andThen fun c r placement =>
    (c.announce r (((placement.previous.or (fromSoft.map some)).toList.map
      fun old => Notice.removed key old false) ++ [.added key value])).map fun _ => placement

/-- An entry is put into the hard tier and announced, together with what it replaces. -/
theorem attends_place {key : K} {fromSoft : Option V}
    (h : c.Tiered (pinEntry (key, fromSoft)).toList) (issued : r.Issued c.payloads)
    (absent : some key ∉ c.pinKeys ++ c.soft.contents.map Prod.fst) (value : Option V) :
    (c.place r key fromSoft value).Attends c r (pinEntry (key, fromSoft)).toList
      (c.place r key fromSoft value).result.evicted := by
  obtain ⟨gone, rest, hnotices, hreplaces⟩ := h.replaced issued value
  have hupholds := Table.upholds_insert h.hard issued.left (some key) value
  have hreplace :=
    attends_replace h issued hupholds (h.next_insertHard r key value) hreplaces absent
    (c.place r key fromSoft value).state.metrics (c.place r key fromSoft value).log
  refine hreplace.same rfl rfl ?_
  rw [← hnotices]
  rfl

/-- Puts an entry in place of what its key had, and routes what is then over the bound. -/
def supersede (c : Cache K V) (r : Reclaimer) (key : K) (fromSoft : Option V) (value : Option V) :
    Step (Cache K V) (Notice K V) (Option V) :=
  (c.place r key fromSoft value).andThen fun c r placement =>
    (c.routeOverflow r placement.evicted).map fun _ =>
      (placement.previous.or (fromSoft.map some)).join

/-- An entry is put in place of what its key had, and what is over the bound overflows. -/
theorem attends_supersede {key : K} {fromSoft : Option V}
    (h : c.Tiered (pinEntry (key, fromSoft)).toList) (issued : r.Issued c.payloads)
    (absent : some key ∉ c.pinKeys ++ c.soft.contents.map Prod.fst) (value : Option V) :
    (c.supersede r key fromSoft value).Attends c r (pinEntry (key, fromSoft)).toList []
      (c.routed (c.place r key fromSoft value).result.evicted) := by
  have hplace := attends_place h issued absent value
  have hroute := attends_routeAll hplace.tiered hplace.issued
  exact (hplace.andThen (fun c r placement => c.routeOverflow r placement.evicted) hroute).same
    rfl rfl rfl

/-- A key that was taken from the soft tier, or sought there in vain, is not in it. -/
theorem absent_of_takeSoft (h : c.Tiered []) (issued : r.Issued c.payloads) (key : K) :
    some key ∉ (c.overSoft r (·.remove · (some key))).state.soft.contents.map Prod.fst := by
  have htake := attends_takeSoft h issued key
  rcases hresult : (c.soft.removeEntry r (some key)).result with _ | value
  · exact h.soft.absent_of_removeEntry issued.right (h.soft_excludes _) hresult
  · rw [hresult] at htake
    -- What was taken is loose, so it is in no tier.
    exact fun hmem => htake.tiered.not_mem_roster (List.mem_append_right _ hmem)

/-- A key that was sought in the hard tier in vain is not in it. -/
theorem absent_of_takeHard (h : c.Tiered []) (issued : r.Issued c.payloads) (key : K)
    (hnone : (c.hard.removeEntry r (some key)).result = none) :
    some key ∉
      (c.overHard r (·.removeEntry · (some key))).state.hard.contents.map Prod.fst :=
  h.hard.absent_of_removeEntry issued.left (h.hard_excludes _) hnone

omit [DecidableEq K] [Hashed K] in
/-- A key without a pin is not among the pinned keys. -/
theorem not_mem_pinKeys {key : K} (absent : key ∉ c.pins.map Prod.fst) : some key ∉ c.pinKeys := by
  intro hmem
  obtain ⟨pin, hpin, hkey⟩ := List.mem_map.mp hmem
  exact absent (Option.some.inj hkey ▸ List.mem_map_of_mem hpin)

/-- When the soft tier has given up a key that is not pinned, only the hard tier can have it. -/
theorem absent_of_takeUnpinned (h : c.Tiered []) (issued : r.Issued c.payloads) {key : K}
    (missing : c.pins.find key = none) :
    some key ∉ (c.overSoft r (·.remove · (some key))).state.pinKeys ++
      (c.overSoft r (·.remove · (some key))).state.soft.contents.map Prod.fst := by
  rw [List.mem_append, not_or]
  exact ⟨not_mem_pinKeys (Directory.not_mem_of_find missing), absent_of_takeSoft h issued key⟩

/-- The value of a key that is not pinned goes to the hard tier, in place of the one that either
tier had. -/
theorem put_eq {key : K} (missing : c.pins.find key = none) (hsize : c.size ≠ 0) (r : Reclaimer)
    (value : Option V) :
    c.put r key value =
      (c.overSoft r (·.remove · (some key))).andThen fun c r fromSoft =>
        c.supersede r key fromSoft value := by
  simp only [put, missing, if_neg hsize, supersede, place, Step.andThen, Step.map, overHard,
    announce,
    List.nil_append, List.append_nil, List.append_assoc]

/-- What settles in the soft tier when a value is put: what the hard tier gives up for it, after the
soft tier has given up what it had of the key. -/
def settledByPut (c : Cache K V) (r : Reclaimer) (key : K) (value : Option V) : List (K × V) :=
  if (c.pins.find key).isSome || c.size = 0 then []
  else
    let taken := c.overSoft r (·.remove · (some key))
    c.routed (c.hard.insert taken.reclaimer (some key) value).result.evicted

/-- A value is put. -/
theorem attends_put (h : c.Tiered []) (issued : r.Issued c.payloads) (key : K) (value : Option V) :
    (c.put r key value).Attends c r [] [] (c.settledByPut r key value) := by
  unfold settledByPut
  cases found : c.pins.find key with
  | some old =>
    rw [put, found]
    exact (attends_repin h issued found value).same rfl rfl rfl
  | none =>
    by_cases hsize : c.size = 0
    · rw [put, found]
      dsimp only
      rw [if_pos hsize, if_pos (by simp [hsize])]
      exact .done h issued none
    · have htake := attends_takeSoftValue h issued key
      rw [List.append_nil] at htake
      rw [put_eq found hsize, if_neg (by simp [hsize])]
      -- The soft tier gives the key up before the hard tier takes it.
      exact htake.andThen (fun c r fromSoft => c.supersede r key fromSoft value)
        (attends_supersede htake.tiered htake.issued (absent_of_takeUnpinned h issued found) value)

/-- What settles in the soft tier when values are put one after the other. -/
def settledByPutAll (c : Cache K V) (r : Reclaimer) (replace : Bool) : List (K × V) → List (K × V)
  | [] => []
  | (key, value) :: rest =>
    if !replace && c.containsKey r key then c.settledByPutAll r replace rest
    else
      let put := c.put r key (some value)
      c.settledByPut r key (some value) ++ put.state.settledByPutAll put.reclaimer replace rest

/-- Values are put one after the other. -/
theorem attends_putAll (h : c.Tiered []) (issued : r.Issued c.payloads) (replace : Bool)
    (entries : List (K × V)) :
    (c.putAll r replace entries).Attends c r [] [] (c.settledByPutAll r replace entries) := by
  induction entries generalizing c r with
  | nil => exact .done h issued ()
  | cons entry rest ih =>
    unfold putAll settledByPutAll
    split
    · exact ih h issued
    · have hput := attends_put h issued entry.1 (some entry.2)
      exact hput.andThen _ (ih hput.tiered hput.issued)

/-! ## Removing -/

omit [DecidableEq K] [Hashed K] in
/-- The notice of the value that a key had, if it had one. -/
theorem removals_of_option (key : K) (old : Option (Option V)) :
    old.toList.map (fun old => Notice.removed key old false) =
      removals (old.toList.map fun old => (some key, old)) := by
  cases old <;> rfl

/-- Takes the entry of a key from the hard tier, or else from the soft one. -/
def takeEntry (c : Cache K V) (r : Reclaimer) (key : K) :
    Step (Cache K V) (Notice K V) (Option (Option V)) :=
  (c.overHard r (·.removeEntry · (some key))).andThen fun
    | c, r, some value => .done c r (some value)
    | c, r, none => c.overSoft r (·.removeEntry · (some key))

/-- The value of the hard tier is answered, or else the one of the soft tier. -/
theorem result_takeEntry (c : Cache K V) (r : Reclaimer) (key : K) :
    (c.takeEntry r key).result =
      (c.hard.removeEntry r (some key)).result.or
        (c.soft.removeEntry (c.overHard r (·.removeEntry · (some key))).reclaimer
          (some key)).result := by
  have hhard : (c.overHard r (·.removeEntry · (some key))).result =
      (c.hard.removeEntry r (some key)).result := rfl
  rw [takeEntry, Step.andThen_result, hhard]
  cases (c.hard.removeEntry r (some key)).result <;> rfl

/-- An entry is taken from the tier that has it. -/
theorem attends_takeEntry (h : c.Tiered []) (issued : r.Issued c.payloads) (key : K) :
    (c.takeEntry r key).Attends c r []
      ((c.takeEntry r key).result.toList.map fun value => (some key, value)) := by
  have hhard := attends_takeHard h issued key
  rw [List.append_nil] at hhard
  rw [result_takeEntry]
  rcases hresult : (c.hard.removeEntry r (some key)).result with _ | value
  · rw [hresult, Option.toList_none, List.map_nil] at hhard
    have hsoft := attends_takeSoft hhard.tiered hhard.issued key
    rw [List.append_nil] at hsoft
    exact hhard.andThenOf hresult hsoft
  · rw [hresult] at hhard
    exact hhard.andThenOf hresult (.done hhard.tiered hhard.issued _)

/-- An entry that is not pinned is taken from its tier, and this is announced. -/
theorem remove_eq {key : K} (missing : c.pins.find key = none) (r : Reclaimer) :
    c.remove r key = (c.takeEntry r key).andThen fun c r old =>
      (c.announce r (old.toList.map fun old => .removed key old false)).map fun _ => old.join := by
  rw [remove, missing]
  rfl

/-- An entry is removed and announced. A pin stays without its value. -/
theorem attends_remove (h : c.Tiered []) (issued : r.Issued c.payloads) (key : K) :
    (c.remove r key).Attends c r [] [] := by
  cases found : c.pins.find key with
  | some old =>
    have hpin := attends_repin h issued found none
    rw [remove, found]
    cases old with
    | none => exact hpin.same rfl rfl rfl
    | some old => exact hpin.same rfl rfl rfl
  | none =>
    have htake := attends_takeEntry h issued key
    have hannounce := attends_announceAll htake.tiered htake.issued
    rw [← removals_of_option] at hannounce
    rw [remove_eq found]
    exact htake.andThen _ (hannounce.same rfl rfl rfl)

end SoftCache.Cache
