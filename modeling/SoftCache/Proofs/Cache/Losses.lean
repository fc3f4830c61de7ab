import SoftCache.Proofs.Cache.Wholeness
import SoftCache.Proofs.Table.Spilling

/-!
# What a whole cache loses

While nothing is cleared, an entry leaves a cache unasked only if the soft tier gives it up, or
takes nothing at all. What the hard tier gives up comes to the soft tier entry by entry, and each
may make it spill another one or that one itself; in all, as many are dropped as are then over the
bound of the soft tier (`Cache.Whole.route`). With how many entries the hard tier gives up this is
the exact account of what each request to the cache costs (`Cache.Whole.losses`).
-/

open scoped List

namespace SoftCache

variable {K V α β : Type}

/-- Entries with keys and values. -/
theorem PlainCache.exists_filled {l : List (Entry K V)}
    (full : ∀ entry ∈ l, entry.1 ≠ none ∧ entry.2 ≠ none) :
    ∃ pairs : List (K × V), l = pairs.map PlainCache.filled := by
  have hrange : l ∈ Set.range (List.map (PlainCache.filled (K := K) (V := V))) := by
    rw [Set.range_list_map]
    rintro ⟨key, value⟩ hentry
    obtain ⟨hkey, hvalue⟩ := full _ hentry
    obtain ⟨key, rfl⟩ := Option.ne_none_iff_exists'.mp hkey
    obtain ⟨value, rfl⟩ := Option.ne_none_iff_exists'.mp hvalue
    exact ⟨(key, value), rfl⟩
  obtain ⟨pairs, hpairs⟩ := hrange
  exact ⟨pairs, hpairs.symm⟩

/-- An entry is told from another by its key and its value. -/
theorem PlainCache.filled_injective :
    Function.Injective (PlainCache.filled : K × V → Entry K V) := by
  rintro ⟨key, value⟩ ⟨other, content⟩ heq
  cases heq
  rfl

namespace Cache

/-- The notice that an entry came to the cache with its value. -/
def greeting (entry : K × V) : Notice K V :=
  .added entry.1 (some entry.2)

/-- Entries that are greeted arrive. -/
@[simp] theorem arrivals_greetings (came : List (K × V)) :
    arrivals (came.map greeting) = came.map PlainCache.filled := by
  rw [arrivals, List.filterMap_map, ← List.filterMap_eq_map]
  rfl

/-- Entries that are greeted do not depart. -/
@[simp] theorem departures_greetings (came : List (K × V)) :
    departures (came.map greeting) = [] := by
  rw [departures, List.filterMap_map]
  exact List.filterMap_eq_nil_iff.mpr fun _ _ => rfl

/-- Entries that are bidden farewell do not arrive. -/
@[simp] theorem arrivals_farewells (gone : List (K × V)) :
    arrivals (gone.map PlainCache.farewell) = [] := by
  rw [arrivals, List.filterMap_map]
  exact List.filterMap_eq_nil_iff.mpr fun _ _ => rfl

/-- Entries that are bidden farewell depart. -/
@[simp] theorem departures_farewells (gone : List (K × V)) :
    departures (gone.map PlainCache.farewell) = gone.map PlainCache.filled := by
  rw [departures, List.filterMap_map, ← List.filterMap_eq_map]
  rfl

end Cache

/-- Work on a cache that begins with some loose entries and ends with others, in an epoch that
lasts. Just the removal of `dropped` is announced, and `moved` entries are counted as overflow. -/
structure Step.Drops [DecidableEq K] [Hashed K] (c : Cache K V) (r : Reclaimer)
    (loose : List (Entry K V)) (step : Step (Cache K V) (Cache.Notice K V) α)
    (loose' : List (Entry K V)) (dropped : List (K × V)) (moved : Nat) : Prop where
  /-- The cache is attended to, whatever settles in the soft tier. -/
  attends : ∃ settled, step.Attends c r loose loose' settled
  /-- The epoch lasts. -/
  quiet : step.reclaimer.epoch = r.epoch
  /-- Just the removal of what is dropped is announced. -/
  notices : step.notices = dropped.map PlainCache.farewell
  /-- What moves to the soft tier is counted as overflow. -/
  overflows : step.state.metrics.overflows = c.metrics.overflows + moved

/-- An epoch that lasts all the time lasts in both parts of it. -/
theorem Reclaimer.Precedes.quiet {r r' r'' : Reclaimer} (h : r.Precedes r') (h' : r'.Precedes r'')
    (quiet : r''.epoch = r.epoch) : r'.epoch = r.epoch ∧ r''.epoch = r'.epoch := by
  have hfirst := h.epoch_le
  have hlast := h'.epoch_le
  omega

namespace Step.Drops

variable [DecidableEq K] [Hashed K] {c : Cache K V} {r : Reclaimer}
  {loose loose' loose'' : List (Entry K V)} {dropped dropped' : List (K × V)} {moved moved' : Nat}

/-- One piece of work and then another. -/
theorem andThen {first : Step (Cache K V) (Cache.Notice K V) α}
    (h₁ : first.Drops c r loose loose' dropped moved)
    (second : Cache K V → Reclaimer → α → Step (Cache K V) (Cache.Notice K V) β)
    (h₂ : (second first.state first.reclaimer first.result).Drops first.state first.reclaimer
      loose' loose'' dropped' moved') :
    (first.andThen second).Drops c r loose loose'' (dropped ++ dropped') (moved + moved') where
  attends := by
    obtain ⟨_, hfirst⟩ := h₁.attends
    obtain ⟨_, hsecond⟩ := h₂.attends
    exact ⟨_, hfirst.andThen second hsecond⟩
  quiet := h₂.quiet.trans h₁.quiet
  notices := by rw [Step.andThen_notices, h₁.notices, h₂.notices, List.map_append]
  overflows := by
    rw [Step.andThen_state, h₂.overflows, h₁.overflows, Nat.add_assoc]

/-- One piece of work that drops nothing and then another, chosen by what the first one answered. -/
theorem andThenOf {first : Step (Cache K V) (Cache.Notice K V) α}
    (h₁ : first.Drops c r loose loose' [] 0)
    (second : Cache K V → Reclaimer → α → Step (Cache K V) (Cache.Notice K V) β) {answer : α}
    (answered : first.result = answer)
    (h₂ : (second first.state first.reclaimer answer).Drops first.state first.reclaimer
      loose' loose'' dropped moved) :
    (first.andThen second).Drops c r loose loose'' dropped moved := by
  subst answered
  have hboth := h₁.andThen second h₂
  rwa [List.nil_append, Nat.zero_add] at hboth

/-- Nothing is done. -/
theorem done (h : c.Whole r loose) (result : α) :
    (Step.done c r result).Drops c r loose loose [] 0 :=
  ⟨⟨[], .done h.tiered h.issued result⟩, rfl, rfl, rfl⟩

/-- Only what is left and what is announced matters. -/
theorem same {step : Step (Cache K V) (Cache.Notice K V) α}
    {step' : Step (Cache K V) (Cache.Notice K V) β} (h : step.Drops c r loose loose' dropped moved)
    (state : step'.state = step.state) (reclaimer : step'.reclaimer = step.reclaimer)
    (notices : step'.notices = step.notices) :
    step'.Drops c r loose loose' dropped moved where
  attends := h.attends.imp fun _ attends => attends.same state reclaimer notices
  quiet := by rw [reclaimer, h.quiet]
  notices := notices.trans h.notices
  overflows := by rw [state, h.overflows]

/-- The answer does not matter. -/
theorem map {step : Step (Cache K V) (Cache.Notice K V) α} (f : α → β)
    (h : step.Drops c r loose loose' dropped moved) :
    (step.map f).Drops c r loose loose' dropped moved :=
  h.same rfl rfl rfl

/-- A whole cache stays whole. -/
theorem whole {step : Step (Cache K V) (Cache.Notice K V) α}
    (h : step.Drops c r loose loose' dropped moved) (whole : c.Whole r loose) :
    step.state.Whole step.reclaimer loose' := by
  obtain ⟨_, hattends⟩ := h.attends
  refine whole.attends hattends h.quiet fun key hmem => ?_
  rw [h.notices] at hmem
  obtain ⟨_, -, hadded⟩ := List.mem_map.mp hmem
  cases hadded

end Step.Drops

namespace Cache

/-- How many of `n` entries that the hard tier gives up go to the soft one: all of them, unless that
takes nothing. -/
def moved (c : Cache K V) (n : Nat) : Nat :=
  if c.softSize = 0 then 0 else n

/-- Notices do not count as overflow. -/
theorem overflows_hear (m : Metrics) (notices : List (Notice K V)) :
    (notices.foldl Metrics.hear m).overflows = m.overflows := by
  induction notices generalizing m with
  | nil => rfl
  | cons notice rest ih =>
    rw [List.foldl_cons, ih]
    unfold Metrics.hear
    split <;> rfl

/-- What the cache passes on of entries that its soft tier spills. -/
theorem filterMap_ofSoft_overflow (dropped : List (K × V)) :
    ((dropped.map PlainCache.filled).map .overflow).filterMap ofSoft =
      dropped.map PlainCache.farewell := by
  rw [List.map_map, List.filterMap_map, ← List.filterMap_eq_map]
  rfl

variable [DecidableEq K] [Hashed K] {c : Cache K V} {r : Reclaimer} {loose : List (Entry K V)}

omit [DecidableEq K] in
/-- The entries of a whole cache have keys and values. -/
theorem Whole.named (h : c.Whole r loose) {entry : Entry K V}
    (hentry : entry ∈ c.holdings ++ loose) : entry.1 ≠ none ∧ entry.2 ≠ none := by
  classical
  exact ⟨h.tiered.named hentry, h.full entry hentry⟩

omit [DecidableEq K] in
/-- Some of the entries of a whole cache, with their keys and values. -/
theorem Whole.exists_pairs (h : c.Whole r loose) {l : List (Entry K V)}
    (there : ∀ entry ∈ l, entry ∈ c.holdings ++ loose) :
    ∃ pairs : List (K × V), l = pairs.map PlainCache.filled :=
  PlainCache.exists_filled fun entry hentry => h.named (there entry hentry)

/-! ## Overflow -/

/-- What comes of routing entries that the hard tier gave up: some are dropped. -/
structure Routes (c : Cache K V) (r : Reclaimer) (gone loose : List (Entry K V))
    (step : Step (Cache K V) (Notice K V) α) (dropped : List (K × V)) : Prop
    extends step.Drops c r (gone ++ loose) loose dropped (c.moved gone.length) where
  /-- The bound of the soft tier stays. -/
  softSize : step.state.softSize = c.softSize
  /-- What is over it is dropped. -/
  length : dropped.length =
    Table.excess (softBound c.softSize) (c.soft.contents.length + gone.length)
  /-- The rest is in the soft tier. -/
  rest : step.state.soft.contents.length + dropped.length =
    c.soft.contents.length + gone.length

/-- A loose entry is put into the soft tier. -/
theorem Whole.settle {key : K} {value : V} (h : c.Whole r ((some key, some value) :: loose))
    (quiet : (c.soft.insert r (some key) (some value)).reclaimer.epoch = r.epoch) :
    ∃ dropped, (c.overSoft r (·.insert · (some key) (some value))).Drops c r
        ((some key, some value) :: loose) loose dropped 0 ∧
      dropped.length = Table.excess c.soft.bound (c.soft.contents.length + 1) ∧
      (c.soft.insert r (some key) (some value)).state.contents.length + dropped.length =
        c.soft.contents.length + 1 := by
  have habsent : some key ∉ c.soft.contents.map Prod.fst := fun hmem =>
    h.tiered.not_mem_roster (List.mem_append_right _ hmem)
  have hspills := h.tiered.soft.spills_insert h.issued.right h.soft_live habsent quiet
  -- What is spilled was there or came, so it has a key and a value.
  obtain ⟨dropped, hdropped⟩ := h.exists_pairs fun entry hentry => by
    rcases List.mem_append.mp (hspills.contents.symm.subset (List.mem_append_right _ hentry)) with
      hsoft | hcame
    · exact List.mem_append_left _ (List.mem_append_right _ hsoft)
    · rw [List.mem_singleton.mp hcame]
      exact List.mem_append_right _ List.mem_cons_self
  rw [hdropped] at hspills
  refine ⟨dropped, ?_, ?_, ?_⟩
  · constructor
    case attends => exact ⟨_, attends_settle h.tiered h.issued⟩
    case quiet => exact quiet
    case notices =>
      show (c.soft.insert r (some key) (some value)).notices.filterMap ofSoft = _
      rw [hspills.notices, filterMap_ofSoft_overflow]
    case overflows => exact overflows_hear _ _
  · simpa using hspills.length
  · simpa using hspills.contents.length_eq.symm

omit [DecidableEq K] in
/-- A soft tier that takes nothing is empty. -/
theorem Tiered.soft_contents_of_disabled (h : c.Tiered loose) (disabled : c.softSize = 0) :
    c.soft.contents = [] := by
  have hbound := h.soft.within_bound 0 (by rw [h.softBound, disabled]; rfl)
  rw [h.soft.counted, ← Table.length_contents] at hbound
  exact List.eq_nil_of_length_eq_zero (Nat.le_zero.mp hbound)

/-- An entry that the hard tier gave up goes to the soft tier or out of the cache. -/
theorem Whole.routeOne {key : K} {value : V} (h : c.Whole r ((some key, some value) :: loose))
    (quiet : (c.routeEntry r key (some value)).reclaimer.epoch = r.epoch) :
    ∃ dropped, c.Routes r [(some key, some value)] loose (c.routeEntry r key (some value))
      dropped := by
  by_cases hdisabled : c.softSize = 0
  · have hroute : c.routeEntry r key (some value) =
        c.announce r [.removed key (some value) false] := by
      simp [routeEntry, hdisabled]
    rw [hroute]
    refine ⟨[(key, value)], ⟨⟨?_, rfl, rfl, ?_⟩, rfl, ?_, rfl⟩⟩
    · exact ⟨[], attends_announce [(some key, some value)] h.tiered h.issued⟩
    · rw [moved, if_pos hdisabled]
      rfl
    · rw [h.tiered.soft_contents_of_disabled hdisabled, hdisabled]
      rfl
  · have hroute : c.routeEntry r key (some value) =
        ((c.tally fun m => { m with overflows := m.overflows + 1 }).overSoft r
          (·.insert · (some key) (some value))).map fun _ => () := by
      simp [routeEntry, hdisabled]
    obtain ⟨dropped, hdrops, hlength, hrest⟩ := h.settle (by rwa [hroute] at quiet)
    have hattends := attends_routeEntry h.tiered h.issued
    rw [hroute] at hattends ⊢
    refine ⟨dropped, ⟨⟨⟨_, hattends⟩, hdrops.quiet, hdrops.notices, ?_⟩, rfl, ?_, hrest⟩⟩
    · rw [moved, if_neg hdisabled]
      exact overflows_hear _ _
    · rw [hlength, h.tiered.softBound]
      rfl

/-- What is over a bound can be given up in parts. -/
theorem excess_add (bound : Option Nat) {t rest m n dropped dropped' : Nat}
    (h : dropped = Table.excess bound (t + m)) (hrest : rest + dropped = t + m)
    (h' : dropped' = Table.excess bound (rest + n)) :
    dropped + dropped' = Table.excess bound (t + (m + n)) := by
  cases bound with
  | none =>
    subst h h'
    rfl
  | some bound =>
    simp only [Table.excess] at h h' ⊢
    omega

omit [DecidableEq K] in
/-- The soft tier is within its bound. -/
theorem Whole.excess_eq_zero (h : c.Whole r loose) {n : Nat} (few : n ≤ c.soft.contents.length) :
    Table.excess (softBound c.softSize) n = 0 := by
  have hsoft := h.tiered.soft.within_bound
  rw [h.tiered.softBound, h.tiered.soft.counted, ← Table.length_contents] at hsoft
  cases hlimit : softBound c.softSize with
  | none => rfl
  | some bound => exact Nat.sub_eq_zero_of_le (few.trans (hsoft bound hlimit))

/-- Entries that the hard tier gave up go to the soft tier or out of the cache, one after the other.
As many are dropped as are over the bound of the soft tier in the end. -/
theorem Whole.route {gone : List (Entry K V)} (h : c.Whole r (gone ++ loose))
    (quiet : (c.routeOverflow r gone).reclaimer.epoch = r.epoch) :
    ∃ dropped, c.Routes r gone loose (c.routeOverflow r gone) dropped := by
  -- By induction on the entries: one is routed while the others stay loose.
  induction gone generalizing c r with
  | nil =>
    refine ⟨[], ⟨⟨⟨[], .done h.tiered h.issued ()⟩, rfl, rfl, ?_⟩, rfl,
      (h.excess_eq_zero le_rfl).symm, rfl⟩⟩
    rw [moved, List.length_nil, ite_self]
    rfl
  | cons entry rest ih =>
    obtain ⟨hkey, hvalue⟩ := h.named (List.mem_append_right _ List.mem_cons_self)
    obtain ⟨_ | key, _ | value⟩ := entry
    · exact absurd rfl hkey
    · exact absurd rfl hkey
    · exact absurd rfl hvalue
    rw [routeOverflow_cons] at quiet ⊢
    have hfirst := attends_routeEntry h.tiered h.issued
    have hlater := attends_routeOverflow hfirst.tiered hfirst.issued
    obtain ⟨hquiet, hquiet'⟩ := Reclaimer.Precedes.quiet hfirst.handover.precedes
      hlater.handover.precedes quiet
    obtain ⟨dropped, hone⟩ := h.routeOne hquiet
    obtain ⟨dropped', hrest⟩ := ih (hone.whole h) hquiet'
    refine ⟨dropped ++ dropped', ?_⟩
    constructor
    case toDrops =>
      have hboth := hone.andThen (fun c r _ => c.routeOverflow r rest) hrest.toDrops
      have hmoved : c.moved 1 + (c.routeEntry r key (some value)).state.moved rest.length =
          c.moved (rest.length + 1) := by
        rw [moved, moved, moved, hone.softSize]
        split <;> omega
      exact hmoved ▸ hboth
    case softSize => exact hrest.softSize.trans hone.softSize
    case length =>
      have hlength := hrest.length
      rw [hone.softSize] at hlength
      have hsum : [(some key, some value)].length + rest.length =
          ((some key, some value) :: rest).length := Nat.add_comm _ _
      rw [List.length_append, excess_add _ hone.length hone.rest hlength, hsum]
    case rest =>
      have hstays := hone.rest
      have hstays' := hrest.rest
      simp only [List.length_append, List.length_cons, List.length_nil] at hstays ⊢
      show
        ((c.routeEntry r key (some value)).state.routeOverflow _ rest).state.soft.contents.length +
        _ = _
      omega

/-! ## The hard tier -/

section Hard

variable {key : K} {value : Option V}

/-- Putting an entry into the hard tier registers nothing. -/
theorem Tiered.quiet_insertHard (h : c.Tiered loose) (issued : r.Issued c.payloads)
    (value : Option V) : (c.hard.insert r (some key) value).reclaimer.epoch = r.epoch := by
  have hhandover := (Table.upholds_insert h.hard issued.left (some key) value).handover
  exact hhandover.quiet (.inr (h.next_insertHard r key value))

/-- A hard tier that takes an entry for a new key gives up what is then over the size. -/
theorem Tiered.length_evicted (h : c.Tiered loose) (issued : r.Issued c.payloads)
    (absent : some key ∉ c.hard.contents.map Prod.fst) :
    (c.hard.insert r (some key) value).result.evicted.length =
      c.hard.contents.length + 1 - c.size := by
  have hspills := h.hard.spills_insert issued.left (h.hard_live r) absent
    (h.quiet_insertHard issued value)
  rw [hspills.length, h.hardBound]
  rfl

/-- A hard tier that takes another value for a key gives up nothing. -/
theorem Tiered.evicted_of_known (h : c.Tiered loose) (issued : r.Issued c.payloads)
    (there : some key ∈ c.hard.contents.map Prod.fst) :
    (c.hard.insert r (some key) value).result.evicted = [] := by
  have hadmits : ∀ entry ∈ c.hard.entries r, c.hard.excludes entry.1 = false :=
    fun entry _ => h.hard_excludes entry.1
  refine (h.hard.putsQuietly issued.left hadmits ((h.hard.containsKey_iff hadmits).mpr ?_)).evicted
  rw [Table.entries_eq_contents (h.hard_live r)]
  obtain ⟨⟨_, old⟩, hentry, rfl⟩ := List.mem_map.mp there
  exact ⟨old, hentry⟩

variable (c key) in
/-- How many entries the hard tier gives up for a value of the key: none, if it has the key, and
else what is then over the size. -/
def displaced : Nat :=
  if some key ∈ c.hard.contents.map Prod.fst then 0 else c.hard.contents.length + 1 - c.size

/-- A hard tier that takes a value gives up as many entries. -/
theorem Tiered.displaced_eq (h : c.Tiered loose) (issued : r.Issued c.payloads) :
    (c.hard.insert r (some key) value).result.evicted.length = c.displaced key := by
  unfold displaced
  split
  · next hknown => rw [h.evicted_of_known issued hknown, List.length_nil]
  · next hnew => exact h.length_evicted issued hnew

omit [DecidableEq K] in
/-- A hard tier that is given a size gives up what is over it. -/
theorem Tiered.length_setBound (h : c.Tiered loose) (issued : r.Issued c.payloads) (size : Nat) :
    (c.hard.setBound r (some size)).result.length = c.hard.contents.length - size := by
  have hexact := (h.hard.toCoherent.evicts_setBound issued.left size).exact
    (Table.stale_eq_nil_iff.mpr (h.hard_live r))
  rw [hexact, Table.length_contents]

end Hard

/-! ## What a request costs -/

/-- What work on a cache costs: `came` are the entries that come, `gone` those that they replace,
and `dropped` those that have to leave for it. Besides, `displaced` entries had to leave the hard
tier. -/
structure Costs (c : Cache K V) (r : Reclaimer) (step : Step (Cache K V) (Notice K V) α)
    (came gone dropped : List (K × V)) (displaced : Nat) : Prop where
  /-- All other entries stay. -/
  entries : c.entries r ++ came ~ step.state.entries step.reclaimer ++ (gone ++ dropped)
  /-- What is replaced is announced as removed, what comes as added, and last of all what is dropped
  as removed. -/
  notices : step.notices = gone.map PlainCache.farewell ++
    came.map greeting ++ dropped.map PlainCache.farewell
  /-- Each of the entries that are dropped is announced once. -/
  once : (dropped.map Prod.fst).Nodup
  /-- What is displaced is counted as overflow, unless the soft tier takes nothing. -/
  overflows : step.state.metrics.overflows =
    c.metrics.overflows + if c.softSize = 0 then 0 else displaced

/-- There is room for one more entry in one tier or the other. -/
def HasRoom (c : Cache K V) (r : Reclaimer) : Prop :=
  (c.hard.entries r).length < c.size ∨ c.softSize < 0 ∨
    ((c.soft.entries r).length : Int) < c.softSize

/-- Whether a cache has room for one entry more can be decided. -/
instance (c : Cache K V) (r : Reclaimer) : Decidable (c.HasRoom r) :=
  inferInstanceAs (Decidable (_ ∨ _ ∨ _))

/-- The exact account of what requests to a cache cost. Requests that may register something are
meant to begin no epoch. -/
structure Losses [Ordered K] (c : Cache K V) (r : Reclaimer) : Prop where
  /-- A value for a new key costs one entry if there is no room, and else none. -/
  new : ∀ key value, c.size ≠ 0 → c.containsKey r key = false → key ∉ c.pinnedKeys →
    (c.put r key (some value)).reclaimer.epoch = r.epoch →
    ∃ dropped, c.Costs r (c.put r key (some value)) [(key, value)] [] dropped
        ((c.hard.entries r).length + 1 - c.size) ∧
      dropped.length = if c.HasRoom r then 0 else 1
  /-- A value for a key that can be seen takes the place of the old one, and costs no other
  entry. -/
  known : ∀ key value, c.Takes key → c.containsKey r key = true →
    (c.put r key (some value)).reclaimer.epoch = r.epoch →
    ∃ old, (c.get r key).result = some old ∧
      c.Costs r (c.put r key (some value)) [(key, value)] [(key, old)] []
        (if c.locate r key = some .soft then (c.hard.entries r).length + 1 - c.size else 0)
  /-- A value that is not taken costs nothing. -/
  refused : ∀ key value, ¬c.Takes key → c.put r key (some value) = .done c r none
  /-- To pin a key costs nothing. -/
  pin : ∀ key, c.Costs r (c.pin r key) [] [] [] 0
  /-- To unpin a key with a value costs one entry if there is no room, and else none. -/
  unpin : ∀ key value, c.pins.find key = some (some value) →
    (c.unpin r key).reclaimer.epoch = r.epoch →
    ∃ dropped, c.Costs r (c.unpin r key) [] [] dropped ((c.hard.entries r).length + 1 - c.size) ∧
      dropped.length = if c.HasRoom r then 0 else 1
  /-- A size of the cache costs what is over the bound of the soft tier together with what is over
  the size. -/
  setSize : ∀ size, (c.setSize r size).reclaimer.epoch = r.epoch →
    ∃ dropped, c.Costs r (c.setSize r size) [] [] dropped ((c.hard.entries r).length - size) ∧
      dropped.length = Table.excess (softBound c.softSize)
        ((c.soft.entries r).length + ((c.hard.entries r).length - size))
  /-- A size of the soft tier costs what is over it. -/
  setSoftSize : ∀ softSize, ∃ dropped, c.Costs r (c.setSoftSize r softSize) [] [] dropped 0 ∧
    dropped.length = Table.excess (softBound softSize) (c.soft.entries r).length

namespace Whole

/-! ### What the notices say -/

omit [DecidableEq K] in
/-- The entries of a whole cache are all read. -/
theorem map_entries (h : c.Whole r []) : (c.entries r).map PlainCache.filled = c.holdings := by
  obtain ⟨l, hl⟩ := h.exists_pairs fun _ hentry => List.mem_append_left _ hentry
  rw [h.tiered.entries_eq_of_legible (h.legible_eq.trans hl), hl]

/-- Work on a whole cache costs what is announced to go. -/
theorem costs {settled : List (K × V)} {step : Step (Cache K V) (Notice K V) α}
    (h : c.Whole r []) (work : step.Attends c r [] [] settled)
    (quiet : step.reclaimer.epoch = r.epoch) {came gone dropped : List (K × V)} {displaced : Nat}
    (notices : step.notices = gone.map PlainCache.farewell ++
      came.map greeting ++
        dropped.map PlainCache.farewell)
    (distinct : dropped = [] ∨ ((c.entries r ++ came).map Prod.fst).Nodup)
    (overflows : step.state.metrics.overflows =
      c.metrics.overflows + if c.softSize = 0 then 0 else displaced) :
    c.Costs r step came gone dropped displaced := by
  have harrivals : arrivals step.notices = came.map PlainCache.filled := by simp [notices]
  have hdepartures : departures step.notices = (gone ++ dropped).map PlainCache.filled := by
    simp [notices]
  have hwhole : step.state.Whole step.reclaimer [] := by
    refine h.attends work quiet fun key hmem => ?_
    rw [notices] at hmem
    simp [PlainCache.farewell, greeting] at hmem
  have hbalance := work.balance h.tiered fun key value hmem => by
    rw [notices] at hmem
    simp [PlainCache.farewell, greeting] at hmem
  rw [harrivals, hdepartures, List.append_nil, List.append_nil, ← h.map_entries,
    ← hwhole.map_entries, ← List.map_append, ← List.map_append] at hbalance
  have hentries := (List.map_perm_map_iff PlainCache.filled_injective).mp hbalance
  refine ⟨hentries, notices, ?_, overflows⟩
  rcases distinct with rfl | hnodup
  · exact List.nodup_nil
  · have hkeys := (hentries.map Prod.fst).nodup_iff.mp hnodup
    simp only [List.map_append] at hkeys
    exact (List.nodup_append.mp (List.nodup_append.mp hkeys).2.1).2.1

omit [DecidableEq K] in
/-- No two entries of a whole cache have the same key. -/
theorem distinct_entries (h : c.Whole r []) : ((c.entries r).map Prod.fst).Nodup := by
  have hkeys := h.tiered.keyed_holdings.nodup
  rw [List.append_nil, ← h.map_entries, List.map_map] at hkeys
  exact .of_map some (by rwa [List.map_map])

/-- Work that just drops entries costs these. -/
theorem costs_of_drops {step : Step (Cache K V) (Notice K V) α} (h : c.Whole r [])
    {dropped : List (K × V)} {displaced : Nat}
    (drops : step.Drops c r [] [] dropped (c.moved displaced)) :
    c.Costs r step [] [] dropped displaced := by
  obtain ⟨_, hattends⟩ := drops.attends
  refine h.costs hattends drops.quiet drops.notices (.inr ?_) drops.overflows
  rw [List.append_nil]
  exact h.distinct_entries

/-! ### Sizes -/

/-- What is over another size of the hard tier is loose. -/
theorem boundHard (h : c.Whole r loose) (size : Nat) :
    ({ c with size }.overHard r (·.setBound · (some size))).Drops c r loose
      ((c.hard.setBound r (some size)).result ++ loose) [] 0 where
  attends := ⟨[], attends_boundHard h.tiered h.issued size⟩
  quiet := by
    have hhandover := (Table.upholds_setBound h.tiered.hard h.issued.left (some size)).handover
    exact hhandover.quiet (.inr (c.hard.next_setBound r (some size)))
  notices := rfl
  overflows := rfl

/-- A smaller hard tier gives entries up to the soft tier, and what has no room there is dropped. -/
theorem costs_setSize (h : c.Whole r []) (size : Nat)
    (quiet : (c.setSize r size).reclaimer.epoch = r.epoch) :
    ∃ dropped, c.Costs r (c.setSize r size) [] [] dropped ((c.hard.entries r).length - size) ∧
      dropped.length = Table.excess (softBound c.softSize)
        ((c.soft.entries r).length + ((c.hard.entries r).length - size)) := by
  have hbound := h.boundHard size
  obtain ⟨dropped, hroutes⟩ := (hbound.whole h).route (quiet.trans hbound.quiet.symm)
  have hdisplaced : (c.hard.setBound r (some size)).result.length =
      (c.hard.entries r).length - size := by
    rw [h.tiered.length_setBound h.issued, Table.entries_eq_contents (h.tiered.hard_live r)]
  have hboth := hbound.andThenOf (fun c r evicted => c.routeOverflow r evicted) rfl hroutes.toDrops
  refine ⟨dropped, h.costs_of_drops ?_, ?_⟩
  · rw [← hdisplaced]
    exact hboth.same rfl rfl rfl
  · rw [hroutes.length, Table.entries_eq_contents h.soft_live, ← hdisplaced]
    rfl

/-- A smaller soft tier drops what it has no room for. -/
theorem costs_setSoftSize (h : c.Whole r []) (softSize : Int) :
    ∃ dropped, c.Costs r (c.setSoftSize r softSize) [] [] dropped 0 ∧
      dropped.length = Table.excess (softBound softSize) (c.soft.entries r).length := by
  have hbound : softBound (max softSize (-1)) = softBound softSize := by
    unfold softBound
    split <;> split <;> first | rfl | omega | (congr 2; omega)
  have hquiet := (Table.upholds_setBound h.tiered.soft h.issued.right
    (softBound (max softSize (-1)))).handover.quiet (.inr (c.soft.next_setBound r _))
  have hspills := h.tiered.soft.spills_setBound h.issued.right h.soft_live _ hquiet
  obtain ⟨dropped, hdropped⟩ := h.exists_pairs fun entry hentry => by
    refine List.mem_append_left _ (List.mem_append_right _ ?_)
    have hthere := hspills.contents.symm.subset (List.mem_append_right _ hentry)
    rwa [List.append_nil] at hthere
  rw [hdropped] at hspills
  have hattends := attends_setSoftSize h.tiered h.issued softSize
  refine ⟨dropped, h.costs_of_drops ⟨⟨[], hattends⟩, hquiet, ?_, ?_⟩, ?_⟩
  · show (c.soft.setBound r _).notices.filterMap ofSoft ++ [] = _
    rw [hspills.notices, filterMap_ofSoft_overflow, List.append_nil]
  · rw [moved, ite_self]
    exact overflows_hear _ _
  · rw [Table.entries_eq_contents h.soft_live, ← hbound]
    simpa using hspills.length

/-! ### Pins -/

/-- The value of a key is taken from the soft tier. -/
theorem takeSoftValue (h : c.Whole r loose) (key : K) :
    (c.overSoft r (·.remove · (some key))).Drops c r loose
      ((pinEntry (key, (c.soft.remove r (some key)).result)).toList ++ loose) [] 0 := by
  obtain ⟨departed, left, accounts, hnone, -⟩ :=
    Table.accounts_removeIf h.issued.right (some key) fun _ => true
  have hquiet := accounts.handover.quiet (.inr (c.soft.next_removeIf r (some key) _))
  have hdeparted := accounts.departed_eq_nil h.issued.right hquiet hnone h.soft_live
    (List.forall_mem_nil _)
  constructor
  case attends => exact ⟨[], attends_takeSoftValue h.tiered h.issued key⟩
  case quiet => exact hquiet
  case notices =>
    show (c.soft.removeIf r (some key) fun _ => true).notices.filterMap ofSoft = _
    rw [accounts.notices, hdeparted]
    rfl
  case overflows => exact overflows_hear _ _

/-- An entry is taken from the hard tier. -/
theorem takeHard (h : c.Whole r loose) (key : K) :
    (c.overHard r (·.removeEntry · (some key))).Drops c r loose
      (((c.hard.removeEntry r (some key)).result.toList.map fun value => (some key, value)) ++
        loose) [] 0 where
  attends := ⟨[], attends_takeHard h.tiered h.issued key⟩
  quiet := by
    have hhandover := (Table.upholds_removeIf h.tiered.hard h.issued.left (some key)
      fun _ => true).handover
    exact hhandover.quiet (.inr (c.hard.next_removeIf r (some key) _))
  notices := rfl
  overflows := rfl

/-- The value of a key is taken from the tier that has it. -/
theorem takeValue (h : c.Whole r []) (key : K) :
    (c.takeValue r key).Drops c r [] (pinEntry (key, (c.takeValue r key).result)).toList [] 0 := by
  have hhard := h.takeHard key
  set taken := c.overHard r (·.removeEntry · (some key)) with htaken
  have hresult : taken.result = (c.hard.removeEntry r (some key)).result := rfl
  rw [← hresult, List.append_nil] at hhard
  rw [show c.takeValue r key = taken.andThen _ from rfl]
  rcases htakes : taken.result with _ | _ | value
  · rw [htakes, Option.toList_none, List.map_nil] at hhard
    have hsoft := (hhard.whole h).takeSoftValue key
    rw [List.append_nil] at hsoft
    simp only [Step.andThen_result, htakes]
    exact hhard.andThenOf _ htakes hsoft
  · -- There is no null that could be taken.
    rw [htakes] at hhard
    exact absurd rfl ((hhard.whole h).named (List.mem_append_right _ List.mem_cons_self)).2
  · rw [htakes] at hhard
    simp only [Step.andThen_result, htakes]
    exact hhard.andThenOf _ htakes (.done (hhard.whole h) _)

/-- To pin a key costs nothing. -/
theorem costs_pin [Ordered K] (h : c.Whole r []) (key : K) :
    c.Costs r (c.pin r key) [] [] [] 0 := by
  have hattends := attends_pin h.tiered h.issued key
  refine h.costs_of_drops ?_
  rw [moved, ite_self]
  cases found : c.pins.find key with
  | some value =>
    rw [pin, found] at hattends ⊢
    exact ⟨⟨[], hattends⟩, rfl, rfl, rfl⟩
  | none =>
    have htake := h.takeValue key
    rw [pin_eq found] at hattends ⊢
    refine ⟨⟨[], hattends⟩, htake.quiet, ?_, htake.overflows⟩
    rw [Step.andThen_notices, htake.notices]
    rfl

/-- A loose entry is put into the hard tier. -/
theorem stow {key : K} {value : V} (h : c.Whole r ((some key, some value) :: loose)) :
    (c.overHard r (·.insert · (some key) (some value))).Drops c r ((some key, some value) :: loose)
      ((c.hard.insert r (some key) (some value)).result.evicted ++ loose) [] 0 where
  attends := ⟨[], attends_stow h.tiered h.issued⟩
  quiet := h.tiered.quiet_insertHard h.issued _
  notices := rfl
  overflows := rfl

omit [DecidableEq K] in
/-- With one entry more at most in the soft tier, one is over its bound at most. -/
theorem excess_one (h : c.Whole r loose) :
    Table.excess (softBound c.softSize)
        (c.soft.contents.length + (c.hard.contents.length + 1 - c.size)) =
      if c.HasRoom r then 0 else 1 := by
  have hhard := h.tiered.hard.within_bound
  have hsoft := h.tiered.soft.within_bound
  rw [h.tiered.hardBound, h.tiered.hard.counted, ← Table.length_contents] at hhard
  rw [h.tiered.softBound, h.tiered.soft.counted, ← Table.length_contents] at hsoft
  have hsize := hhard c.size rfl
  have hroom : c.HasRoom r ↔ c.hard.contents.length < c.size ∨ c.softSize < 0 ∨
      (c.soft.contents.length : Int) < c.softSize := by
    rw [HasRoom, Table.entries_eq_contents (h.tiered.hard_live r),
      Table.entries_eq_contents h.soft_live]
  rw [if_congr hroom rfl rfl]
  by_cases hbounded : 0 ≤ c.softSize
  · have hlimit : softBound c.softSize = some c.softSize.toNat := if_pos hbounded
    have hwithin := hsoft c.softSize.toNat hlimit
    rw [hlimit]
    simp only [Table.excess]
    split <;> omega
  · rw [if_pos (.inr (.inl (by omega))), softBound, if_neg hbounded]
    rfl

/-- To unpin a value costs one entry, unless there is room for it. -/
theorem costs_unpin (h : c.Whole r []) {key : K} {value : V}
    (found : c.pins.find key = some (some value))
    (quiet : (c.unpin r key).reclaimer.epoch = r.epoch) :
    ∃ dropped, c.Costs r (c.unpin r key) [] [] dropped ((c.hard.entries r).length + 1 - c.size) ∧
      dropped.length = if c.HasRoom r then 0 else 1 := by
  have hattends := attends_unpinLoose h.tiered h.issued found ()
  rw [List.append_nil] at hattends
  have hunpin : (Step.done { c with pins := c.pins.erase key } r ()).Drops c r []
      [(some key, some value)] [] 0 := ⟨⟨[], hattends⟩, rfl, rfl, rfl⟩
  have hloose : ({ c with pins := c.pins.erase key } : Cache K V).Whole r
      [(some key, some value)] := hunpin.whole h
  have hroom := h.excess_one
  rw [Table.entries_eq_contents (h.tiered.hard_live r)]
  by_cases hsize : c.size = 0
  · -- Without a hard tier the value goes on to the soft tier at once.
    have hdisplaced : c.hard.contents.length + 1 - c.size = 1 := by
      have hhard := h.tiered.hard.within_bound c.size h.tiered.hardBound
      rw [h.tiered.hard.counted, ← Table.length_contents] at hhard
      omega
    have hmoves : c.unpin r key = ((Step.done { c with pins := c.pins.erase key } r ()).andThen
        fun c r _ => c.routeOverflow r [(some key, some value)]).map fun _ => true := by
      simp only [unpin, found, if_pos hsize, Step.andThen, Step.done, List.nil_append]
    rw [hmoves] at quiet ⊢
    simp only [Step.map, Step.andThen_reclaimer, Step.done] at quiet
    obtain ⟨dropped, hroutes⟩ := Whole.route (List.append_nil [_] ▸ hloose) quiet
    have hboth := hunpin.andThenOf
      (fun c r _ => c.routeOverflow r [(some key, some value)]) rfl hroutes.toDrops
    rw [hdisplaced] at hroom ⊢
    exact ⟨dropped, h.costs_of_drops (hboth.map _), hroutes.length.trans hroom⟩
  · -- The hard tier takes the value in, and what it gives up for it is routed.
    have hmoves : c.unpin r key = ((Step.done { c with pins := c.pins.erase key } r ()).andThen
        fun c r _ => (c.overHard r (·.insert · (some key) (some value))).andThen
          fun c r placement => c.routeOverflow r placement.evicted).map fun _ => true := by
      simp only [unpin, found, if_neg hsize, Step.andThen, Step.done, List.nil_append]
    have hstow := hloose.stow
    have hdisplaced : (c.hard.insert r (some key) (some value)).result.evicted.length =
        c.hard.contents.length + 1 - c.size :=
      hloose.tiered.length_evicted hloose.issued fun hmem =>
        hloose.tiered.not_mem_roster (List.mem_append_left _ (List.mem_append_right _ hmem))
    rw [hmoves] at quiet ⊢
    simp only [Step.map, Step.andThen_reclaimer, Step.done] at quiet
    obtain ⟨dropped, hroutes⟩ := (hstow.whole hloose).route (quiet.trans hstow.quiet.symm)
    have hmoved := hstow.andThenOf
      (fun c r (placement : Table.Placement K V) => c.routeOverflow r placement.evicted) rfl
      hroutes.toDrops
    have hboth := hunpin.andThenOf (fun c r _ =>
      (c.overHard r (·.insert · (some key) (some value))).andThen fun c r placement =>
        c.routeOverflow r placement.evicted) rfl hmoved
    rw [← hdisplaced] at hroom ⊢
    exact ⟨dropped, h.costs_of_drops (hboth.map _), hroutes.length.trans hroom⟩

/-! ### Putting -/

variable {key : K} {value : V}

/-- What an entry is put in place of is announced as removed, and then the entry as added. -/
theorem place {fromSoft : Option V} (h : c.Whole r (pinEntry (key, fromSoft)).toList)
    (absent : some key ∉ c.pinKeys ++ c.soft.contents.map Prod.fst) (value : V) :
    (c.place r key fromSoft (some value)).state.Whole
        (c.place r key fromSoft (some value)).reclaimer
        (c.place r key fromSoft (some value)).result.evicted ∧
      ((c.place r key fromSoft (some value)).result.previous.or (fromSoft.map some)).toList.map
          (fun old => Notice.removed key old false) =
        ((((c.place r key fromSoft (some value)).result.previous.or
          (fromSoft.map some)).join.toList.map fun old => (key, old)).map PlainCache.farewell) := by
  have hreads := Mirror.reads_find h.tiered.distinct
  obtain ⟨hknown, -⟩ := h.tiered.known_place h.issued absent (some value) hreads
  constructor
  · refine h.attends (attends_place h.tiered h.issued absent (some value))
      (h.tiered.quiet_insertHard h.issued _) fun other hmem => ?_
    rw [notices_place, removals_of_option, List.mem_append] at hmem
    rcases hmem with hgone | hcame
    · exact AddsNothing.announce c r _ _ _ hgone
    · cases List.mem_singleton.mp hcame
  · generalize (c.place r key fromSoft (some value)).result.previous.or (fromSoft.map some) = old
      at hknown ⊢
    rcases old with _ | _ | old
    · rfl
    · exact absurd rfl (h.full _ (Directory.mem_of_find hknown))
    · rfl

/-- An entry is put into the hard tier in place of what its key had. What is over the size then goes
to the soft tier, and what is over the bound of that is dropped. -/
theorem supersede {fromSoft : Option V} (h : c.Whole r (pinEntry (key, fromSoft)).toList)
    (absent : some key ∉ c.pinKeys ++ c.soft.contents.map Prod.fst)
    (quiet : (c.supersede r key fromSoft (some value)).reclaimer.epoch = r.epoch) :
    ∃ dropped : List (K × V),
      (c.supersede r key fromSoft (some value)).notices =
        (((c.supersede r key fromSoft (some value)).result.toList.map
          fun old => (key, old)).map PlainCache.farewell) ++
          [(key, value)].map greeting ++ dropped.map PlainCache.farewell ∧
      (c.supersede r key fromSoft (some value)).state.metrics.overflows =
        c.metrics.overflows + c.moved (c.displaced key) ∧
      dropped.length =
        Table.excess (softBound c.softSize) (c.soft.contents.length + c.displaced key) := by
  obtain ⟨hplaced, hgone⟩ := h.place absent value
  have hquiet : (c.place r key fromSoft (some value)).reclaimer.epoch = r.epoch :=
    h.tiered.quiet_insertHard h.issued _
  have hdisplaced : (c.place r key fromSoft (some value)).result.evicted.length =
      c.displaced key := h.tiered.displaced_eq h.issued
  rw [← List.append_nil (c.place r key fromSoft (some value)).result.evicted] at hplaced
  obtain ⟨dropped, hroutes⟩ := hplaced.route (quiet.trans hquiet.symm)
  have hoverflows := hroutes.overflows
  have hlength := hroutes.length
  rw [hdisplaced] at hoverflows hlength
  refine ⟨dropped, ?_, hoverflows.trans ?_, hlength⟩
  · rw [notices_supersede, hgone, hroutes.notices, List.append_assoc]
    rfl
  · exact congrArg (· + c.moved (c.displaced key)) (overflows_hear _ _)

/-- A value for a key that is not pinned takes the place of the old one, wherever that is. -/
theorem put_unpinned (h : c.Whole r []) (missing : c.pins.find key = none) (hsize : c.size ≠ 0)
    (quiet : (c.put r key (some value)).reclaimer.epoch = r.epoch) :
    ∃ dropped : List (K × V),
      (c.put r key (some value)).notices =
        ((c.get r key).result.toList.map fun old => (key, old)).map PlainCache.farewell ++
          [(key, value)].map greeting ++ dropped.map PlainCache.farewell ∧
      (c.put r key (some value)).state.metrics.overflows =
        c.metrics.overflows + c.moved (c.displaced key) ∧
      dropped.length = Table.excess (softBound c.softSize)
        ((c.soft.remove r (some key)).state.contents.length + c.displaced key) := by
  have htake := h.takeSoftValue key
  have habsent := absent_of_takeUnpinned h.tiered h.issued missing
  rw [List.append_nil] at htake
  rw [← h.tiered.result_put h.issued (.inr hsize) (some value)]
  rw [put_eq missing hsize] at quiet ⊢
  rw [Step.andThen_reclaimer] at quiet
  obtain ⟨dropped, hnotices, hoverflows, hlength⟩ :=
    (htake.whole h).supersede habsent (quiet.trans htake.quiet.symm)
  rw [Step.andThen_notices, htake.notices, List.map_nil, List.nil_append, Step.andThen_state,
    Step.andThen_result]
  refine ⟨dropped, hnotices, hoverflows.trans ?_, hlength⟩
  exact congrArg (· + c.moved (c.displaced key)) htake.overflows

/-- When the value of a key has been taken from the soft tier, that has one entry less, if there was
one. -/
theorem length_takeSoft (h : c.Whole r []) (key : K) :
    (c.soft.remove r (some key)).state.contents.length +
        (if some key ∈ c.soft.contents.map Prod.fst then 1 else 0) =
      c.soft.contents.length := by
  have hadmits : ∀ entry ∈ c.soft.entries r, c.soft.excludes entry.1 = false :=
    fun entry _ => h.tiered.soft_excludes entry.1
  have hentries := h.tiered.soft.entries_removeEntry (some key) hadmits h.issued.right
  have htaken : (c.soft.removeEntry r (some key)).state.entries
      (c.soft.removeEntry r (some key)).reclaimer = (c.soft.remove r (some key)).state.contents :=
    Table.entries_eq_contents ((h.takeSoftValue key).whole h).soft_live
  rw [Table.entries_eq_contents h.soft_live, htaken] at hentries
  have hlength := hentries.length_eq
  have hresult : (c.soft.removeEntry r (some key)).result.isSome = true ↔
      some key ∈ c.soft.contents.map Prod.fst := by
    rw [← Table.entries_eq_contents h.soft_live, Option.isSome_iff_exists]
    simp [h.tiered.soft.result_removeEntry_iff hadmits h.issued.right]
  rw [List.length_append, List.length_map] at hlength
  split
  · next hthere =>
    obtain ⟨old, hold⟩ := Option.isSome_iff_exists.mp (hresult.mpr hthere)
    rw [hold] at hlength
    exact hlength.symm
  · next hmissing =>
    have hnone := Option.not_isSome_iff_eq_none.mp fun hsome => hmissing (hresult.mp hsome)
    rw [hnone] at hlength
    exact hlength.symm

/-- Just the keys of the hard tier are said to be there, and so are those of the soft one. -/
theorem containsKey_tiers (h : c.Whole r loose) :
    (c.hard.containsKey r (some key) = true ↔ some key ∈ c.hard.contents.map Prod.fst) ∧
      (c.soft.containsKey r (some key) = true ↔ some key ∈ c.soft.contents.map Prod.fst) := by
  rw [h.tiered.hard.containsKey_iff fun entry _ => h.tiered.hard_excludes entry.1,
    h.tiered.soft.containsKey_iff fun entry _ => h.tiered.soft_excludes entry.1,
    Table.entries_eq_contents (h.tiered.hard_live r), Table.entries_eq_contents h.soft_live]
  simp

/-- A key that is not pinned is in one tier or the other, if it is there. -/
theorem containsKey_iff_of_unpinned (h : c.Whole r []) (missing : c.pins.find key = none) :
    c.containsKey r key = true ↔
      some key ∈ c.hard.contents.map Prod.fst ∨ some key ∈ c.soft.contents.map Prod.fst := by
  have hpinned : c.pinnedValue key = none := by rw [pinnedValue, missing]; rfl
  rw [containsKey_eq, hpinned, Option.isSome_none, Bool.false_or, Bool.or_eq_true,
    h.containsKey_tiers.1, h.containsKey_tiers.2]

/-- The hard tier has a key that is seen and not pinned, or the key is in the soft tier. -/
theorem locate_eq_soft_iff (h : c.Whole r []) (missing : c.pins.find key = none)
    (seen : c.containsKey r key = true) :
    c.locate r key = some .soft ↔ some key ∉ c.hard.contents.map Prod.fst := by
  have hpinned : c.pinnedValue key = none := by rw [pinnedValue, missing]; rfl
  rw [locate, hpinned, ← h.containsKey_tiers.1]
  rw [h.containsKey_iff_of_unpinned missing, ← h.containsKey_tiers.1,
    ← h.containsKey_tiers.2] at seen
  cases hhard : c.hard.containsKey r (some key) with
  | true => simp
  | false => simpa [hhard] using seen

omit [DecidableEq K] in
/-- An entry with a value is in a whole cache just if it can be read. -/
theorem mem_entries_iff (h : c.Whole r []) :
    (key, value) ∈ c.entries r ↔ (some key, some value) ∈ c.legible r := by
  rw [h.legible_eq, ← h.map_entries]
  exact (List.mem_map_of_injective PlainCache.filled_injective).symm

/-- To put a new key costs one entry, unless there is room for it. -/
theorem costs_new (h : c.Whole r []) (hsize : c.size ≠ 0) (hidden : c.containsKey r key = false)
    (unpinned : key ∉ c.pinnedKeys) (quiet : (c.put r key (some value)).reclaimer.epoch = r.epoch) :
    ∃ dropped, c.Costs r (c.put r key (some value)) [(key, value)] [] dropped
        ((c.hard.entries r).length + 1 - c.size) ∧
      dropped.length = if c.HasRoom r then 0 else 1 := by
  have hmissing : c.pins.find key = none := by
    rwa [← Option.not_isSome_iff_eq_none, Directory.isSome_find_iff]
  have hunseen : ∀ old, (some key, old) ∉ c.legible r := fun old hentry =>
    Bool.false_ne_true (hidden.symm.trans (h.tiered.containsKey_iff.mpr ⟨old, hentry⟩))
  have hnone : (c.get r key).result = none := Option.eq_none_iff_forall_ne_some.mpr fun old hold =>
    hunseen _ ((h.tiered.result_get_iff h.issued).mp hold)
  obtain ⟨hhard, hsoft⟩ := not_or.mp fun hthere =>
    Bool.false_ne_true (hidden.symm.trans ((h.containsKey_iff_of_unpinned hmissing).mpr hthere))
  have hdisplaced : c.displaced key = c.hard.contents.length + 1 - c.size := if_neg hhard
  have hrest := h.length_takeSoft key
  rw [if_neg hsoft, Nat.add_zero] at hrest
  obtain ⟨dropped, hnotices, hoverflows, hlength⟩ := h.put_unpinned hmissing hsize quiet
  rw [hnone] at hnotices
  rw [hdisplaced] at hoverflows
  rw [hrest, hdisplaced, h.excess_one] at hlength
  rw [Table.entries_eq_contents (h.tiered.hard_live r)]
  refine ⟨dropped, h.costs (attends_put h.tiered h.issued key (some value)) quiet hnotices
    (.inr ?_) hoverflows, hlength⟩
  rw [List.map_append]
  refine h.distinct_entries.append (List.nodup_singleton key) fun other hother hsame => ?_
  obtain ⟨⟨_, old⟩, hentry, rfl⟩ := List.mem_map.mp hother
  obtain rfl := List.mem_singleton.mp hsame
  exact hunseen _ (h.mem_entries_iff.mp hentry)

/-- To put a key that is there costs its old value and nothing else. -/
theorem costs_known (h : c.Whole r []) (takes : c.Takes key) (seen : c.containsKey r key = true)
    (quiet : (c.put r key (some value)).reclaimer.epoch = r.epoch) :
    ∃ old, (c.get r key).result = some old ∧
      c.Costs r (c.put r key (some value)) [(key, value)] [(key, old)] []
        (if c.locate r key = some .soft then (c.hard.entries r).length + 1 - c.size else 0) := by
  obtain ⟨_ | old, hentry⟩ := h.tiered.containsKey_iff.mp seen
  · -- There is no null.
    rw [h.legible_eq] at hentry
    exact absurd rfl (h.full _ (List.mem_append_left _ hentry))
  have hget := (h.tiered.result_get_iff h.issued).mpr hentry
  refine ⟨old, hget, ?_⟩
  cases found : c.pins.find key with
  | some pinned =>
    obtain rfl : pinned = some old := (h.tiered.result_get_of_find h.issued found).symm.trans hget
    have hlocate : c.locate r key ≠ some .soft := by
      simp [locate, pinnedValue, found]
    have hput : c.put r key (some value) =
        ({ c with pins := c.pins.modify key (some value) }.announce r
          (pinNotices key (some old) (some value))).map fun _ => some old := by
      rw [put, found]
    refine h.costs (attends_put h.tiered h.issued key (some value)) quiet ?_ (.inl rfl) ?_
    · rw [hput]
      rfl
    · rw [hput, if_neg hlocate, ite_self]
      exact overflows_hear _ _
  | none =>
    have hsize : c.size ≠ 0 := takes.resolve_left (by simp [found])
    obtain ⟨dropped, hnotices, hoverflows, hlength⟩ := h.put_unpinned found hsize quiet
    have hdisplaced : c.displaced key =
        if c.locate r key = some .soft then (c.hard.entries r).length + 1 - c.size else 0 := by
      rw [displaced, Table.entries_eq_contents (h.tiered.hard_live r),
        if_congr (h.locate_eq_soft_iff found seen) rfl rfl, ite_not]
    -- Where the soft tier gives the key up, there is room for what the hard tier gives up.
    have hfew : (c.soft.remove r (some key)).state.contents.length + c.displaced key ≤
        c.soft.contents.length := by
      have hrest := h.length_takeSoft key
      have hhard := h.tiered.hard.within_bound c.size h.tiered.hardBound
      rw [h.tiered.hard.counted, ← Table.length_contents] at hhard
      rw [displaced]
      split
      · omega
      · next hnew =>
        rw [if_pos (((h.containsKey_iff_of_unpinned found).mp seen).resolve_left hnew)] at hrest
        omega
    rw [h.excess_eq_zero hfew] at hlength
    obtain rfl := List.eq_nil_of_length_eq_zero hlength
    rw [hget] at hnotices
    rw [← hdisplaced]
    exact h.costs (attends_put h.tiered h.issued key (some value)) quiet hnotices (.inl rfl)
      hoverflows

/-- Every whole cache loses just that. -/
theorem losses [Ordered K] (h : c.Whole r []) : c.Losses r where
  new _ _ hsize hidden unpinned quiet := h.costs_new hsize hidden unpinned quiet
  known _ _ takes seen quiet := h.costs_known takes seen quiet
  refused _ value refused := put_of_not_takes refused r (some value)
  pin := h.costs_pin
  unpin _ _ found quiet := h.costs_unpin found quiet
  setSize := h.costs_setSize
  setSoftSize := h.costs_setSoftSize

end Whole

end Cache

end SoftCache
