import SoftCache.Proofs.Cache.Calm
import SoftCache.Proofs.Cache.Pinning
import SoftCache.Proofs.Table.Refinement

/-!
# Calm caches as plain caches

While a cache is calm, its tiers do not show. Whatever moves between them, and however the hard tier
chooses what it gives up, every request is answered as a plain cache answers it, and only what the
plain cache loses is announced to leave (`Cache.Carries.answers_perform`).
-/

open scoped List

namespace SoftCache.Cache

open Mirror

variable {K V α : Type} [DecidableEq K] [Hashed K] {c : Cache K V} {r : Reclaimer}
  {loose loose' : List (Entry K V)} {p : PlainCache K V}

/-- A new cache whose soft tier has no bound carries an empty plain one. -/
theorem carries_create {shared : SharedFractions} {o : Options} {epoch : Nat}
    (made : create shared o epoch = .ok c)
    (negative : o.softSize < 0) (issued : r.Issued c.payloads) (budget : r.budget = none) :
    c.Carries r [] ⟨∅, ∅, o.size⟩ := by
  obtain ⟨htiered, hempty, hpayloads⟩ := tiered_create made
  obtain ⟨loadFactor, cursor, order, rfl⟩ := create_eq made
  refine ⟨⟨htiered, issued, budget, ?_, ?_⟩, ?_, ?_, rfl⟩
  · show max o.softSize (-1) < 0
    omega
  · rw [hpayloads]
    exact List.forall_mem_nil _
  · rw [hempty, PlainCache.mirror_empty]
    exact reads_empty
  · simp [pinnedKeys]

namespace Carries

/-! ## Overflow -/

/-- A loose entry is put into the soft tier, which gives up nothing for it. -/
theorem settle {key : K} {value : V} (h : c.Carries r ((some key, some value) :: loose) p) :
    (c.overSoft r (·.insert · (some key) (some value))).Brings loose p [] := by
  obtain ⟨came, departed, left, hinsertion⟩ :=
    Table.insertion_insert h.tiered.soft.capacity_pos h.issued.right (some key) (some value)
  have hnone : Departure.evictions departed = [] := by
    rw [← hinsertion.evicted]
    exact h.tiered.soft.evicted_of_bound h.issued.right h.soft_bound _ _
  exact h.idle (attends_settle h.tiered h.issued) ⟨rfl, rfl, rfl⟩
    (h.silent hinsertion.accounts hnone hinsertion.lasts)

/-- An entry that the hard tier gave up goes to the soft tier. -/
theorem routeOne {key : K} {value : V} (h : c.Carries r ((some key, some value) :: loose) p) :
    (c.routeEntry r key (some value)).Brings loose p [] := by
  have hsettles : ((some value).isSome && c.softSize ≠ 0) = true := by
    have := h.unbounded
    simp only [Option.isSome_some, Bool.true_and, decide_eq_true_eq]
    omega
  rw [routeEntry, if_pos hsettles]
  have hcount := h.tally (fun m => { m with overflows := m.overflows + 1 }) ()
  exact (hcount.andThen (fun c r _ => c.overSoft r (·.insert · (some key) (some value)))
    hcount.carries.settle).same rfl rfl rfl

/-- What the hard tier gives up goes to the soft tier, and nothing is lost. -/
theorem route {gone : List (Entry K V)} (h : c.Carries r (gone ++ loose) p) :
    (c.routeOverflow r gone).Brings loose p [] := by
  -- By induction on the entries: one is routed while the others stay loose.
  induction gone generalizing c r with
  | nil => exact h.done ()
  | cons entry rest ih =>
    obtain ⟨key, value, rfl⟩ := h.valued (List.mem_append_right _ List.mem_cons_self)
    have hfirst : (c.routeEntry r key (some value)).Brings (rest ++ loose) p [] := routeOne h
    rw [routeOverflow_cons]
    exact hfirst.andThen _ (ih hfirst.carries)

/-- Of all that the hard tier gives up nothing is lost. -/
theorem routeAll {gone : List (Entry K V)} (h : c.Carries r gone p) :
    (c.routeOverflow r gone).Brings [] p [] := by
  rw [← List.append_nil gone] at h
  exact h.route

/-! ## Lookups -/

/-- All entries can be read. -/
theorem legible_eq (h : c.Carries r loose p) : c.legible r = c.holdings := by
  rw [legible, h.hard.entries_eq, h.soft.entries_eq]
  rfl

/-- A lookup finds what the plain cache has, wherever that is. -/
theorem result_get (h : c.Carries r [] p) (key : K) : (c.get r key).result = p.map.lookup key := by
  refine Option.ext fun value => ?_
  rw [h.tiered.result_get_iff h.issued, h.legible_eq, h.lookup_iff, List.append_nil]

/-- A key that is pinned has the value of its pin, and no other. -/
theorem lookup_of_pin (h : c.Carries r [] p) {key : K} {value : Option V}
    (found : c.pins.find key = some value) : p.map.lookup key = value :=
  (h.result_get key).symm.trans (h.tiered.result_get_of_find h.issued found)

/-- A value is one of a pin, of the hard tier, or of the soft tier. -/
theorem lookup_cases (h : c.Carries r [] p) {key : K} {value : V} :
    p.map.lookup key = some value ↔ c.pins.find key = some (some value) ∨
      (some key, some value) ∈ c.hard.contents ∨ (some key, some value) ∈ c.soft.contents := by
  rw [h.lookup_iff, List.append_nil, holdings, List.mem_append, List.mem_append,
    h.tiered.mem_pinned_iff, or_assoc]

/-- A key has no value if no pin has one for it and no tier has it. -/
theorem lookup_eq_none (h : c.Carries r [] p) {key : K} (unpinned : c.pinnedValue key = none)
    (hhard : ∀ value, (some key, some value) ∉ c.hard.contents)
    (hsoft : ∀ value, (some key, some value) ∉ c.soft.contents) : p.map.lookup key = none := by
  refine Option.eq_none_iff_forall_ne_some.mpr fun value hvalue => ?_
  rcases h.lookup_cases.mp hvalue with hpin | hmem | hmem
  · rw [pinnedValue, hpin] at unpinned
    cases unpinned
  · exact hhard value hmem
  · exact hsoft value hmem

/-- The hard tier is asked for a key. -/
theorem getHard (h : c.Carries r loose p) (key : K) :
    (c.overHard r (·.get · (some key))).Brings loose p [] := by
  obtain ⟨departed, accounts, hnone⟩ := Table.accounts_lookup h.issued.left (some key)
  have hhard := attends_overHard_quiet (·.get · (some key)) h.tiered h.issued
    (accounts.map Option.join) hnone (Table.upholds_lookup h.tiered.hard h.issued.left _).sound
    (c.hard.next_lookup r _)
  exact h.idle hhard ⟨rfl, rfl, rfl⟩ rfl

/-- The soft tier is asked for a key. -/
theorem getSoft (h : c.Carries r loose p) (key : K) :
    (c.overSoft r (·.get · (some key))).Brings loose p [] := by
  obtain ⟨departed, accounts, hnone⟩ := Table.accounts_lookup h.issued.right (some key)
  have hsoft := attends_overSoft_quiet (·.get · (some key)) h.tiered h.issued
    (accounts.map Option.join) (Table.upholds_lookup h.tiered.soft h.issued.right _).sound
    (c.soft.next_lookup r _)
  exact h.idle hsoft ⟨rfl, rfl, rfl⟩
    (h.silent (accounts.map Option.join) hnone (List.forall_mem_nil _))

/-- A lookup takes nothing out. -/
theorem get (h : c.Carries r [] p) (key : K) : (c.get r key).Brings [] p [] := by
  unfold Cache.get
  cases c.pinnedValue key with
  | some value => exact h.tally _ _
  | none =>
    have hhard := h.getHard key
    refine hhard.andThen _ ?_
    cases (c.overHard r (·.get · (some key))).result with
    | some value => exact hhard.carries.tally _ _
    | none =>
      have hsoft := hhard.carries.getSoft key
      refine hsoft.andThen _ ?_
      split <;> exact hsoft.carries.tally _ _

/-! ## Reading -/

/-- The cache has just the entries of the plain one, each once. -/
theorem exists_lists (h : c.Carries r [] p) :
    ∃ l, p.Lists l ∧ c.holdings = l.map PlainCache.filled := by
  have hrange : c.holdings ∈ Set.range (List.map (PlainCache.filled (K := K) (V := V))) := by
    rw [Set.range_list_map]
    intro entry hentry
    obtain ⟨key, value, rfl⟩ := h.valued (List.mem_append_left [] hentry)
    exact ⟨(key, value), rfl⟩
  obtain ⟨l, hl⟩ := hrange
  refine ⟨l, ⟨?_, fun key value => ?_⟩, hl.symm⟩
  · have hdistinct := h.tiered.distinct
    rw [List.append_nil, ← hl, List.map_map] at hdistinct
    refine List.Nodup.of_map some ?_
    rw [List.map_map]
    exact hdistinct
  · rw [h.lookup_iff, List.append_nil, ← hl]
    constructor
    · exact fun hentry => List.mem_map_of_mem (f := PlainCache.filled) hentry
    · intro hentry
      obtain ⟨_, hmem, heq⟩ := List.mem_map.mp hentry
      cases heq
      exact hmem

/-- What is read of the cache is what is in the plain one. -/
theorem exists_reading (h : c.Carries r [] p) :
    ∃ l, p.Lists l ∧ c.keys r = l.map Prod.fst ∧ c.entries r = l := by
  obtain ⟨l, hlists, hl⟩ := h.exists_lists
  have hlegible := h.legible_eq.trans hl
  refine ⟨l, hlists, ?_, h.tiered.entries_eq_of_legible hlegible⟩
  refine List.map_injective_iff.mpr (Option.some_injective K) ?_
  rw [h.tiered.map_keys r, hlegible, List.map_map, List.map_map]
  rfl

/-- The entries of the hard tier are entries of the cache, and have values. -/
theorem valued_hard (h : c.Carries r loose p) {entry : Entry K V}
    (hentry : entry ∈ c.hard.contents) :
    ∃ key value, entry = (some key, some value) :=
  h.valued (List.mem_append_left _ (List.mem_append_left _ (List.mem_append_right _ hentry)))

/-- The soft tier holds keys with values only. -/
theorem valued_soft (h : c.Carries r loose p) {entry : Entry K V}
    (hentry : entry ∈ c.soft.contents) :
    ∃ key value, entry = (some key, some value) :=
  h.valued (List.mem_append_left _ (List.mem_append_right _ hentry))

/-- A key is in some tier just if it has a value. -/
theorem isSome_locate (h : c.Carries r [] p) (key : K) :
    (c.locate r key).isSome = (p.map.lookup key).isSome := by
  have hlocate : (c.locate r key).isSome = ((c.pinnedValue key).isSome ||
      c.hard.containsKey r (some key) || c.soft.containsKey r (some key)) := by
    unfold locate
    cases (c.pinnedValue key).isSome <;> cases c.hard.containsKey r (some key) <;>
      cases c.soft.containsKey r (some key) <;> rfl
  rw [hlocate, Bool.eq_iff_iff, Bool.or_eq_true, Bool.or_eq_true, h.hard.containsKey_iff,
    h.soft.containsKey_iff, Option.isSome_iff_exists, Option.isSome_iff_exists]
  constructor
  · rintro ((⟨value, hvalue⟩ | ⟨content, hmem⟩) | ⟨content, hmem⟩)
    · exact ⟨value, h.lookup_of_pin (Option.join_eq_some_iff.mp hvalue)⟩
    · obtain ⟨_, value, heq⟩ := h.valued_hard hmem
      cases heq
      exact ⟨value, h.lookup_cases.mpr (.inr (.inl hmem))⟩
    · obtain ⟨_, value, heq⟩ := h.valued_soft hmem
      cases heq
      exact ⟨value, h.lookup_cases.mpr (.inr (.inr hmem))⟩
  · rintro ⟨value, hvalue⟩
    rcases h.lookup_cases.mp hvalue with hpin | hmem | hmem
    · exact .inl (.inl ⟨value, Option.join_eq_some_iff.mpr hpin⟩)
    · exact .inl (.inr ⟨_, hmem⟩)
    · exact .inr ⟨_, hmem⟩

/-- A value is in some tier just if a key has it. -/
theorem containsValue_iff [DecidableEq V] (h : c.Carries r [] p) (value : V) :
    c.containsValue r (some value) = true ↔ ∃ key, p.map.lookup key = some value := by
  rw [containsValue, Option.isSome_some, Bool.true_and, Bool.or_eq_true, Bool.or_eq_true,
    List.any_eq_true, h.hard.containsValue_iff, h.soft.containsValue_iff]
  constructor
  · rintro ((⟨⟨key, content⟩, hpin, heq⟩ | ⟨key, hmem⟩) | ⟨key, hmem⟩)
    · cases beq_iff_eq.mp heq
      exact ⟨key, h.lookup_of_pin (Directory.find_of_mem h.tiered.pins_distinct hpin)⟩
    · obtain ⟨key, _, heq⟩ := h.valued_hard hmem
      cases heq
      exact ⟨key, h.lookup_cases.mpr (.inr (.inl hmem))⟩
    · obtain ⟨key, _, heq⟩ := h.valued_soft hmem
      cases heq
      exact ⟨key, h.lookup_cases.mpr (.inr (.inr hmem))⟩
  · rintro ⟨key, hvalue⟩
    rcases h.lookup_cases.mp hvalue with hpin | hmem | hmem
    · exact .inl (.inl ⟨_, Directory.mem_of_find hpin, beq_self_eq_true _⟩)
    · exact .inl (.inr ⟨_, hmem⟩)
    · exact .inr ⟨_, hmem⟩

/-- A null is only there for a pinned key without a value. -/
theorem containsNull_iff [DecidableEq V] (h : c.Carries r [] p) :
    c.containsValue r none = true ↔ ∃ key ∈ p.pins, p.map.lookup key = none := by
  rw [containsValue, Option.isSome_none, Bool.false_and, Bool.or_false, Bool.or_eq_true,
    List.any_eq_true, h.hard.containsValue_iff]
  constructor
  · rintro (⟨⟨key, content⟩, hpin, heq⟩ | ⟨key, hmem⟩)
    · cases beq_iff_eq.mp heq
      have hkey : key ∈ p.pins := (h.pins_iff key).mp (List.mem_map_of_mem (f := Prod.fst) hpin)
      exact ⟨key, hkey, h.lookup_of_pin (Directory.find_of_mem h.tiered.pins_distinct hpin)⟩
    · obtain ⟨_, _, heq⟩ := h.valued_hard hmem
      cases heq
  · rintro ⟨key, hkey, hnone⟩
    obtain ⟨⟨key, content⟩, hpin, rfl⟩ := List.mem_map.mp ((h.pins_iff key).mpr hkey)
    have hcontent := h.lookup_of_pin (Directory.find_of_mem h.tiered.pins_distinct hpin)
    rw [hnone] at hcontent
    exact .inl ⟨_, hpin, beq_iff_eq.mpr hcontent.symm⟩

/-! ## Counting -/

/-- The soft tier is counted. -/
theorem softLength (h : c.Carries r loose p) : (c.overSoft r Table.length).Brings loose p [] := by
  obtain ⟨departed, accounts, hnone⟩ := Table.accounts_length h.issued.right
  exact h.idle (attends_softLength h.tiered h.issued) ⟨rfl, rfl, rfl⟩
    (h.silent accounts hnone (List.forall_mem_nil _))

/-- The entries are counted. -/
theorem length (h : c.Carries r [] p) :
    (c.length r).Brings [] p [] ∧ (c.length r).result = p.map.keys.card := by
  constructor
  · obtain ⟨departed, accounts, hnone⟩ := Table.accounts_length h.issued.left
    have hwork := attends_overHard_quiet _ h.tiered h.issued accounts hnone
      (Table.upholds_length h.tiered.hard h.issued.left).sound (c.hard.next_length r)
    have hhard : (c.overHard r Table.length).Brings [] p [] := h.idle hwork ⟨rfl, rfl, rfl⟩ rfl
    have hsoft := hhard.carries.softLength
    exact hhard.andThen _ (hsoft.andThen _ (hsoft.carries.done _))
  · obtain ⟨l, hlists, hkeys, -⟩ := h.exists_reading
    rw [h.tiered.result_length h.issued fun _ => Table.stale_eq_nil_iff.mpr h.soft.live, hkeys,
      List.length_map, PlainMap.card_keys_of_lists hlists.nodup hlists.mem_iff]

/-- Nothing has expired. -/
theorem removeExpired (h : c.Carries r [] p) :
    (c.removeExpired r).Brings [] p [] ∧ (c.removeExpired r).result = 0 := by
  obtain ⟨departed, accounts, hnone⟩ := Table.accounts_removeExpired h.issued.right
  have hsilent := h.silent accounts hnone (List.forall_mem_nil _)
  refine ⟨h.idle (attends_removeExpired h.tiered h.issued) ⟨rfl, rfl, rfl⟩ hsilent, ?_⟩
  show (c.soft.removeExpired r).result = 0
  rw [h.tiered.soft.result_removeExpired, Table.stale_eq_nil_iff.mpr h.soft.live, List.length_nil]

/-- The self-check leaves the cache alone. -/
theorem check (h : c.Carries r [] p) : (c.violation? r).Brings [] p [] := by
  have hbound : c.softOverBound? r = .done c r none := by
    unfold softOverBound?
    rw [h.softSize_eq]
    rfl
  rw [h.tiered.violation?_eq r, hbound]
  exact (h.done _).andThen _ (h.done _)

/-! ## Putting -/

/-- The value of a key is taken from the soft tier. -/
theorem takeSoftValue (h : c.Carries r [] p) (key : K) :
    (c.overSoft r (·.remove · (some key))).Brings
      (pinEntry (key, (c.soft.remove r (some key)).result)).toList p [] := by
  obtain ⟨departed, left, accounts, hnone, -⟩ :=
    Table.accounts_removeIf h.issued.right (some key) fun _ => true
  have htake := attends_takeSoftValue h.tiered h.issued key
  rw [List.append_nil] at htake
  exact h.idle htake ⟨rfl, rfl, rfl⟩
    (h.silent (accounts.map Option.join) hnone (List.forall_mem_nil _))

/-- An entry is put into the hard tier in place of what its key had, and what overflows is
routed. -/
theorem supersede {key : K} {fromSoft : Option V}
    (h : c.Carries r (pinEntry (key, fromSoft)).toList p)
    (absent : some key ∉ c.pinKeys ++ c.soft.contents.map Prod.fst) (value : V) :
    (c.supersede r key fromSoft (some value)).Brings [] { p with map := p.map.insert key value }
        (p.entryOf key) ∧
      (c.supersede r key fromSoft (some value)).result = p.map.lookup key := by
  have hattends := attends_place h.tiered h.issued absent (some value)
  obtain ⟨hplace, hold⟩ := h.replaces hattends ⟨rfl, rfl, rfl⟩ rfl
  constructor
  · have hroute := hplace.carries.routeAll
    rw [← List.append_nil (p.entryOf key)]
    exact (hplace.andThen (fun c r placement => c.routeOverflow r placement.evicted) hroute).same
      rfl rfl rfl
  · rw [← p.join_mirror, hold]
    rfl

/-- The values that a plain cache takes are those that are put. -/
theorem takes_iff (h : c.Carries r loose p) (key : K) :
    p.takes key ↔ c.size ≠ 0 ∨ (c.pins.find key).isSome := by
  rw [PlainCache.takes, ← h.size_eq, ← h.pins_iff, Directory.isSome_find_iff]
  rfl

/-- A value that is taken is put in place of the one that the key had. -/
theorem put (h : c.Carries r [] p) {key : K} (taken : p.takes key) (value : V) :
    (c.put r key (some value)).Brings [] { p with map := p.map.insert key value }
        (p.entryOf key) ∧
      (c.put r key (some value)).result = p.map.lookup key := by
  cases found : c.pins.find key with
  | some old =>
    have hattends := attends_repin h.tiered h.issued found (some value)
    have hpin : pinNotices key old (some value) =
        ((old.map some).toList.map fun old => .removed key old false) ++
          [.added key (some value)] := by
      cases old <;> rfl
    obtain ⟨hput, -⟩ := h.replaces hattends ⟨Directory.keys_modify .., rfl, rfl⟩ hpin
    rw [Cache.put, found]
    exact ⟨hput.same rfl rfl rfl, (h.lookup_of_pin found).symm⟩
  | none =>
    have hsize : c.size ≠ 0 := by
      rcases (h.takes_iff key).mp taken with hsize | hpin
      · exact hsize
      · rw [found] at hpin
        cases hpin
    have htake := h.takeSoftValue key
    -- The soft tier gives the key up before the hard tier takes it.
    obtain ⟨hput, hresult⟩ :=
      htake.carries.supersede (absent_of_takeUnpinned h.tiered h.issued found) value
    rw [put_eq found hsize]
    exact ⟨htake.andThen (fun c r fromSoft => c.supersede r key fromSoft (some value)) hput,
      hresult⟩

/-- A value that is not taken is not put. -/
theorem put_of_not_takes (h : c.Carries r [] p) {key : K} (refused : ¬p.takes key) (value : V) :
    c.put r key (some value) = .done c r none := by
  rw [h.takes_iff, not_or, not_not, Bool.not_eq_true, Option.isSome_eq_false_iff,
    Option.isNone_iff_eq_none] at refused
  rw [Cache.put, refused.2]
  exact if_pos refused.1

/-- A value is put if it is taken. -/
theorem putIf (h : c.Carries r [] p) (key : K) (value : V) :
    (c.put r key (some value)).Brings [] (p.put key value) (p.replaced key) := by
  unfold PlainCache.put PlainCache.replaced
  split
  · next taken => exact (h.put taken value).1
  · next refused =>
    rw [h.put_of_not_takes refused]
    exact h.done none

/-- Values are put one after the other. -/
theorem putAll (h : c.Carries r [] p) (replace : Bool) (entries : List (K × V)) :
    (c.putAll r replace entries).Brings [] (p.putAll replace entries)
      (p.replacedAll replace entries) := by
  induction entries generalizing c r p with
  | nil => exact h.done ()
  | cons entry rest ih =>
    obtain ⟨key, value⟩ := entry
    have hcontains : c.containsKey r key = (p.map.lookup key).isSome := h.isSome_locate key
    rw [Cache.putAll, PlainCache.putAll, PlainCache.replacedAll, hcontains]
    split
    · exact ih h
    · have hput := h.putIf key value
      exact hput.andThen _ (ih hput.carries)

/-! ## Removing -/

/-- An entry is taken from the hard tier. -/
theorem takeHard (h : c.Carries r [] p) (key : K) :
    (c.overHard r (·.removeEntry · (some key))).Brings
      ((c.hard.removeEntry r (some key)).result.toList.map fun value => (some key, value)) p
      [] := by
  have htake := attends_takeHard h.tiered h.issued key
  rw [List.append_nil] at htake
  exact h.idle htake ⟨rfl, rfl, rfl⟩ rfl

/-- An entry is taken from the soft tier. -/
theorem takeSoft (h : c.Carries r [] p) (key : K) :
    (c.overSoft r (·.removeEntry · (some key))).Brings
      ((c.soft.removeEntry r (some key)).result.toList.map fun value => (some key, value)) p
      [] := by
  obtain ⟨departed, left, accounts, hnone, -⟩ :=
    Table.accounts_removeIf h.issued.right (some key) fun _ => true
  have htake := attends_takeSoft h.tiered h.issued key
  rw [List.append_nil] at htake
  exact h.idle htake ⟨rfl, rfl, rfl⟩ (h.silent accounts hnone (List.forall_mem_nil _))

/-- An entry is taken from the tier that has it. If none has it, and no pin, then the key has no
value. -/
theorem takeEntry (h : c.Carries r [] p) {key : K} (missing : c.pins.find key = none) :
    (c.takeEntry r key).Brings
        ((c.takeEntry r key).result.toList.map fun value => (some key, value)) p [] ∧
      ((c.takeEntry r key).result = none → p.map.lookup key = none) := by
  have hhard := h.takeHard key
  rw [result_takeEntry]
  rcases hresult : (c.hard.removeEntry r (some key)).result with _ | value
  · rw [hresult] at hhard
    have hsoft := hhard.carries.takeSoft key
    refine ⟨hhard.andThenOf hresult hsoft, fun hnone => ?_⟩
    refine h.lookup_eq_none ?_ (fun value hmem => ?_) fun value hmem => ?_
    · rw [pinnedValue, missing]
      rfl
    · rw [h.hard.result_removeEntry_iff.mpr hmem] at hresult
      cases hresult
    · -- The soft tier is asked when the hard one has been, and is as it was.
      have hsome := hhard.carries.soft.result_removeEntry_iff.mpr hmem
      exact Option.some_ne_none _ (hsome.symm.trans hnone)
  · rw [hresult] at hhard
    exact ⟨hhard.andThenOf hresult (hhard.carries.done _), fun hnone =>
      absurd hnone (Option.some_ne_none _)⟩

/-- A key that is removed goes with the value that it had. -/
theorem remove (h : c.Carries r [] p) (key : K) :
    (c.remove r key).Brings [] { p with map := p.map.erase key } (p.entryOf key) ∧
      (c.remove r key).result = p.map.lookup key := by
  cases found : c.pins.find key with
  | some old =>
    have hattends := attends_repin h.tiered h.issued found none
    have hpin : pinNotices key old none =
        (old.map some).toList.map fun old => .removed key old false := by
      cases old <;> rfl
    have habsent : old.map some = none → p.map.lookup key = none := fun hnone =>
      (h.lookup_of_pin found).trans (Option.map_eq_none_iff.mp hnone)
    obtain ⟨hstrike, -⟩ := h.strikes hattends ⟨Directory.keys_modify .., rfl, rfl⟩ hpin habsent
    rw [Cache.remove, found, h.lookup_of_pin found]
    cases old <;> exact ⟨hstrike.same rfl rfl rfl, rfl⟩
  | none =>
    obtain ⟨htake, habsent⟩ := h.takeEntry found
    have hattends := attends_announceAll htake.carries.tiered htake.carries.issued
    rw [← removals_of_option] at hattends
    obtain ⟨hstrike, hold⟩ := htake.carries.strikes hattends ⟨rfl, rfl, rfl⟩ rfl habsent
    rw [Cache.remove, found]
    refine ⟨(htake.andThen (fun c r old =>
      c.announce r (old.toList.map fun old => .removed key old false)) hstrike).same rfl rfl rfl,
      ?_⟩
    rw [← p.join_mirror, hold]
    rfl

/-! ## Pinning -/

/-- The value of a key is taken from the tier that has it. -/
theorem takeValue (h : c.Carries r [] p) (key : K) :
    (c.takeValue r key).Brings (pinEntry (key, (c.takeValue r key).result)).toList p [] := by
  have hhard := h.takeHard key
  have hanswer : (c.overHard r (·.removeEntry · (some key))).result =
      (c.hard.removeEntry r (some key)).result := rfl
  rw [show c.takeValue r key = (c.overHard r (·.removeEntry · (some key))).andThen _ from rfl]
  rcases hresult : (c.hard.removeEntry r (some key)).result with _ | _ | value <;>
    rw [hresult] at hhard hanswer <;>
    simp only [Step.andThen_result, hanswer]
  · exact hhard.andThenOf hanswer (hhard.carries.takeSoftValue key)
  · -- There are no nulls.
    obtain ⟨_, _, heq⟩ := hhard.carries.valued (List.mem_append_right _ List.mem_cons_self)
    cases heq
  · exact hhard.andThenOf hanswer (hhard.carries.done _)

/-- A key is pinned with the value that it has. -/
theorem pin [Ordered K] (h : c.Carries r [] p) (key : K) :
    (c.pin r key).Brings [] { p with pins := insert key p.pins } [] := by
  cases found : c.pins.find key with
  | some value =>
    have hkey : key ∈ p.pins :=
      (h.pins_iff key).mp (List.mem_map_of_mem (f := Prod.fst) (Directory.mem_of_find found))
    rw [Cache.pin, found, Finset.insert_eq_of_mem hkey]
    exact h.done _
  | none =>
    have htake := h.takeValue key
    have habsent := (attends_takeValue h.tiered h.issued found).2
    rw [← List.append_nil (roster _)] at habsent
    have htiered := htake.carries.tiered
    rw [← List.append_nil (pinEntry _).toList] at htiered
    have hattends := attends_pinLoose htiered htake.carries.issued habsent
      (c.takeValue r key).result.isSome
    rw [List.append_nil] at hattends
    have hkeys : ∀ other, other ∈ Cache.pinnedKeys
        { (c.takeValue r key).state with
          pins := Directory.insertBefore (Ordered.before key) key (c.takeValue r key).result
            (c.takeValue r key).state.pins } ↔ other ∈ insert key p.pins := by
      intro other
      rw [Finset.mem_insert, ← htake.carries.pins_iff other]
      exact ((Directory.insertBefore_perm ..).map Prod.fst).mem_iff.trans List.mem_cons
    have hpin := htake.carries.unheard hattends htake.carries.unbounded rfl hkeys
      htake.carries.size_eq
    rw [pin_eq found]
    exact htake.andThen (fun c r value =>
      .done { c with pins := Directory.insertBefore (Ordered.before key) key value c.pins } r
        value.isSome) hpin

/-- A key is unpinned. Its value is loose, if it had one. -/
theorem unpinLoose (h : c.Carries r [] p) {key : K} {value : Option V}
    (found : c.pins.find key = some value) :
    (Step.done { c with pins := c.pins.erase key } r ()).Brings (pinEntry (key, value)).toList
      { p with pins := p.pins.erase key } [] := by
  have hattends := attends_unpinLoose h.tiered h.issued found ()
  rw [List.append_nil] at hattends
  have hkeys : ∀ other, other ∈ Cache.pinnedKeys { c with pins := c.pins.erase key } ↔
      other ∈ p.pins.erase key := by
    intro other
    rw [Finset.mem_erase, ← h.pins_iff other]
    simp only [pinnedKeys, Directory.erase, List.mem_map, List.mem_filter, decide_eq_true_eq]
    constructor
    · rintro ⟨pin, ⟨hpin, hne⟩, rfl⟩
      exact ⟨hne, pin, hpin, rfl⟩
    · rintro ⟨hne, pin, hpin, rfl⟩
      exact ⟨pin, ⟨hpin, hne⟩, rfl⟩
  exact h.unheard hattends h.unbounded rfl hkeys h.size_eq

/-- A loose entry is put into the hard tier, and what overflows is routed. -/
theorem stow {key : K} {value : V} (h : c.Carries r [(some key, some value)] p) :
    ((c.overHard r (·.insert · (some key) (some value))).andThen fun c r placement =>
      c.routeOverflow r placement.evicted).Brings [] p [] := by
  have hattends := attends_stow h.tiered h.issued
  rw [List.append_nil] at hattends
  have hstow := h.idle hattends ⟨rfl, rfl, rfl⟩ rfl
  exact hstow.andThen (fun c r (placement : Table.Placement K V) =>
    c.routeOverflow r placement.evicted) hstow.carries.routeAll

/-- A key is unpinned, and its value goes to a tier. -/
theorem unpin (h : c.Carries r [] p) (key : K) :
    (c.unpin r key).Brings [] { p with pins := p.pins.erase key } [] ∧
      (c.unpin r key).result = decide (key ∈ p.pins) := by
  cases found : c.pins.find key with
  | none =>
    have hkey : key ∉ p.pins := (h.pins_iff key).not.mp (Directory.not_mem_of_find found)
    rw [Cache.unpin, found, Finset.erase_eq_of_notMem hkey]
    exact ⟨h.done _, (decide_eq_false hkey).symm⟩
  | some value =>
    have hkey : key ∈ p.pins :=
      (h.pins_iff key).mp (List.mem_map_of_mem (f := Prod.fst) (Directory.mem_of_find found))
    refine ⟨?_, ?_⟩
    · have hunpin := h.unpinLoose found
      rw [Cache.unpin, found]
      cases value with
      | none => exact hunpin.same rfl rfl rfl
      | some value =>
        dsimp only
        split
        · -- Without a hard tier the value goes on to the soft tier at once.
          exact (hunpin.andThen (fun c r _ => c.routeOverflow r [(some key, some value)])
            hunpin.carries.routeAll).same rfl rfl rfl
        · exact (hunpin.andThen (fun c r _ =>
            (c.overHard r (·.insert · (some key) (some value))).andThen fun c r placement =>
              c.routeOverflow r placement.evicted) hunpin.carries.stow).same rfl rfl rfl
    · rw [Cache.unpin, found]
      exact (decide_eq_true hkey).symm

/-! ## Sizes -/

/-- The size is set, and nothing is lost by it. -/
theorem setSize (h : c.Carries r [] p) (size : Nat) :
    (c.setSize r size).Brings [] { p with size } [] := by
  have hattends := attends_boundHard h.tiered h.issued size
  have hhard := h.unheard hattends h.unbounded rfl h.pins_iff rfl
  exact (hhard.andThen (fun c r evicted => c.routeOverflow r evicted) hhard.carries.route).same
    rfl rfl rfl

/-- The soft tier stays without a bound. -/
theorem setSoftSize (h : c.Carries r [] p) {softSize : Int} (negative : softSize < 0) :
    (c.setSoftSize r softSize).Brings [] p [] := by
  have hmax : max softSize (-1) = -1 := by omega
  have hsilent : (c.setSoftSize r softSize).notices = [] := by
    rw [Cache.setSoftSize, hmax]
    rfl
  refine h.unheard (attends_setSoftSize h.tiered h.issued softSize) ?_ hsilent h.pins_iff h.size_eq
  show max softSize (-1) < 0
  omega

/-! ## Clearing -/

/-- All entries are announced when they are cleared. -/
theorem notices_clear (h : c.Carries r [] p) : (c.clear r).notices = removals c.holdings := by
  have hpins := attends_clearPins h.tiered h.issued
  have hpinless := h.toCalm.attends hpins h.unbounded
  obtain ⟨departed, accounts, hnone⟩ := Table.accounts_removeExpired hpinless.issued.right
  have hsilent := hpinless.silent accounts hnone (List.forall_mem_nil _)
  have hsweep := attends_removeExpired hpinless.tiered hpinless.issued
  have hswept := hpinless.attends hsweep hpinless.unbounded
  have hhard := attends_clearHard hswept.tiered hswept.issued
  have hcleared := hswept.attends hhard hswept.unbounded
  set swept := (c.clearPins r).state.removeExpired (c.clearPins r).reclaimer
  set cleared := swept.state.clearHard swept.reclaimer
  -- The sweep finds nothing stale, so the soft tier is as it was when it is cleared.
  have hsoft : cleared.state.soft.contents = c.soft.contents := by
    show swept.state.soft.contents = _
    rw [← hswept.soft.entries_eq, ← h.soft.entries_eq]
    exact Table.entries_removeExpired h.issued.right
  calc (c.clear r).notices
    _ = (c.clearPins r).notices ++ (swept.notices ++
          (cleared.notices ++ (cleared.state.clearSoft cleared.reclaimer).notices)) := by
      rw [clear_eq]
      rfl
    _ = removals c.pinned ++ ([] ++ ((removals (swept.state.hard.entries swept.reclaimer) ++ []) ++
          (removals (cleared.state.soft.entries cleared.reclaimer) ++ []))) := by
      have hnothing : swept.notices = [] := hsilent
      rw [notices_clearPins, hnothing]
      rfl
    _ = removals (c.pinned ++ (c.hard.contents ++ c.soft.contents)) := by
      rw [hswept.hard.entries_eq, hcleared.soft.entries_eq, hsoft, List.append_nil, List.append_nil,
        List.nil_append, removals, removals, removals, ← List.filterMap_append,
        ← List.filterMap_append]
      rfl
    _ = removals c.holdings := by rw [holdings, List.append_assoc]

omit [DecidableEq K] [Hashed K] in
/-- Nothing is left in a cache that is cleared. -/
theorem holdings_clear (c : Cache K V) (r : Reclaimer) : (c.clear r).state.holdings = [] := by
  have hpinned : (c.clear r).state.pinned = [] := c.pinned_bare
  have hhard : (c.clear r).state.hard.contents = [] := congrArg _ (Buckets.slots_empty _)
  have hsoft : (c.clear r).state.soft.contents = [] := congrArg _ (Buckets.slots_empty _)
  rw [holdings, hpinned, hhard, hsoft]
  rfl

/-- All entries leave, and the pins stay. -/
theorem clear (h : c.Carries r [] p) :
    ∃ l, p.Lists l ∧ (c.clear r).Brings [] { p with map := ∅ } l := by
  obtain ⟨l, hlists, hl⟩ := h.exists_lists
  have hnotices : (c.clear r).notices = l.map PlainCache.farewell := by
    rw [h.notices_clear, hl, removals, List.filterMap_map]
    exact congrFun List.filterMap_eq_map l
  refine ⟨l, hlists, ?_, ?_⟩
  · refine h.framed (attends_clear h.tiered h.issued) ⟨c.pinnedKeys_bare, rfl, rfl⟩
      fun m' _ hreads => ?_
    rw [holdings_clear] at hreads
    rw [PlainCache.mirror_empty]
    exact hreads.unique reads_empty
  · rw [hnotices, List.filter_eq_self]
    intro notice hnotice
    obtain ⟨entry, -, rfl⟩ := List.mem_map.mp hnotice
    rfl

/-! ## All requests -/

variable [Ordered K] [Literal K] [DecidableEq V] [Literal V]

/-- A request is answered as the plain cache answers it if the work done for it brings what becomes
of the plain one. -/
theorem answered {request : Request K V} {reply : Reply K V} {gone : List (K × V)}
    {p' : PlainCache K V} {work : Step (Cache K V) (Notice K V) α} (brings : work.Brings [] p' gone)
    (state : (c.perform r request).state = work.state)
    (reclaimer : (c.perform r request).reclaimer = work.reclaimer)
    (notices : (c.perform r request).notices = work.notices)
    (result : (c.perform r request).result = reply) (answers : p.Answers request reply gone p') :
    ∃ gone p', p.Answers request (c.perform r request).result gone p' ∧
      (c.perform r request).Brings [] p' gone := by
  rw [← result] at answers
  exact ⟨gone, p', answers, brings.same state reclaimer notices⟩

/-- Mild requests to a calm cache are answered as a plain cache answers them, and what leaves the
plain one is announced. -/
theorem answers_perform (h : c.Carries r [] p) {request : Request K V}
    (mild : PlainCache.Mild request) :
    ∃ gone p', p.Answers request (c.perform r request).result gone p' ∧
      (c.perform r request).Brings [] p' gone := by
  cases request with
  | get key =>
    exact answered (h.get key) rfl rfl rfl (congrArg Reply.value (h.result_get key)) (.get key)
  | put key value =>
    obtain ⟨value, rfl⟩ := Option.ne_none_iff_exists'.mp mild
    by_cases taken : p.takes key
    · obtain ⟨hput, hresult⟩ := h.put taken value
      exact answered hput rfl rfl rfl (congrArg Reply.value hresult) (.put value taken)
    · have hput := h.put_of_not_takes taken value
      refine answered (h.done ()) ?_ ?_ ?_ ?_ (.refused value taken) <;>
        rw [perform, hput] <;> rfl
  | putAll entries replace =>
    exact answered (h.putAll replace entries) rfl rfl rfl rfl (.putAll entries replace)
  | remove key =>
    obtain ⟨hremove, hresult⟩ := h.remove key
    exact answered hremove rfl rfl rfl (congrArg Reply.value hresult) (.remove key)
  | containsKey key =>
    exact answered (h.done ()) rfl rfl rfl (congrArg Reply.flag (h.isSome_locate key))
      (.containsKey key)
  | containsValue value =>
    cases value with
    | none => exact answered (h.done ()) rfl rfl rfl rfl (.containsNull h.containsNull_iff)
    | some value =>
      exact answered (h.done ()) rfl rfl rfl rfl (.containsValue (h.containsValue_iff value))
  | locate key => exact answered (h.done ()) rfl rfl rfl rfl (.locate (h.isSome_locate key))
  | pin key =>
    have hresult := (h.tiered.result_pin h.issued key).trans
      (congrArg Option.isSome (h.result_get key))
    exact answered (h.pin key) rfl rfl rfl (congrArg Reply.flag hresult) (.pin key)
  | unpin key =>
    obtain ⟨hunpin, hresult⟩ := h.unpin key
    exact answered hunpin rfl rfl rfl (congrArg Reply.flag hresult) (.unpin key)
  | pinnedKeys =>
    exact answered (h.done ()) rfl rfl rfl rfl (.pinnedKeys h.tiered.pins_distinct h.pins_iff)
  | keys =>
    obtain ⟨l, hlists, hkeys, -⟩ := h.exists_reading
    exact answered (h.done ()) rfl rfl rfl (congrArg keyItems hkeys) (.keys hlists)
  | entries =>
    obtain ⟨l, hlists, -, hentries⟩ := h.exists_reading
    rw [← hentries] at hlists
    exact answered (h.done ()) rfl rfl rfl rfl (.entries hlists)
  | values =>
    obtain ⟨l, hlists, -, hentries⟩ := h.exists_reading
    rw [← hentries] at hlists
    exact answered (h.done ()) rfl rfl rfl rfl (.values hlists)
  | setSize size => exact answered (h.setSize size) rfl rfl rfl rfl (.setSize size)
  | setSoftSize softSize =>
    exact answered (h.setSoftSize mild) rfl rfl rfl rfl (.setSoftSize mild)
  | size => exact answered (h.done ()) rfl rfl rfl (by rw [← h.size_eq]; rfl) .size
  | softSize =>
    exact answered (h.done ()) rfl rfl rfl (congrArg Reply.number h.softSize_eq) .softSize
  | length =>
    obtain ⟨hlength, hresult⟩ := h.length
    exact answered hlength rfl rfl rfl (congrArg Reply.count hresult) .length
  | isEmpty =>
    obtain ⟨hlength, hresult⟩ := h.length
    exact answered hlength rfl rfl rfl (congrArg (fun n => Reply.flag (n == 0)) hresult) .isEmpty
  | removeExpired =>
    obtain ⟨hsweep, hresult⟩ := h.removeExpired
    exact answered hsweep rfl rfl rfl (congrArg Reply.count hresult) .removeExpired
  | clear =>
    obtain ⟨l, hlists, hclear⟩ := h.clear
    exact answered hclear rfl rfl rfl rfl (.clear hlists)
  | check =>
    exact answered h.check rfl rfl rfl (h.tiered.perform_check h.issued) .check
  | byUse | metrics | snapshot | literal =>
    exact answered (h.done ()) rfl rfl rfl rfl (.inspected _ rfl)

end Carries

end SoftCache.Cache
