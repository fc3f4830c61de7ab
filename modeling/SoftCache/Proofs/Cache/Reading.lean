import SoftCache.Proofs.Cache.Counting
import SoftCache.Proofs.Table.Reading

/-!
# Reading a cache

A lookup finds just the entries that can be read (`Cache.Tiered.result_get_iff`): a key is in one
place at most, so it makes no difference that the pins are asked first, then the hard tier and then
the soft one. A pinned key has the value of its pin (`Cache.Tiered.result_get_of_find`).
-/

open scoped List

namespace SoftCache

variable {K V α : Type} [DecidableEq K] [Hashed K] {c : Cache K V} {r : Reclaimer}
  {loose loose' : List (Entry K V)}

/-- In an epoch that lasts, work that leaves the soft tier alone leaves its live entries. -/
theorem Step.Attends.entries_soft {settled : List (K × V)}
    {step : Step (Cache K V) (Cache.Notice K V) α}
    (h : step.Attends c r loose loose' settled) (issued : r.Issued c.payloads)
    (quiet : step.reclaimer.epoch = r.epoch) (same : step.state.soft = c.soft) :
    step.state.soft.entries step.reclaimer = c.soft.entries r := by
  rw [same]
  exact Table.entries_congr rfl (h.isStale_soft issued quiet same)

namespace Cache

variable {key : K} {value : Option V}

/-! ## Where a key is -/

omit [DecidableEq K] [Hashed K] in
/-- What can be read has a key of the cache. -/
theorem mem_roster_of_legible {entry : Entry K V} (hentry : entry ∈ c.legible r) :
    entry.1 ∈ c.roster := by
  rw [legible, List.mem_append, List.mem_append] at hentry
  rw [roster, List.mem_append, List.mem_append]
  rcases hentry with (hpinned | hhard) | hsoft
  · obtain ⟨⟨key, value⟩, hpin, hvalue⟩ := List.mem_filterMap.mp hpinned
    obtain ⟨value, -, rfl⟩ := Option.map_eq_some_iff.mp hvalue
    exact .inl (.inl (List.mem_map_of_mem (f := fun pin : K × Option V => some pin.1) hpin))
  · exact .inl (.inr (List.mem_map_of_mem (c.hard.entries_subset_contents r hhard)))
  · exact .inr (List.mem_map_of_mem (c.soft.entries_subset_contents r hsoft))

/-- A pinned key is in no tier. -/
theorem Tiered.apart_of_find (h : c.Tiered loose) (found : c.pins.find key = some value) :
    some key ∉ c.hard.contents.map Prod.fst ∧ some key ∉ c.soft.contents.map Prod.fst := by
  have hpin : some key ∈ c.pinKeys :=
    List.mem_map_of_mem (f := fun pin : K × Option V => some pin.1) (Directory.mem_of_find found)
  obtain ⟨hpinned, -, hsoft⟩ := List.nodup_append.mp (List.nodup_append.mp h.keyed.nodup).1
  obtain ⟨-, -, hhard⟩ := List.nodup_append.mp hpinned
  exact ⟨fun hkey => hhard _ hpin _ hkey rfl,
    fun hkey => hsoft _ (List.mem_append_left _ hpin) _ hkey rfl⟩

omit [DecidableEq K] in
/-- A key of the hard tier is not in the soft one. -/
theorem Tiered.apart_of_hard (h : c.Tiered loose) {key : Option K}
    (hkey : key ∈ c.hard.contents.map Prod.fst) : key ∉ c.soft.contents.map Prod.fst := fun hmem =>
  (List.nodup_append.mp (List.nodup_append.mp h.keyed.nodup).1).2.2 _
    (List.mem_append_right _ hkey) _ hmem rfl

/-- A pinned value is an entry. -/
theorem Tiered.mem_pinned_iff (h : c.Tiered loose) {value : V} :
    (some key, some value) ∈ c.pinned ↔ c.pins.find key = some (some value) := by
  rw [pinned, List.mem_filterMap]
  constructor
  · rintro ⟨⟨key', value'⟩, hpin, hentry⟩
    obtain ⟨value, rfl, heq⟩ := Option.map_eq_some_iff.mp hentry
    cases heq
    exact Directory.find_of_mem h.pins_distinct hpin
  · intro found
    exact ⟨_, Directory.mem_of_find found, rfl⟩

/-! ## Lookups -/

/-- A lookup asks the pins, then the hard tier and then the soft one. -/
theorem result_get (c : Cache K V) (r : Reclaimer) (key : K) :
    (c.get r key).result = (c.pinnedValue key).or ((c.hard.get r (some key)).result.or
      (c.soft.get (c.hard.get r (some key)).reclaimer (some key)).result) := by
  unfold get
  cases c.pinnedValue key with
  | some value => rfl
  | none =>
    have hhard : (c.overHard r (·.get · (some key))).result =
        (c.hard.get r (some key)).result := rfl
    have hsoft : ((c.overHard r (·.get · (some key))).state.overSoft
        (c.overHard r (·.get · (some key))).reclaimer (·.get · (some key))).result =
          (c.soft.get (c.hard.get r (some key)).reclaimer (some key)).result := rfl
    rw [Step.andThen_result, hhard]
    cases (c.hard.get r (some key)).result with
    | some value => rfl
    | none =>
      rw [Step.andThen_result, hsoft]
      cases (c.soft.get (c.hard.get r (some key)).reclaimer (some key)).result <;> rfl

/-- The soft tier can be read as before when the hard one has been asked for a key. -/
theorem Tiered.entries_getHard (h : c.Tiered loose) (issued : r.Issued c.payloads) (key : K) :
    c.soft.entries (c.hard.get r (some key)).reclaimer = c.soft.entries r := by
  obtain ⟨departed, accounts, hnone⟩ := Table.accounts_lookup issued.left (some key)
  have hattends := attends_overHard_quiet (·.get · (some key)) h issued
    (accounts.map Option.join) hnone (Table.upholds_lookup h.hard issued.left _).sound
    (c.hard.next_lookup r _)
  exact hattends.entries_soft issued
    (hattends.handover.quiet (.inr (c.hard.next_lookup r (some key)))) rfl

/-- What a lookup finds is what can be read for the key. -/
theorem Tiered.result_get_iff (h : c.Tiered loose) (issued : r.Issued c.payloads) {value : V} :
    (c.get r key).result = some value ↔ (some key, some value) ∈ c.legible r := by
  have hpin : c.pinnedValue key = some value ↔ (some key, some value) ∈ c.pinned :=
    Option.join_eq_some_iff.trans h.mem_pinned_iff.symm
  have hhard : ∀ value, (c.hard.get r (some key)).result = some value ↔
      (some key, some value) ∈ c.hard.entries r := fun _ =>
    h.hard.result_get_iff fun entry _ => h.hard_excludes entry.1
  have hsoft : (c.soft.get (c.hard.get r (some key)).reclaimer (some key)).result = some value ↔
      (some key, some value) ∈ c.soft.entries r := by
    rw [← h.entries_getHard issued key]
    exact h.soft.result_get_iff fun entry _ => h.soft_excludes entry.1
  rw [result_get, legible, List.mem_append, List.mem_append, ← hpin, ← hhard, ← hsoft]
  constructor
  · intro hfound
    rcases Option.or_eq_some_iff.mp hfound with hpinned | ⟨-, htiers⟩
    · exact .inl (.inl hpinned)
    · exact (Option.or_eq_some_iff.mp htiers).imp .inr And.right
  · -- A key is in one place only, so what comes earlier in the order does not have it.
    have hunpinned : some key ∈ c.hard.contents.map Prod.fst ∨
        some key ∈ c.soft.contents.map Prod.fst → c.pinnedValue key = none := by
      intro hkey
      rcases found : c.pins.find key with _ | content
      · rw [pinnedValue, found]
        rfl
      · exact absurd hkey (not_or.mpr (h.apart_of_find found))
    have hkeyHard : ∀ value, (c.hard.get r (some key)).result = some value →
        some key ∈ c.hard.contents.map Prod.fst := fun value hvalue =>
      List.mem_map_of_mem (c.hard.entries_subset_contents r ((hhard value).mp hvalue))
    rintro ((hvalue | hvalue) | hvalue)
    · rw [hvalue]
      rfl
    · rw [hunpinned (.inl (hkeyHard value hvalue)), hvalue]
      rfl
    · have hkey : some key ∈ c.soft.contents.map Prod.fst :=
        List.mem_map_of_mem (c.soft.entries_subset_contents r (hsoft.mp hvalue))
      have hnone : (c.hard.get r (some key)).result = none :=
        Option.eq_none_iff_forall_ne_some.mpr fun other hother =>
          h.apart_of_hard (hkeyHard other hother) hkey
      rw [hunpinned (.inr hkey), hnone, hvalue]
      rfl

/-- A pinned key has the value of its pin. -/
theorem Tiered.result_get_of_find (h : c.Tiered loose) (issued : r.Issued c.payloads)
    (found : c.pins.find key = some value) : (c.get r key).result = value := by
  refine Option.ext fun content => ?_
  rw [h.result_get_iff issued, legible, List.mem_append, List.mem_append, h.mem_pinned_iff, found]
  obtain ⟨hhard, hsoft⟩ := h.apart_of_find found
  have hnotHard : (some key, some content) ∉ c.hard.entries r := fun hentry =>
    hhard (List.mem_map_of_mem (c.hard.entries_subset_contents r hentry))
  have hnotSoft : (some key, some content) ∉ c.soft.entries r := fun hentry =>
    hsoft (List.mem_map_of_mem (c.soft.entries_subset_contents r hentry))
  simp [hnotHard, hnotSoft]

end Cache

end SoftCache
