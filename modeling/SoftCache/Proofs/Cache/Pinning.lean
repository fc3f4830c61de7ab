import SoftCache.Proofs.Cache.Reading

/-!
# The pins of a cache

To pin a key moves its value and leaves what can be read as it is, but for a null
(`Cache.Tiered.mem_legible_pin`), so every lookup finds afterwards what it found before
(`Cache.Tiered.result_get_pin`). A key is pinned with what a lookup finds, and stays so until it is
unpinned; meanwhile only values that are put for it, its removal and the clearing of the cache give
the pin another value (`Cache.Tiered.find_perform`).
-/

open scoped List

namespace SoftCache.Cache

variable {K V α : Type}

/-- The value that a pinned key has when an entry of many has been put, which may replace a value or
not. -/
def establishEntry [DecidableEq K] (key : K) (replace : Bool) (now : Option V) (entry : K × V) :
    Option V :=
  if entry.1 = key ∧ (replace = true ∨ now = none) then some entry.2 else now

/-- The value that a pinned key has after a request that leaves it pinned. -/
def Request.establish [DecidableEq K] (key : K) (now : Option V) : Request K V → Option V
  | .put other value => if other = key then value else now
  | .putAll many replace => many.foldl (establishEntry key replace) now
  | .remove other => if other = key then none else now
  | .clear => none
  | _ => now

/-- What is pinned under a key after a request, where a lookup would have found `seen`. -/
def Request.repin [DecidableEq K] (key : K) (seen : Option V) (now : Option (Option V)) :
    Request K V → Option (Option V)
  | .pin other => if other = key then some seen else now
  | .unpin other => if other = key then none else now
  | request => now.map fun value => request.establish key value

section Requests

variable [DecidableEq K] {key : K}

/-- A request that is none to unpin a pinned key leaves it pinned, with the value established. -/
theorem Request.repin_some {request : Request K V} (kept : request ≠ .unpin key)
    (value : Option V) :
    request.repin key value (some value) = some (request.establish key value) := by
  cases request with
  | pin other => exact ite_self _
  | unpin other => exact if_neg fun same : other = key => kept (same ▸ rfl)
  | _ => rfl

/-- A key is pinned after a request to pin it, and stays pinned until there is one to unpin it. -/
theorem Request.isSome_repin (request : Request K V) (seen : Option V) (now : Option (Option V)) :
    (request.repin key seen now).isSome ↔
      request = .pin key ∨ (now.isSome ∧ request ≠ .unpin key) := by
  cases request with
  | pin other => by_cases same : other = key <;> simp [repin, same]
  | unpin other => by_cases same : other = key <;> simp [repin, same]
  | _ => simp [repin]

end Requests

variable [DecidableEq K] [Hashed K] {c : Cache K V} {r : Reclaimer} {loose : List (Entry K V)}
  {key : K} {value : Option V}

/-! ## What pinning leaves alone -/

/-- What is taken from the hard tier can no longer be read there, and all else can. -/
theorem Tiered.legible_takeHard (h : c.Tiered loose) (issued : r.Issued c.payloads) (key : K) :
    c.legible r ~ (c.overHard r (·.removeEntry · (some key))).state.legible
        (c.overHard r (·.removeEntry · (some key))).reclaimer ++
      (c.hard.removeEntry r (some key)).result.toList.map fun value => (some key, value) := by
  have hattends := attends_takeHard h issued key
  have hnext : (c.hard.removeEntry r (some key)).reclaimer.next = r.next :=
    c.hard.next_removeIf r (some key) _
  have hsoft := hattends.entries_soft issued (hattends.handover.quiet (.inr hnext)) rfl
  have hhard := h.hard.entries_removeEntry (some key)
    (fun entry _ => h.hard_excludes entry.1) issued.left
  rw [legible, legible, hsoft, List.append_assoc, List.append_assoc, List.append_assoc]
  refine List.Perm.append_left _ ((hhard.append_right _).trans ?_)
  rw [List.append_assoc]
  exact List.perm_append_comm.append_left _

/-- What is taken from the soft tier can no longer be read there, and all else can. -/
theorem Tiered.legible_takeSoft (h : c.Tiered loose) (issued : r.Issued c.payloads) (key : K) :
    c.legible r ~ (c.overSoft r (·.remove · (some key))).state.legible
        (c.overSoft r (·.remove · (some key))).reclaimer ++
      (pinEntry (key, (c.soft.remove r (some key)).result)).toList := by
  have hhard : c.hard.entries (c.soft.remove r (some key)).reclaimer = c.hard.entries r := by
    rw [Table.entries_eq_contents (h.hard_live _), Table.entries_eq_contents (h.hard_live r)]
  have hsoft := h.soft.entries_removeEntry (some key)
    (fun entry _ => h.soft_excludes entry.1) issued.right
  rw [← pinEntry_takeSoft h issued key] at hsoft
  rw [legible, legible]
  show _ ~ c.pinned ++ c.hard.entries (c.soft.remove r (some key)).reclaimer ++ _ ++ _
  rw [hhard, List.append_assoc (c.pinned ++ _)]
  exact hsoft.append_left _

/-- The soft tier is left the same whether an entry is taken with a null or without. -/
theorem takeSoft_eq (c : Cache K V) (r : Reclaimer) (key : K) :
    c.overSoft r (·.remove · (some key)) =
      (c.overSoft r (·.removeEntry · (some key))).map Option.join := by
  simp only [overSoft, Table.remove, Step.map]

/-- What is taken from the tier of a key can no longer be read there, and all else can. -/
theorem Tiered.legible_takeEntry (h : c.Tiered []) (issued : r.Issued c.payloads) (key : K) :
    c.legible r ~ (c.takeEntry r key).state.legible (c.takeEntry r key).reclaimer ++
      (c.takeEntry r key).result.toList.map fun value => (some key, value) := by
  have hlegible := h.legible_takeHard issued key
  have hhard := attends_takeHard h issued key
  rw [List.append_nil] at hhard
  set taken := c.overHard r (·.removeEntry · (some key)) with htaken
  have hresult : taken.result = (c.hard.removeEntry r (some key)).result := rfl
  rw [← hresult] at hhard hlegible
  rw [show c.takeEntry r key = taken.andThen _ from rfl]
  rcases htakes : taken.result with _ | value
  · -- The hard tier does not have the key, so the soft tier is asked.
    rw [htakes, Option.toList_none, List.map_nil] at hhard hlegible
    rw [List.append_nil] at hlegible
    simp only [Step.andThen_result, Step.andThen_state, Step.andThen_reclaimer, htakes]
    have hsoft := hhard.tiered.legible_takeSoft hhard.issued key
    rw [pinEntry_takeSoft hhard.tiered hhard.issued key, takeSoft_eq] at hsoft
    exact hlegible.trans hsoft
  · rw [htakes] at hlegible
    simp only [Step.andThen_result, Step.andThen_state, Step.andThen_reclaimer, htakes]
    exact hlegible

/-- Taking the value of a key is taking its entry, except that a null is announced as removed. -/
theorem takeValue_eq (c : Cache K V) (r : Reclaimer) (key : K) :
    (c.takeValue r key).result = (c.takeEntry r key).result.join ∧
      (c.takeValue r key).state.legible (c.takeValue r key).reclaimer =
        (c.takeEntry r key).state.legible (c.takeEntry r key).reclaimer := by
  rw [takeValue, takeEntry]
  generalize c.overHard r (·.removeEntry · (some key)) = taken
  rcases htaken : taken.result with _ | _ | value
  · simp only [Step.andThen_result, Step.andThen_state, Step.andThen_reclaimer, htaken,
      takeSoft_eq]
    exact ⟨rfl, rfl⟩
  · simp only [Step.andThen_result, Step.andThen_state, Step.andThen_reclaimer, htaken]
    exact ⟨rfl, rfl⟩
  · simp only [Step.andThen_result, Step.andThen_state, Step.andThen_reclaimer, htaken]
    exact ⟨rfl, rfl⟩

/-- The value that is taken from the tier of a key can no longer be read there, and all else can. A
null is not taken along. -/
theorem Tiered.mem_legible_takeValue (h : c.Tiered []) (issued : r.Issued c.payloads) (key : K)
    {entry : Entry K V} (full : entry.2 ≠ none) :
    entry ∈ c.legible r ↔ entry ∈ (c.takeValue r key).state.legible
      (c.takeValue r key).reclaimer ++ (pinEntry (key, (c.takeValue r key).result)).toList := by
  obtain ⟨hresult, hlegible⟩ := takeValue_eq c r key
  rw [(h.legible_takeEntry issued key).mem_iff, hresult, hlegible, List.mem_append, List.mem_append]
  refine or_congr_right ?_
  rcases (c.takeEntry r key).result with _ | _ | value
  · exact Iff.rfl
  · refine iff_of_false (fun hnull => full ?_) List.not_mem_nil
    rw [List.mem_singleton.mp hnull]
  · exact Iff.rfl

/-- What is taken for a key that is not pinned is what a lookup would have found. -/
theorem Tiered.result_takeValue (h : c.Tiered []) (issued : r.Issued c.payloads)
    (missing : c.pins.find key = none) :
    (c.takeValue r key).result = (c.get r key).result := by
  refine Option.ext fun value => ?_
  rw [h.result_get_iff issued, h.mem_legible_takeValue issued key (Option.some_ne_none value),
    List.mem_append]
  -- The key is in no tier afterwards.
  have habsent : (some key, some value) ∉
      (c.takeValue r key).state.legible (c.takeValue r key).reclaimer := fun hentry =>
    (attends_takeValue h issued missing).2 (mem_roster_of_legible hentry)
  rw [or_iff_right habsent, pinEntry, Option.mem_toList, Option.map_eq_some_iff]
  simp

omit [DecidableEq K] [Hashed K] in
/-- The entry of a new pin can be read as well. -/
theorem legible_insertPin (c : Cache K V) (r : Reclaimer) (after : K → Bool) (key : K)
    (value : Option V) :
    legible { c with pins := Directory.insertBefore after key value c.pins } r ~
      c.legible r ++ (pinEntry (key, value)).toList := by
  have hpinned := pinned_perm
    (c := { c with pins := Directory.insertBefore after key value c.pins })
    (Directory.insertBefore_perm after key value c.pins)
  refine ((hpinned.append_right _).append_right _).trans ?_
  rw [List.append_assoc, List.append_assoc, ← List.append_assoc (List.filterMap _ _)]
  exact List.perm_append_comm

/-- To pin a key leaves what can be read as it is, nulls apart. -/
theorem Tiered.mem_legible_pin [Ordered K] (h : c.Tiered []) (issued : r.Issued c.payloads)
    (key : K) {entry : Entry K V} (full : entry.2 ≠ none) :
    entry ∈ (c.pin r key).state.legible (c.pin r key).reclaimer ↔ entry ∈ c.legible r := by
  rcases found : c.pins.find key with _ | value
  · rw [h.mem_legible_takeValue issued key full, pin_eq found]
    exact (legible_insertPin ..).mem_iff
  · rw [pin, found]
    rfl

/-- To pin a key changes the answer of no lookup. -/
theorem Tiered.result_get_pin [Ordered K] (h : c.Tiered []) (issued : r.Issued c.payloads)
    (key other : K) :
    ((c.pin r key).state.get (c.pin r key).reclaimer other).result = (c.get r other).result := by
  have hpin := attends_pin h issued key
  refine Option.ext fun value => ?_
  rw [hpin.tiered.result_get_iff hpin.issued, h.result_get_iff issued]
  exact h.mem_legible_pin issued key (Option.some_ne_none value)

/-- To pin a key is answered with whether a lookup would have found something. -/
theorem Tiered.result_pin [Ordered K] (h : c.Tiered []) (issued : r.Issued c.payloads) (key : K) :
    (c.pin r key).result = (c.get r key).result.isSome := by
  rcases found : c.pins.find key with _ | value
  · rw [pin_eq found, ← h.result_takeValue issued found]
    rfl
  · rw [pin, found, h.result_get_of_find issued found]
    rfl

/-! ## What becomes of the pins -/

/-- A pinned key is said to be in the cache if its pin has a value. -/
theorem Tiered.containsKey_of_find (h : c.Tiered loose) (r : Reclaimer)
    (found : c.pins.find key = some value) : c.containsKey r key = value.isSome := by
  obtain ⟨hhard, hsoft⟩ := h.apart_of_find found
  have hnotHard : c.hard.containsKey r (some key) = false :=
    Bool.eq_false_iff.mpr fun hkey => hhard (Table.mem_keys_of_containsKey hkey)
  have hnotSoft : c.soft.containsKey r (some key) = false :=
    Bool.eq_false_iff.mpr fun hkey => hsoft (Table.mem_keys_of_containsKey hkey)
  rw [containsKey, locate, pinnedValue, found, hnotHard, hnotSoft]
  cases value <;> rfl

/-- What the hard tier gives up leaves the pins alone. -/
theorem pins_routeOverflow (c : Cache K V) (r : Reclaimer) (gone : List (Entry K V)) :
    (c.routeOverflow r gone).state.pins = c.pins := by
  induction gone generalizing c r with
  | nil => rfl
  | cons entry rest ih =>
    obtain ⟨_ | key, value⟩ := entry
    · exact ih c r
    · rw [routeOverflow_cons, Step.andThen_state, ih]
      unfold routeEntry
      split <;> rfl

/-- Lookups leave the pins alone. -/
theorem pins_get (c : Cache K V) (r : Reclaimer) (key : K) : (c.get r key).state.pins = c.pins := by
  unfold get
  split
  · rfl
  · rw [Step.andThen_state]
    split
    · rfl
    · rw [Step.andThen_state]
      split <;> rfl

/-- The self-check leaves the pins alone. -/
theorem pins_violation? (c : Cache K V) (r : Reclaimer) : (c.violation? r).state.pins = c.pins := by
  unfold violation? softOverBound?
  split
  · rfl
  · split
    · rfl
    · rw [Step.andThen_state]
      split <;> rfl

/-- Putting a value changes the pin of its key, if there is one. -/
theorem pins_put (c : Cache K V) (r : Reclaimer) (key : K) (value : Option V) :
    (c.put r key value).state.pins = c.pins.modify key value := by
  cases found : c.pins.find key with
  | some old =>
    rw [put, found]
    rfl
  | none =>
    rw [Directory.modify_eq_self (Directory.not_mem_of_find found)]
    by_cases hsize : c.size = 0
    · rw [put, found]
      dsimp only
      rw [if_pos hsize]
      rfl
    · rw [put_eq found hsize]
      exact pins_routeOverflow ..

/-- Removing a key takes the value of its pin, if there is one. -/
theorem pins_remove (c : Cache K V) (r : Reclaimer) (key : K) :
    (c.remove r key).state.pins = c.pins.modify key none := by
  cases found : c.pins.find key with
  | some old =>
    rw [remove, found]
    rfl
  | none =>
    rw [Directory.modify_eq_self (Directory.not_mem_of_find found), remove, found]
    dsimp only [Step.andThen_state, Step.map, announce, tally]
    split <;> rfl

/-- Unpinning a key takes its pin. -/
theorem pins_unpin (c : Cache K V) (r : Reclaimer) (key : K) :
    (c.unpin r key).state.pins = c.pins.erase key := by
  unfold unpin
  split
  · next missing => exact (Directory.erase_eq_self (Directory.not_mem_of_find missing)).symm
  · next value found =>
    cases value with
    | none => rfl
    | some value =>
      dsimp only
      split
      · exact pins_routeOverflow ..
      · exact pins_routeOverflow ..

/-- Unpinning a key is answered with whether it was pinned. -/
theorem result_unpin (c : Cache K V) (r : Reclaimer) (key : K) :
    (c.unpin r key).result = (c.pins.find key).isSome := by
  unfold unpin
  split
  · next missing =>
    rw [missing]
    rfl
  · next value found =>
    rw [found]
    rfl

/-- Putting entries one after the other establishes the value of a pinned key. -/
theorem Tiered.find_putAll (h : c.Tiered []) (issued : r.Issued c.payloads) (key : K)
    (replace : Bool) (entries : List (K × V)) :
    (c.putAll r replace entries).state.pins.find key =
      (c.pins.find key).map fun value => entries.foldl (establishEntry key replace) value := by
  -- By induction on the entries, each of which is put only if it may be.
  induction entries generalizing c r with
  | nil =>
    rw [putAll]
    exact Option.map_id'.symm
  | cons entry rest ih =>
    obtain ⟨other, value⟩ := entry
    rw [putAll]
    split
    · next kept =>
      rw [ih h issued]
      refine Option.map_congr fun now found => ?_
      rw [List.foldl_cons, establishEntry, if_neg]
      rintro ⟨rfl, hreplace⟩
      rw [h.containsKey_of_find r found] at kept
      rcases hreplace with rfl | rfl <;> simp at kept
    · next replaced =>
      have hput := attends_put h issued other (some value)
      rw [Step.andThen_state, ih hput.tiered hput.issued, pins_put, Directory.find_modify_eq_map,
        Option.map_map]
      refine Option.map_congr fun now found => ?_
      have hreplace : other = key → replace = true ∨ now = none := by
        rintro rfl
        rw [h.containsKey_of_find r found] at replaced
        cases replace <;> cases now <;> simp at replaced ⊢
      simp only [Function.comp_apply, List.foldl_cons, establishEntry,
        and_iff_left_of_imp hreplace]

/-- To pin a key leaves the other pins alone. -/
theorem Tiered.find_pin [Ordered K] (h : c.Tiered []) (issued : r.Issued c.payloads)
    (key other : K) :
    (c.pin r key).state.pins.find other =
      if key = other then some (c.get r key).result else c.pins.find other := by
  rcases found : c.pins.find key with _ | value
  · have hpins : (c.takeValue r key).state.pins = c.pins := by
      unfold takeValue
      rw [Step.andThen_state]
      split <;> rfl
    rw [pin_eq found, ← h.result_takeValue issued found]
    show (Directory.insertBefore _ _ _ (c.takeValue r key).state.pins).find other = _
    rw [hpins, Directory.find_insertBefore _ _ _ _ _ found]
  · rw [pin, found, h.result_get_of_find issued found]
    show c.pins.find other = _
    split
    · next same => exact same ▸ found
    · rfl

variable [Ordered K] [Literal K] [DecidableEq V] [Literal V]

/-- After every request there is pinned under a key what the request makes of it. -/
theorem Tiered.find_perform (h : c.Tiered []) (issued : r.Issued c.payloads) (request : Request K V)
    (key : K) :
    (c.perform r request).state.pins.find key =
      request.repin key (c.get r key).result (c.pins.find key) := by
  -- Requests that leave the pins alone establish no value.
  have hkept : ∀ {d : Directory K (Option V)}, d = c.pins →
      d.find key = (c.pins.find key).map fun value => value := by
    rintro d rfl
    exact Option.map_id'.symm
  cases request with
  | put other value =>
    exact (congrArg (Directory.find · key) (c.pins_put r other value)).trans
      (Directory.find_modify_eq_map ..)
  | putAll entries replace => exact h.find_putAll issued key replace entries
  | remove other =>
    exact (congrArg (Directory.find · key) (c.pins_remove r other)).trans
      (Directory.find_modify_eq_map ..)
  | clear => exact Directory.find_map (fun _ => none) c.pins key
  | pin other =>
    refine (h.find_pin issued other key).trans ?_
    by_cases same : other = key
    · subst same
      rfl
    · rw [if_neg same, Request.repin, if_neg same]
  | unpin other =>
    exact (congrArg (Directory.find · key) (c.pins_unpin r other)).trans (Directory.find_erase ..)
  | get other => exact hkept (c.pins_get r other)
  | setSize size => exact hkept (pins_routeOverflow ..)
  | check => exact hkept (c.pins_violation? r)
  | setSoftSize | length | isEmpty | removeExpired | containsKey | containsValue | locate
  | pinnedKeys | keys | entries | values | size | softSize | byUse | metrics | snapshot
  | literal => exact hkept rfl

end SoftCache.Cache
