import SoftCache.Proofs.Cache.Pinning
import SoftCache.Proofs.Table.Evicting

/-!
# Writing to a cache

A put and a removal answer what a lookup would have found (`Cache.Tiered.result_put`,
`Cache.Tiered.result_remove`), wherever the key is. What is left of the old value is in no tier
afterwards, so a lookup then finds the new value or nothing. It finds nothing only if the new value
was announced as removed again, or if it came to the soft tier and the budget cleared it at once
(`Cache.Tiered.outcome_put`). The mirror that a listener keeps shows the first of these: after a
value was announced as added nothing else is, so it is there still or its going has been announced.
-/

open scoped List

namespace SoftCache.Cache

variable {K V α β : Type}

section Keys

variable [DecidableEq K]

/-! ## What becomes of an entry -/

namespace Mirror

variable {lost : K → V → Prop} {m m' : Mirror K V} {notices : List (Notice K V)} {key : K}
  {value : Option V}

/-- Entries of which no two have the same key have a mirror. -/
theorem reads_find {l : List (Entry K V)} (distinct : (l.map Prod.fst).Nodup) :
    Reads (fun key => Directory.find l (some key)) l := fun _ _ =>
  ⟨Directory.mem_of_find, Directory.find_of_mem distinct⟩

/-- A key without an entry has none when another entry is crossed out. -/
theorem strike_eq_none (absent : m key = none) (other : K) : m.strike other key = none := by
  rw [strike, Function.update_apply]
  split
  · rfl
  · exact absent

/-- A key without an entry gets none while none is announced. -/
theorem Replays.eq_none (h : Replays lost m notices m')
    (quiet : ∀ value, .added key value ∉ notices) (absent : m key = none) : m' key = none := by
  induction h with
  | nil => exact absent
  | @added m _ other value _ _ _ ih =>
    have hne : key ≠ other := fun same => quiet value (same ▸ List.mem_cons_self)
    refine ih (fun value hmem => quiet value (List.mem_cons_of_mem _ hmem)) ?_
    rwa [enter, Function.update_of_ne hne]
  | removed _ _ ih | expired _ _ _ ih =>
    exact ih (fun value hmem => quiet value (List.mem_cons_of_mem _ hmem))
      (strike_eq_none absent _)

/-- The notices say that an entry of the key goes: with its value, or because that was lost. -/
def Goes (lost : K → V → Prop) (notices : List (Notice K V)) (key : K) (value : Option V) : Prop :=
  .removed key value false ∈ notices ∨
    .removed key none true ∈ notices ∧ ∃ content, value = some content ∧ lost key content

omit [DecidableEq K] in
/-- What goes by some notices goes by more of them. -/
theorem Goes.cons (h : Goes lost notices key value) (notice : Notice K V) :
    Goes lost (notice :: notices) key value :=
  h.imp (List.mem_cons_of_mem _) (And.imp_left (List.mem_cons_of_mem _))

/-- While no entry of its key is announced as added, an entry stays or its going is announced. -/
theorem Replays.outcome (h : Replays lost m notices m')
    (quiet : ∀ value, .added key value ∉ notices) (known : m key = some value) :
    m' key = some value ∨ m' key = none ∧ Goes lost notices key value := by
  induction h with
  | nil => exact .inl known
  | @added m _ other content rest _ _ ih =>
    have hne : key ≠ other := fun same => quiet content (same ▸ List.mem_cons_self)
    have hlater := ih (fun value hmem => quiet value (List.mem_cons_of_mem _ hmem))
      (by rwa [enter, Function.update_of_ne hne])
    exact hlater.imp_right (And.imp_right (·.cons _))
  | @removed m _ other content rest hknown hrest ih =>
    have hquiet := fun value hmem => quiet value (List.mem_cons_of_mem _ hmem)
    by_cases same : key = other
    · subst same
      obtain rfl := Option.some.inj (hknown.symm.trans known)
      exact .inr ⟨hrest.eq_none hquiet (Function.update_self ..), .inl List.mem_cons_self⟩
    · have hlater := ih hquiet (by rwa [strike, Function.update_of_ne same])
      exact hlater.imp_right (And.imp_right (·.cons _))
  | @expired m _ other content rest hknown hlost hrest ih =>
    have hquiet := fun value hmem => quiet value (List.mem_cons_of_mem _ hmem)
    by_cases same : key = other
    · subst same
      obtain rfl := Option.some.inj (hknown.symm.trans known)
      exact .inr ⟨hrest.eq_none hquiet (Function.update_self ..),
        .inr ⟨List.mem_cons_self, content, rfl, hlost⟩⟩
    · have hlater := ih hquiet (by rwa [strike, Function.update_of_ne same])
      exact hlater.imp_right (And.imp_right (·.cons _))

end Mirror

/-- A put to the key is taken: the key is pinned, or the hard tier may hold something. -/
def Takes (c : Cache K V) (key : K) : Prop :=
  (c.pins.find key).isSome ∨ c.size ≠ 0

/-- Whether a cache takes a value of the key can be decided. -/
instance (c : Cache K V) (key : K) : Decidable (c.Takes key) :=
  inferInstanceAs (Decidable (_ ∨ _))

end Keys

/-- One notice is there and another one after it. -/
def InTurn (notices : List (Notice K V)) (earlier later : Notice K V) : Prop :=
  ∃ first last, notices = first ++ earlier :: last ∧ later ∈ last

/-- Notices in turn stay in turn after others. -/
theorem InTurn.append {notices : List (Notice K V)} {earlier later : Notice K V}
    (h : InTurn notices earlier later) (before : List (Notice K V)) :
    InTurn (before ++ notices) earlier later := by
  obtain ⟨first, last, rfl, hlast⟩ := h
  exact ⟨before ++ first, last, (List.append_assoc ..).symm, hlast⟩

/-- Work in which a value came to the soft tier and the budget cleared it at once. -/
structure Spent (r : Reclaimer) (work : Step (Cache K V) (Notice K V) α) (key : K) (value : V) :
    Prop where
  /-- There is a budget. -/
  budget : r.budget ≠ none
  /-- One payload was registered. -/
  next : work.reclaimer.next = r.next + 1
  /-- It has been cleared. -/
  clears : r.Clears work.reclaimer r.next
  /-- It was that of the value, the slot of which is still there or was announced as expired. -/
  held : (∃ s ∈ work.state.soft.buckets.slots, s.key.content = some key ∧
      s.value = .reclaimable r.next value) ∨
    InTurn work.notices (.added key (some value)) (.removed key none true)

/-- Earlier work that registered nothing makes no difference. -/
theorem Spent.andThen {r : Reclaimer} {first : Step (Cache K V) (Notice K V) β}
    {second : Cache K V → Reclaimer → β → Step (Cache K V) (Notice K V) α} {key : K} {value : V}
    (h : Spent first.reclaimer (second first.state first.reclaimer first.result) key value)
    (earlier : r.Precedes first.reclaimer) (same : first.reclaimer.next = r.next) :
    Spent r (first.andThen second) key value where
  budget := earlier.budget ▸ h.budget
  next := same ▸ h.next
  clears := same ▸ h.clears.earlier earlier
  held := by
    rw [← same]
    exact h.held.imp_right (·.append _)

/-- What becomes of a value that is put for a key: a lookup finds it. If it finds nothing, then the
value was announced as added and later as removed, or the budget has cleared it. -/
def Outcome [DecidableEq K] [Hashed K] (r : Reclaimer) (work : Step (Cache K V) (Notice K V) α)
    (key : K) (value : V) : Prop :=
  (work.state.get work.reclaimer key).result = some value ∨
    (work.state.get work.reclaimer key).result = none ∧
      (InTurn work.notices (.added key (some value)) (.removed key (some value) false) ∨
        Spent r work key value)

/-- Earlier work that registered nothing makes no difference. -/
theorem Outcome.andThen [DecidableEq K] [Hashed K] {r : Reclaimer}
    {first : Step (Cache K V) (Notice K V) β}
    (second : Cache K V → Reclaimer → β → Step (Cache K V) (Notice K V) α) {key : K} {value : V}
    (h : Outcome first.reclaimer (second first.state first.reclaimer first.result) key value)
    (earlier : r.Precedes first.reclaimer) (same : first.reclaimer.next = r.next) :
    Outcome r (first.andThen second) key value :=
  h.imp_right (And.imp_right (Or.imp (·.append _) (·.andThen earlier same)))

/-! ## What is announced and registered -/

/-- What the soft tier announces is never that something was added. -/
theorem ofSoft_ne_added (notice : SoftCache.Notice K V) (key : K) (value : Option V) :
    ofSoft notice ≠ some (.added key value) := by
  unfold ofSoft
  split <;> simp

variable [DecidableEq K] [Hashed K] {c : Cache K V} {r : Reclaimer} {loose : List (Entry K V)}
  {key : K} {fromSoft : Option V}

/-- What overflows is never announced as added. -/
theorem not_added_routeOverflow (c : Cache K V) (r : Reclaimer) (gone : List (Entry K V))
    (key : K) (value : Option V) : .added key value ∉ (c.routeOverflow r gone).notices := by
  induction gone generalizing c r with
  | nil => exact List.not_mem_nil
  | cons entry rest ih =>
    obtain ⟨_ | other, content⟩ := entry
    · exact ih c r
    · rw [routeOverflow_cons, Step.andThen_notices, List.mem_append, not_or]
      refine ⟨?_, ih _ _⟩
      unfold routeEntry
      split
      · intro hmem
        obtain ⟨notice, -, hnotice⟩ := List.mem_filterMap.mp hmem
        exact ofSoft_ne_added notice key value hnotice
      · intro hmem
        cases List.mem_singleton.mp hmem

omit [DecidableEq K] [Hashed K] in
/-- Only what is given up is routed. -/
theorem length_routed_le (c : Cache K V) (gone : List (Entry K V)) :
    (c.routed gone).length ≤ gone.length := by
  unfold routed
  split
  · exact Nat.zero_le _
  · exact List.length_filterMap_le ..

/-- The hard tier gives up one entry at most when an entry is put into it. -/
theorem Tiered.length_evicted_le (h : c.Tiered loose) (issued : r.Issued c.payloads) (key : K)
    (value : Option V) : (c.hard.insert r (some key) value).result.evicted.length ≤ 1 := by
  have hadmits : ∀ entry ∈ c.hard.entries r, c.hard.excludes entry.1 = false := fun entry _ =>
    h.hard_excludes entry.1
  cases there : c.hard.containsKey r (some key) with
  | true =>
    have hquiet : c.hard.PutsQuietly r (some key) value :=
      h.hard.putsQuietly issued.left hadmits there
    rw [hquiet.evicted]
    exact Nat.zero_le 1
  | false =>
    have hadmitted : c.hard.refusal (some key) value = none := by
      rw [Table.refusal, h.hard_excludes, h.hardStrengths.2]
      simp [Strength.isStrong]
    exact (h.hard.putEvicts issued.left hadmits h.hardBound hadmitted there).one

/-- A put announces the value that it replaces and then the new one. -/
theorem notices_place (c : Cache K V) (r : Reclaimer) (key : K) (fromSoft value : Option V) :
    (c.place r key fromSoft value).notices =
      (((c.place r key fromSoft value).result.previous.or (fromSoft.map some)).toList.map
        fun old => Notice.removed key old false) ++ [.added key value] := rfl

/-- What is announced when an entry is put in place of another: what goes, what comes, and what
overflows then. -/
theorem notices_supersede (c : Cache K V) (r : Reclaimer) (key : K) (fromSoft value : Option V) :
    (c.supersede r key fromSoft value).notices =
      (((c.place r key fromSoft value).result.previous.or (fromSoft.map some)).toList.map
        fun old => Notice.removed key old false) ++ .added key value ::
          ((c.place r key fromSoft value).state.routeOverflow
            (c.place r key fromSoft value).reclaimer
            (c.place r key fromSoft value).result.evicted).notices := by
  rw [List.append_cons, supersede, Step.andThen_notices, Step.map, notices_place]

/-- What is left when an entry was put in place of another is what the overflow leaves. -/
theorem state_supersede (c : Cache K V) (r : Reclaimer) (key : K) (fromSoft value : Option V) :
    (c.supersede r key fromSoft value).state =
      ((c.place r key fromSoft value).state.routeOverflow (c.place r key fromSoft value).reclaimer
        (c.place r key fromSoft value).result.evicted).state := by
  rw [supersede, Step.andThen_state, Step.map]

/-- The reclaimer after a put is that after the overflow of the hard tier. -/
theorem reclaimer_supersede (c : Cache K V) (r : Reclaimer) (key : K) (fromSoft value : Option V) :
    (c.supersede r key fromSoft value).reclaimer =
      ((c.place r key fromSoft value).state.routeOverflow (c.place r key fromSoft value).reclaimer
        (c.place r key fromSoft value).result.evicted).reclaimer := by
  rw [supersede, Step.andThen_reclaimer, Step.map]

/-- To put an entry in place of another registers one payload at most. -/
theorem Tiered.next_supersede_le (h : c.Tiered (pinEntry (key, fromSoft)).toList)
    (issued : r.Issued c.payloads)
    (absent : some key ∉ c.pinKeys ++ c.soft.contents.map Prod.fst) (value : Option V) :
    (c.supersede r key fromSoft value).reclaimer.next ≤ r.next + 1 := by
  have hregistered := (attends_supersede h issued absent value).registered
  have hrouted := c.length_routed_le (c.place r key fromSoft value).result.evicted
  have hone : (c.place r key fromSoft value).result.evicted.length ≤ 1 :=
    h.length_evicted_le issued key value
  omega

/-! ## Putting -/

omit [DecidableEq K] [Hashed K] in
/-- What can be read is an entry. -/
theorem legible_subset_holdings (c : Cache K V) (r : Reclaimer) : c.legible r ⊆ c.holdings := by
  intro entry hentry
  rw [legible, List.mem_append] at hentry
  rw [holdings, List.mem_append]
  refine hentry.imp (fun hrest => ?_) fun hsoft => c.soft.entries_subset_contents r hsoft
  exact List.mem_append.mpr ((List.mem_append.mp hrest).imp_right fun hhard =>
    c.hard.entries_subset_contents r hhard)

omit [DecidableEq K] in
/-- An entry that is not in the soft tier can be read. -/
theorem Tiered.mem_legible_or_soft (h : c.Tiered loose) (r : Reclaimer) {entry : Entry K V}
    (hentry : entry ∈ c.holdings) : entry ∈ c.legible r ∨ entry ∈ c.soft.contents := by
  rw [holdings, List.mem_append, ← Table.entries_eq_contents (h.hard_live r)] at hentry
  exact hentry.imp_left (List.mem_append_left _)

/-- An entry is put in place of what was known of its key, and then is what is known of it. -/
theorem Tiered.known_place (h : c.Tiered (pinEntry (key, fromSoft)).toList)
    (issued : r.Issued c.payloads)
    (absent : some key ∉ c.pinKeys ++ c.soft.contents.map Prod.fst) (value : Option V)
    {m : Mirror K V} (reads : m.Reads (c.holdings ++ (pinEntry (key, fromSoft)).toList)) :
    m key = (c.place r key fromSoft value).result.previous.or (fromSoft.map some) ∧
      ∃ m' : Mirror K V, m' key = some value ∧
        m'.Reads ((c.place r key fromSoft value).state.holdings ++
          (c.place r key fromSoft value).result.evicted) := by
  obtain ⟨m', hreplays, hm'⟩ := (attends_place h issued absent value).follows m reads
  rw [notices_place] at hreplays
  obtain ⟨hknown, rfl⟩ := hreplays.of_replace
  exact ⟨hknown, _, Function.update_self .., hm'⟩

/-- What an entry is put in place of is answered, unless it is null. -/
theorem Tiered.result_supersede_iff (h : c.Tiered (pinEntry (key, fromSoft)).toList)
    (issued : r.Issued c.payloads)
    (absent : some key ∉ c.pinKeys ++ c.soft.contents.map Prod.fst) (value : Option V) {old : V} :
    (c.supersede r key fromSoft value).result = some old ↔
      (some key, some old) ∈ c.holdings ++ (pinEntry (key, fromSoft)).toList := by
  have hreads := Mirror.reads_find h.distinct
  obtain ⟨hknown, -⟩ := h.known_place issued absent value hreads
  refine Iff.trans ?_ (hreads key (some old))
  dsimp only
  rw [hknown]
  exact Option.join_eq_some_iff

/-- What a put answers is what a lookup would have found. -/
theorem Tiered.result_put (h : c.Tiered []) (issued : r.Issued c.payloads) (takes : c.Takes key)
    (value : Option V) : (c.put r key value).result = (c.get r key).result := by
  rcases found : c.pins.find key with _ | old
  · have hsize : c.size ≠ 0 := takes.resolve_left (by simp [found])
    have htake := attends_takeSoftValue h issued key
    have hlegible := h.legible_takeSoft issued key
    have habsent := absent_of_takeUnpinned h issued found
    rw [List.append_nil] at htake
    set taken := c.overSoft r (·.remove · (some key)) with htaken
    have hanswer : (c.soft.remove r (some key)).result = taken.result := rfl
    rw [hanswer] at htake hlegible
    have hsoft : ∀ content, (some key, content) ∉ taken.state.soft.contents := fun content hmem =>
      habsent (List.mem_append_right _ (List.mem_map_of_mem (f := Prod.fst) hmem))
    refine Option.ext fun old => ?_
    rw [put_eq found hsize, Step.andThen_result, h.result_get_iff issued, hlegible.mem_iff,
      htake.tiered.result_supersede_iff htake.issued habsent, List.mem_append, List.mem_append]
    -- The key is not in the soft tier any more, so what there is of it can be read.
    refine or_congr_left ⟨fun hentry => ?_, fun hentry => legible_subset_holdings _ _ hentry⟩
    exact (htake.tiered.mem_legible_or_soft _ hentry).resolve_right (hsoft _)
  · rw [h.result_get_of_find issued found, put, found]
    rfl

/-- What is lost of a new value was registered for it. -/
theorem Spent.of_lost {work : Step (Cache K V) (Notice K V) α} {loose' : List (Entry K V)}
    {settled : List (K × V)}
    (h : work.Attends c r loose loose' settled) (few : work.reclaimer.next ≤ r.next + 1) {value : V}
    {payload : Nat} (later : r.next ≤ payload) (lost : r.Lost work.reclaimer payload)
    (held : (∃ s ∈ work.state.soft.buckets.slots, s.key.content = some key ∧
        s.value = .reclaimable payload value) ∨
      InTurn work.notices (.added key (some value)) (.removed key none true)) :
    Spent r work key value := by
  obtain ⟨hless, hlost⟩ := lost
  obtain rfl : payload = r.next := by omega
  have hclears := hlost.resolve_left fun hold => absurd hold.1 (by omega)
  refine ⟨fun hnone => ?_, by omega, hclears, held⟩
  exact hclears.epoch_lt.ne' (h.handover.quiet (.inl hnone))

/-! ### What a mirror tells of a lookup -/

section Reads

variable {m : Mirror K V} (h : c.Tiered []) (issued : r.Issued c.payloads)
  (reads : m.Reads c.holdings)

include h issued reads

/-- What a lookup finds is known of. -/
theorem Tiered.known_of_get {value : V} (found : (c.get r key).result = some value) :
    m key = some (some value) :=
  (reads key (some value)).mpr
    (legible_subset_holdings c r ((h.result_get_iff issued).mp found))

/-- For a key of which nothing is known a lookup finds nothing. -/
theorem Tiered.result_get_of_unknown (unknown : m key = none) : (c.get r key).result = none := by
  refine Option.eq_none_iff_forall_ne_some.mpr fun value found => ?_
  have hknown := h.known_of_get issued reads found
  rw [unknown] at hknown
  cases hknown

/-- A value that is known of is found, or it is in a slot of the soft tier that has been cleared. -/
theorem Tiered.result_get_of_known {value : V} (known : m key = some (some value)) :
    (c.get r key).result = some value ∨
      (c.get r key).result = none ∧ ∃ s ∈ c.soft.buckets.slots, ∃ payload,
        s.key.content = some key ∧ s.value = .reclaimable payload value ∧ payload ∉ r.live := by
  refine or_iff_not_imp_left.mpr fun missed => ⟨?_, ?_⟩
  · refine Option.eq_none_iff_forall_ne_some.mpr fun content found => missed ?_
    have hcontent := h.known_of_get issued reads found
    rw [known] at hcontent
    cases hcontent
    exact found
  · have hillegible := (h.result_get_iff issued).not.mp missed
    have hcontents := (h.mem_legible_or_soft r ((reads key (some value)).mp known)).resolve_left
      hillegible
    obtain ⟨s, hs, hcontent⟩ := List.mem_map.mp hcontents
    obtain ⟨_, _, payload, hkey, hvalue, hstale⟩ := exists_of_suits_soft (h.soft.suited s hs)
      h.softStrengths (by simp [hcontent]) (by simp [hcontent])
    have hsame := hcontent
    rw [Slot.content, hkey, hvalue] at hsame
    cases hsame
    refine ⟨s, hs, payload, congrArg Prod.fst hcontent, hvalue,
      hstale r (by_contra fun hlive => hillegible ?_)⟩
    exact List.mem_append_right _
      (Table.mem_entries_iff.mpr ⟨s, hs, by simpa using hlive, hcontent⟩)

end Reads

/-! ### What becomes of a value that is put -/

/-- A value that is put in place of another is found afterwards, if it has not gone since. -/
theorem Tiered.outcome_supersede (h : c.Tiered (pinEntry (key, fromSoft)).toList)
    (issued : r.Issued c.payloads)
    (absent : some key ∉ c.pinKeys ++ c.soft.contents.map Prod.fst) (value : V) :
    Outcome r (c.supersede r key fromSoft (some value)) key value := by
  have hwork := attends_supersede h issued absent (some value)
  have hfew := h.next_supersede_le issued absent (some value)
  have hplace := attends_place h issued absent (some value)
  have hnotices := notices_supersede c r key fromSoft (some value)
  -- Before the value came, the key had no slot in the soft tier.
  have hsoft : ∀ s ∈ c.soft.buckets.slots, s.key.content ≠ some key := fun s hs hkey => by
    refine absent (List.mem_append_right _ (List.mem_map.mpr ⟨_, List.mem_map_of_mem hs, ?_⟩))
    rw [Slot.content_fst, hkey]
  -- A mirror shows the value when it has been placed, and after that nothing comes.
  obtain ⟨-, m, hknown, hm⟩ :=
    h.known_place issued absent (some value) (Mirror.reads_find h.distinct)
  obtain ⟨m', hreplays, hm'⟩ := (attends_routeAll hplace.tiered hplace.issued).follows m hm
  rw [List.append_nil, ← state_supersede] at hm'
  rw [← reclaimer_supersede] at hreplays
  rcases hreplays.outcome (not_added_routeOverflow _ _ _ key) hknown with
    hthere | ⟨hgone, hremoved | ⟨hexpired, content, hcontent, payload, hheld, hlost⟩⟩
  · refine (hwork.tiered.result_get_of_known hwork.issued hm' hthere).imp_right <|
      And.imp_right fun ⟨s, hs, payload, hkey, hvalue, hdead⟩ => .inr ?_
    have hpayload : payload ∈ s.value.payloads := by
      rw [hvalue]
      exact List.mem_singleton_self _
    obtain ⟨_, _, _, hsettled, -, hcontent⟩ :=
      (hwork.origin s hs).resolve_left fun hold => hsoft s hold hkey
    cases hvalue.symm.trans hcontent
    exact .of_lost hwork hfew hsettled.le
      (hwork.handover.lost (mem_payloads_of_soft hs hpayload) hdead) (.inl ⟨s, hs, hkey, hvalue⟩)
  · exact .inr ⟨hwork.tiered.result_get_of_unknown hwork.issued hm' hgone,
      .inl ⟨_, _, hnotices, hremoved⟩⟩
  · cases hcontent
    refine .inr ⟨hwork.tiered.result_get_of_unknown hwork.issued hm' hgone, .inr ?_⟩
    have hlater := (hheld.resolve_left fun ⟨s, hs, hkey, _⟩ => hsoft s hs hkey).le
    have hplaced := hplace.handover.precedes
    have hclears := hlost.2.resolve_left fun hold => absurd hold.1 (by omega)
    exact .of_lost hwork hfew (hplaced.next_le.trans hlater)
      ⟨hlost.1, .inr (hclears.earlier hplaced)⟩ (.inr ⟨_, _, hnotices, hexpired⟩)

/-- A value that is put is found afterwards, if it has not gone since. -/
theorem Tiered.outcome_put (h : c.Tiered []) (issued : r.Issued c.payloads) (takes : c.Takes key)
    (value : V) : Outcome r (c.put r key (some value)) key value := by
  rcases found : c.pins.find key with _ | old
  · have hsize : c.size ≠ 0 := takes.resolve_left (by simp [found])
    have htake := attends_takeSoftValue h issued key
    rw [List.append_nil] at htake
    have houtcome := htake.tiered.outcome_supersede htake.issued
      (absent_of_takeUnpinned h issued found) value
    have hnext : (c.overSoft r (·.remove · (some key))).reclaimer.next = r.next :=
      c.soft.next_removeIf r (some key) fun _ => true
    rw [put_eq found hsize]
    exact houtcome.andThen (fun c r fromSoft => c.supersede r key fromSoft (some value))
      htake.handover.precedes hnext
  · have hput := attends_put h issued key (some value)
    have hfind : (c.put r key (some value)).state.pins.find key = some (some value) := by
      rw [pins_put, Directory.find_modify, if_pos rfl, found]
      rfl
    exact .inl (hput.tiered.result_get_of_find hput.issued hfind)

/-- A put that is not taken does nothing. -/
theorem put_of_not_takes (refused : ¬c.Takes key) (r : Reclaimer) (value : Option V) :
    c.put r key value = .done c r none := by
  obtain ⟨hunpinned, hsize⟩ := not_or.mp refused
  have hmissing : c.pins.find key = none := by simpa using hunpinned
  rw [put, hmissing]
  exact if_pos (not_not.mp hsize)

/-! ## Removing -/

/-- A key that is not pinned is nowhere when its entry was taken. -/
theorem Tiered.absent_takeEntry (h : c.Tiered []) (issued : r.Issued c.payloads)
    (missing : c.pins.find key = none) : some key ∉ (c.takeEntry r key).state.roster := by
  have htake := attends_takeEntry h issued key
  rcases hresult : (c.takeEntry r key).result with _ | value
  · have hboth := result_takeEntry c r key
    rw [hresult, eq_comm, Option.or_eq_none_iff] at hboth
    obtain ⟨hhard, hsoft⟩ := hboth
    have hattends := attends_takeHard h issued key
    rw [hhard, Option.toList_none, List.map_nil, List.append_nil] at hattends
    have hstate : (c.takeEntry r key).state =
        ((c.overHard r (·.removeEntry · (some key))).state.overSoft
          (c.overHard r (·.removeEntry · (some key))).reclaimer
          (·.removeEntry · (some key))).state := by
      have hanswer : (c.overHard r (·.removeEntry · (some key))).result = none := hhard
      rw [takeEntry, Step.andThen_state, hanswer]
    have hgone := absent_of_takeSoft hattends.tiered hattends.issued key
    rw [takeSoft_eq] at hgone
    rw [hstate, roster, List.mem_append, List.mem_append, not_or, not_or]
    exact ⟨⟨not_mem_pinKeys (Directory.not_mem_of_find missing),
      absent_of_takeHard h issued key hhard⟩, hgone⟩
  · rw [hresult] at htake
    exact htake.tiered.not_mem_roster

/-- What a removal answers is what a lookup would have found. -/
theorem Tiered.result_remove (h : c.Tiered []) (issued : r.Issued c.payloads) (key : K) :
    (c.remove r key).result = (c.get r key).result := by
  rcases found : c.pins.find key with _ | old
  · have hresult : (c.remove r key).result = (c.takeEntry r key).result.join := by
      rw [remove_eq found]
      rfl
    have habsent := h.absent_takeEntry issued found
    refine Option.ext fun value => ?_
    rw [hresult, h.result_get_iff issued, (h.legible_takeEntry issued key).mem_iff, List.mem_append,
      or_iff_right fun hentry => habsent (mem_roster_of_legible hentry), Option.join_eq_some_iff]
    simp
  · rw [h.result_get_of_find issued found, remove, found]
    cases old <;> rfl

/-- A key that is nowhere is in no tier. -/
theorem locate_of_absent (absent : some key ∉ c.roster) (r : Reclaimer) :
    c.locate r key = none := by
  rw [roster, List.mem_append, List.mem_append, not_or, not_or] at absent
  obtain ⟨⟨hpins, hhard⟩, hsoft⟩ := absent
  have hunpinned : c.pinnedValue key = none := by
    rw [pinnedValue, Option.join_eq_none_iff]
    refine .inl (Option.eq_none_iff_forall_ne_some.mpr fun value hvalue => hpins ?_)
    exact List.mem_map_of_mem (f := fun pin : K × Option V => some pin.1)
      (Directory.mem_of_find hvalue)
  rw [locate, hunpinned, if_neg (by simp),
    if_neg fun hkey => hhard (Table.mem_keys_of_containsKey hkey),
    if_neg fun hkey => hsoft (Table.mem_keys_of_containsKey hkey)]

/-- A removed key is in no tier. -/
theorem Tiered.locate_remove (h : c.Tiered []) (issued : r.Issued c.payloads) (key : K) :
    (c.remove r key).state.locate (c.remove r key).reclaimer key = none := by
  rcases found : c.pins.find key with _ | old
  · have hroster : (c.remove r key).state.roster = (c.takeEntry r key).state.roster := by
      rw [remove_eq found, Step.andThen_state]
      rfl
    refine locate_of_absent ?_ _
    rw [hroster]
    exact h.absent_takeEntry issued found
  · have hremove := attends_remove h issued key
    have hfind : (c.remove r key).state.pins.find key = some none := by
      rw [pins_remove, Directory.find_modify, if_pos rfl, found]
      rfl
    have hnowhere := hremove.tiered.containsKey_of_find (c.remove r key).reclaimer hfind
    exact Option.isNone_iff_eq_none.mp (Option.isSome_eq_false_iff.mp hnowhere)

/-! ## Writes -/

/-- What writing to a key comes to. -/
structure Writes (c : Cache K V) (r : Reclaimer) (key : K) : Prop where
  /-- A put that is taken answers what a lookup would have found. -/
  put : c.Takes key → ∀ value, (c.put r key value).result = (c.get r key).result
  /-- A lookup then finds the value that was put, if it has not gone since. -/
  outcome : c.Takes key → ∀ value, Outcome r (c.put r key (some value)) key value
  /-- A put that is not taken does nothing. -/
  refused : ¬c.Takes key → ∀ value, c.put r key value = .done c r none
  /-- A removal answers what a lookup would have found. -/
  remove : (c.remove r key).result = (c.get r key).result
  /-- There is no entry then. -/
  gone : (c.remove r key).state.containsKey (c.remove r key).reclaimer key = false
  /-- And the key is in no tier. -/
  nowhere : (c.remove r key).state.locate (c.remove r key).reclaimer key = none

/-- Every tiered cache is written to so. -/
theorem Tiered.writes (h : c.Tiered []) (issued : r.Issued c.payloads) (key : K) :
    c.Writes r key where
  put takes value := h.result_put issued takes value
  outcome takes value := h.outcome_put issued takes value
  refused refused value := put_of_not_takes refused r value
  remove := h.result_remove issued key
  gone := by
    rw [containsKey, h.locate_remove issued key]
    rfl
  nowhere := h.locate_remove issued key

end SoftCache.Cache
