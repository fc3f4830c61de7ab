import SoftCache.Proofs.Table.Likeness

/-!
# Twins

Twins answer and announce the same whatever both are asked for, and they are twins afterwards
(`Table.Twins.agrees_perform`). Each operation is shown to agree (`Step.Agrees`), in the order in
which they are built on one another.
-/

open scoped List

namespace SoftCache

variable {K V α β : Type}

/-- Work that comes to the same on both of two twins. -/
structure Step.Agrees (base : Table.Metrics) (step step' : Step (Table K V) (Notice K V) α) :
    Prop where
  /-- The answers are the same. -/
  result : step.result = step'.result
  /-- The same is announced. -/
  notices : step.notices = step'.notices
  /-- The tables are twins afterwards. -/
  twins : Table.Twins base step.state step.reclaimer step'.state step'.reclaimer

namespace Step.Agrees

variable {base : Table.Metrics} {step step' : Step (Table K V) (Notice K V) α}

/-- One piece of work and then another. -/
theorem andThen {next next' : Table K V → Reclaimer → α → Step (Table K V) (Notice K V) β}
    (h : Agrees base step step')
    (hnext : Agrees base (next step.state step.reclaimer step.result)
      (next' step'.state step'.reclaimer step'.result)) :
    Agrees base (step.andThen next) (step'.andThen next') where
  result := hnext.result
  notices := by rw [andThen_notices, andThen_notices, h.notices, hnext.notices]
  twins := hnext.twins

/-- The same is made of the answers. -/
theorem map (f : α → β) (h : Agrees base step step') : Agrees base (step.map f) (step'.map f) :=
  ⟨congrArg f h.result, h.notices, h.twins⟩

end Step.Agrees

namespace Table

variable {base : Metrics} {t t' : Table K V} {r r' : Reclaimer}

namespace Twins

/-- Nothing is done with either. -/
theorem done (h : Twins base t r t' r') {answer answer' : α} (same : answer = answer') :
    Step.Agrees base (Step.done t r answer) (Step.done t' r' answer') :=
  ⟨same, rfl, h⟩

/-- Twins have as many buckets. -/
theorem capacity (h : Twins base t r t' r') : t.capacity = t'.capacity :=
  h.buckets.size

/-- Twins have the same contents, stale or not. -/
theorem contents (h : Twins base t r t' r') : t.contents = t'.contents :=
  map_content_of_seen h.buckets.slots

/-- The same entries can be read, in the same order. -/
theorem entries (h : Twins base t r t' r') : t.entries r = t'.entries r' := by
  rw [h.first.entries, h.second.entries, h.contents]

/-- Both may count. -/
theorem tally (h : Twins base t r t' r') (count : Metrics → Metrics)
    (since : ∀ m, count (base.plus m) = base.plus (count m)) :
    Twins base (t.tally count) r (t'.tally count) r' := by
  obtain ⟨⟨config, buckets, counted, threshold, bound, cursor, metrics⟩, first, second⟩ := h
  refine ⟨⟨config, buckets, counted, threshold, bound, cursor, ?_⟩,
    ⟨first.issued, first.budget, first.live⟩, ⟨second.issued, second.budget, second.live⟩⟩
  show count t.metrics = base.plus (count t'.metrics)
  rw [metrics, since]

/-- Twins stay twins when an eviction is counted for both. -/
theorem tallyEviction (h : Twins base t r t' r') :
    Twins base t.tallyEviction r t'.tallyEviction r' :=
  h.tally (fun m => { m with evictions := m.evictions + 1 }) fun _ => rfl

/-- Twins stay twins when a miss is counted for both. -/
theorem tallyMiss (h : Twins base t r t' r') :
    Twins base (t.tally fun m => { m with misses := m.misses + 1 }) r
      (t'.tally fun m => { m with misses := m.misses + 1 }) r' :=
  h.tally (fun m => { m with misses := m.misses + 1 }) fun _ => rfl

/-- Both may remember when they were last swept. -/
theorem remember (h : Twins base t r t' r') (epoch epoch' : Nat) :
    Twins base { t with sweptEpoch := epoch } r { t' with sweptEpoch := epoch' } r' :=
  ⟨⟨h.config, h.buckets, h.count, h.threshold, h.bound, h.cursor, h.metrics⟩,
    ⟨h.first.issued, h.first.budget, h.first.live⟩,
    ⟨h.second.issued, h.second.budget, h.second.live⟩⟩

/-- Twins stay twins when both are given a bound. -/
theorem setBound (h : Twins base t r t' r') (bound : Option Nat) :
    Twins base { t with bound := bound } r { t' with bound := bound } r' :=
  ⟨⟨h.config, h.buckets, h.count, h.threshold, rfl, h.cursor, h.metrics⟩,
    ⟨h.first.issued, h.first.budget, h.first.live⟩,
    ⟨h.second.issued, h.second.budget, h.second.live⟩⟩

/-! ## Growth and eviction -/

/-- Both move to as many buckets. -/
theorem agrees_rehash (h : Twins base t r t' r') {capacity : Nat} (pos : 0 < capacity) :
    Step.Agrees base (t.rehash r capacity) (t'.rehash r' capacity) := by
  refine ⟨rfl, ?_, ?_, ?_, ?_⟩
  · rw [rehash, rehash, rehashIn, rehashIn, h.first.filter_isStale, h.second.filter_isStale]
    rfl
  · constructor
    case config => exact h.config
    case buckets =>
      simp only [rehash, rehashIn]
      rw [h.first.filter_live, h.second.filter_live]
      exact Buckets.alike_ofSlots capacity h.buckets.slots
    case count =>
      simp only [rehash, rehashIn]
      rw [h.first.filter_isStale, h.second.filter_isStale, h.count]
    case threshold => exact congrArg (·.loadFactor.threshold capacity) h.config
    case bound => exact h.bound
    case cursor => exact h.cursor
    case metrics =>
      simp only [rehash, rehashIn]
      rw [h.first.filter_isStale, h.second.filter_isStale, h.metrics]
      rfl
  · exact (accounts_rehash h.first.issued capacity pos).lively h.first (List.forall_mem_nil _)
  · exact (accounts_rehash h.second.issued capacity pos).lively h.second (List.forall_mem_nil _)

/-- Both grow as far. -/
theorem agrees_enlarge (h : Twins base t r t' r') :
    Step.Agrees base (t.enlarge r) (t'.enlarge r') := by
  -- By induction on the moves of the first, each of which the second makes as well.
  induction t, r using enlarge_induction generalizing t' r'
  case case1 t r moved enough =>
    have hmoved : Step.Agrees base moved (t'.rehash r' (2 * t.capacity + 1)) :=
      h.agrees_rehash (by omega)
    have enough' := enough
    rw [hmoved.twins.count, hmoved.twins.threshold, h.capacity] at enough'
    rw [enlarge_eq, if_pos enough, enlarge_eq t', if_pos enough', ← h.capacity]
    exact hmoved
  case case2 t r moved more ih =>
    have hmoved : Step.Agrees base moved (t'.rehash r' (2 * t.capacity + 1)) :=
      h.agrees_rehash (by omega)
    have more' := more
    rw [hmoved.twins.count, hmoved.twins.threshold, h.capacity] at more'
    rw [enlarge_eq, if_neg more, enlarge_eq t', if_neg more', ← h.capacity]
    exact hmoved.andThen (ih hmoved.twins)

/-- Twins grow together. -/
theorem agrees_grow (h : Twins base t r t' r') : Step.Agrees base (t.grow r) (t'.grow r') := by
  rw [grow_eq, grow_eq, h.count, h.threshold]
  split
  · exact h.done rfl
  · exact h.agrees_enlarge

/-- From both the same entry is taken. -/
theorem agrees_takeNear (h : Twins base t r t' r') :
    Step.Agrees base (t.takeNear r) (t'.takeNear r') := by
  have horder : probeOrder (t.cursor.target t.capacity) t.capacity =
      probeOrder (t'.cursor.target t'.capacity) t'.capacity := by
    rw [h.cursor, h.capacity]
  obtain ⟨hstale, hstale', hfound, hbuckets⟩ := Buckets.alike_probe
    (probeOrder (t.cursor.target t.capacity) t.capacity) h.buckets h.first.live_bucket
    h.second.live_bucket
  have hlive := (accounts_takeNear h.first.issued).lively h.first (List.forall_mem_nil _)
  have hlive' := (accounts_takeNear h.second.issued).lively h.second (List.forall_mem_nil _)
  refine ⟨?_, ?_, ?_, hlive, hlive'⟩
  · -- What is taken is live, so its entry is what is seen.
    have hentry : ∀ {r : Reclaimer} (order : List Nat) (b : Buckets K V),
        (Buckets.probe r order b).found.map (·.entry r) =
          ((Buckets.probe r order b).found.map Slot.seen).map Prod.snd := by
      intro r order b
      cases found : (Buckets.probe r order b).found with
      | none => rfl
      | some s => exact congrArg some (Slot.entry_eq_content (Buckets.isStale_of_found _ _ found))
    show Option.map _ _ = Option.map _ _
    rw [hentry, hfound, horder, ← hentry]
  · show List.map _ _ = List.map _ _
    rw [hstale, ← horder, hstale']
    rfl
  · have hlength : (Buckets.probe r (probeOrder (t.cursor.target t.capacity) t.capacity)
        t.buckets).found.toList.length = (Buckets.probe r'
          (probeOrder (t.cursor.target t.capacity) t.capacity) t'.buckets).found.toList.length := by
      have hsome := congrArg (fun found => found.toList.length) hfound
      simpa [Option.length_toList] using hsome
    simp only [takeNear, ← horder, hstale, hstale', List.nil_append, List.length_nil]
    constructor
    case config => exact h.config
    case buckets => exact hbuckets
    case count =>
      dsimp only
      rw [h.count, hlength]
    case threshold => exact h.threshold
    case bound => exact h.bound
    case cursor => exact congrArg Cursor.advance h.cursor
    case metrics => exact h.metrics

/-- One eviction comes to the same in both. -/
theorem agrees_evicting (h : Twins base t r t' r') (bound : Nat) (entry : Entry K V) :
    Step.Agrees base (t.evicting bound r entry) (t'.evicting bound r' entry) := by
  have htaken := h.agrees_takeNear
  refine ⟨rfl, ?_, htaken.twins.tallyEviction⟩
  show _ ++ [_] = _ ++ [_]
  rw [htaken.notices]

/-- From both the same entries are evicted. -/
theorem agrees_evictDownTo (bound : Nat) (h : Twins base t r t' r') :
    Step.Agrees base (evictDownTo bound t r) (evictDownTo bound t' r') := by
  -- By induction on the evictions from the first, each of which is made from the second as well.
  induction t, r using evictDownTo.induct bound generalizing t' r'
  case case1 t r enough =>
    have enough' := enough
    rw [h.count] at enough'
    rw [evictDownTo, if_pos enough, evictDownTo, if_pos enough']
    exact h.done rfl
  case case2 t r more taken nothing =>
    have htaken := h.agrees_takeNear
    have more' := more
    rw [h.count] at more'
    rw [evictDownTo_of_none more nothing,
      evictDownTo_of_none more' (htaken.result.symm.trans nothing)]
    exact htaken.map _
  case case3 t r more taken entry found ih =>
    have htaken := h.agrees_takeNear
    have more' := more
    rw [h.count] at more'
    rw [evictDownTo_of_some more found,
      evictDownTo_of_some more' (htaken.result.symm.trans found)]
    have hevicted := h.agrees_evicting bound entry
    exact hevicted.andThen ((ih hevicted.twins).map _)

/-- Twins evict the same to keep their bound. -/
theorem agrees_enforceBound (h : Twins base t r t' r') :
    Step.Agrees base (t.enforceBound r) (t'.enforceBound r') := by
  unfold enforceBound
  rw [h.bound]
  split
  · exact h.done rfl
  · exact h.agrees_evictDownTo _

/-- From twins the same entry is removed at random. -/
theorem agrees_removeRandom (h : Twins base t r t' r') :
    Step.Agrees base (t.removeRandom r) (t'.removeRandom r') := by
  have htaken := h.agrees_takeNear
  refine htaken.andThen ?_
  rw [htaken.result]
  split
  · exact htaken.twins.tallyEviction.done rfl
  · exact htaken.twins.done rfl

/-- From twins the same entries are removed at random. -/
theorem agrees_removeRandoms (h : Twins base t r t' r') (n : Nat) :
    Step.Agrees base (t.removeRandoms r n) (t'.removeRandoms r' n) := by
  induction n generalizing t r t' r' with
  | zero => exact h.done rfl
  | succ n ih =>
    have hfirst := h.agrees_removeRandom
    refine hfirst.andThen ?_
    rw [hfirst.result]
    exact (ih hfirst.twins).map _

/-- Both are looked at from the same bucket on. -/
theorem agrees_randomEntries (h : Twins base t r t' r') :
    Step.Agrees base (t.randomEntries r) (t'.randomEntries r') := by
  have hentries : ∀ {t : Table K V} {r : Reclaimer}, t.Lively r → ∀ n,
      liveEntries r (t.buckets.toList.drop n ++ t.buckets.toList.take n).flatten =
        ((t.buckets.toList.map (List.map Slot.seen)).drop n ++
          (t.buckets.toList.map (List.map Slot.seen)).take n).flatten.map Prod.snd := by
    intro t r hlively n
    set turned := (t.buckets.toList.drop n ++ t.buckets.toList.take n).flatten with hturned
    have hlive : ∀ s ∈ turned, s.isStale r = false := by
      intro s hs
      obtain ⟨bucket, hbucket, hs⟩ := List.mem_flatten.mp hs
      refine hlively.live s (List.mem_flatten.mpr ⟨bucket, ?_, hs⟩)
      rcases List.mem_append.mp hbucket with hbucket | hbucket
      · exact List.mem_of_mem_drop hbucket
      · exact List.mem_of_mem_take hbucket
    have hall : turned.filter (fun s => !s.isStale r) = turned :=
      List.filter_eq_self.mpr fun s hs => by simp [hlive s hs]
    rw [← List.map_drop, ← List.map_take, ← List.map_append, ← List.map_flatten, List.map_map,
      liveEntries, hall]
    exact List.map_congr_left fun s hs => Slot.entry_eq_content (hlive s hs)
  refine ⟨?_, rfl, ?_⟩
  · show liveEntries _ _ = liveEntries _ _
    rw [hentries h.first, hentries h.second, h.buckets.toList, h.cursor, h.capacity]
  · exact ⟨⟨h.config, h.buckets, h.count, h.threshold, h.bound, congrArg Cursor.advance h.cursor,
      h.metrics⟩, ⟨h.first.issued, h.first.budget, h.first.live⟩,
      ⟨h.second.issued, h.second.budget, h.second.live⟩⟩

/-! ## Sweeping and clearing -/

/-- Twins are swept of the same. -/
theorem agrees_removeExpired (h : Twins base t r t' r') :
    Step.Agrees base (t.removeExpired r) (t'.removeExpired r') := by
  obtain ⟨epoch, log, heq⟩ := h.first.removeExpired
  obtain ⟨epoch', log', heq'⟩ := h.second.removeExpired
  rw [heq, heq']
  exact ⟨rfl, rfl, h.remember epoch epoch'⟩

/-- Twins count the same. -/
theorem agrees_length (h : Twins base t r t' r') :
    Step.Agrees base (t.length r) (t'.length r') := by
  obtain ⟨epoch, log, heq⟩ := h.first.length
  obtain ⟨epoch', log', heq'⟩ := h.second.length
  rw [heq, heq']
  exact ⟨h.count, rfl, h.remember epoch epoch'⟩

/-- Twins that are cleared are twins. -/
theorem agrees_clear (h : Twins base t r t' r') : Step.Agrees base (t.clear r) (t'.clear r') := by
  refine ⟨rfl, rfl, ⟨h.config, ?_, rfl, h.threshold, h.bound, h.cursor, h.metrics⟩, ?_, ?_⟩
  · simp only [clear]
    rw [h.capacity]
    exact Buckets.alike_empty _
  · exact (accounts_clear h.first.issued).lively h.first (List.forall_mem_nil _)
  · exact (accounts_clear h.second.issued).lively h.second (List.forall_mem_nil _)

/-! ## Keys -/

section Keys

variable [DecidableEq K] [Hashed K]

omit [DecidableEq K] in
/-- A key lies in the same bucket of both. -/
theorem indexOf (h : Twins base t r t' r') (key : Option K) : t.indexOf key = t'.indexOf key := by
  rw [Table.indexOf, Table.indexOf, h.capacity]

omit [DecidableEq K] [Hashed K] in
/-- Twins exclude the same keys. -/
theorem excludes (h : Twins base t r t' r') (key : Option K) :
    t.excludes key = t'.excludes key := by
  rw [Table.excludes, Table.excludes, h.config]

/-- It can be seen of a slot in a bucket whether it has the key. -/
theorem isFor_bucket (h : t.Lively r) (i : Nat) (key : Option K) :
    ∀ s ∈ t.buckets.bucket i,
      s.isFor r (nullableHash key) key = isSeenFor (nullableHash key) key s.seen :=
  fun s hs => Slot.isFor_eq_isSeenFor (h.live_bucket i s hs) _ _

/-- In both the same is found for a key. -/
theorem slotFor? (h : Twins base t r t' r') (key : Option K) :
    (t.slotFor? r key).map Slot.seen = (t'.slotFor? r' key).map Slot.seen := by
  rw [Table.slotFor?, Table.slotFor?, map_find?_of_seen (isFor_bucket h.first _ key),
    map_find?_of_seen (isFor_bucket h.second _ key), h.indexOf key, h.buckets.bucket]

/-- A key has a slot in both or in neither, and the same is seen of the two slots. -/
theorem slotFor?_cases (h : Twins base t r t' r') (key : Option K) :
    (t.slotFor? r key = none ∧ t'.slotFor? r' key = none) ∨
      ∃ slot slot', t.slotFor? r key = some slot ∧ t'.slotFor? r' key = some slot' ∧
        slot.seen = slot'.seen := by
  have hsame := h.slotFor? key
  cases found : t.slotFor? r key with
  | none =>
    rw [found, Option.map_none, eq_comm, Option.map_eq_none_iff] at hsame
    exact .inl ⟨rfl, hsame⟩
  | some slot =>
    rw [found, Option.map_some, eq_comm, Option.map_eq_some_iff] at hsame
    obtain ⟨slot', found', hseen⟩ := hsame
    exact .inr ⟨slot, slot', rfl, found', hseen.symm⟩

/-- In both the entry of the key becomes the last of its bucket, or stays where it is. -/
theorem alike_touch (h : Twins base t r t' r') (key : Option K) :
    Alike base (t.touch r key) (t'.touch r' key) := by
  unfold touch
  rw [h.config]
  split
  · exact h.toAlike
  · refine ⟨rfl, ?_, h.count, h.threshold, h.bound, h.cursor, h.metrics⟩
    dsimp only
    rw [h.indexOf key]
    refine h.buckets.set _ ?_
    rw [moveToBack, moveToBack, List.map_append, List.map_append,
      map_eraseP_of_seen (isFor_bucket h.first _ key),
      map_eraseP_of_seen (isFor_bucket h.second _ key), h.buckets.bucket]
    have hfound := h.slotFor? key
    rw [Table.slotFor?, Table.slotFor?, h.indexOf key] at hfound
    have hlist := congrArg Option.toList hfound
    rw [Option.toList_map, Option.toList_map] at hlist
    rw [hlist]

/-- In twins a lookup finds the same. -/
theorem agrees_lookup (h : Twins base t r t' r') (key : Option K) :
    Step.Agrees base (t.lookup r key) (t'.lookup r' key) := by
  by_cases hkey : t.excludes key = true
  · have hkey' := hkey
    rw [h.excludes] at hkey'
    rw [lookup, if_pos hkey, lookup, if_pos hkey']
    exact h.tallyMiss.done rfl
  · have hkey : t.excludes key = false := by simpa using hkey
    have hkey' := hkey
    rw [h.excludes] at hkey'
    obtain ⟨departed, haccounts, -⟩ := accounts_lookup h.first.issued key
    obtain ⟨departed', haccounts', -⟩ := accounts_lookup h.second.issued key
    have hlive := haccounts.lively h.first (List.forall_mem_nil _)
    have hlive' := haccounts'.lively h.second (List.forall_mem_nil _)
    rw [h.first.lookup hkey] at hlive ⊢
    rw [h.second.lookup hkey'] at hlive' ⊢
    rcases h.slotFor?_cases key with ⟨found, found'⟩ | ⟨slot, slot', found, found', hseen⟩
    · rw [found, found']
      exact h.tallyMiss.done rfl
    · rw [found] at hlive ⊢
      rw [found'] at hlive' ⊢
      have hhit := h.tally (fun m => { m with hits := m.hits + 1 }) fun _ => rfl
      refine ⟨?_, rfl, hhit.alike_touch key, hlive, hlive'⟩
      exact congrArg (fun seen => some seen.2.2) hseen

/-- A slot is taken from both. -/
theorem agrees_removal (h : Twins base t r t' r') {key : Option K} {slot slot' : Slot K V}
    (found : t.slotFor? r key = some slot) (found' : t'.slotFor? r' key = some slot')
    (hseen : slot.seen = slot'.seen) :
    Step.Agrees base (t.removal r key slot) (t'.removal r' key slot') := by
  have hvalue := (Slot.isStale_eq_false_iff.mp
    (h.first.live_bucket _ slot (slotFor?_spec found).1)).2
  have hvalue' := (Slot.isStale_eq_false_iff.mp
    (h.second.live_bucket _ slot' (slotFor?_spec found').1)).2
  refine ⟨?_, rfl, ?_, ?_, ?_⟩
  · rw [removal, removal, Holder.get_eq_content hvalue, Holder.get_eq_content hvalue']
    exact congrArg (fun seen => some seen.2.2) hseen
  · refine ⟨h.config, ?_, congrArg (· - 1) h.count, h.threshold, h.bound, h.cursor, ?_⟩
    · simp only [removal]
      rw [h.indexOf key]
      refine h.buckets.set _ ?_
      rw [map_eraseP_of_seen (isFor_bucket h.first _ key),
        map_eraseP_of_seen (isFor_bucket h.second _ key), h.buckets.bucket]
    · simp only [removal]
      rw [h.metrics]
      rfl
  · exact (accounts_removal h.first.issued found).lively h.first (List.forall_mem_nil _)
  · exact (accounts_removal h.second.issued found').lively h.second (List.forall_mem_nil _)

/-- From twins the same entry is removed. -/
theorem agrees_removeIf (h : Twins base t r t' r') (key : Option K) (accept : Option V → Bool) :
    Step.Agrees base (t.removeIf r key accept) (t'.removeIf r' key accept) := by
  by_cases hkey : t.excludes key = true
  · have hkey' := hkey
    rw [h.excludes] at hkey'
    rw [removeIf, if_pos hkey, removeIf, if_pos hkey']
    exact h.done rfl
  · have hkey : t.excludes key = false := by simpa using hkey
    have hkey' := hkey
    rw [h.excludes] at hkey'
    rw [h.first.removeIf hkey, h.second.removeIf hkey', removeFound, removeFound]
    rcases h.slotFor?_cases key with ⟨found, found'⟩ | ⟨slot, slot', found, found', hseen⟩
    · rw [found, found']
      exact h.done rfl
    · rw [found, found']
      dsimp only
      have hremoval := h.agrees_removal found found' hseen
      -- Both slots have the same value, and it is accepted in both or in neither.
      have hvalue : slot.value.get r = slot'.value.get r' := Option.some.inj hremoval.result
      rw [hvalue]
      split
      · exact hremoval
      · exact h.done rfl

/-- A value is replaced in both. -/
theorem agrees_replaceValue (h : Twins base t r t' r') {key : Option K} {slot slot' : Slot K V}
    (found : t.slotFor? r key = some slot) (found' : t'.slotFor? r' key = some slot')
    (hseen : slot.seen = slot'.seen) (value : Option V) :
    Step.Agrees base (t.replaceValue r key slot value) (t'.replaceValue r' key slot' value) := by
  obtain ⟨came, left, hinsertion⟩ := insertion_replaceValue h.first.issued value found
  obtain ⟨came', left', hinsertion'⟩ := insertion_replaceValue h.second.issued value found'
  have hrenewed : Slot.seen
        { slot with value := (Held.of t.config.valueStrength value r).holder } =
      Slot.seen { slot' with value := (Held.of t'.config.valueStrength value r').holder } := by
    have hhash : slot.hash = slot'.hash := congrArg (·.1) hseen
    have hkey : slot.key.content = slot'.key.content := congrArg (·.2.1) hseen
    simp [Slot.seen, Slot.content, hhash, hkey]
  refine ⟨?_, rfl, ?_, hinsertion.accounts.lively h.first hinsertion.lasts,
    hinsertion'.accounts.lively h.second hinsertion'.lasts⟩
  · -- The old value is read when the new one has been registered, and is live even then.
    have hvalue := (Slot.isStale_eq_false_iff.mp (h.first.isStale_hold
      (Buckets.mem_slots.mpr ⟨_, (slotFor?_spec found).1⟩) t.config.valueStrength value)).2
    have hvalue' := (Slot.isStale_eq_false_iff.mp (h.second.isStale_hold
      (Buckets.mem_slots.mpr ⟨_, (slotFor?_spec found').1⟩) t'.config.valueStrength value)).2
    rw [replaceValue, replaceValue, Holder.get_eq_content hvalue, Holder.get_eq_content hvalue']
    exact congrArg (fun seen => (⟨some seen.2.2, []⟩ : Placement K V)) hseen
  · refine ⟨h.config, ?_, h.count, h.threshold, h.bound, h.cursor, ?_⟩
    · simp only [replaceValue]
      rw [h.config] at hrenewed ⊢
      rw [h.indexOf key]
      split
      · refine h.buckets.set _ ?_
        rw [map_replaceFirst_of_seen (isFor_bucket h.first _ key),
          map_replaceFirst_of_seen (isFor_bucket h.second _ key), hrenewed, h.buckets.bucket]
      · refine h.buckets.set _ ?_
        rw [List.map_append, List.map_append, map_eraseP_of_seen (isFor_bucket h.first _ key),
          map_eraseP_of_seen (isFor_bucket h.second _ key), h.buckets.bucket, List.map_singleton,
          List.map_singleton, hrenewed]
    · simp only [replaceValue]
      rw [h.metrics]
      rfl

omit [DecidableEq K] in
/-- A slot is added to both. -/
theorem agrees_addSlot (h : Twins base t r t' r') (pos : 0 < t.capacity) (key : Option K)
    (value : Option V) : Step.Agrees base (t.addSlot r key value) (t'.addSlot r' key value) := by
  have pos' := pos
  rw [h.capacity] at pos'
  have hlasts : ∀ (t : Table K V) (r : Reclaimer),
      ∀ s ∈ [t.newSlot r key value], s.lasts r = true := by
    intro t r s hs
    cases List.mem_singleton.mp hs
    refine Slot.lasts_iff.mpr fun payload hp => .inr ?_
    rcases List.mem_append.mp hp with hp | hp
    · exact le_of_mem_payloads_of _ _ le_rfl payload hp
    · exact le_of_mem_payloads_of _ _ (Held.precedes_of _ key r).next_le payload hp
  refine ⟨rfl, rfl, ?_, ?_, ?_⟩
  · refine ⟨h.config, ?_, congrArg (· + 1) h.count, h.threshold, h.bound, h.cursor, ?_⟩
    · refine h.buckets.push ?_
      show (t.newSlot r key value).seen = (t'.newSlot r' key value).seen
      rw [Slot.seen, Slot.seen, content_newSlot, content_newSlot]
      rfl
    · simp only [addSlot]
      rw [h.metrics]
      rfl
  · exact (accounts_addSlot pos h.first.issued key value).lively h.first (hlasts t r)
  · exact (accounts_addSlot pos' h.second.issued key value).lively h.second (hlasts t' r')

/-- An entry is put into the slots of its key, or into new ones. -/
theorem agrees_insertFound (h : Twins base t r t' r') (pos : 0 < t.capacity) (key : Option K)
    (value : Option V) :
    Step.Agrees base (t.insertFound r key value) (t'.insertFound r' key value) := by
  unfold insertFound
  rcases h.slotFor?_cases key with ⟨found, found'⟩ | ⟨slot, slot', found, found', hseen⟩
  · rw [found, found']
    have hadded := h.agrees_addSlot pos key value
    have hgrown := hadded.twins.agrees_grow
    exact hadded.andThen (hgrown.andThen (hgrown.twins.agrees_enforceBound.map _))
  · rw [found, found']
    exact h.agrees_replaceValue found found' hseen value

/-- Into twins an entry is put alike. -/
theorem agrees_put (h : Twins base t r t' r') (pos : 0 < t.capacity) (key : Option K)
    (value : Option V) : Step.Agrees base (t.put r key value) (t'.put r' key value) := by
  have hrefusal : t.refusal key value = t'.refusal key value := by
    rw [refusal, refusal, h.excludes, h.config]
  unfold put
  rw [hrefusal]
  split
  · exact h.done rfl
  · rw [h.first.insert, h.second.insert]
    exact (h.agrees_insertFound pos key value).map _

/-- Into twins entries are put alike, one after the other. -/
theorem agrees_putAll (h : Twins base t r t' r') (sound : t.Sound) (entries : List (K × V)) :
    Step.Agrees base (t.putAll r entries) (t'.putAll r' entries) := by
  induction entries generalizing t r t' r' with
  | nil => exact h.done rfl
  | cons entry rest ih =>
    have hput := upholds_put sound h.first.issued (some entry.1) (some entry.2)
    have hagrees := h.agrees_put sound.capacity_pos (some entry.1) (some entry.2)
    exact hagrees.andThen (ih hagrees.twins hput.sound)

/-- Both contain the same keys. -/
theorem containsKey (h : Twins base t r t' r') (key : Option K) :
    t.containsKey r key = t'.containsKey r' key := by
  have htest : ∀ {t : Table K V} {r : Reclaimer}, t.Lively r → ∀ i, ∀ s ∈ t.buckets.bucket i,
      (s.isFor r (nullableHash key) key && !s.value.isCleared r) =
        isSeenFor (nullableHash key) key s.seen := by
    intro t r hlively i s hs
    have hvalue := (Slot.isStale_eq_false_iff.mp (hlively.live_bucket i s hs)).2
    rw [isFor_bucket hlively i key s hs, hvalue, Bool.not_false, Bool.and_true]
  rw [Table.containsKey, Table.containsKey, h.excludes, any_eq_of_seen (htest h.first _),
    any_eq_of_seen (htest h.second _), h.indexOf key, h.buckets.bucket]

omit [DecidableEq K] [Hashed K] in
/-- Both contain the same values. -/
theorem containsValue [DecidableEq V] (h : Twins base t r t' r') (value : Option V) :
    t.containsValue r value = t'.containsValue r' value := by
  have htest : ∀ {t : Table K V} {r : Reclaimer}, t.Lively r → ∀ s ∈ t.buckets.slots,
      (!s.key.isCleared r && s.value.holds r value) = isSeenWith value s.seen := by
    intro t r hlively s hs
    obtain ⟨hkey, hvalue⟩ := Slot.isStale_eq_false_iff.mp (hlively.live s hs)
    rw [Holder.holds, hkey, hvalue, Holder.get_eq_content hvalue]
    rfl
  rw [Table.containsValue, Table.containsValue,
    any_eq_of_seen (htest h.first), any_eq_of_seen (htest h.second), h.buckets.slots]

end Keys

end Twins

end Table

/-! ## All requests -/

/-- An answer as it would be if so much had been counted before. -/
def Reply.plus (base : Table.Metrics) : Reply K V → Reply K V
  | .tableMetrics metrics => .tableMetrics (base.plus metrics)
  | .tableState snapshot => .tableState { snapshot with metrics := base.plus snapshot.metrics }
  | reply => reply

/-- Work that agrees is answered alike, if the answer has nothing that is counted. -/
theorem Step.Agrees.answers {base : Table.Metrics} {step step' : Step (Table K V) (Notice K V) α}
    (h : Agrees base step step') (answer : α → Reply K V)
    (plain : ∀ a, (answer a).plus base = answer a) :
    Agrees base (step.map answer) ((step'.map answer).map (Reply.plus base)) := by
  refine ⟨?_, h.notices, h.twins⟩
  show answer step.result = (answer step'.result).plus base
  rw [plain, h.result]

namespace Table

variable {base : Metrics} {t t' : Table K V} {r r' : Reclaimer} [DecidableEq K] [Hashed K]
  [DecidableEq V]

/-- Twins answer and announce the same, but for what the first had counted before, and stay
twins. -/
theorem Twins.agrees_perform (h : Twins base t r t' r') (sound : t.Sound) (sound' : t'.Sound)
    (request : Request K V) :
    Step.Agrees base (t.perform r request) ((t'.perform r' request).map (Reply.plus base)) := by
  have hread : ∀ {reply reply' : Reply K V}, reply = reply'.plus base →
      Step.Agrees base (t.read r reply) ((t'.read r' reply').map (Reply.plus base)) :=
    fun same => ⟨same, rfl, h⟩
  unfold perform
  cases request with
  | get key => exact ((h.agrees_lookup key).map _).answers .value fun _ => rfl
  | containsEntry key value => exact ((h.agrees_lookup key).map _).answers .flag fun _ => rfl
  | put key value =>
    exact (h.agrees_put sound.capacity_pos key value).answers _ fun answer => by
      cases answer <;> rfl
  | putAll source =>
    cases source with
    | none => exact hread rfl
    | some entries => exact (h.agrees_putAll sound entries).answers _ fun _ => rfl
  | remove key => exact ((h.agrees_removeIf key _).map _).answers .value fun _ => rfl
  | removeKey key => exact (h.agrees_removeIf key _).answers _ fun _ => rfl
  | removeEntry key value => exact (h.agrees_removeIf key _).answers _ fun _ => rfl
  | removeRandom => exact h.agrees_removeRandom.answers _ fun _ => rfl
  | removeRandoms n => exact (h.agrees_removeRandoms n).answers _ fun _ => rfl
  | removeExpired => exact h.agrees_removeExpired.answers _ fun _ => rfl
  | length => exact h.agrees_length.answers _ fun _ => rfl
  | isEmpty => exact h.agrees_length.answers _ fun _ => rfl
  | viewLiteral view => exact h.agrees_length.answers _ fun _ => rfl
  | clear => exact h.agrees_clear.answers _ fun _ => rfl
  | setBound bound => exact (h.setBound bound).agrees_enforceBound.answers _ fun _ => rfl
  | randomEntries => exact h.agrees_randomEntries.answers _ fun _ => rfl
  | containsKey key => exact hread (congrArg Reply.flag (h.containsKey key))
  | containsValue value => exact hread (congrArg Reply.flag (h.containsValue value))
  | entries => exact hread (congrArg (fun entries => Reply.items (entries.map entryItem)) h.entries)
  | bound => exact hread (congrArg Reply.limit h.bound)
  | capacity => exact hread (congrArg (fun n : Nat => Reply.number n) h.capacity)
  | position => exact hread (congrArg (fun c => Reply.number c.position) h.cursor)
  | metrics => exact hread (congrArg Reply.tableMetrics h.metrics)
  | config => exact hread (congrArg Reply.config h.config)
  | literal =>
    refine hread (congrArg (fun text => Reply.text (some text)) ?_)
    rw [Table.literal, Table.literal, h.config, h.count, h.capacity, h.bound]
  | snapshot =>
    refine hread (congrArg Reply.tableState ?_)
    rw [Table.snapshot, Table.snapshot, h.capacity, h.cursor, h.bound, h.entries, h.metrics]
  | check =>
    refine hread ?_
    rw [sound.violation?_eq_none, sound'.violation?_eq_none]
    rfl

end Table

end SoftCache
