import Mathlib.Data.List.Pairwise
import SoftCache.Proofs.Table.Capacity
import SoftCache.Proofs.Table.Lively

/-!
# Growth comes to an end

Growth is a loop: while a table holds more slots than its threshold, it moves to twice as many
buckets and one more. `Table.moves` is the loop cut off after so many moves. The first move leaves
the stale slots behind, and no slot that was live becomes stale by that, so the later moves only
spread the same slots again (`Table.moved_moves`). A load factor is accepted if `2 ^ 32 - 1` buckets
take one entry, and then so many times as many buckets take so many entries
(`LoadFactor.le_threshold`), which is why the moves come to an end from any capacity
(`Table.growth_ends`). With a load factor that is refused there is no such capacity.
-/

open scoped List

namespace SoftCache

variable {K V : Type}

/-! ## What a load factor admits -/

/-- How many times as many buckets are surely enough for some entries, if they were enough in exact
arithmetic: a rounded product may be a little too small. -/
def Arithmetic.slack : Arithmetic → Nat
  | double => 2
  | exact => 1

namespace LoadFactor

variable {a : Arithmetic} {f : LoadFactor}

/-- A positive load factor is accepted if the largest first capacity admits an entry. -/
theorem ofBinaryIn_toBinary (a : Arithmetic) (f : LoadFactor) :
    ofBinaryIn a f.toBinary =
      if f.thresholdIn a greatestFirstCapacity = 0 then .error (.loadFactorTooSmall f.toBinary)
      else .ok f := by
  rw [toBinary, ofBinaryIn, dif_pos f.positive]

/-- An accepted load factor admits an entry for every so many buckets. -/
theorem one_le_thresholdIn {given : Binary} (accepted : ofBinaryIn a given = .ok f) :
    1 ≤ f.thresholdIn a greatestFirstCapacity := by
  rw [← toBinary_of_ofBinaryIn accepted, ofBinaryIn_toBinary] at accepted
  split at accepted
  · cases accepted
  · next admits => exact Nat.one_le_iff_ne_zero.mpr admits

/-- So many times the largest first capacity admit so many entries. -/
theorem le_thresholdIn {given : Binary} (accepted : ofBinaryIn a given = .ok f) (entries : Nat) :
    entries ≤ f.thresholdIn a (a.slack * (entries * greatestFirstCapacity)) := by
  have hone := one_le_thresholdIn accepted
  cases a with
  | exact =>
    rw [thresholdIn_exact, Nat.le_div_iff_mul_le f.divisor_pos, Nat.one_mul] at hone
    rw [thresholdIn_exact, Nat.le_div_iff_mul_le f.divisor_pos, Arithmetic.slack, Nat.one_mul]
    calc entries * f.divisor
      _ ≤ entries * (greatestFirstCapacity * f.dividend) := Nat.mul_le_mul_left _ hone
      _ = entries * greatestFirstCapacity * f.dividend := by rw [Nat.mul_assoc]
  | double =>
    rw [thresholdIn_eq, Nat.le_div_iff_mul_le f.divisor_pos, Nat.one_mul] at hone
    rw [thresholdIn_eq, Nat.le_div_iff_mul_le f.divisor_pos, Arithmetic.slack]
    -- Twice the capacity makes up for what may be rounded up for one entry and down for all.
    obtain ⟨-, hone'⟩ := f.scaledIn_near .double greatestFirstCapacity
    obtain ⟨hall, -⟩ := f.scaledIn_near .double (2 * (entries * greatestFirstCapacity))
    have hentry : 64 * f.divisor ≤ 81 * (greatestFirstCapacity * f.dividend) := by omega
    have hentries : entries * (64 * f.divisor) ≤
        entries * (81 * (greatestFirstCapacity * f.dividend)) :=
      Nat.mul_le_mul_left _ hentry
    rw [Nat.mul_left_comm, Nat.mul_left_comm entries 81, ← Nat.mul_assoc entries] at hentries
    rw [Nat.mul_assoc 2] at hall
    omega

/-- A load factor that is refused admits no entry as long as the capacity is no larger. -/
theorem thresholdIn_eq_zero (refused : ofBinaryIn a f.toBinary ≠ .ok f) {capacity : Nat}
    (h : capacity ≤ greatestFirstCapacity) : f.thresholdIn a capacity = 0 := by
  rw [ofBinaryIn_toBinary] at refused
  split at refused
  · next none => exact Nat.le_zero.mp (none ▸ f.thresholdIn_mono a h)
  · exact absurd rfl refused

end LoadFactor

namespace Table

variable {a : Arithmetic} {t : Table K V} {r : Reclaimer}

/-! ## Moves -/

/-- So many moves, each to the next larger number of buckets. -/
def moves (a : Arithmetic) (t : Table K V) (r : Reclaimer) :
    Nat → Step (Table K V) (Notice K V) Unit
  | 0 => .done t r ()
  | n + 1 => (t.moves a r n).andThen fun t r _ => t.rehashIn a r (2 * t.capacity + 1)

/-- The first move can be told apart from the others. -/
theorem moves_succ (a : Arithmetic) (t : Table K V) (r : Reclaimer) (n : Nat) :
    t.moves a r (n + 1) =
      (t.rehashIn a r (2 * t.capacity + 1)).andThen fun t r _ => t.moves a r n := by
  induction n with
  | zero => simp [moves, Step.andThen, Step.done]
  | succ n ih =>
    rw [moves, ih]
    simp [moves, Step.andThen, List.append_assoc]

/-- Growth is so many moves: before each of them there are more slots than the threshold, and after
the last one there are not. -/
theorem enlargeIn_eq_moves (a : Arithmetic) (t : Table K V) (r : Reclaimer) :
    ∃ n, t.enlargeIn a r = t.moves a r (n + 1) ∧
      ∀ k < n, (t.moves a r (k + 1)).state.threshold < (t.moves a r (k + 1)).state.count := by
  induction t, r using enlargeIn.induct a with
  | case1 t r moved enough =>
    rw [enlargeIn_eq, if_pos enough]
    exact ⟨0, by rw [moves_succ]; simp [moves, Step.andThen, Step.done], by omega⟩
  | case2 t r moved more ih =>
    obtain ⟨n, hmoves, hneeded⟩ := ih
    rw [enlargeIn_eq, if_neg more]
    refine ⟨n + 1, ?_, fun k hk => ?_⟩
    · rw [moves_succ a t r (n + 1), Step.andThen, hmoves]
      rfl
    · rw [moves_succ]
      cases k with
      | zero => exact Nat.lt_of_not_le more
      | succ k => exact hneeded k (Nat.lt_of_succ_lt_succ hk)

/-- A slot that is live stays so when the stale slots are dismissed, since no other slot has its
payloads. -/
theorem isStale_dismiss (distinct : t.payloads.Nodup) {s : Slot K V} (hs : s ∈ t.buckets.slots)
    (live : s.isStale r = false) : s.isStale (r.dismiss (t.stale r)) = false := by
  have hdisjoint := (List.nodup_flatMap.mp distinct).2
  have hsymm : Std.Symm (Function.onFun List.Disjoint (Slot.payloads (K := K) (V := V))) :=
    ⟨fun _ _ h => List.disjoint_symm h⟩
  rw [← live]
  refine Slot.isStale_congr fun payload hp => ?_
  rw [Reclaimer.dismiss, Reclaimer.mem_live_release]
  refine and_iff_left fun hgone => ?_
  obtain ⟨s', hs', hp'⟩ := List.mem_flatMap.mp hgone
  obtain ⟨hs', stale⟩ := List.mem_filter.mp hs'
  have hne : s ≠ s' := fun heq => by simp [heq, stale] at live
  exact hdisjoint.forall hs hs' hne hp hp'

/-- What at least one move comes to, and so many of them. -/
structure Moved (a : Arithmetic) (t : Table K V) (r : Reclaimer) (n : Nat)
    (step : Step (Table K V) (Notice K V) Unit) : Prop where
  /-- The table is so many stages on. -/
  capacity : step.state.capacity = stage t.capacity n
  /-- Just the live slots are kept, and each of them once. -/
  slots : step.state.buckets.slots ~ t.buckets.slots.filter fun s => !s.isStale r
  /-- They lie in the buckets of their hashes. -/
  placed : ∀ i, ∀ s ∈ step.state.buckets.bucket i, bucketOf step.state.capacity s.hash = i
  /-- They are counted, the moves and the stale slots too, and nothing else of the table changes. -/
  state : step.state = { t with
    buckets := step.state.buckets
    count := t.count - (t.stale r).length
    threshold := t.config.loadFactor.thresholdIn a step.state.capacity
    metrics := { t.metrics with
      expirations := t.metrics.expirations + (t.stale r).length
      resizes := t.metrics.resizes + n } }
  /-- The stale slots are announced as expired, each of them once and in their order. -/
  notices : step.notices = (t.stale r).map (·.expiration r)
  /-- Their payloads are released, and no others. -/
  reclaimer : step.reclaimer = r.dismiss (t.stale r)
  /-- Each move is logged with the slots that are left. -/
  log : step.log = (List.range n).map fun k =>
    .resized (stage t.capacity k) (stage t.capacity (k + 1)) (t.count - (t.stale r).length)

/-- The first move leaves the stale slots behind. -/
theorem moved_rehashIn (a : Arithmetic) (t : Table K V) (r : Reclaimer) :
    Moved a t r 1 (t.rehashIn a r (2 * t.capacity + 1)) := by
  have hsize : (t.rehashIn a r (2 * t.capacity + 1)).state.capacity = 2 * t.capacity + 1 :=
    Buckets.size_ofSlots _ _
  constructor
  case capacity => exact hsize
  case slots => exact Buckets.slots_ofSlots _ (by omega)
  case placed =>
    intro i s hs
    rw [hsize]
    have hbucket : (t.rehashIn a r (2 * t.capacity + 1)).state.buckets.bucket i = _ :=
      Buckets.bucket_ofSlots (2 * t.capacity + 1) _ i (by omega)
    rw [hbucket] at hs
    simpa using (List.mem_filter.mp hs).2
  case state =>
    rw [hsize]
    rfl
  case notices => rfl
  case reclaimer => rfl
  case log => rfl

/-- One more move finds nothing stale and only spreads the slots again. -/
theorem Moved.rehashIn {n : Nat} {step : Step (Table K V) (Notice K V) Unit}
    (h : Moved a t r n step)
    (distinct : t.payloads.Nodup) :
    Moved a t r (n + 1) (step.andThen fun t r _ => t.rehashIn a r (2 * t.capacity + 1)) := by
  have hnone : step.state.stale step.reclaimer = [] := by
    rw [stale, List.filter_eq_nil_iff, h.reclaimer]
    intro s hs
    obtain ⟨hs, live⟩ := List.mem_filter.mp (h.slots.subset hs)
    simp [isStale_dismiss distinct hs (by simpa using live)]
  have hall : (step.state.buckets.slots.filter fun s => !s.isStale step.reclaimer) =
      step.state.buckets.slots := by
    rw [List.filter_eq_self]
    intro s hs
    simpa using List.filter_eq_nil_iff.mp hnone s hs
  have hstep := step.state.moved_rehashIn a step.reclaimer
  have hcount : step.state.count = t.count - (t.stale r).length := by rw [h.state]
  constructor
  case capacity =>
    rw [Step.andThen_state, hstep.capacity, h.capacity]
    rfl
  case slots =>
    have hslots := hstep.slots
    rw [hall] at hslots
    exact hslots.trans h.slots
  case placed => exact hstep.placed
  case state =>
    have hstate := hstep.state
    rw [hnone, List.length_nil, Nat.sub_zero, Nat.add_zero] at hstate
    rw [Step.andThen_state, hstate, h.state]
    rfl
  case notices =>
    rw [Step.andThen_notices, hstep.notices, hnone, List.map_nil, List.append_nil, h.notices]
  case reclaimer =>
    rw [Step.andThen_reclaimer, hstep.reclaimer, hnone, Reclaimer.dismiss_nil, h.reclaimer]
  case log =>
    rw [Step.andThen_log, hstep.log, h.log, hnone, hcount, h.capacity, List.length_nil,
      Nat.sub_zero, List.range_succ (n := n), List.map_append]
    rfl

/-- All moves after the first are of this kind. -/
theorem moved_moves (distinct : t.payloads.Nodup) (n : Nat) :
    Moved a t r (n + 1) (t.moves a r (n + 1)) := by
  induction n with
  | zero => exact t.moved_rehashIn a r
  | succ n ih => exact ih.rehashIn distinct

/-- After every move the threshold is that of the stage, and there are no more slots than at
first. -/
theorem guard_moves (threshold_eq : t.threshold = t.config.loadFactor.thresholdIn a t.capacity)
    (distinct : t.payloads.Nodup) (n : Nat) :
    (t.moves a r n).state.threshold = t.config.loadFactor.thresholdIn a (stage t.capacity n) ∧
      (t.moves a r n).state.count ≤ t.count := by
  cases n with
  | zero => exact ⟨threshold_eq, le_rfl⟩
  | succ n =>
    have hmoved := moved_moves (a := a) (r := r) distinct n
    rw [hmoved.state, hmoved.capacity]
    exact ⟨rfl, Nat.sub_le _ _⟩

/-! ## The end of growth -/

/-- What growth comes to, with so many moves. -/
structure Grown (a : Arithmetic) (t : Table K V) (r : Reclaimer) (n : Nat)
    (step : Step (Table K V) (Notice K V) Unit) : Prop where
  /-- The table makes so many moves and no other. -/
  moves : step = t.moves a r n
  /-- Before each of them there are more slots than the threshold. -/
  needed : ∀ k < n, (t.moves a r k).state.threshold < (t.moves a r k).state.count
  /-- Afterwards there are not. -/
  enough : step.state.count ≤ step.state.threshold
  /-- There is no move just if there were not before either. -/
  unmoved : n = 0 ↔ t.count ≤ t.threshold
  /-- Without a move nothing changes. -/
  still : n = 0 → step = .done t r ()
  /-- With one the live slots are kept, and just the stale ones are dropped and announced. -/
  moved : 0 < n → Moved a t r n step
  /-- The slots are counted, in any case. -/
  counted : step.state.count = step.state.buckets.slots.length
  /-- Each slot lies in the bucket of its hash, in any case. -/
  placed : ∀ i, ∀ s ∈ step.state.buckets.bucket i, bucketOf step.state.capacity s.hash = i
  /-- So many moves make so many buckets. -/
  capacity : step.state.capacity + 1 = twoPow n * (t.capacity + 1)
  /-- There are never more buckets than so many slots can need. -/
  capacity_le :
    step.state.capacity ≤
      max t.capacity (2 * (a.slack * (t.count * LoadFactor.greatestFirstCapacity)))

/-- Growth is so many moves, each of which has to be made. -/
theorem growIn_eq_moves (a : Arithmetic) (t : Table K V) (r : Reclaimer) :
    ∃ n, t.growIn a r = t.moves a r n ∧
      (∀ k < n, (t.moves a r k).state.threshold < (t.moves a r k).state.count) ∧
      (n = 0 ↔ t.count ≤ t.threshold) := by
  by_cases within : t.count ≤ t.threshold
  · refine ⟨0, ?_, by omega, by simp [within]⟩
    rw [growIn, if_pos within]
    rfl
  · obtain ⟨n, hmoves, hneeded⟩ := t.enlargeIn_eq_moves a r
    refine ⟨n + 1, ?_, fun k hk => ?_, by simp [within]⟩
    · rw [growIn, if_neg within, hmoves]
    · cases k with
      | zero => exact Nat.lt_of_not_le within
      | succ k => exact hneeded k (by omega)

/-- A table that has moved ends within its threshold. -/
theorem growIn_enough (a : Arithmetic) (t : Table K V) (r : Reclaimer) :
    (t.growIn a r).state.count ≤ (t.growIn a r).state.threshold := by
  unfold growIn
  split
  · next enough => exact enough
  · induction t, r using enlargeIn.induct a with
    | case1 t r moved enough =>
      rw [enlargeIn_eq, if_pos enough]
      exact enough
    | case2 t r moved more ih =>
      rw [enlargeIn_eq, if_neg more]
      exact ih more

/-- The number of buckets at a stage. -/
theorem stage_add_one (first n : Nat) : stage first n + 1 = twoPow n * (first + 1) := by
  induction n with
  | zero => rw [stage, twoPow_zero, Nat.one_mul]
  | succ n ih =>
    calc stage first (n + 1) + 1
      _ = 2 * (stage first n + 1) := by rw [stage]; omega
      _ = 2 * (twoPow n * (first + 1)) := by rw [ih]
      _ = twoPow (n + 1) * (first + 1) := by rw [twoPow_succ, ← Nat.mul_assoc, Nat.mul_comm 2]

/-- A stage that does not take all slots has fewer buckets than so many slots can need. -/
theorem stage_lt {given : Binary} {f : LoadFactor} {first n entries : Nat}
    (accepted : LoadFactor.ofBinaryIn a given = .ok f)
    (crowded : f.thresholdIn a (stage first n) < entries) :
    stage first n < a.slack * (entries * LoadFactor.greatestFirstCapacity) := by
  by_contra hlarge
  have hentries : entries ≤ f.thresholdIn a (stage first n) := calc
    entries ≤ f.thresholdIn a (a.slack * (entries * LoadFactor.greatestFirstCapacity)) :=
      LoadFactor.le_thresholdIn accepted entries
    _ ≤ f.thresholdIn a (stage first n) := f.thresholdIn_mono a (Nat.le_of_not_lt hlarge)
  omega

/-- A table whose load factor was accepted grows to an end, whatever its capacity and its slots. -/
theorem grown_growIn {given : Binary}
    (accepted : LoadFactor.ofBinaryIn a given = .ok t.config.loadFactor)
    (threshold_eq : t.threshold = t.config.loadFactor.thresholdIn a t.capacity)
    (counted : t.count = t.buckets.slots.length)
    (placed : ∀ i, ∀ s ∈ t.buckets.bucket i, bucketOf t.capacity s.hash = i)
    (distinct : t.payloads.Nodup) : ∃ n, Grown a t r n (t.growIn a r) := by
  obtain ⟨n, hmoves, hneeded, hzero⟩ := t.growIn_eq_moves a r
  have henough := t.growIn_enough a r
  rw [hmoves] at henough ⊢
  have hmoved : 0 < n → Moved a t r n (t.moves a r n) := by
    intro more
    obtain ⟨k, rfl⟩ := Nat.exists_eq_succ_of_ne_zero more.ne'
    exact moved_moves distinct k
  have hcapacity : (t.moves a r n).state.capacity = stage t.capacity n := by
    obtain rfl | more := n.eq_zero_or_pos
    · rfl
    · exact (hmoved more).capacity
  refine ⟨n, ?_⟩
  constructor
  case moves => rfl
  case needed => exact hneeded
  case enough => exact henough
  case unmoved => exact hzero
  case still =>
    rintro rfl
    rfl
  case moved => exact hmoved
  case counted =>
    obtain rfl | more := n.eq_zero_or_pos
    · exact counted
    · have hlength := (perm_filter_append (Slot.isStale r) t.buckets.slots).length_eq
      rw [List.length_append, ← counted] at hlength
      rw [(hmoved more).slots.length_eq, (hmoved more).state]
      show t.count - (t.buckets.slots.filter (Slot.isStale r)).length = _
      omega
  case placed =>
    obtain rfl | more := n.eq_zero_or_pos
    · exact placed
    · exact (hmoved more).placed
  case capacity =>
    rw [hcapacity]
    exact stage_add_one ..
  case capacity_le =>
    rw [hcapacity]
    cases n with
    | zero => exact le_max_left ..
    | succ n =>
      -- The stage before the last one did not take all slots.
      have hcrowded : t.config.loadFactor.thresholdIn a (stage t.capacity n) < t.count := by
        obtain ⟨hthreshold, hcount⟩ := guard_moves (r := r) threshold_eq distinct n
        have hmore := hneeded n (Nat.lt_succ_self n)
        omega
      have hless := stage_lt accepted hcrowded
      rw [stage]
      omega

/-- In either arithmetic growth comes to an end with every load factor that is accepted, from every
capacity and with every slots, stale ones included, and a finite positive load factor that is
refused admits no entry in any capacity up to the largest first one. -/
theorem growth_ends (a : Arithmetic) :
    (∀ (t : Table K V) (r : Reclaimer) (given : Binary),
      LoadFactor.ofBinaryIn a given = .ok t.config.loadFactor →
      t.threshold = t.config.loadFactor.thresholdIn a t.capacity →
      t.count = t.buckets.slots.length →
      (∀ i, ∀ s ∈ t.buckets.bucket i, bucketOf t.capacity s.hash = i) →
      t.payloads.Nodup → ∃ n, Grown a t r n (t.growIn a r)) ∧
    ∀ f : LoadFactor, LoadFactor.ofBinaryIn a f.toBinary ≠ .ok f →
      ∀ capacity ≤ LoadFactor.greatestFirstCapacity, f.thresholdIn a capacity = 0 :=
  ⟨fun _ _ _ accepted threshold_eq counted placed distinct =>
    grown_growIn accepted threshold_eq counted placed distinct,
    fun _ refused _ => LoadFactor.thresholdIn_eq_zero refused⟩

/-- Slots for two keys that share a hash and for null, one after the other and without growth, in a
table that takes one slot in eight buckets and has only one. -/
def overfull : Step (Table Clustered String) (Notice Clustered String) Unit :=
  let config : Config := ⟨.strong, .reclaimable, ⟨1, -3, by decide⟩, .insertion⟩
  let start : Table Clustered String := .empty config 1 none ⟨[.finite false 1 (-1)], 0⟩ 0
  (start.addSlot (.ofBudget none) (some ⟨1⟩) (some "a")).andThen fun t r _ =>
    (t.addSlot r (some ⟨5⟩) (some "b")).andThen fun t r _ => t.addSlot r none (some "c")

/-- Two of the slots are left after the first value has been cleared, and one bucket grows to 31 for
them, in either arithmetic. A load factor of `2 ^ -33` is refused. -/
theorem growth_ends_of_overfull :
    let cleared := overfull.reclaimer.clear 1
    let grown := overfull.state.grow cleared
    (grown.state.capacity = 31 ∧ grown.state.count = 2 ∧ grown.state.metrics.resizes = 4 ∧
      grown.notices = [.valueExpired (some ⟨1⟩)]) ∧
    (∃ n, Grown .double overfull.state cleared n grown) ∧
    (∃ n, Grown .exact overfull.state cleared n (overfull.state.growIn .exact cleared)) ∧
    (LoadFactor.ofBinary (.finite false 1 (-33)) =
        .error (.loadFactorTooSmall (.finite false 1 (-33))) ∧
      ∀ capacity ≤ LoadFactor.greatestFirstCapacity,
        LoadFactor.threshold ⟨1, -33, by decide⟩ capacity = 0) := by
  have hone : overfull.state.capacity = 1 := by decide +kernel
  have hplaced : ∀ i, ∀ s ∈ overfull.state.buckets.bucket i,
      bucketOf overfull.state.capacity s.hash = i := by
    intro i s hs
    have hi : i < overfull.state.capacity := Buckets.lt_size_of_mem hs
    rw [hone] at hi ⊢
    rw [bucketOf, Nat.mod_one]
    omega
  refine ⟨by decide +kernel, ?_, ?_, by decide +kernel, ?_⟩
  · exact (growth_ends .double).1 overfull.state (overfull.reclaimer.clear 1) (.finite false 1 (-3))
      (by decide +kernel) (by decide +kernel) (by decide +kernel) hplaced (by decide +kernel)
  · exact (growth_ends .exact).1 overfull.state (overfull.reclaimer.clear 1) (.finite false 1 (-3))
      (by decide +kernel) (by decide +kernel) (by decide +kernel) hplaced (by decide +kernel)
  · have hrefused := (growth_ends (K := Clustered) (V := String) .double).2 ⟨1, -33, by decide⟩
    exact hrefused (by decide +kernel)

end Table

end SoftCache
