import Mathlib.Data.List.ReduceOption
import SoftCache.Proofs.Table.Copying
import SoftCache.Proofs.Table.Stamps
import SoftCache.Proofs.Table.Upkeep

/-!
# Which entry has to go

A table that is made or copied begins without stamps, and every request stamps slots from then on
(`Table.Lived`), so every table that there can be has its buckets in the order of its stamps
(`Table.Lived.orders`). What is taken from a bucket is the first live slot of it. Therefore it is
one that was not used since the table was resized, and if there is none, the one that has gone
unused for longest (`Stamps.Eldest`). That holds of every entry that is removed at random, evicted
when a bound is set, or evicted for another one (`Table.Lived.keptByUse`).
-/

open scoped List

namespace SoftCache

variable {K V : Type}

/-! ## The eldest slot -/

namespace Stamps

/-- The live slot of a bucket that has gone unused for longest. -/
structure Eldest (σ : Stamps K) (r : Reclaimer) (bucket : List (Slot K V)) (slot : Slot K V) :
    Prop where
  /-- The slot is there. -/
  mem : slot ∈ bucket
  /-- The slot is live. -/
  live : slot.isStale r = false
  /-- If any live slot has no stamp, this one has none. -/
  unused : (∃ s ∈ bucket, s.isStale r = false ∧ σ.last s.key.content = 0) →
    σ.last slot.key.content = 0
  /-- If all live slots have stamps, this one has the earliest. -/
  earliest : (∀ s ∈ bucket, s.isStale r = false → 0 < σ.last s.key.content) →
    ∀ s ∈ bucket, s.isStale r = false → s ≠ slot →
      σ.last slot.key.content < σ.last s.key.content

/-- The first live slot of a bucket in the order of the stamps is the eldest. -/
theorem Sorts.eldest {σ : Stamps K} {r : Reclaimer} {bucket front rest : List (Slot K V)}
    {slot : Slot K V} (h : σ.Sorts bucket) (split : bucket = front ++ slot :: rest)
    (stale : ∀ s ∈ front, s.isStale r = true) (live : slot.isStale r = false) :
    σ.Eldest r bucket slot := by
  have hlater : ∀ s ∈ rest, 0 < σ.last slot.key.content →
      σ.last slot.key.content < σ.last s.key.content := by
    rw [split] at h
    exact (List.pairwise_cons.mp (List.pairwise_append.mp h).2.1).1
  -- A live slot is the one that is taken or lies after it.
  have hcases : ∀ s ∈ bucket, s.isStale r = false → s = slot ∨ s ∈ rest := by
    intro s hs hlive
    rw [split, List.mem_append, List.mem_cons] at hs
    refine hs.resolve_left fun hfront => ?_
    rw [stale s hfront] at hlive
    cases hlive
  constructor
  case mem => exact split ▸ List.mem_append_right _ List.mem_cons_self
  case live => exact live
  case unused =>
    rintro ⟨s, hs, hlive, hzero⟩
    rcases hcases s hs hlive with rfl | hrest
    · exact hzero
    · have hle := hlater s hrest
      omega
  case earliest =>
    intro hall s hs hlive hne
    have hrest := (hcases s hs hlive).resolve_left hne
    exact hlater s hrest (hall slot (split ▸ List.mem_append_right _ List.mem_cons_self) live)

/-! ## Evictions -/

/-- The eldest slot of a bucket is taken, if there is one. -/
structure TakesEldest (σ : Stamps K) (t : Table K V) (r : Reclaimer)
    (step : Step (Table K V) (Notice K V) (Option (Entry K V))) : Prop where
  /-- If a slot is live, the nearest bucket with a live slot loses its eldest one. -/
  taken : (∃ s ∈ t.buckets.slots, s.isStale r = false) →
    ∃ i nearer front slot rest, t.TakesHead r step i nearer front slot rest ∧
      σ.Eldest r (t.buckets.bucket i) slot
  /-- If none is, nothing is taken. -/
  none : (∀ s ∈ t.buckets.slots, s.isStale r = true) → step.result = Option.none
  /-- The slots that are left stay in their order. -/
  thins : step.Thins t

/-- Entries are taken one after the other, each of them the eldest of its bucket at its time. -/
inductive Culls (σ : Stamps K) :
    Table K V → Reclaimer → List (Option (Entry K V)) → Table K V → Reclaimer → Prop
  /-- Nothing is taken any more. -/
  | done (t : Table K V) (r : Reclaimer) : Culls σ t r [] t r
  /-- One entry is taken, if there is any, and then others. -/
  | next {t t' : Table K V} {r r' : Reclaimer} {rest : List (Option (Entry K V))} :
    σ.TakesEldest t r (t.removeRandom r) →
    Culls σ (t.removeRandom r).state (t.removeRandom r).reclaimer rest t' r' →
    Culls σ t r ((t.removeRandom r).result :: rest) t' r'

/-- Work that evicts entries, each of them the eldest of its bucket at its time. In the end there
may be none to be found. -/
def Evicts (σ : Stamps K) (t : Table K V) (r : Reclaimer)
    (step : Step (Table K V) (Notice K V) (List (Entry K V))) : Prop :=
  ∃ attempts : List (Option (Entry K V)), step.result = attempts.reduceOption ∧
    σ.Culls t r attempts step.state step.reclaimer

end Stamps

namespace Table

section Hash

variable [Hashed K] {t : Table K V} {r : Reclaimer} {σ : Stamps K}

/-- What is removed at random is the eldest slot of its bucket. -/
theorem Coherent.takesEldest (h : t.Coherent) (orders : σ.Orders t) :
    σ.TakesEldest t r (t.removeRandom r) where
  taken hlive := by
    obtain ⟨i, nearer, front, slot, rest, htakes⟩ := h.takesHead hlive
    exact ⟨i, nearer, front, slot, rest, htakes,
      (orders i).eldest htakes.bucket htakes.stale htakes.live⟩
  none hdead := by
    obtain ⟨order, hnone⟩ := h.findsNone hdead
    exact hnone.answer
  thins := (t.wanes_removeRandom r).buckets

/-- Entries that are removed at random are the eldest of their buckets. -/
theorem Sound.culls_removeRandoms (h : t.Sound) (orders : σ.Orders t) (r : Reclaimer)
    (n : Nat) :
    σ.Culls t r (t.removeRandoms r n).result (t.removeRandoms r n).state
      (t.removeRandoms r n).reclaimer := by
  -- By induction on their number. What one removal leaves is in the order of the stamps.
  induction n generalizing t r with
  | zero => exact .done t r
  | succ n ih =>
    have hleft : σ.Orders (t.removeRandom r).state := fun i =>
      (orders i).sublist ((t.wanes_removeRandom r).buckets i)
    exact .next (h.toCoherent.takesEldest orders) (ih (h.removeRandom r) hleft _)

/-- Entries that are over a bound are evicted in the order of the stamps. -/
theorem Coherent.evicts_eldest (h : t.Coherent) (orders : σ.Orders t) (r : Reclaimer)
    (bound : Nat) : σ.Evicts t r (Table.evictDownTo bound t r) := by
  induction t, r using evictDownTo.induct bound with
  | case1 t r enough =>
    rw [Table.evictDownTo, if_pos enough]
    exact ⟨[], rfl, .done t r⟩
  | case2 t r more taken nothing =>
    have hstate : (t.removeRandom r).state = (t.takeNear r).state := by
      rw [Table.removeRandom, Step.andThen_state, nothing]
      rfl
    have hculls := Stamps.Culls.next (h.takesEldest (r := r) orders) (.done _ _)
    rw [hstate] at hculls
    rw [evictDownTo_of_none more nothing]
    refine ⟨[(t.removeRandom r).result], ?_, hculls⟩
    rw [show (t.removeRandom r).result = none from nothing]
    rfl
  | case3 t r more taken entry found ih =>
    have hstate : (t.removeRandom r).state = (t.evicting bound r entry).state := by
      rw [Table.removeRandom, Step.andThen_state, found]
      rfl
    have hleft : σ.Orders (t.evicting bound r entry).state := fun i =>
      (orders i).sublist ((t.wanes_takeNear r).buckets i)
    obtain ⟨attempts, hresult, hculls⟩ := ih ((h.takeNear r).adjust ..) hleft
    have hnext := Stamps.Culls.next (h.takesEldest (r := r) orders) (by rw [hstate]; exact hculls)
    rw [evictDownTo_of_some more found]
    refine ⟨(t.removeRandom r).result :: attempts, ?_, hnext⟩
    rw [show (t.removeRandom r).result = some entry from found, List.reduceOption_cons_of_some,
      ← hresult]
    rfl

/-- A table that keeps its bound evicts the eldest of its entries. -/
theorem Coherent.evicts_enforceBound (h : t.Coherent) (orders : σ.Orders t) (r : Reclaimer) :
    σ.Evicts t r (t.enforceBound r) := by
  unfold Table.enforceBound
  split
  · exact ⟨[], rfl, .done t r⟩
  · exact h.evicts_eldest orders r _

/-- If a put replaces no value, the key has no slot once its bucket was purged. -/
theorem missing_of_previous [DecidableEq K] {key : Option K} {value : Option V}
    (fresh : (t.insert r key value).result.previous = none) :
    (t.purge r (t.indexOf key)).state.slotFor? (t.purge r (t.indexOf key)).reclaimer key =
      none := by
  by_contra hsome
  obtain ⟨slot, found⟩ := Option.ne_none_iff_exists'.mp hsome
  rw [insert_eq] at fresh
  simp only [Step.andThen, insertFound, found] at fresh
  cases fresh

end Hash

/-! ## The life of a table -/

variable [DecidableEq K] [Hashed K] [DecidableEq V]

/-- The stamps of a table as its life has made them. -/
inductive Lived : Stamps K → Table K V → Prop
  /-- A new table has no slot. -/
  | made (config : Config) (capacity : Nat) (bound : Option Nat) (cursor : Cursor) (epoch : Nat) :
    Lived .fresh (.empty config capacity bound cursor epoch)
  /-- No slot of a copy has a stamp. -/
  | copied {σ : Stamps K} {t : Table K V} {r : Reclaimer} : Lived σ t → r.Issued t.payloads →
    Lived .fresh (t.copy r).result
  /-- What is asked of a table stamps slots. -/
  | asked {σ : Stamps K} {t : Table K V} {r : Reclaimer} : Lived σ t → r.Issued t.payloads →
    ∀ request, Lived (σ.marked (t.marks r request)) (t.perform r request).state

variable {t : Table K V} {r : Reclaimer} {σ : Stamps K}

/-- A table that has lived through marks is sound. -/
theorem Lived.sound (h : Lived σ t) : t.Sound := by
  induction h with
  | made => exact sound_empty ..
  | copied _ _ ih => exact ih.copy _
  | asked _ issued request ih => exact (minds_perform ih issued request).sound

/-- The buckets of a table are always in the order of its stamps. -/
theorem Lived.orders (h : Lived σ t) : σ.Orders t := by
  induction h with
  | made => exact Stamps.orders_of_unstamped (fun _ => rfl) _
  | copied => exact Stamps.orders_of_unstamped (fun _ => rfl) _
  | asked h issued request ih => exact (h.sound.moves_perform issued request).orders _ ih

/-- A table with buckets in the order of use, which it keeps whatever is asked of it. -/
structure KeptByUse (σ : Stamps K) (t : Table K V) (r : Reclaimer) : Prop where
  /-- In every bucket the slots without a stamp come first, and then the others from the earliest
  stamp to the latest. -/
  order : ∀ i, ∃ old recent, t.buckets.bucket i = old ++ recent ∧
    (∀ s ∈ old, σ.last s.key.content = 0) ∧ (∀ s ∈ recent, 0 < σ.last s.key.content) ∧
    recent.Pairwise fun s s' => σ.last s.key.content < σ.last s'.key.content
  /-- Whatever is asked, slots that it does not stamp stay in their order, unless the table is
  resized. -/
  others : ∀ request, .resized ∉ t.marks r request → ∀ i,
    ((t.perform r request).state.buckets.keys i).filter
      (fun key => .stamped key ∉ t.marks r request) <+ t.buckets.keys i
  /-- What is removed at random is the eldest slot of its bucket. -/
  taken : σ.TakesEldest t r (t.removeRandom r)
  /-- So are the entries that are removed at random one after the other. -/
  drawn : ∀ n, σ.Culls t r (t.removeRandoms r n).result (t.removeRandoms r n).state
    (t.removeRandoms r n).reclaimer
  /-- So are those that are evicted when a bound is set. -/
  bounded : ∀ bound, σ.Evicts { t with bound } r (t.setBound r bound)
  /-- So are those that are evicted when a new entry has been put, which is stamped before. -/
  displaced : ∀ key value, (t.insert r key value).result.previous = none →
    t.insert r key value = ((t.enter r key value).andThen fun t r _ =>
      (t.enforceBound r).map fun evicted => ⟨none, evicted⟩) ∧
    (σ.marked (t.insertMarks r key value)).Evicts (t.enter r key value).state
      (t.enter r key value).reclaimer
      ((t.enter r key value).state.enforceBound (t.enter r key value).reclaimer)

/-- The buckets of a table are in the order of use and stay so. -/
theorem Lived.keptByUse (h : Lived σ t) (issued : r.Issued t.payloads) : t.KeptByUse σ r where
  order i := Stamps.sorts_iff.mp (h.orders i)
  others request hresized := (h.sound.moves_perform issued request).others hresized
  taken := h.sound.takesEldest h.orders
  drawn n := h.sound.culls_removeRandoms h.orders r n
  bounded bound :=
    (h.sound.toCoherent.adjust bound t.cursor t.metrics t.sweptEpoch).evicts_enforceBound
    h.orders r
  displaced key value hfresh := by
    have hmissing := missing_of_previous hfresh
    have hentered := (h.sound.toCoherent.enter issued hmissing value).1
    have horders := (h.sound.toCoherent.moves_enter issued hmissing value).orders σ h.orders
    exact ⟨insert_of_missing value hmissing, hentered.evicts_enforceBound horders _⟩

end Table

end SoftCache
