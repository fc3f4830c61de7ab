import SoftCache.Proofs.Table.Evicting
import SoftCache.Proofs.Table.Intact
import SoftCache.Proofs.Table.Sweeping

/-!
# What a table spills

In a table without stale slots all that takes up room can be read, so in an epoch that lasts a table
gives up just what is over its bound and says so of nothing else: an entry for a new key
(`Table.Sound.spills_insert`) and another bound (`Table.Sound.spills_setBound`) make it spill as
many entries as there are then too many.
-/

open scoped List

namespace SoftCache

variable {K V α : Type}

/-- Of slots that are live when they depart just their eviction is announced. -/
theorem Departure.notices_of_live {departed : List (Departure K V)}
    (live : ∀ d ∈ departed, d.expired = false) :
    departed.map (·.notice) = (Departure.evictions departed).map .overflow := by
  rw [Departure.evictions_of_live live, List.map_map]
  refine List.map_congr_left fun d hd => ?_
  rw [Departure.notice, live d hd, if_neg Bool.false_ne_true, Slot.entry_eq_content (live d hd)]
  rfl

namespace Table

/-- How many of `n` entries are over a bound. None are, if there is no bound. -/
def excess : Option Nat → Nat → Nat
  | none, _ => 0
  | some bound, n => n - bound

/-- Work in which entries come to a table and it spills what is then over a bound. -/
structure Spills (t : Table K V) (step : Step (Table K V) (Notice K V) α) (bound : Option Nat)
    (came spilled : List (Entry K V)) : Prop where
  /-- What there was and what came is there still or spilled. -/
  contents : t.contents ++ came ~ step.state.contents ++ spilled
  /-- Just that is announced, as overflow. -/
  notices : step.notices = spilled.map .overflow
  /-- What is over the bound spills, and no more. -/
  length : spilled.length = excess bound (t.contents.length + came.length)

variable {t : Table K V} {r : Reclaimer}

/-- From a table without stale slots just evicted entries depart, and they are announced. -/
theorem spills_of_accounts {step : Step (Table K V) (Notice K V) α} {came left : List (Slot K V)}
    {departed : List (Departure K V)} (h : Step.Accounts t r step came departed left)
    (issued : r.Issued t.payloads) (quiet : step.reclaimer.epoch = r.epoch)
    (live : ∀ s ∈ t.buckets.slots, s.isStale r = false)
    (lasting : ∀ s ∈ came, s.lasts r = true) (hleft : left = []) {bound : Option Nat}
    (length : (Departure.evictions departed).length =
      excess bound (t.contents.length + (came.map Slot.content).length)) :
    t.Spills step bound (came.map Slot.content) (Departure.evictions departed) := by
  have hlive := h.live_departures issued quiet live lasting
  constructor
  case contents =>
    have hcontents := h.contents
    rw [hleft, List.map_nil, List.append_nil] at hcontents
    rwa [Departure.evictions_of_live hlive]
  case notices => rw [h.notices, Departure.notices_of_live hlive]
  case length => exact length

/-- A table has as many contents as slots. -/
theorem length_contents (t : Table K V) : t.contents.length = t.buckets.slots.length :=
  List.length_map _

section Keys

variable [DecidableEq K] [Hashed K] {key : Option K} {value : Option V}

/-- A table that an entry for a new key is put into gives up no more than what is over its bound. -/
theorem Sound.length_evicted_le (h : t.Sound) (issued : r.Issued t.payloads)
    (absent : key ∉ t.contents.map Prod.fst) (value : Option V) :
    (t.insert r key value).result.evicted.length ≤ excess t.bound (t.contents.length + 1) := by
  -- A new key has no slot, stale or not.
  have hmissing := missing_of_stale issued fun slot hslot hkey =>
    absurd (List.mem_map.mpr ⟨slot.content, List.mem_map_of_mem hslot, hkey⟩) absent
  obtain ⟨hcoherent, hissued, hkept, hlength⟩ := h.toCoherent.enter issued hmissing value
  rw [insert_of_missing value hmissing]
  show ((t.enter r key value).state.enforceBound (t.enter r key value).reclaimer).result.length ≤ _
  rw [enforceBound, hkept]
  cases t.bound with
  | none => exact Nat.zero_le _
  | some bound =>
    refine (hcoherent.evicts hissued bound).few.trans ?_
    rw [length_contents]
    exact Nat.sub_le_sub_right hlength bound

end Keys

section Quiet

variable [Hashed K] (h : t.Sound) (issued : r.Issued t.payloads)
  (live : ∀ s ∈ t.buckets.slots, s.isStale r = false)

include h issued live

/-- A table that is given a bound spills what is over it. -/
theorem Sound.spills_setBound (bound : Option Nat)
    (quiet : (t.setBound r bound).reclaimer.epoch = r.epoch) :
    t.Spills (t.setBound r bound) bound [] (t.setBound r bound).result := by
  obtain ⟨departed, accounts, hresult⟩ :=
    accounts_enforceBound (t := { t with bound := bound }) issued
  have hlength : (t.setBound r bound).result.length = excess bound t.contents.length := by
    cases bound with
    | none => rfl
    | some bound =>
      rw [(h.toCoherent.evicts_setBound issued bound).exact (stale_eq_nil_iff.mpr live),
        ← length_contents]
      rfl
  rw [show (t.setBound r bound).result = Departure.evictions departed from hresult] at hlength ⊢
  obtain ⟨hcontents, hnotices, hlength⟩ :=
    spills_of_accounts accounts issued quiet live (List.forall_mem_nil _) rfl hlength
  exact ⟨hcontents, hnotices, hlength⟩

/-- A table that an entry for a new key is put into spills what is then over its bound. -/
theorem Sound.spills_insert [DecidableEq K] {key : Option K} {value : Option V}
    (absent : key ∉ t.contents.map Prod.fst)
    (quiet : (t.insert r key value).reclaimer.epoch = r.epoch) :
    t.Spills (t.insert r key value) t.bound [(key, value)]
      (t.insert r key value).result.evicted := by
  obtain ⟨came, departed, left, hinsert⟩ := insertion_insert h.capacity_pos issued key value
  have hleft := hinsert.left_eq_nil absent
  have hupper := h.length_evicted_le issued absent value
  rw [hinsert.evicted] at hupper ⊢
  have hlength : (Departure.evictions departed).length =
      excess t.bound (t.contents.length + ([came].map Slot.content).length) := by
    refine Nat.le_antisymm hupper ?_
    -- Afterwards the table is within its bound, so what is over it has been given up.
    have hlive := hinsert.accounts.live_departures issued quiet live hinsert.lasts
    have hbalance := hinsert.accounts.contents.length_eq
    have hsound := (upholds_insert h issued key value).sound
    have hbound := (upholds_insert h issued key value).bound
    rw [Departure.evictions_of_live hlive]
    simp only [hleft, List.length_append, List.length_map, List.length_nil] at hbalance ⊢
    cases hlimit : t.bound with
    | none => exact Nat.zero_le _
    | some bound =>
      have hwithin := hsound.within_bound bound (hbound.trans hlimit)
      rw [hsound.counted, ← length_contents] at hwithin
      show _ - bound ≤ _
      omega
  have hspills := spills_of_accounts hinsert.accounts issued quiet live hinsert.lasts hleft hlength
  rwa [List.map_singleton, hinsert.content] at hspills

end Quiet

end Table

end SoftCache
