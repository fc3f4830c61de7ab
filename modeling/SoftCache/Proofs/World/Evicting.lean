import SoftCache.Proofs.Table.Evicting
import SoftCache.Proofs.Table.Probing
import SoftCache.Proofs.World.Nulls
import SoftCache.Proofs.World.Sweeping

/-!
# Evictions in a world

Any table in a reachable world, that of a cache included, gives up the live slot that is nearest to
where its cursor points (`World.Reachable.removal_nearest`), and accounts for all that it gives up
to keep a bound (`World.Reachable.evictions_balance`). It evicts an entry only while it has more
slots than the bound, and slots that are stale count until they are met
(`World.Reachable.evicts_over_bound`). So it may evict an entry although the live entries alone are
within the bound (`World.cluttered_evicts_needlessly`).
-/

namespace SoftCache.World

variable {K V : Type} [DecidableEq K] [Hashed K] [Ordered K] [Literal K] [DecidableEq V]
  [Literal V] {w : World K V} {t : Table K V} {r : Reclaimer}

/-- A world in which the table "t" has a stale slot and a live one, and the table "u", which has
room for one slot, has a stale one. -/
def cluttered : World UInt64 String :=
  run {}
    [.newReclaimer "r" none,
      .newTable "t" { options := { valueStrength := .reclaimable }, reclaimer := some "r" },
      .newTable "u"
        { options := { valueStrength := .reclaimable, bound := some 1 }, reclaimer := some "r" },
      .table "t" (.put (some 1) (some "a")),
      .table "u" (.put (some 1) (some "a")),
      .reclaimer "r" (.clear 2),
      .table "t" (.put (some 2) (some "b"))]

/-- The example is reachable. -/
theorem cluttered_reachable : cluttered.Reachable := ⟨_, _, rfl⟩

/-- Both tables are there, and "u" does not have a second key yet. -/
theorem cluttered_tables :
    ∃ one other, cluttered.tables.find 0 = some one ∧ cluttered.tables.find 1 = some other ∧
      other.table.bound = some 1 ∧ other.table.refusal (some 2) (some "b") = none ∧
      other.table.containsKey (cluttered.reclaimer other.reclaimer) (some 2) = false := by
  obtain ⟨one, hone⟩ : ∃ placed, cluttered.tables.find 0 = some placed :=
    Option.isSome_iff_exists.mp (by decide +kernel)
  obtain ⟨other, hother⟩ : ∃ placed, cluttered.tables.find 1 = some placed :=
    Option.isSome_iff_exists.mp (by decide +kernel)
  have hnew : ∀ placed ∈ cluttered.tables.find 1, placed.table.bound = some 1 ∧
      placed.table.refusal (some 2) (some "b") = none ∧
      placed.table.containsKey (cluttered.reclaimer placed.reclaimer) (some 2) = false := by
    decide +kernel
  exact ⟨one, other, hone, hother, hnew other hother⟩

/-- What is removed at random is the first live slot of the nearest bucket that has one. -/
theorem Reachable.removal_nearest (h : w.Reachable) (there : w.Has t r) :
    t.RemovesNearest r (t.removeRandom r) :=
  (h.sound.has there).removesNearest (h.sound.issued_has there)

/-- There the live slot of "t" is taken. -/
theorem cluttered_removal_nearest :
    ∃ placed, cluttered.tables.find 0 = some placed ∧
      (∃ s ∈ placed.table.buckets.slots,
        s.isStale (cluttered.reclaimer placed.reclaimer) = false) ∧
      placed.table.RemovesNearest (cluttered.reclaimer placed.reclaimer)
        (placed.table.removeRandom (cluttered.reclaimer placed.reclaimer)) := by
  obtain ⟨placed, -, hfound, -⟩ := cluttered_tables
  have hlive : ∀ placed ∈ cluttered.tables.find 0, ∃ s ∈ placed.table.buckets.slots,
      s.isStale (cluttered.reclaimer placed.reclaimer) = false := by
    decide +kernel
  exact ⟨placed, hfound, hlive placed hfound,
    cluttered_reachable.removal_nearest (.table (Directory.mem_of_find hfound))⟩

/-- What a bound costs is accounted for when it is set and when an entry is put under it. A put that
is refused, or to a key that has an entry, costs nothing. -/
theorem Reachable.evictions_balance (h : w.Reachable) (there : w.Has t r) (bound : Nat) :
    t.Evicts r bound (t.setBound r (some bound)) ∧
      (t.bound = some bound → ∀ key value, t.refusal key value = none →
        t.containsKey r key = false → t.PutEvicts r key value bound) ∧
      (∀ key value error, t.refusal key value = some error →
        t.put r key value = .done t r (.error error)) ∧
      ∀ key value, t.containsKey r key = true → t.PutsQuietly r key value := by
  have hsound := h.sound.has there
  have hissued := h.sound.issued_has there
  have hadmits := (h.full_has there).admits (r := r)
  refine ⟨hsound.evicts_setBound hissued bound, ?_, ?_,
    fun key value hkey => hsound.putsQuietly hissued hadmits hkey⟩
  · exact fun hbound key value hadmitted habsent =>
      hsound.putEvicts hissued hadmits hbound hadmitted habsent
  · intro key value error hrefused
    rw [Table.put, hrefused]

/-- There a put under the bound of "u" costs one entry at most. -/
theorem cluttered_evictions_balance :
    ∃ placed, cluttered.tables.find 1 = some placed ∧
      placed.table.Evicts (cluttered.reclaimer placed.reclaimer) 0
        (placed.table.setBound (cluttered.reclaimer placed.reclaimer) (some 0)) ∧
      placed.table.PutEvicts (cluttered.reclaimer placed.reclaimer) (some 2) (some "b") 1 := by
  obtain ⟨-, placed, -, hfound, hbound, hadmitted, habsent⟩ := cluttered_tables
  have there : cluttered.Has placed.table (cluttered.reclaimer placed.reclaimer) :=
    .table (Directory.mem_of_find hfound)
  exact ⟨placed, hfound, (cluttered_reachable.evictions_balance there 0).1,
    (cluttered_reachable.evictions_balance there 1).2.1 hbound _ _ hadmitted habsent⟩

/-- A table evicts an entry only while it has more slots than its bound, when the bound is set and
when an entry has been put under it. -/
theorem Reachable.evicts_over_bound (h : w.Reachable) (there : w.Has t r) (bound : Nat) :
    t.Spares r bound (t.setBound r (some bound)) ∧
      (t.bound = some bound → ∀ key value, t.refusal key value = none →
        t.containsKey r key = false →
          t.insert r key value =
            (t.enter r key value).andThen (fun t r _ =>
              (t.enforceBound r).map fun evicted => ⟨none, evicted⟩) ∧
          (t.enter r key value).state.Spares (t.enter r key value).reclaimer bound
            ((t.enter r key value).state.enforceBound (t.enter r key value).reclaimer)) := by
  have hsound := h.sound.has there
  have hissued := h.sound.issued_has there
  have hadmits := (h.full_has there).admits (r := r)
  refine ⟨hsound.spares_setBound hissued bound, ?_⟩
  intro hbound key value _ habsent
  have hmissing := hsound.missing_of_containsKey hissued hadmits habsent
  obtain ⟨hcoherent, hentered, hkept, -⟩ := hsound.toCoherent.enter hissued hmissing value
  refine ⟨Table.insert_of_missing value hmissing, ?_⟩
  rw [Table.enforceBound, hkept, hbound]
  exact hcoherent.spares hentered bound

/-- There both tables spare what they can. -/
theorem cluttered_evicts_over_bound :
    (∃ placed, cluttered.tables.find 0 = some placed ∧
      placed.table.Spares (cluttered.reclaimer placed.reclaimer) 1
        (placed.table.setBound (cluttered.reclaimer placed.reclaimer) (some 1))) ∧
      ∃ placed, cluttered.tables.find 1 = some placed ∧
        let entered := placed.table.enter (cluttered.reclaimer placed.reclaimer) (some 2) (some "b")
        entered.state.Spares entered.reclaimer 1
          (entered.state.enforceBound entered.reclaimer) := by
  obtain ⟨one, other, hone, hother, hbound, hadmitted, habsent⟩ := cluttered_tables
  refine ⟨⟨one, hone, ?_⟩, other, hother, ?_⟩
  · exact (cluttered_reachable.evicts_over_bound (.table (Directory.mem_of_find hone)) 1).1
  · have hspares := cluttered_reachable.evicts_over_bound (.table (Directory.mem_of_find hother)) 1
    exact (hspares.2 hbound _ _ hadmitted habsent).2

/-- There the one live entry of "t" is evicted when the bound is set to one, and an entry that is
put into "u" is evicted at once, although it is the only live one: fewer live entries are left than
the bound allows. -/
theorem cluttered_evicts_needlessly :
    (∃ placed, cluttered.tables.find 0 = some placed ∧
      let r := cluttered.reclaimer placed.reclaimer
      let bounded := placed.table.setBound r (some 1)
      placed.table.entries r = [(some 2, some "b")] ∧ bounded.result = [(some 2, some "b")] ∧
        Notice.overflows bounded.notices = [(some 2, some "b")] ∧
        (bounded.state.entries bounded.reclaimer).length ≠ min 1 (placed.table.entries r).length) ∧
      ∃ placed, cluttered.tables.find 1 = some placed ∧
        let r := cluttered.reclaimer placed.reclaimer
        let entered := placed.table.enter r (some 2) (some "b")
        let put := placed.table.insert r (some 2) (some "b")
        placed.table.bound = some 1 ∧ placed.table.containsKey r (some 2) = false ∧
          entered.state.entries entered.reclaimer = [(some 2, some "b")] ∧
          put.result.evicted = [(some 2, some "b")] ∧
          (put.state.entries put.reclaimer).length ≠
            min 1 (entered.state.entries entered.reclaimer).length := by
  obtain ⟨one, other, hone, hother, hbound, -, habsent⟩ := cluttered_tables
  have hset : ∀ placed ∈ cluttered.tables.find 0,
      let r := cluttered.reclaimer placed.reclaimer
      let bounded := placed.table.setBound r (some 1)
      placed.table.entries r = [(some 2, some "b")] ∧ bounded.result = [(some 2, some "b")] ∧
        Notice.overflows bounded.notices = [(some 2, some "b")] ∧
        (bounded.state.entries bounded.reclaimer).length ≠
          min 1 (placed.table.entries r).length := by
    decide +kernel
  have hput : ∀ placed ∈ cluttered.tables.find 1,
      let r := cluttered.reclaimer placed.reclaimer
      let entered := placed.table.enter r (some 2) (some "b")
      let put := placed.table.insert r (some 2) (some "b")
      entered.state.entries entered.reclaimer = [(some 2, some "b")] ∧
        put.result.evicted = [(some 2, some "b")] ∧
        (put.state.entries put.reclaimer).length ≠
          min 1 (entered.state.entries entered.reclaimer).length := by
    decide +kernel
  exact ⟨⟨one, hone, hset one hone⟩, other, hother, hbound, habsent, hput other hother⟩

end SoftCache.World
