import SoftCache.Proofs.Table.Replacing
import SoftCache.Proofs.World.Nulls
import SoftCache.Proofs.World.Sweeping

/-!
# Replacing a value in a world

In a reachable world a put to a key that has a value answers that value, gives the key the new one
and leaves the other live entries as they are, unless the registration of the new value clears the
payload of a live entry of that very table (`World.Reachable.replaces_iff`). It clears none if the
budget is not spent or values are held strongly. Otherwise it clears the oldest payload, although
there is room for what remains (`World.spent_loses`).
-/

namespace SoftCache.World

variable {K V : Type} [DecidableEq K] [Hashed K] [Ordered K] [Literal K] [DecidableEq V]
  [Literal V] {w : World K V}

/-- A value is replaced as it should be just if no live entry of the table holds the payload that
the registration of the new value clears. -/
theorem Reachable.replaces_iff (h : w.Reachable) {t : Table K V} {r : Reclaimer}
    (there : w.Has t r) {key : Option K} {old : V} (got : (t.get r key).result = some old)
    (value : V) :
    t.Replaces r key old value ↔
      ∀ s ∈ t.buckets.slots, s.isStale r = false → ∀ payload ∈ s.payloads,
        payload ∉ t.config.valueStrength.dooms (t.purge r (t.indexOf key)).reclaimer :=
  (h.sound.has there).replacing_iff (h.sound.issued_has there) (h.full_has there) got value

/-- A world in which the budget is spent, and the oldest payload is not one of table "t". -/
def lodged : World UInt64 String :=
  run {}
    [.newReclaimer "r" (some 2),
      .newTable "o" { options := { valueStrength := .reclaimable }, reclaimer := some "r" },
      .newTable "t" { options := { valueStrength := .reclaimable }, reclaimer := some "r" },
      .table "o" (.put (some 9) (some "z")),
      .table "t" (.put (some 1) (some "a"))]

/-- There the value of a key is replaced as it should be. -/
theorem lodged_replaces :
    ∃ placed, lodged.tables.find 1 = some placed ∧
      (placed.table.get (lodged.reclaimer placed.reclaimer) (some 1)).result = some "a" ∧
      placed.table.Replaces (lodged.reclaimer placed.reclaimer) (some 1) "a" "b" := by
  obtain ⟨placed, hfound⟩ : ∃ placed, lodged.tables.find 1 = some placed :=
    Option.isSome_iff_exists.mp (by decide +kernel)
  have hgot : ∀ placed ∈ lodged.tables.find 1,
      (placed.table.get (lodged.reclaimer placed.reclaimer) (some 1)).result = some "a" := by
    decide +kernel
  have hspared : ∀ placed ∈ lodged.tables.find 1, ∀ s ∈ placed.table.buckets.slots,
      s.isStale (lodged.reclaimer placed.reclaimer) = false → ∀ payload ∈ s.payloads,
        payload ∉ placed.table.config.valueStrength.dooms (placed.table.purge
          (lodged.reclaimer placed.reclaimer) (placed.table.indexOf (some 1))).reclaimer := by
    decide +kernel
  have hreachable : lodged.Reachable := ⟨_, _, rfl⟩
  refine ⟨placed, hfound, hgot placed hfound, ?_⟩
  exact (hreachable.replaces_iff (.table (Directory.mem_of_find hfound)) (hgot placed hfound)
    "b").mpr (hspared placed hfound)

/-- A world in which the values of one table spend the budget. -/
def spent : World UInt64 String :=
  run {}
    [.newReclaimer "r" (some 2),
      .newTable "t" { options := { valueStrength := .reclaimable }, reclaimer := some "r" },
      .table "t" (.put (some 1) (some "a")),
      .table "t" (.put (some 2) (some "b"))]

/-- There a put to the key that came first answers null, since its old value is cleared before it is
answered, and a put to the other key costs the first its value. -/
theorem spent_loses :
    (spent.outcomes [.table "t" (.get (some 1)), .table "t" (.put (some 1) (some "c"))]).map
        (·.reply) = [.value (some "a"), .value none] ∧
      (spent.outcomes [.table "t" (.get (some 2)), .table "t" (.put (some 2) (some "c")),
        .table "t" (.get (some 1))]).map (·.reply) =
          [.value (some "b"), .value (some "b"), .value none] ∧
      ∃ placed, spent.tables.find 0 = some placed ∧
        ¬placed.table.Replaces (spent.reclaimer placed.reclaimer) (some 1) "a" "c" ∧
        ¬placed.table.Replaces (spent.reclaimer placed.reclaimer) (some 2) "b" "c" := by
  obtain ⟨placed, hfound⟩ : ∃ placed, spent.tables.find 0 = some placed :=
    Option.isSome_iff_exists.mp (by decide +kernel)
  have hentries : ∀ placed ∈ spent.tables.find 0,
      (some 1, some "a") ∈ placed.table.entries (spent.reclaimer placed.reclaimer) ∧
        (some 2, some "b") ∈ placed.table.entries (spent.reclaimer placed.reclaimer) := by
    decide +kernel
  have hanswer : ∀ placed ∈ spent.tables.find 0,
      (placed.table.put (spent.reclaimer placed.reclaimer) (some 1) (some "c")).result.toOption =
        some none := by
    decide +kernel
  have hlost : ∀ placed ∈ spent.tables.find 0,
      let after := placed.table.put (spent.reclaimer placed.reclaimer) (some 2) (some "c")
      (some 1, some "a") ∉ after.state.entries after.reclaimer := by
    decide +kernel
  have hsound : spent.Sound := Reachable.sound ⟨_, _, rfl⟩
  have there : spent.Has placed.table (spent.reclaimer placed.reclaimer) :=
    .table (Directory.mem_of_find hfound)
  obtain ⟨hfirst, hsecond⟩ := hentries placed hfound
  refine ⟨by decide +kernel, by decide +kernel, placed, hfound, fun hreplaces => ?_,
    fun hreplaces => ?_⟩
  · have hnull := hanswer placed hfound
    rw [hreplaces.answer] at hnull
    cases hnull
  · have hfits := (hsound.has there).fits (hsound.issued_has there) hsecond
    exact hlost placed hfound (hreplaces.kept hfits _ hfirst (by decide))

end SoftCache.World
