import SoftCache.Proofs.Table.Agreement
import SoftCache.Proofs.World.Frames
import SoftCache.Proofs.World.Nulls
import SoftCache.Proofs.World.Sweeping

/-!
# Walks and answers agree

In a reachable world all that is read of a table agrees with its live entries, those of the tiers of
caches included, and the walks over a table show just them (`World.Reachable.reads_agree`).
-/

open scoped List

namespace SoftCache.World

variable {K V : Type} [DecidableEq K] [Hashed K] [Ordered K] [Literal K] [DecidableEq V] [Literal V]
  {w : World K V} {name : String} {number : Nat} {placed : PlacedTable K V}

/-- What the walk of the name shows when it has been begun with a request. -/
def shown (w : World K V) (request : Request K V) (walk : String) : Reply K V :=
  ((w.perform request).world.perform (.onWalk walk .rest)).reply

/-- A world in which all that is read of tables agrees with their live entries. -/
structure Agrees (w : World K V) : Prop where
  /-- All that is asked of a table. -/
  tables : ∀ t r, w.Has t r → t.Agrees r
  /-- A walk over a view shows what the view shows of the live entries. -/
  walks : ∀ name number placed, w.tableNames.find name = some number →
    w.tables.find number = some placed → ∀ view walk,
      let entries := placed.table.entries (w.reclaimer placed.reclaimer)
      (w.perform (.walk name view walk)).reply = .count entries.length ∧
        w.shown (.walk name view walk) walk = .items (entries.map view.item)
  /-- A walk from where the cursor points shows the live entries turned round, and the cursor moves
  on. -/
  randomWalks : ∀ name number placed, w.tableNames.find name = some number →
    w.tables.find number = some placed → ∀ walk,
      let turned := placed.table.randomEntries (w.reclaimer placed.reclaimer)
      (w.perform (.randomWalk name walk)).reply = .count turned.result.length ∧
        w.shown (.randomWalk name walk) walk = .items (turned.result.map .entry) ∧
        (w.perform (.randomWalk name walk)).world.tables.find number =
          some { placed with table := turned.state }

omit [Ordered K] [Literal K] [DecidableEq V] [Literal V] in
/-- What a walk shows that has begun over some entries. -/
theorem rest_addWalk (w : World K V) (walk : String) (number : Nat) (view : View)
    (entries : List (Entry K V)) :
    ((w.addWalk walk number view entries).world.overWalk walk .rest).reply =
      .items (entries.map view.item) := by
  have hfind : (w.addWalk walk number view entries).world.walks.find walk =
      some ⟨.start view entries, number⟩ := by
    obtain ⟨reclaimers, -, heq⟩ :=
      ({ w with walks := w.walks.set walk ⟨.start view entries, number⟩ } : World K V).collect_eq
    rw [addWalk, heq]
    exact (Directory.find_set ..).trans (if_pos rfl)
  rw [overWalk, hfind]
  rfl

/-- All that is read of the tables of a reachable world agrees. -/
theorem Reachable.reads_agree (h : w.Reachable) : w.Agrees where
  tables t r there :=
    (h.sound.has there).agrees (h.sound.issued_has there) (h.full_has there)
      (h.sound.stale_has there)
  walks name number placed named found view walk := by
    rw [shown, World.perform, beginWalk, named]
    dsimp only
    rw [found]
    exact ⟨rfl, rest_addWalk w walk number view _⟩
  randomWalks name number placed named found walk := by
    let turned := placed.table.randomEntries (w.reclaimer placed.reclaimer)
    let moved : World K V :=
      { w with tables := w.tables.modify number { placed with table := turned.state } }
    have heq : w.perform (.randomWalk name walk) =
        moved.addWalk walk number .entries turned.result := by
      rw [World.perform, beginRandomWalk, named]
      dsimp only
      rw [found]
    have hmoved : moved.tables.find number = some { placed with table := turned.state } := by
      refine (Directory.find_modify ..).trans ?_
      rw [if_pos rfl, found]
      rfl
    refine ⟨congrArg Outcome.reply heq, ?_, ?_⟩
    · rw [shown, heq]
      exact rest_addWalk moved walk number .entries turned.result
    · rw [heq]
      exact ((keeps_addWalk moved name walk number .entries turned.result).table number _ named
        hmoved).2

/-- A world with two tables whose keys collide. A value of the one and a key of the other have been
cleared, and both have a null. -/
def mingled : World Clustered String :=
  run {}
    [.newReclaimer "r" none,
      .newTable "t"
        { options :=
            { capacity := 3, valueStrength := .reclaimable,
              fractions := some [.finite false 1 (-1)] },
          reclaimer := some "r" },
      .newTable "u"
        { options := { capacity := 3, keyStrength := .reclaimable }, reclaimer := some "r" },
      .table "t" (.put (some ⟨1⟩) (some "a")), .table "u" (.put (some ⟨1⟩) (some "a")),
      .table "t" (.put (some ⟨5⟩) (some "b")), .table "u" (.put (some ⟨5⟩) none),
      .table "t" (.put none (some "a")), .reclaimer "r" (.clear 2)]

/-- In the mingled world each table has a stale slot, and all that is read agrees. -/
theorem mingled_agrees :
    mingled.tables.map (fun entry => (entry.2.table.count,
        entry.2.table.entries (mingled.reclaimer entry.2.reclaimer))) =
          [(3, [(none, some "a"), (some ⟨5⟩, some "b")]), (2, [(some ⟨5⟩, none)])] ∧
      mingled.shown (.walk "t" .keys "w") "w" = .items [.key none, .key (some ⟨5⟩)] ∧
      mingled.shown (.walk "u" .values "w") "w" = .items [.value none] ∧
      mingled.shown (.randomWalk "t" "w") "w" =
        .items [.entry (some ⟨5⟩, some "b"), .entry (none, some "a")] ∧
      mingled.Agrees :=
  ⟨by decide +kernel, by decide +kernel, by decide +kernel, by decide +kernel,
    Reachable.reads_agree ⟨_, _, rfl⟩⟩

end SoftCache.World
