import SoftCache.Proofs.Table.Capacity
import SoftCache.Proofs.World.Following

/-!
# Capacities in the world

A table that holds both sides strongly has, at any time after it was brought in, the first of its
capacities that takes the largest number of slots that it has come to since, and it has counted its
moves there (`World.Reachable.capacity_law`). What is removed or evicted, and what bounds are set
meanwhile, does not matter. No table ever has fewer buckets than before.
-/

namespace SoftCache.World

variable {K V : Type} [DecidableEq K] [Hashed K] [DecidableEq V]

/-- The numbers of slots that a table comes to in a turn, each counted when a slot has been added
and before any is evicted. -/
def Turn.reached (turn : Turn K V) : List Nat :=
  turn.table.reached turn.reclaimer turn.request

/-- The largest number of slots that a table comes to in its turns, if there are so many at
first. -/
def peak (first : Nat) (turns : List (Turn K V)) : Nat :=
  (turns.flatMap Turn.reached).foldl max first

/-- How far a table has grown in its turns. -/
structure Grows (t : Table K V) (turns : List (Turn K V)) (t' : Table K V) : Prop where
  /-- What was fixed when the table was made. -/
  config : t'.config = t.config
  /-- A number of slots is counted for each slot that is added. -/
  inserts : t'.metrics.inserts = t.metrics.inserts + (turns.flatMap Turn.reached).length
  /-- There are never fewer buckets than before. -/
  capacity_le : t.capacity ≤ t'.capacity
  /-- There is one slot more at most than the bound of that moment allows. -/
  within : ∀ turn ∈ turns, ∀ bound ∈ turn.table.bound, ∀ n ∈ turn.reached, n ≤ bound + 1
  /-- The table has grown as far as it has to. -/
  staged : ∀ {first many : Nat}, t.Staged first many → t'.Staged first (peak many turns)

/-- A table grows turn by turn. -/
theorem Follows.grows {listener : Option String} {t t' : Table K V} {turns : List (Turn K V)}
    (h : Follows listener t turns t') : Grows t turns t' := by
  induction h with
  | still t => exact ⟨rfl, rfl, le_rfl, List.forall_mem_nil _, id⟩
  | @turn turn rest t hfits _ ih =>
    have hmounts := hfits.sound.mounts_perform hfits.issued turn.request
    constructor
    case config => exact ih.config.trans hmounts.config
    case inserts =>
      rw [ih.inserts, List.flatMap_cons, List.length_append, ← Nat.add_assoc]
      exact congrArg (· + _) hmounts.inserts
    case capacity_le => exact hmounts.capacity_le.trans ih.capacity_le
    case within => exact List.forall_mem_cons.mpr ⟨hmounts.within, ih.within⟩
    case staged =>
      intro first many hstaged
      rw [peak, List.flatMap_cons, List.foldl_append]
      exact ih.staged (hmounts.staged hstaged)

/-- The capacity of a table, as its largest number of slots has made it since it was brought in. -/
structure FitsPeak (t : Table K V) (turns : List (Turn K V)) (t' : Table K V) : Prop where
  /-- The table is as many stages on as it has counted. -/
  capacity : t'.capacity = Table.stage t.capacity t'.metrics.resizes
  /-- The stage is the first that takes the largest number of slots. -/
  isLeast : IsLeast
    {k | peak t.count turns ≤ t.config.loadFactor.threshold (Table.stage t.capacity k)}
    t'.metrics.resizes
  /-- There are no more slots than the largest number. -/
  count_le : t'.count ≤ peak t.count turns
  /-- The largest number has been counted in full: each slot that was added, before any eviction. -/
  inserts : t'.metrics.inserts = (turns.flatMap Turn.reached).length
  /-- There is one slot more at most than the bound of that moment allows. -/
  within : ∀ turn ∈ turns, ∀ bound ∈ turn.table.bound, ∀ n ∈ turn.reached, n ≤ bound + 1

/-- A table that begins to count from zero, with both sides held strongly, is at the right stage. -/
theorem Follows.fitsPeak {listener : Option String} {t t' : Table K V} {turns : List (Turn K V)}
    (h : Follows listener t turns t') (sound : t.Sound) (fresh : t.metrics = {})
    (keys : t.config.keyStrength = .strong) (values : t.config.valueStrength = .strong) :
    FitsPeak t turns t' := by
  have hgrows := h.grows
  have hresizes : t.metrics.resizes = 0 := by rw [fresh]
  -- At first the table is at the first stage, and there have been as many slots as there are.
  have hfirst : t.Staged t.capacity t.count := by
    refine ⟨⟨keys, values, ?_⟩, fun k hk => ?_, ?_, le_rfl⟩
    · rw [hresizes]
      rfl
    · omega
    · rw [← sound.threshold_eq]
      exact sound.within_threshold
  have hstaged := hgrows.staged hfirst
  constructor
  case capacity => exact hstaged.capacity
  case isLeast =>
    rw [← hgrows.config]
    exact hstaged.isLeast
  case count_le => exact hstaged.count
  case inserts =>
    rw [hgrows.inserts, fresh, Nat.zero_add]
  case within => exact hgrows.within

variable [Ordered K] [Literal K] [Literal V] {w : World K V} {name : String} {request : Request K V}

/-- From its making on, whatever is done in the world, a table that holds both sides strongly has
the first of its capacities that takes the largest number of slots that it has come to, and no table
ever has fewer buckets than before. -/
theorem Reachable.capacity_law (h : w.Reachable) (brings : request.bringsTable name)
    (made : (w.perform request).reply = .done) :
    ∃ number placed, (w.perform request).world.tableNames.find name = some number ∧
      (w.perform request).world.tables.find number = some placed ∧
      (∀ making, request = .newTable name making →
        placed.table.config.keyStrength = making.options.keyStrength ∧
          placed.table.config.valueStrength = making.options.valueStrength ∧
          LoadFactor.ofBinary making.options.loadFactor = .ok placed.table.config.loadFactor ∧
          placed.table.capacity = max making.options.capacity 1 ∧ placed.table.count = 0) ∧
      ∀ requests placed',
        ((w.perform request).world.run requests).tables.find number = some placed' →
          (placed.table.config.keyStrength = .strong → placed.table.config.valueStrength = .strong →
            FitsPeak placed.table ((w.perform request).world.turns number requests)
              placed'.table) ∧
          ∀ more placed'',
            ((w.perform request).world.run (requests ++ more)).tables.find number = some placed'' →
              placed'.table.capacity ≤ placed''.table.capacity := by
  obtain ⟨number, placed, hname, hfound, hfresh, hmade⟩ := exists_of_bringsTable brings made
  have hsound := (h.perform request).sound
  refine ⟨number, placed, hname, hfound, ?_, fun requests placed' hfound' => ⟨?_, ?_⟩⟩
  · rintro making heq
    obtain ⟨epoch, hcreate⟩ := hmade making heq
    exact Table.create_first hcreate
  · intro keys values
    have hold := hsound.fresh number (List.mem_map_of_mem (f := Prod.fst)
      (Directory.mem_of_find hfound))
    obtain ⟨before, hbefore, -, hfollows⟩ := follows_run hsound hold hfound'
    cases hfound.symm.trans hbefore
    exact hfollows.fitsPeak (hsound.tables _ (Directory.mem_of_find hfound)).table hfresh keys
      values
  · intro more placed'' hfound''
    have hmiddle := hsound.run requests
    have hold := hmiddle.fresh number (List.mem_map_of_mem (f := Prod.fst)
      (Directory.mem_of_find hfound'))
    rw [run_append] at hfound''
    obtain ⟨before, hbefore, -, hfollows⟩ := follows_run hmiddle hold hfound''
    cases hfound'.symm.trans hbefore
    exact hfollows.grows.capacity_le

/-- A table that takes one slot in four buckets, with one bucket at first and a bound of two. -/
def sparseMaking : Making Table.Options :=
  { options := { capacity := 0, loadFactor := .finite false 1 (-2), bound := some 2 } }

/-- Requests under which the table grows over its bound, is cleared, grows without a bound, and is
made to give everything up. -/
def sparseRequests : List (Request Clustered String) :=
  [.table "t" (.put (some ⟨1⟩) (some "a")), .table "t" (.put (some ⟨5⟩) (some "b")),
    .table "t" (.put (some ⟨2⟩) (some "c")), .table "t" .clear, .table "t" (.setBound none),
    .table "t" (.putAll (some [(⟨1⟩, "a"), (⟨2⟩, "b"), (⟨3⟩, "c"), (⟨4⟩, "d")])),
    .table "t" (.removeRandoms 2), .table "t" (.setBound (some 0)),
    .table "t" (.put (some ⟨7⟩) none)]

/-- The largest number of slots is four, for which the table has moved four times, and in the end
there is none. -/
theorem capacity_of_sparseRequests :
    let start := (({} : World Clustered String).perform (.newTable "t" sparseMaking)).world
    (start.turns 0 sparseRequests).flatMap Turn.reached = [1, 2, 3, 1, 2, 3, 4, 1] ∧
    ((start.run sparseRequests).tables.find 0).map (fun placed =>
      (placed.table.capacity, placed.table.metrics.resizes, placed.table.count)) = some (31, 4, 0) ∧
    ∃ number placed, start.tableNames.find "t" = some number ∧
      start.tables.find number = some placed ∧
      (∀ making, (.newTable "t" sparseMaking : Request Clustered String) = .newTable "t" making →
        placed.table.config.keyStrength = making.options.keyStrength ∧
          placed.table.config.valueStrength = making.options.valueStrength ∧
          LoadFactor.ofBinary making.options.loadFactor = .ok placed.table.config.loadFactor ∧
          placed.table.capacity = max making.options.capacity 1 ∧ placed.table.count = 0) ∧
      ∀ requests placed', (start.run requests).tables.find number = some placed' →
        (placed.table.config.keyStrength = .strong → placed.table.config.valueStrength = .strong →
          FitsPeak placed.table (start.turns number requests) placed'.table) ∧
        ∀ more placed'', (start.run (requests ++ more)).tables.find number = some placed'' →
          placed'.table.capacity ≤ placed''.table.capacity := by
  have hmade : (({} : World Clustered String).perform (.newTable "t" sparseMaking)).reply =
      .done := by decide +kernel
  have hbrings : (.newTable "t" sparseMaking : Request Clustered String).bringsTable "t" := rfl
  exact ⟨by decide +kernel, by decide +kernel, Reachable.capacity_law ⟨_, [], rfl⟩ hbrings hmade⟩

end SoftCache.World
