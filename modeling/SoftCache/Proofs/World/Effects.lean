import SoftCache.World.Request

/-!
# What comes of a request

There are many requests, but only so much that comes of one in a world: nothing at all, or something
is made, copied or let go, or a table, a cache or a walk is worked on (`World.Effect`). What is to
be shown of every request is shown of these effects (`World.effect_perform`).
-/

namespace SoftCache.World

variable {K V : Type} {w w' : World K V}

/-! ## Making -/

/-- A reclaimer that is provided is the only thing that may be new. -/
theorem provide_eq {reclaimer : Option String} {index : Nat}
    (hprovide : w.provide reclaimer = some (w', index)) :
    ∃ reclaimers, w' = { w with reclaimers } := by
  cases reclaimer with
  | none =>
    cases hprovide
    exact ⟨_, rfl⟩
  | some name =>
    obtain ⟨_, -, heq⟩ := Option.map_eq_some_iff.mp hprovide
    cases heq
    exact ⟨w.reclaimers, rfl⟩

/-- Something that is made is placed in a world with the reclaimer that it is to have, or not at
all. -/
theorem make_cases {ο α : Type} (w : World K V) (making : Making ο)
    (create : ο → Nat → Except ConfigError α) (place : World K V → Nat → α → World K V) :
    (w.make making create place).notices = [] ∧
      ((w.make making create place).world = w ∧ (w.make making create place).reply ≠ .done ∨
        ∃ provided number made, w.provide making.reclaimer = some (provided, number) ∧
          create making.options (provided.reclaimer number).epoch = .ok made ∧
          (w.make making create place).world = place provided number made) := by
  unfold make
  split
  · exact ⟨rfl, .inl ⟨rfl, by simp⟩⟩
  · split
    · exact ⟨rfl, .inl ⟨rfl, by simp [missing]⟩⟩
    · next provided number hprovide =>
      split
      · next made hmade => exact ⟨rfl, .inr ⟨provided, number, made, hprovide, hmade, rfl⟩⟩
      · refine ⟨rfl, .inl ⟨rfl, ?_⟩⟩
        dsimp only
        split <;> simp

/-! ## Effects -/

variable [DecidableEq K] [Hashed K] [Ordered K] [Literal K] [DecidableEq V] [Literal V]

/-- What may come of a request in a world: the world afterwards, and what is announced. -/
inductive Effect (w : World K V) : Request K V → World K V → List (Notice K V) → Prop
  /-- Nothing, if something is only asked or not there. -/
  | nothing {request : Request K V} : Effect w request w []
  /-- A reclaimer is brought in. -/
  | newReclaimer {name : String} {budget : Option Nat} :
    Effect w (.newReclaimer name budget)
      { w.addReclaimer (.ofBudget budget) with
        reclaimerNames := w.reclaimerNames.set name w.reclaimers.length } []
  /-- A table is made. -/
  | newTable {name : String} {making : Making Table.Options} {reclaimers : List Reclaimer}
    {index : Nat} {table : Table K V} :
    w.provide making.reclaimer = some ({ w with reclaimers }, index) →
    Table.create w.shared making.options (World.reclaimer { w with reclaimers } index).epoch =
      .ok table →
    Effect w (.newTable name making)
      (addTable { w with reclaimers } name
        ⟨table, index, if making.listened then some name else none⟩) []
  /-- A cache is made. -/
  | newCache {name : String} {making : Making Cache.Options} {reclaimers : List Reclaimer}
    {index : Nat} {cache : Cache K V} :
    w.provide making.reclaimer = some ({ w with reclaimers }, index) →
    Cache.create w.shared making.options (World.reclaimer { w with reclaimers } index).epoch =
      .ok cache →
    Effect w (.newCache name making)
      (addCache { w with reclaimers } name
        ⟨cache, index, if making.listened then some name else none, .empty⟩) []
  /-- A table is copied. -/
  | copy {name newName : String} {number : Nat} {placed : PlacedTable K V} :
    w.tableNames.find name = some number → w.tables.find number = some placed →
    Effect w (.copy name newName)
      ((w.setReclaimer placed.reclaimer
        (placed.table.copy (w.reclaimer placed.reclaimer)).reclaimer).addTable newName
          { placed with table := (placed.table.copy (w.reclaimer placed.reclaimer)).result }) []
  /-- What has a name is let go. -/
  | drop {name : String} : Effect w (.drop name) (w.removeNamed name) []
  /-- A table is asked for something. -/
  | table {name : String} {asking : Table.Request K V} {number : Nat} {placed : PlacedTable K V}
    {done : Step (Table K V) (SoftCache.Notice K V) (Reply K V)} :
    w.tableNames.find name = some number → w.tables.find number = some placed →
    placed.table.perform (w.reclaimer placed.reclaimer) asking = done →
    Effect w (.table name asking)
      ({ w with tables := w.tables.modify number { placed with table := done.state } }.setReclaimer
        placed.reclaimer done.reclaimer)
      (placed.listener.toList.flatMap fun listener => done.notices.map (.table listener))
  /-- A cache is asked for something. -/
  | cache {name : String} {asking : Cache.Request K V} {placed : PlacedCache K V}
    {done : Step (Cache K V) (Cache.Notice K V) (Reply K V)} {recorder : Recorder K} :
    w.caches.find name = some placed →
    placed.cache.perform (w.reclaimer placed.reclaimer) asking = done →
    Effect w (.cache name asking)
      ({ w with caches := w.caches.modify name { placed with cache := done.state, recorder }
        }.setReclaimer placed.reclaimer done.reclaimer)
      (placed.listener.toList.flatMap fun listener => done.notices.map (.cache listener))
  /-- A recorder forgets what it has heard. -/
  | recorder {name : String} {placed : PlacedCache K V} : w.caches.find name = some placed →
    Effect w (.recorder name .reset)
      { w with caches := w.caches.modify name { placed with recorder := .empty } } []
  /-- A reclaimer makes a pass or is compacted. -/
  | reclaimer {name : String} {asking : Reclaimer.Request} {reclaimers : List Reclaimer} :
    Effect w (.reclaimer name asking) { w with reclaimers } []
  /-- A walk begins. -/
  | walk {name : String} {view : View} {newName : String} {number : Nat}
    {placed : PlacedTable K V} :
    w.tableNames.find name = some number → w.tables.find number = some placed →
    Effect w (.walk name view newName)
      (w.addWalk newName number view (placed.table.entries (w.reclaimer placed.reclaimer))).world []
  /-- A walk begins at random, for which the cursor of the table moves. -/
  | randomWalk {name newName : String} {number : Nat} {placed : PlacedTable K V}
    {drawn : Step (Table K V) (SoftCache.Notice K V) (List (Entry K V))} :
    w.tableNames.find name = some number → w.tables.find number = some placed →
    placed.table.randomEntries (w.reclaimer placed.reclaimer) = drawn →
    Effect w (.randomWalk name newName)
      (World.addWalk
        { w with tables := w.tables.modify number { placed with table := drawn.state } }
        newName number .entries drawn.result).world []
  /-- A walk goes on. -/
  | goOn {name : String} {asking : Walk.Request} {walked : PlacedWalk K V} {walk : Walk K V} :
    w.walks.find name = some walked → walk.remaining ⊆ walked.walk.remaining →
    Effect w (.onWalk name asking) { w with walks := w.walks.modify name { walked with walk } } []
  /-- A walk removes what it came to last, if it is still there. -/
  | remove {name : String} {walked : PlacedWalk K V} {placed : PlacedTable K V}
    {done : Step (Table K V) (SoftCache.Notice K V) Bool} :
    w.walks.find name = some walked → w.tables.find walked.table = some placed →
    (walked.walk.remove placed.table (w.reclaimer placed.reclaimer)).1 = done →
    Effect w (.onWalk name .remove)
      { World.setReclaimer
          { w with tables := w.tables.modify walked.table { placed with table := done.state } }
          placed.reclaimer done.reclaimer with
        walks := w.walks.modify name { walked with walk := { walked.walk with last := none } } }
      (placed.listener.toList.flatMap fun listener => done.notices.map (.table listener))

/-! ### From requests to effects -/

/-- To make a table brings one in, or nothing if it is refused. -/
theorem effect_makeTable (w : World K V) (name : String) (making : Making Table.Options) :
    w.Effect (.newTable name making) (w.makeTable name making).world
      (w.makeTable name making).notices := by
  obtain ⟨hnotices, ⟨heq, -⟩ | ⟨provided, index, table, hprovide, hmade, heq⟩⟩ :=
    w.make_cases making (Table.create w.shared) fun w index table =>
      w.addTable name ⟨table, index, if making.listened then some name else none⟩
  · rw [makeTable, hnotices, heq]
    exact .nothing
  · obtain ⟨reclaimers, rfl⟩ := provide_eq hprovide
    rw [makeTable, hnotices, heq]
    exact .newTable hprovide hmade

/-- To make a cache brings one in, or nothing if it is refused. -/
theorem effect_makeCache (w : World K V) (name : String) (making : Making Cache.Options) :
    w.Effect (.newCache name making) (w.makeCache name making).world
      (w.makeCache name making).notices := by
  obtain ⟨hnotices, ⟨heq, -⟩ | ⟨provided, index, cache, hprovide, hmade, heq⟩⟩ :=
    w.make_cases making (Cache.create w.shared) fun w index cache =>
      w.addCache name ⟨cache, index, if making.listened then some name else none, .empty⟩
  · rw [makeCache, hnotices, heq]
    exact .nothing
  · obtain ⟨reclaimers, rfl⟩ := provide_eq hprovide
    rw [makeCache, hnotices, heq]
    exact .newCache hprovide hmade

/-- What is asked of a walk is work on its table at most. -/
theorem effect_overWalk (w : World K V) (name : String) (asking : Walk.Request) :
    w.Effect (.onWalk name asking) (w.overWalk name asking).world
      (w.overWalk name asking).notices := by
  unfold overWalk
  cases found : w.walks.find name with
  | none => exact .nothing
  | some walked =>
    cases asking with
    | next =>
      refine .goOn found ?_
      unfold Walk.next
      split
      · exact List.Subset.refl _
      · next hremaining =>
        rw [hremaining]
        exact List.subset_cons_self _ _
    | rest => exact .goOn found (List.nil_subset _)
    | remaining | literal => exact .nothing
    | remove =>
      dsimp only
      unfold overTable
      cases hplaced : w.tables.find walked.table with
      | none => exact .goOn found (List.Subset.refl _)
      | some placed => exact .remove found hplaced rfl

/-- What a table is asked for under its name is asked of the table of the number. -/
theorem perform_table {name : String} {number : Nat}
    (named : w.tableNames.find name = some number) (asking : Table.Request K V) :
    w.perform (.table name asking) = w.overTable number fun t r => t.perform r asking := by
  rw [World.perform, overNamed, named]

/-- What comes of a request is one of the effects. -/
theorem effect_perform (w : World K V) (request : Request K V) :
    w.Effect request (w.perform request).world (w.perform request).notices := by
  cases request with
  | newReclaimer name budget => exact .newReclaimer
  | newTable name making => exact w.effect_makeTable name making
  | newCache name making => exact w.effect_makeCache name making
  | tableOptions making | cacheOptions making =>
    rw [World.perform, showOptions]
    split <;> exact .nothing
  | table name asking =>
    rw [World.perform, overNamed]
    cases hname : w.tableNames.find name with
    | none => exact .nothing
    | some number =>
      dsimp only
      rw [overTable]
      cases found : w.tables.find number with
      | none => exact .nothing
      | some placed => exact .table hname found rfl
  | cache name asking =>
    rw [World.perform, overCache]
    cases found : w.caches.find name with
    | none => exact .nothing
    | some placed => exact .cache found rfl
  | recorder name asking =>
    rw [World.perform, overRecorder]
    cases found : w.caches.find name with
    | none => exact .nothing
    | some placed =>
      cases asking with
      | reset => exact .recorder found
      | counts | events | removedKeys | literal => exact .nothing
  | reclaimer name asking =>
    rw [World.perform, overReclaimer]
    split
    · exact .nothing
    · cases asking with
      | clear | clearAll | tracked => exact .reclaimer
      | epoch | budget | literal => exact .nothing
  | sameReclaimer one other =>
    rw [World.perform]
    split <;> exact .nothing
  | copy name newName =>
    rw [World.perform, copyTable]
    cases found : (w.tableNames.find name).bind fun number => w.tables.find number with
    | none => exact .nothing
    | some placed =>
      obtain ⟨number, hname, hplaced⟩ := Option.bind_eq_some_iff.mp found
      exact .copy hname hplaced
  | drop name => exact .drop
  | walk name view newName =>
    rw [World.perform, beginWalk]
    cases hname : w.tableNames.find name with
    | none => exact .nothing
    | some number =>
      dsimp only
      cases found : w.tables.find number with
      | none => exact .nothing
      | some placed => exact .walk hname found
  | randomWalk name newName =>
    rw [World.perform, beginRandomWalk]
    cases hname : w.tableNames.find name with
    | none => exact .nothing
    | some number =>
      dsimp only
      cases found : w.tables.find number with
      | none => exact .nothing
      | some placed => exact .randomWalk hname found rfl
  | onWalk name asking => exact w.effect_overWalk name asking

end SoftCache.World
