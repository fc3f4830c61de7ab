import SoftCache.World.Basic

/-!
# Requests to a world

All that can be asked for in a world, as one type. `World.perform` carries a request out and
`World.run` a list of them. The worlds that requests lead to from the empty one are all the worlds
there are.
-/

namespace SoftCache

/-- A request to a reclaimer. -/
inductive Reclaimer.Request where
  /-- A pass over at most so many payloads; answers how many it clears. -/
  | clear (limit : Nat)
  /-- A pass over all payloads. -/
  | clearAll
  /-- The number of live payloads. -/
  | tracked
  /-- The epoch. -/
  | epoch
  /-- The budget. -/
  | budget
  /-- The reclaimer in a diagnostic text. -/
  | literal

/-- A request to a walk. -/
inductive Walk.Request where
  /-- The next item. -/
  | next
  /-- All items that remain. -/
  | rest
  /-- Removes the entry of the last item. -/
  | remove
  /-- How many items remain. -/
  | remaining
  /-- The walk in a diagnostic text. -/
  | literal

/-- A request to a recorder. -/
inductive Recorder.Request where
  /-- How many additions, removals and expirations it has heard. -/
  | counts
  /-- What it has heard. -/
  | events
  /-- The keys that were removed and not expired. -/
  | removedKeys
  /-- Forgets what it has heard. -/
  | reset
  /-- The recorder in a diagnostic text. -/
  | literal

namespace World

/-- How the making of a table or a cache is to go. -/
structure Making (α : Type) where
  /-- What was chosen. -/
  options : α
  /-- The name of the reclaimer, or none for one of its own. -/
  reclaimer : Option String := none
  /-- Whether somebody listens. -/
  listened : Bool := false
  /-- The fractions that are checked before anything else is looked at, if they are to be. -/
  checkedFirst : Option (List Binary) := none
  /-- Whether a refused configuration ends the making with its message. -/
  abortive : Bool := false

/-- Why the making is refused before its options are looked at, if it is. -/
def Making.refusal? {α : Type} (m : Making α) : Option ConfigError :=
  match m.checkedFirst.map Cursor.ofFractions with
  | some (.error e) => some e
  | _ => none

/-- A request to a world. -/
inductive Request (K V : Type) where
  /-- Brings a reclaimer in. -/
  | newReclaimer (name : String) (budget : Option Nat)
  /-- Makes a table. -/
  | newTable (name : String) (making : Making Table.Options)
  /-- Makes a cache. -/
  | newCache (name : String) (making : Making Cache.Options)
  /-- The options that a table is to be made with, in a diagnostic text. -/
  | tableOptions (making : Making Table.Options)
  /-- The options that a cache is to be made with, in a diagnostic text. -/
  | cacheOptions (making : Making Cache.Options)
  /-- Asks a table for something. -/
  | table (name : String) (request : Table.Request K V)
  /-- Asks a cache for something. -/
  | cache (name : String) (request : Cache.Request K V)
  /-- Asks the recorder of a cache for something. -/
  | recorder (name : String) (request : Recorder.Request)
  /-- Asks a reclaimer for something. -/
  | reclaimer (name : String) (request : Reclaimer.Request)
  /-- Whether two names lead to the same reclaimer. -/
  | sameReclaimer (one other : String)
  /-- Copies a table. -/
  | copy (name newName : String)
  /-- Lets a table or a cache go, and answers whether there was one. -/
  | drop (name : String)
  /-- Begins a walk over a view of a table and answers how many items it has. -/
  | walk (name : String) (view : View) (newName : String)
  /-- Begins a walk over the entries of a table from a bucket on that the cursor points at. -/
  | randomWalk (name newName : String)
  /-- Asks a walk for something. -/
  | onWalk (name : String) (request : Walk.Request)

variable {K V : Type}

/-! ## Making -/

/-- The number of the reclaimer that is to be used, in the world that has it. -/
def provide (w : World K V) : Option String → Option (World K V × Nat)
  | none => some (w.addReclaimer (.ofBudget none), w.reclaimers.length)
  | some name => (w.reclaimerOf name).map fun number => (w, number)

/-- Makes something with the options chosen, places it, or says why not. -/
def make {ο α : Type} (w : World K V) (making : Making ο)
    (create : ο → Nat → Except ConfigError α) (place : World K V → Nat → α → World K V) :
    Outcome K V :=
  match making.refusal? with
  | some e => { reply := .refused e.report, world := w }
  | none =>
    match w.provide making.reclaimer with
    | none => w.missing
    | some (provided, number) =>
      match create making.options (provided.reclaimer number).epoch with
      | .ok made => { reply := .done, world := place provided number made }
      | .error e =>
        { reply := if making.abortive then .aborted e.message else .refused e.report
          world := w
          log := [.rejected e] }

/-- Makes a table. -/
def makeTable (w : World K V) (name : String) (making : Making Table.Options) : Outcome K V :=
  w.make making (Table.create w.shared) fun w number table =>
    w.addTable name ⟨table, number, if making.listened then some name else none⟩

/-- Makes a cache. -/
def makeCache (w : World K V) (name : String) (making : Making Cache.Options) : Outcome K V :=
  w.make making (Cache.create w.shared) fun w number cache =>
    w.addCache name ⟨cache, number, if making.listened then some name else none, .empty⟩

/-- Shows the options that something is to be made with, or says why they cannot even be chosen.
Only what is checked first is checked. -/
def showOptions {ο : Type} (w : World K V) (making : Making ο) (literal : ο → String) :
    Outcome K V :=
  match making.refusal? with
  | some e => { reply := .refused e.report, world := w }
  | none => { reply := .text (some (literal making.options)), world := w }

/-- Copies a table. The copy has the same reclaimer and the same listener. -/
def copyTable (w : World K V) (name newName : String) : Outcome K V :=
  match (w.tableNames.find name).bind fun number => w.tables.find number with
  | none => w.missing
  | some placed =>
    let copied := placed.table.copy (w.reclaimer placed.reclaimer)
    { reply := .done
      world :=
        (w.setReclaimer placed.reclaimer copied.reclaimer).addTable newName
          { placed with table := copied.result }
      log := copied.log }

/-- Lets a table or a cache go. -/
def dropNamed (w : World K V) (name : String) : Outcome K V :=
  let there := (w.tableNames.find name).isSome || (w.caches.find name).isSome
  { reply := .flag there
    world := w.removeNamed name }

/-! ## Walking -/

/-- Begins a walk over entries of the table of a number. -/
def addWalk (w : World K V) (newName : String) (number : Nat) (view : View)
    (entries : List (Entry K V)) : Outcome K V :=
  { reply := .count entries.length
    world := { w with walks := w.walks.set newName ⟨.start view entries, number⟩ }.collect }

/-- Begins a walk over a view of the table of a name. -/
def beginWalk (w : World K V) (name : String) (view : View) (newName : String) : Outcome K V :=
  match w.tableNames.find name with
  | none => w.missing
  | some number =>
    match w.tables.find number with
    | none => w.missing
    | some placed =>
      w.addWalk newName number view (placed.table.entries (w.reclaimer placed.reclaimer))

/-- Begins a walk over the entries of the table of a name, from where its cursor points. -/
def beginRandomWalk (w : World K V) (name newName : String) : Outcome K V :=
  match w.tableNames.find name with
  | none => w.missing
  | some number =>
    match w.tables.find number with
    | none => w.missing
    | some placed =>
      let drawn := placed.table.randomEntries (w.reclaimer placed.reclaimer)
      { w with tables := w.tables.modify number { placed with table := drawn.state } }.addWalk
        newName number .entries drawn.result

/-- Carries out a request to a walk. -/
def overWalk [DecidableEq K] [Hashed K] (w : World K V) (name : String)
    (request : Walk.Request) : Outcome K V :=
  match w.walks.find name with
  | none => w.missing
  | some placed =>
    let goOn := fun (w : World K V) (walk : Walk K V) =>
      { w with walks := w.walks.modify name { placed with walk } }
    match request with
    | .next => { reply := .items placed.walk.next.1.toList, world := goOn w placed.walk.next.2 }
    | .rest => { reply := .items placed.walk.rest.1, world := goOn w placed.walk.rest.2 }
    | .remaining => { reply := .count placed.walk.remaining.length, world := w }
    | .literal => { reply := .text (some placed.walk.literal), world := w }
    | .remove =>
      let removed := w.overTable placed.table fun t r => (placed.walk.remove t r).1.map .flag
      { removed with world := goOn removed.world { placed.walk with last := none } }

/-! ## Reclaimers and recorders -/

/-- Carries out a request to a reclaimer. -/
def overReclaimer (w : World K V) (name : String) (request : Reclaimer.Request) : Outcome K V :=
  match w.reclaimerOf name with
  | none => w.missing
  | some number =>
    let r := w.reclaimer number
    let pass := fun limit : Nat =>
      { reply := .count (r.clearable limit)
        world := w.setReclaimer number (r.clear limit)
        log := r.clearLog limit : Outcome K V }
    match request with
    | .clear limit => pass limit
    -- No pass takes more handles than there are.
    | .clearAll => pass r.registry.length
    -- The registry is counted after it has been compacted, and stays so.
    | .tracked => { reply := .count r.tracked, world := w.setReclaimer number r.compact }
    | .epoch => { reply := .count r.epoch, world := w }
    | .budget => { reply := .limit r.budget, world := w }
    | .literal => { reply := .text (some r.literal), world := w }

/-- Carries out a request to the recorder of a cache. -/
def overRecorder (w : World K V) (name : String) (request : Recorder.Request) : Outcome K V :=
  match w.caches.find name with
  | none => w.missing
  | some placed =>
    let l := placed.recorder
    match request with
    | .counts => { reply := .recordedCounts l.additions l.removals l.expirations, world := w }
    | .events => { reply := .recorded l.events, world := w }
    | .removedKeys =>
      { reply := .items (l.removedKeys.map fun key => .key (some key)), world := w }
    | .literal => { reply := .text (some l.literal), world := w }
    | .reset =>
      { reply := .nothing
        world := { w with caches := w.caches.modify name { placed with recorder := .empty } } }

/-! ## All requests -/

variable [DecidableEq K] [Hashed K] [Ordered K] [Literal K] [DecidableEq V] [Literal V]

/-- Carries a request out. -/
def perform (w : World K V) : Request K V → Outcome K V
  | .newReclaimer name budget =>
    { reply := .done
      world :=
        { w.addReclaimer (.ofBudget budget) with
          reclaimerNames := w.reclaimerNames.set name w.reclaimers.length } }
  | .newTable name making => w.makeTable name making
  | .newCache name making => w.makeCache name making
  | .tableOptions making => w.showOptions making Table.Options.literal
  | .cacheOptions making => w.showOptions making Cache.Options.literal
  | .table name request => w.overNamed name fun t r => t.perform r request
  | .cache name request => w.overCache name fun c r => c.perform r request
  | .recorder name request => w.overRecorder name request
  | .reclaimer name request => w.overReclaimer name request
  | .sameReclaimer one other =>
    match w.reclaimerOf one, w.reclaimerOf other with
    | some number, some another => { reply := .flag (number == another), world := w }
    | _, _ => w.missing
  | .copy name newName => w.copyTable name newName
  | .drop name => w.dropNamed name
  | .walk name view newName => w.beginWalk name view newName
  | .randomWalk name newName => w.beginRandomWalk name newName
  | .onWalk name request => w.overWalk name request

/-- Carries requests out one after the other. -/
def run (w : World K V) : List (Request K V) → World K V
  | [] => w
  | request :: rest => (w.perform request).world.run rest

/-- A world that requests lead to from an empty one, whichever fractions are shared there. -/
def Reachable (w : World K V) : Prop :=
  ∃ (shared : SharedFractions) (requests : List (Request K V)), run { shared } requests = w

/-- Requests can be carried out in parts. -/
theorem run_append (w : World K V) (first second : List (Request K V)) :
    w.run (first ++ second) = (w.run first).run second := by
  induction first generalizing w with
  | nil => rfl
  | cons request rest ih => exact ih _

/-- A request leads from a reachable world to a reachable one. -/
theorem Reachable.perform {w : World K V} (h : w.Reachable) (request : Request K V) :
    (w.perform request).world.Reachable := by
  obtain ⟨shared, requests, rfl⟩ := h
  exact ⟨shared, requests ++ [request], by rw [run_append]; rfl⟩

/-- What holds of the empty worlds and is kept by every request holds of all reachable worlds. -/
theorem Reachable.induction {motive : World K V → Prop} (start : ∀ shared, motive { shared })
    (step : ∀ w request, motive w → motive (World.perform w request).world) {w : World K V}
    (h : w.Reachable) : motive w := by
  obtain ⟨shared, requests, rfl⟩ := h
  suffices kept : ∀ w : World K V, motive w → motive (w.run requests) from kept _ (start shared)
  induction requests with
  | nil => exact fun _ now => now
  | cons request rest ih => exact fun w now => ih _ (step w request now)

/-- What requests come to one after the other. -/
def outcomes (w : World K V) : List (Request K V) → List (Outcome K V)
  | [] => []
  | request :: rest => w.perform request :: (w.perform request).world.outcomes rest

end World

end SoftCache
