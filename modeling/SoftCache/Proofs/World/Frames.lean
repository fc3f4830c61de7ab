import SoftCache.Proofs.World.Soundness

/-!
# What requests leave alone

Whatever has a name is left alone by requests that are made to something else, as long as the name
is not given away. `World.Keeps` says so of what has the name as a table and of what has it as a
cache.
-/

namespace SoftCache.World

variable {K V : Type} {w w' w'' : World K V} {name other : String}

/-- What has the name as a cache stays as it is, its recorder apart. -/
def KeepsCache (w w' : World K V) (name : String) : Prop :=
  ∀ placed, w.caches.find name = some placed →
    ∃ recorder, w'.caches.find name = some { placed with recorder }

/-- What has the name as a table stays as it is. -/
def KeepsTable (w w' : World K V) (name : String) : Prop :=
  ∀ number placed, w.tableNames.find name = some number → w.tables.find number = some placed →
    w'.tableNames.find name = some number ∧ w'.tables.find number = some placed

/-- What has the name stays as it is. -/
structure Keeps (w w' : World K V) (name : String) : Prop where
  /-- As a cache. -/
  cache : w.KeepsCache w' name
  /-- As a table. -/
  table : w.KeepsTable w' name

/-- A cache that is found as before is kept. -/
theorem KeepsCache.of_eq (h : w'.caches.find name = w.caches.find name) : w.KeepsCache w' name :=
  fun placed found => ⟨placed.recorder, h.trans found⟩

/-- A table whose name leads where it did is kept with the tables. -/
theorem KeepsTable.of_eq (hnames : w'.tableNames.find name = w.tableNames.find name)
    (htables : w'.tables = w.tables) : w.KeepsTable w' name := by
  intro number placed hnumber hplaced
  rw [hnames, htables]
  exact ⟨hnumber, hplaced⟩

/-- A world keeps what it has. -/
theorem Keeps.refl (w : World K V) (name : String) : w.Keeps w name :=
  ⟨.of_eq rfl, .of_eq rfl rfl⟩

/-- A cache that is kept twice is kept. -/
theorem KeepsCache.trans (h : w.KeepsCache w' name) (h' : w'.KeepsCache w'' name) :
    w.KeepsCache w'' name := by
  intro placed found
  obtain ⟨recorder, found'⟩ := h placed found
  obtain ⟨recorder', found''⟩ := h' _ found'
  exact ⟨recorder', found''⟩

/-- What is kept twice is kept. -/
theorem Keeps.trans (h : w.Keeps w' name) (h' : w'.Keeps w'' name) : w.Keeps w'' name where
  cache := h.cache.trans h'.cache
  table number placed hnumber hplaced := by
    obtain ⟨hnumber', hplaced'⟩ := h.table number placed hnumber hplaced
    exact h'.table number placed hnumber' hplaced'

/-! ## Letting go and bringing in -/

/-- What has a name is referred to. -/
theorem keeps_collect (w : World K V) (name : String) : w.Keeps w.collect name := by
  obtain ⟨reclaimers, -, heq⟩ := w.collect_eq
  rw [heq]
  refine ⟨.of_eq rfl, fun number placed hnumber hplaced => ⟨hnumber, ?_⟩⟩
  -- A table that has a name is referred to.
  have hreferred : w.referredTables.contains number = true := by
    rw [List.contains_iff_mem]
    exact List.mem_append_left _
      (List.mem_map_of_mem (f := Prod.snd) (Directory.mem_of_find hnumber))
  exact (Directory.find_filter hreferred w.tables).trans hplaced

/-- Letting go of one cache keeps the others. -/
theorem keeps_removeCache (hne : other ≠ name) : w.Keeps (w.removeCache other) name := by
  obtain ⟨reclaimers, -, heq⟩ := w.removeCache_eq other
  rw [heq]
  refine ⟨.of_eq ?_, .of_eq rfl rfl⟩
  exact (Directory.find_erase w.caches other name).trans (if_neg hne)

/-- Letting go of one name keeps the others. -/
theorem keeps_removeNamed (hne : other ≠ name) : w.Keeps (w.removeNamed other) name := by
  have herase : w.Keeps { w with tableNames := w.tableNames.erase other } name :=
    ⟨.of_eq rfl, .of_eq ((Directory.find_erase w.tableNames other name).trans (if_neg hne)) rfl⟩
  exact (herase.trans (keeps_collect _ name)).trans (keeps_removeCache hne)

/-- Reclaimers may come and change. -/
theorem keeps_reclaimers (w : World K V) (name : String) (reclaimers : List Reclaimer)
    (reclaimerNames : Directory String Nat) :
    w.Keeps { w with reclaimers, reclaimerNames } name :=
  ⟨.of_eq rfl, .of_eq rfl rfl⟩

/-- A table that is brought in under another name has a number of its own. -/
theorem keeps_addTable (fresh : ∀ number ∈ w.tables.map Prod.fst, number < w.nextTable)
    (hne : other ≠ name) (placed : PlacedTable K V) : w.Keeps (w.addTable other placed) name := by
  have hput : w.Keeps (w.enterTable other placed) name := by
    refine ⟨.of_eq rfl, fun number old hnumber hplaced => ⟨?_, ?_⟩⟩
    · rw [find_tableNames_enterTable, if_neg hne]
      exact hnumber
    · -- The number that the table had is older than the new one.
      have hnew := fresh number (List.mem_map_of_mem (f := Prod.fst)
        (Directory.mem_of_find hplaced))
      rw [find_tables_enterTable, if_neg hnew.ne']
      exact hplaced
  exact (hput.trans (keeps_collect _ name)).trans (keeps_removeCache hne)

/-- To bring in a cache of another name keeps what has the name. -/
theorem keeps_addCache (hne : other ≠ name) (placed : PlacedCache K V) :
    w.Keeps (w.addCache other placed) name := by
  refine (keeps_removeNamed hne).trans ⟨.of_eq ?_, .of_eq rfl rfl⟩
  exact (Directory.find_set _ other name placed).trans (if_neg hne)

/-- To begin a walk keeps what has the name. -/
theorem keeps_addWalk (w : World K V) (name newName : String) (number : Nat) (view : View)
    (entries : List (Entry K V)) : w.Keeps (w.addWalk newName number view entries).world name := by
  have hwalk : w.Keeps
      { w with walks := w.walks.set newName ⟨.start view entries, number⟩ } name :=
    ⟨.of_eq rfl, .of_eq rfl rfl⟩
  exact hwalk.trans (keeps_collect _ name)

/-! ## Work on a table -/

/-- What comes of work on the table of a number, which changes no more than the table and its
reclaimer. -/
structure Works (w : World K V) (number : Nat) (placed : PlacedTable K V)
    (done : Step (Table K V) (SoftCache.Notice K V) (Reply K V)) (outcome : Outcome K V) :
    Prop where
  /-- The answer is that of the work. -/
  reply : outcome.reply = done.result
  /-- Who listens to the table hears what the work announces. -/
  notices : outcome.notices =
    placed.listener.toList.flatMap fun listener => done.notices.map (.table listener)
  /-- Tables keep their names. -/
  tableNames : outcome.world.tableNames = w.tableNames
  /-- No table is added. -/
  nextTable : outcome.world.nextTable = w.nextTable
  /-- Walks stay where they are. -/
  walks : outcome.world.walks = w.walks
  /-- The table is as the work leaves it. -/
  found : outcome.world.tables.find number = some { placed with table := done.state }
  /-- The reclaimer is as the work leaves it. -/
  reclaimer : outcome.world.reclaimer placed.reclaimer = done.reclaimer

/-- Work on the table of a number is done with the table and its reclaimer. -/
theorem works_overTable {number : Nat} {placed : PlacedTable K V}
    (found : w.tables.find number = some placed) (index : placed.reclaimer < w.reclaimers.length)
    (work : Table K V → Reclaimer → Step (Table K V) (SoftCache.Notice K V) (Reply K V)) :
    w.Works number placed (work placed.table (w.reclaimer placed.reclaimer))
      (w.overTable number work) := by
  rw [overTable, found]
  refine ⟨rfl, rfl, rfl, rfl, rfl, ?_, reclaimer_setReclaimer_self (by exact index) _⟩
  refine (Directory.find_modify ..).trans ?_
  rw [if_pos rfl, found]
  rfl

/-! ## Requests -/

/-- Whether a request leaves the name to what has it. -/
def Request.spares (name : String) : Request K V → Prop
  | .newTable other _ | .newCache other _ | .copy _ other | .drop other => other ≠ name
  | _ => True

/-- Whether a request is made to a table or a cache, or reads on in a table. -/
def Request.works : Request K V → Bool
  | .table .. | .cache .. | .recorder .. | .randomWalk .. | .onWalk .. => true
  | _ => false

variable [DecidableEq K] [Hashed K] [Ordered K] [Literal K] [DecidableEq V] [Literal V]

/-- What comes of a request that works on nothing keeps what has a name, and nothing is
announced. -/
theorem keeps_of_effect (h : w.Sound) {request : Request K V} {notices : List (Notice K V)}
    (effect : w.Effect request w' notices) (spared : request.spares name)
    (idle : request.works = false) : w.Keeps w' name ∧ notices = [] := by
  cases effect with
  | nothing => exact ⟨.refl w name, rfl⟩
  | newReclaimer => exact ⟨w.keeps_reclaimers name _ _, rfl⟩
  | newTable hprovide =>
    have hprovided := (h.provide hprovide).1.sound
    exact ⟨(w.keeps_reclaimers name _ _).trans (keeps_addTable hprovided.fresh spared _), rfl⟩
  | newCache => exact ⟨(w.keeps_reclaimers name _ _).trans (keeps_addCache spared _), rfl⟩
  | copy =>
    exact ⟨(w.keeps_reclaimers name _ _).trans (keeps_addTable (w := w.setReclaimer _ _) h.fresh
      spared _), rfl⟩
  | drop => exact ⟨keeps_removeNamed spared, rfl⟩
  | reclaimer => exact ⟨w.keeps_reclaimers name _ _, rfl⟩
  | walk => exact ⟨keeps_addWalk .., rfl⟩
  | table | cache | recorder | randomWalk | goOn | remove => cases idle

/-- A request that works on nothing keeps what has a name, and nothing is announced. -/
theorem keeps_perform (h : w.Sound) {request : Request K V} (spared : request.spares name)
    (idle : request.works = false) :
    w.Keeps (w.perform request).world name ∧ (w.perform request).notices = [] :=
  keeps_of_effect h (w.effect_perform request) spared idle

end SoftCache.World
