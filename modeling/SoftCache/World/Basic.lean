import SoftCache.Cache.Request
import SoftCache.Table.Request

/-!
# Worlds

A world holds tables, caches, reclaimers and walks under names. A reclaimer may serve any number of
tables and caches, so it is known by a number, and so is a table, which a walk keeps in the world
after its name is gone. What nothing refers to any more leaves the world, and its payloads are
released.
-/

namespace SoftCache

namespace World

/-- A table in a world. -/
structure PlacedTable (K V : Type) where
  /-- The table. -/
  table : Table K V
  /-- The number of its reclaimer. -/
  reclaimer : Nat
  /-- The name under which somebody listens to it. -/
  listener : Option String

/-- A cache in a world. -/
structure PlacedCache (K V : Type) where
  /-- The cache. -/
  cache : Cache K V
  /-- The number of its reclaimer. -/
  reclaimer : Nat
  /-- The name under which somebody listens to it. -/
  listener : Option String
  /-- Its recorder, which hears something only if somebody listens. -/
  recorder : Recorder K

/-- A walk in a world. -/
structure PlacedWalk (K V : Type) where
  /-- The walk. -/
  walk : Walk K V
  /-- The number of the table that it goes over. -/
  table : Nat

/-- What is announced in a world, with the name of the listener. -/
inductive Notice (K V : Type) where
  /-- A table announces something. -/
  | table (listener : String) (notice : SoftCache.Notice K V)
  /-- A cache announces something. -/
  | cache (listener : String) (notice : Cache.Notice K V)
deriving DecidableEq

end World

/-- Tables, caches, reclaimers and walks under names. -/
structure World (K V : Type) where
  /-- All reclaimers, by their numbers. -/
  reclaimers : List Reclaimer := []
  /-- The numbers of the reclaimers that have names. -/
  reclaimerNames : Directory String Nat := []
  /-- The tables in the world, by their numbers. -/
  tables : Directory Nat (World.PlacedTable K V) := []
  /-- The number of the next table. -/
  nextTable : Nat := 0
  /-- The numbers of the tables that have names. -/
  tableNames : Directory String Nat := []
  /-- The caches. -/
  caches : Directory String (World.PlacedCache K V) := []
  /-- The walks. -/
  walks : Directory String (World.PlacedWalk K V) := []
  /-- The fractions that are used where none are given, the same in the whole world and at all
  times. -/
  shared : SharedFractions := .spread

namespace World

variable {K V : Type}

/-- What a request comes to. -/
structure Outcome (K V : Type) where
  /-- The answer. -/
  reply : Reply K V
  /-- The world afterwards. -/
  world : World K V
  /-- What was announced to those who listen. -/
  notices : List (Notice K V) := []
  /-- What was written to the log. -/
  log : List LogLine := []

/-! ## Reclaimers -/

/-- The reclaimer of a number. -/
def reclaimer (w : World K V) (number : Nat) : Reclaimer :=
  w.reclaimers.getD number (.ofBudget none)

/-- The world with another reclaimer under a number. -/
def setReclaimer (w : World K V) (number : Nat) (r : Reclaimer) : World K V :=
  { w with reclaimers := w.reclaimers.set number r }

/-- The world with one more reclaimer, which has the number `w.reclaimers.length`. -/
def addReclaimer (w : World K V) (r : Reclaimer) : World K V :=
  { w with reclaimers := w.reclaimers ++ [r] }

/-- The number of the reclaimer that has the name, or that serves the table or cache of the name. -/
def reclaimerOf (w : World K V) (name : String) : Option Nat :=
  w.reclaimerNames.find name <|>
    (w.tableNames.find name).bind (fun number => (w.tables.find number).map (·.reclaimer)) <|>
    (w.caches.find name).map (·.reclaimer)

/-! ## Letting go -/

/-- The numbers of the tables that a name or a walk refers to. -/
def referredTables (w : World K V) : List Nat :=
  w.tableNames.map (·.2) ++ w.walks.map (·.2.table)

/-- Releases the payloads of slots that leave the world. -/
def dismiss (w : World K V) (number : Nat) (slots : List (Slot K V)) : World K V :=
  w.setReclaimer number ((w.reclaimer number).dismiss slots)

/-- Lets the tables go that nothing refers to. -/
def collect (w : World K V) : World K V :=
  -- Liveness is settled before anything is released: two tables never share a payload.
  let referred := w.referredTables
  let gone := w.tables.filter fun entry => !referred.contains entry.1
  let left := { w with tables := w.tables.filter fun entry => referred.contains entry.1 }
  gone.foldl (fun w entry => w.dismiss entry.2.reclaimer entry.2.table.buckets.slots) left

/-- Lets the cache of a name go, if there is one. -/
def removeCache (w : World K V) (name : String) : World K V :=
  match w.caches.find name with
  | none => w
  | some placed =>
    let left := { w with caches := w.caches.erase name }
    left.dismiss placed.reclaimer
      (placed.cache.hard.buckets.slots ++ placed.cache.soft.buckets.slots)

/-- Lets the table or the cache of a name go, if there is one. -/
def removeNamed (w : World K V) (name : String) : World K V :=
  ({ w with tableNames := w.tableNames.erase name }.collect).removeCache name

/-! ## Bringing in -/

/-- The world with one more table under a name, in place of what had it. -/
def addTable (w : World K V) (name : String) (placed : PlacedTable K V) : World K V :=
  { w with
    tables := w.tables.set w.nextTable placed
    tableNames := w.tableNames.set name w.nextTable
    nextTable := w.nextTable + 1 }.collect.removeCache name

/-- The world with one more cache under a name, in place of what had it. -/
def addCache (w : World K V) (name : String) (placed : PlacedCache K V) : World K V :=
  let left := w.removeNamed name
  { left with caches := left.caches.set name placed }

/-! ## Working on what is there -/

/-- The answer that something is not there. -/
def missing (w : World K V) : Outcome K V :=
  { reply := .unknown, world := w }

/-- Works on the table of a number. -/
def overTable (w : World K V) (number : Nat)
    (work : Table K V → Reclaimer → Step (Table K V) (SoftCache.Notice K V) (Reply K V)) :
    Outcome K V :=
  match w.tables.find number with
  | none => w.missing
  | some placed =>
    let done := work placed.table (w.reclaimer placed.reclaimer)
    { reply := done.result
      world :=
        { w with tables := w.tables.modify number { placed with table := done.state } }.setReclaimer
          placed.reclaimer done.reclaimer
      notices := placed.listener.toList.flatMap fun listener => done.notices.map (.table listener)
      log := done.log }

/-- Works on the table of a name. -/
def overNamed (w : World K V) (name : String)
    (work : Table K V → Reclaimer → Step (Table K V) (SoftCache.Notice K V) (Reply K V)) :
    Outcome K V :=
  match w.tableNames.find name with
  | none => w.missing
  | some number => w.overTable number work

/-- Works on the cache of a name. Its recorder hears what it announces, if somebody listens. -/
def overCache (w : World K V) (name : String)
    (work : Cache K V → Reclaimer → Step (Cache K V) (Cache.Notice K V) (Reply K V)) :
    Outcome K V :=
  match w.caches.find name with
  | none => w.missing
  | some placed =>
    let done := work placed.cache (w.reclaimer placed.reclaimer)
    let heard := placed.listener.toList.flatMap fun _ => done.notices
    let recorder := placed.recorder.hear heard
    let after := { placed with cache := done.state, recorder }
    { reply := done.result
      world :=
        { w with caches := w.caches.modify name after }.setReclaimer
          placed.reclaimer done.reclaimer
      notices := placed.listener.toList.flatMap fun listener => done.notices.map (.cache listener)
      log := done.log }

/-- What can be seen of the table or the cache of a name. -/
def inspect (w : World K V) (name : String) : Reply K V :=
  match (w.tableNames.find name).bind fun number => w.tables.find number with
  | some placed => .tableState (placed.table.snapshot (w.reclaimer placed.reclaimer))
  | none =>
    match w.caches.find name with
    | some placed => .cacheState (placed.cache.snapshot (w.reclaimer placed.reclaimer))
    | none => .nothing

end World

end SoftCache
