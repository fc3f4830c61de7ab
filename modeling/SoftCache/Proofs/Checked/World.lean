import SoftCache.Proofs.Checked.Cache
import SoftCache.Proofs.World.Consistency
import SoftCache.Proofs.World.Everywhere

/-!
# Work in a world with checks

What can be asked for in a world, where all work on tables and caches is done with checks. Tables
and caches are fit when they are made, and copies are fit, so no check ever fails: whatever is asked
for from the beginning comes to what it comes to without checks (`World.outcomes_checked`).
-/

namespace SoftCache

variable {K V : Type}

namespace World

/-! ## Work with checks -/

namespace Checked

/-- Works on the table of a number. -/
def overTable (w : World K V) (number : Nat)
    (work : Table K V → Reclaimer → Option (Step (Table K V) (SoftCache.Notice K V) (Reply K V))) :
    Option (Outcome K V) :=
  match w.tables.find number with
  | none => some w.missing
  | some placed =>
    (work placed.table (w.reclaimer placed.reclaimer)).map fun done =>
      w.overTable number fun _ _ => done

/-- Works on the table of a name. -/
def overNamed (w : World K V) (name : String)
    (work : Table K V → Reclaimer → Option (Step (Table K V) (SoftCache.Notice K V) (Reply K V))) :
    Option (Outcome K V) :=
  match w.tableNames.find name with
  | none => some w.missing
  | some number => overTable w number work

/-- Works on the cache of a name. -/
def overCache (w : World K V) (name : String)
    (work : Cache K V → Reclaimer → Option (Step (Cache K V) (Cache.Notice K V) (Reply K V))) :
    Option (Outcome K V) :=
  match w.caches.find name with
  | none => some w.missing
  | some placed =>
    (work placed.cache (w.reclaimer placed.reclaimer)).map fun done =>
      w.overCache name fun _ _ => done

/-- Copies a table, with the same reclaimer and the same listener. -/
def copyTable (w : World K V) (name newName : String) : Option (Outcome K V) :=
  match (w.tableNames.find name).bind fun number => w.tables.find number with
  | none => some w.missing
  | some placed =>
    (Table.Checked.copy placed.table (w.reclaimer placed.reclaimer)).map fun copied =>
      { reply := .done
        world :=
          (w.setReclaimer placed.reclaimer copied.reclaimer).addTable newName
            { placed with table := copied.result }
        log := copied.log }

/-- Begins a walk over the table of a name, from where its cursor points. -/
def beginRandomWalk (w : World K V) (name newName : String) : Option (Outcome K V) :=
  match w.tableNames.find name with
  | none => some w.missing
  | some number =>
    match w.tables.find number with
    | none => some w.missing
    | some placed =>
      (Table.Checked.randomEntries placed.table (w.reclaimer placed.reclaimer)).map fun drawn =>
        { w with tables := w.tables.modify number { placed with table := drawn.state } }.addWalk
          newName number .entries drawn.result

section Keys

variable [DecidableEq K] [Hashed K]

/-- Removes the entry that a walk came to last. -/
def removeLast (walk : Walk K V) (t : Table K V) (r : Reclaimer) :
    Option (Step (Table K V) (SoftCache.Notice K V) (Reply K V)) :=
  match walk.last with
  | none => some (.done t r (.flag false))
  | some key =>
    (Table.Checked.removeIf t r key fun _ => true).map (Step.map fun taken => .flag taken.isSome)

/-- Removes the entry that a walk has shown last from its table. -/
def removeByWalk (w : World K V) (name : String) : Option (Outcome K V) :=
  match w.walks.find name with
  | none => some w.missing
  | some placed =>
    (overTable w placed.table (removeLast placed.walk)).map fun removed =>
      let walk := { placed.walk with last := none }
      { removed with
        world :=
          { removed.world with walks := removed.world.walks.modify name { placed with walk } } }

variable [Ordered K] [Literal K] [DecidableEq V] [Literal V]

/-- Carries a request out. What is not named here does no work on tables and caches. -/
def perform (w : World K V) : Request K V → Option (Outcome K V)
  | .table name request => overNamed w name fun t r => Table.Checked.perform t r request
  | .cache name request => overCache w name fun c r => Cache.Checked.perform c r request
  | .copy name newName => copyTable w name newName
  | .randomWalk name newName => beginRandomWalk w name newName
  | .onWalk name .remove => removeByWalk w name
  | request => some (w.perform request)

/-- What requests come to one after the other. -/
def outcomes (w : World K V) : List (Request K V) → Option (List (Outcome K V))
  | [] => some []
  | request :: rest => do
    let outcome ← perform w request
    let others ← outcomes outcome.world rest
    return outcome :: others

end Keys

end Checked

/-! ## Fit worlds -/

variable {w w' : World K V}

/-- A world on which all work passes its checks. -/
structure Fit (w : World K V) : Prop where
  /-- All tables are fit. -/
  tables : ∀ entry ∈ w.tables, entry.2.table.Fit
  /-- All caches are fit. -/
  caches : ∀ entry ∈ w.caches, entry.2.cache.Fit

namespace Fit

/-- A world is fit just if all its tables and caches are. -/
theorem iff_everywhere : w.Fit ↔ w.Everywhere Table.Fit Cache.Fit :=
  ⟨fun h => ⟨h.tables, h.caches⟩, fun h => ⟨h.tables, h.caches⟩⟩

/-- Work that is safe on fit tables has an outcome on each of them. -/
theorem overTable (h : w.Fit) {number : Nat}
    {checked : Table K V → Reclaimer → Option (Step (Table K V) (SoftCache.Notice K V) (Reply K V))}
    {work : Table K V → Reclaimer → Step (Table K V) (SoftCache.Notice K V) (Reply K V)}
    (safe : ∀ t r, t.Fit → SoftCache.Checked.Safe Table.Fit (checked t r) (work t r)) :
    Checked.overTable w number checked = some (w.overTable number work) := by
  unfold Checked.overTable World.overTable
  cases found : w.tables.find number with
  | none => rfl
  | some placed =>
    have hdone := safe _ (w.reclaimer placed.reclaimer) (h.tables _ (Directory.mem_of_find found))
    dsimp only
    rw [hdone.eq_some]
    rfl

/-- Work that is safe on fit tables has an outcome on the one of the name. -/
theorem overNamed (h : w.Fit) {name : String}
    {checked : Table K V → Reclaimer → Option (Step (Table K V) (SoftCache.Notice K V) (Reply K V))}
    {work : Table K V → Reclaimer → Step (Table K V) (SoftCache.Notice K V) (Reply K V)}
    (safe : ∀ t r, t.Fit → SoftCache.Checked.Safe Table.Fit (checked t r) (work t r)) :
    Checked.overNamed w name checked = some (w.overNamed name work) := by
  unfold Checked.overNamed World.overNamed
  cases w.tableNames.find name with
  | none => rfl
  | some number => exact h.overTable safe

/-- Work that is safe on fit caches has an outcome on the one of the name. -/
theorem overCache (h : w.Fit) {name : String}
    {checked : Cache K V → Reclaimer → Option (Step (Cache K V) (Cache.Notice K V) (Reply K V))}
    {work : Cache K V → Reclaimer → Step (Cache K V) (Cache.Notice K V) (Reply K V)}
    (safe : ∀ c r, c.Fit → SoftCache.Checked.Safe Cache.Fit (checked c r) (work c r)) :
    Checked.overCache w name checked = some (w.overCache name work) := by
  unfold Checked.overCache World.overCache
  cases found : w.caches.find name with
  | none => rfl
  | some placed =>
    have hdone := safe _ (w.reclaimer placed.reclaimer) (h.caches _ (Directory.mem_of_find found))
    dsimp only
    rw [hdone.eq_some, Option.map_some]

/-- To copy a table of a fit world has an outcome. -/
theorem copyTable (h : w.Fit) (name newName : String) :
    Checked.copyTable w name newName = some (w.copyTable name newName) := by
  unfold Checked.copyTable World.copyTable
  cases found : (w.tableNames.find name).bind fun number => w.tables.find number with
  | none => rfl
  | some placed =>
    obtain ⟨number, -, hplaced⟩ := Option.bind_eq_some_iff.mp found
    have hcopy := (h.tables _ (Directory.mem_of_find hplaced)).copy
      (r := w.reclaimer placed.reclaimer)
    dsimp only
    rw [hcopy.1.eq_some]
    rfl

/-- To begin a walk at random in a fit world has an outcome. -/
theorem beginRandomWalk (h : w.Fit) (name newName : String) :
    Checked.beginRandomWalk w name newName = some (w.beginRandomWalk name newName) := by
  unfold Checked.beginRandomWalk World.beginRandomWalk
  cases w.tableNames.find name with
  | none => rfl
  | some number =>
    dsimp only
    cases found : w.tables.find number with
    | none => rfl
    | some placed =>
      have hdrawn := (h.tables _ (Directory.mem_of_find found)).randomEntries
        (r := w.reclaimer placed.reclaimer)
      dsimp only
      rw [hdrawn.eq_some]
      rfl

section Keys

variable [DecidableEq K] [Hashed K]

/-- To remove by a walk in a fit world has an outcome. -/
theorem removeByWalk (h : w.Fit) (name : String) :
    Checked.removeByWalk w name = some (w.overWalk name .remove) := by
  unfold Checked.removeByWalk World.overWalk
  cases found : w.walks.find name with
  | none => rfl
  | some placed =>
    have hremoved : Checked.overTable w placed.table (Checked.removeLast placed.walk) =
        some (w.overTable placed.table fun t r => (placed.walk.remove t r).1.map .flag) := by
      refine h.overTable fun t r hfit => ?_
      unfold Checked.removeLast Walk.remove
      cases placed.walk.last with
      | none => exact .some hfit
      | some key => exact (hfit.removeIf key _).map _
    dsimp only
    rw [hremoved]
    rfl

variable [Ordered K] [Literal K] [DecidableEq V] [Literal V]

/-- Every request passes its checks. -/
theorem perform (h : w.Fit) (request : Request K V) :
    Checked.perform w request = some (w.perform request) := by
  cases request with
  | table name request => exact h.overNamed fun t r hfit => hfit.perform request
  | cache name request => exact h.overCache fun c r hfit => hfit.perform (r := r) request
  | copy name newName => exact h.copyTable name newName
  | randomWalk name newName => exact h.beginRandomWalk name newName
  | onWalk name request =>
    cases request with
    | remove => exact h.removeByWalk name
    | next | rest | remaining | literal => rfl
  | _ => rfl

/-- Tables and caches are fit when they are made, and stay so whatever they are asked for. -/
theorem persists : Persists (Table.Fit : Table K V → Prop) Cache.Fit where
  created _ _ _ _ hmade := .create hmade
  copied _ _ _ _ hfit := hfit.copy.2
  asked _ _ request _ _ hfit := (hfit.perform request).fit
  made _ _ _ _ hmade := .create hmade
  served _ r request _ _ hfit := (hfit.perform (r := r) request).fit

/-- Requests pass their checks one after the other. -/
theorem outcomes (h : w.Fit) (sound : w.Sound) (requests : List (Request K V)) :
    Checked.outcomes w requests = some (w.outcomes requests) := by
  induction requests generalizing w with
  | nil => rfl
  | cons request rest ih =>
    have hfit := (iff_everywhere.mp h).of_effect sound persists (w.effect_perform request)
    have hrest := ih (iff_everywhere.mpr hfit) (sound.perform request)
    rw [Checked.outcomes, h.perform request]
    simp only [Option.bind_eq_bind, Option.bind_some, hrest]
    rfl

end Keys

/-- Tables and tiers of caches are fit. -/
theorem has (h : w.Fit) {t : Table K V} {r : Reclaimer} (there : w.Has t r) : t.Fit := by
  cases there with
  | table hentry => exact h.tables _ hentry
  | hard hentry => exact (h.caches _ hentry).hard
  | soft hentry => exact (h.caches _ hentry).soft

end Fit

/-! ## All requests -/

/-- Whatever is asked for from the beginning, and whichever fractions are shared, no index,
remainder or difference is out of range on the way, and with checks it comes to what it comes to
without. All that the next request may compute with is in range as well. -/
theorem outcomes_checked [DecidableEq K] [Hashed K] [Ordered K] [Literal K] [DecidableEq V]
    [Literal V] (shared : SharedFractions) (requests : List (Request K V)) :
    Checked.outcomes { shared } requests = some (outcomes { shared } requests) ∧
      ∀ t r, (run { shared } requests).Has t r → t.InRange := by
  have hempty : Fit ({ shared } : World K V) := Fit.iff_everywhere.mpr (.empty shared)
  have hreachable : (run { shared } requests : World K V).Reachable := ⟨shared, requests, rfl⟩
  have hfit := Fit.iff_everywhere.mpr (hreachable.everywhere Fit.persists)
  exact ⟨hempty.outcomes (sound_empty shared) requests, fun t r there => (hfit.has there).inRange⟩

end World

end SoftCache
