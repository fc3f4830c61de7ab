import SoftCache.Proofs.Table.Passes
import SoftCache.Proofs.World.Naming

/-!
# Using a table

Who uses a table without a bound, under a reclaimer without a budget, has to do with a plain map,
whatever else is done in the world (`World.Reachable.refines`). What is asked of the table is
answered as the map answers it (`World.serves_perform`). Everything else leaves the map alone, but
for a pass of the reclaimer, which takes from it just the keys for which it clears something
(`World.loses_perform`).
-/

open scoped List

namespace SoftCache

variable {K V : Type}

/-! ## Plain tables -/

/-- What a table is to its users. -/
structure PlainTable (K V : Type) where
  /-- What is in the table. -/
  map : PlainMap K V
  /-- How many stale slots the next sweep is to find. -/
  unseen : Nat

namespace PlainTable

/-- The table answers as the map does, and a sweep answers how many stale slots there were. Other
requests may remove some of them as well. -/
structure Serves [DecidableEq K] [DecidableEq V] (p : PlainTable K V) (keys values : Strength)
    (request : Table.Request K V) (reply : Reply K V) (p' : PlainTable K V) : Prop where
  /-- The answer is the one of the map. -/
  answers : p.map.Answers keys values request reply p'.map
  /-- Nothing becomes stale. -/
  unseen_le : p'.unseen ≤ p.unseen
  /-- A sweep finds all that is stale. -/
  swept : request = .removeExpired → reply = .count p.unseen ∧ p'.unseen = 0

/-- The keys that are struck go from the map, and as many slots become stale. -/
structure Loses [DecidableEq K] (p : PlainTable K V) (struck : Option K → Prop)
    (p' : PlainTable K V) : Prop where
  /-- All other keys keep their values. -/
  lookup_iff : ∀ key value,
    p'.map.lookup key = some value ↔ p.map.lookup key = some value ∧ ¬struck key
  /-- What was in the map is still in it or stale. -/
  unseen_eq : p'.unseen + p'.map.keys.card = p.unseen + p.map.keys.card

/-- If nothing is struck, nothing is lost. -/
theorem Loses.nothing [DecidableEq K] (p : PlainTable K V) {struck : Option K → Prop}
    (hnone : ∀ key, ¬struck key) : p.Loses struck p :=
  ⟨fun key _ => ⟨fun hvalue => ⟨hvalue, hnone key⟩, And.left⟩, rfl⟩

end PlainTable

namespace World

variable {w w' : World K V} {name : String} {number : Nat} {placed : PlacedTable K V}
  {keys values : Strength} {p : PlainTable K V} {request : Request K V}

/-! ## What a request is to a table -/

/-- What a request asks of the table of a name, if it does. A walk over the table may remove the key
that it came to last. -/
def asked (w : World K V) (name : String) : Request K V → Option (Table.Request K V)
  | .table other request => if other = name then some request else none
  | .onWalk walk .remove =>
    (w.walks.find walk).bind fun walked =>
      if w.tableNames.find name = some walked.table then walked.walk.last.map .removeKey else none
  | _ => none

/-- Another bound is asked of a table under its name only. -/
theorem eq_of_asked_setBound {limit : Option Nat}
    (hasked : w.asked name request = some (.setBound limit)) :
    request = .table name (.setBound limit) := by
  cases request with
  | table other request =>
    obtain ⟨rfl, rfl⟩ : other = name ∧ request = .setBound limit := by
      simpa [asked] using hasked
    rfl
  | onWalk walk request =>
    cases request with
    | remove =>
      obtain ⟨walked, -, hremove⟩ := Option.bind_eq_some_iff.mp hasked
      by_cases hname : w.tableNames.find name = some walked.table
      · rw [if_pos hname] at hremove
        -- A walk asks for the removal of a key.
        obtain ⟨key, -, heq⟩ := Option.map_eq_some_iff.mp hremove
        cases heq
      · rw [if_neg hname] at hremove
        cases hremove
    | next | rest | remaining | literal => cases hasked
  | _ => cases hasked

/-- How many payloads of the reclaimer of a number a request may clear in a pass. -/
def passed (w : World K V) (number : Nat) : Request K V → Nat
  | .reclaimer other (.clear limit) => if w.reclaimerOf other = some number then limit else 0
  | .reclaimer other .clearAll =>
    if w.reclaimerOf other = some number then (w.reclaimer number).tracked else 0
  | _ => 0

/-- A key is struck from the table of a name if a slot of it holds a payload that the request clears
in a pass. -/
def Strikes (w : World K V) (name : String) (request : Request K V) (key : Option K) : Prop :=
  ∃ number placed, w.tableNames.find name = some number ∧ w.tables.find number = some placed ∧
    placed.table.Struck (w.reclaimer placed.reclaimer) (w.passed placed.reclaimer request) key

/-- What is struck from the table of a name is known from the table. -/
theorem strikes_iff (hnumber : w.tableNames.find name = some number)
    (hplaced : w.tables.find number = some placed) {key : Option K} :
    w.Strikes name request key ↔ placed.table.Struck (w.reclaimer placed.reclaimer)
      (w.passed placed.reclaimer request) key := by
  constructor
  · rintro ⟨number', placed', hnumber', hplaced', hstruck⟩
    cases hnumber.symm.trans hnumber'
    cases hplaced.symm.trans hplaced'
    exact hstruck
  · exact fun hstruck => ⟨number, placed, hnumber, hplaced, hstruck⟩

/-- A pass over no payloads strikes nothing. -/
theorem not_strikes (hnumber : w.tableNames.find name = some number)
    (hplaced : w.tables.find number = some placed)
    (hzero : w.passed placed.reclaimer request = 0) (key : Option K) :
    ¬w.Strikes name request key := by
  rw [strikes_iff hnumber hplaced, hzero]
  rintro ⟨s, -, -, payload, -, htake⟩
  rw [List.take_zero] at htake
  cases htake

/-! ## Requests that ask nothing of a table -/

/-- The table of a name stays as it is, the place of its cursor apart. -/
def KeepsSlots (w w' : World K V) (name : String) : Prop :=
  ∀ number placed, w.tableNames.find name = some number → w.tables.find number = some placed →
    w'.tableNames.find name = some number ∧ ∃ cursor,
      w'.tables.find number = some { placed with table := { placed.table with cursor } }

/-- A table that is kept keeps its slots. -/
theorem KeepsTable.slots (h : w.KeepsTable w' name) : w.KeepsSlots w' name := by
  intro number placed hnumber hplaced
  obtain ⟨hnumber', hplaced'⟩ := h number placed hnumber hplaced
  exact ⟨hnumber', placed.table.cursor, hplaced'⟩

/-- Only the tables and their names matter. -/
theorem KeepsSlots.of_eq (hnames : w'.tableNames = w.tableNames) (htables : w'.tables = w.tables) :
    w.KeepsSlots w' name :=
  (KeepsTable.of_eq (by rw [hnames]) htables).slots

/-- Another table is worked on. -/
theorem KeepsSlots.of_ne (hnames : w'.tableNames = w.tableNames) {other : Nat}
    {worked : PlacedTable K V} (htables : w'.tables = w.tables.modify other worked)
    (hne : w.tableNames.find name ≠ some other) : w.KeepsSlots w' name := by
  intro number placed hnumber hplaced
  have hdiffer : other ≠ number := by
    rintro rfl
    exact hne hnumber
  refine ⟨by rw [hnames, hnumber], placed.table.cursor, ?_⟩
  rw [htables, Directory.find_modify, if_neg hdiffer, hplaced]

/-- Only the cursor of a table moves. -/
theorem KeepsSlots.of_cursor (hnames : w'.tableNames = w.tableNames) {other : Nat}
    {moved : PlacedTable K V} (found : w.tables.find other = some moved) (cursor : Cursor)
    (htables : w'.tables =
      w.tables.modify other { moved with table := { moved.table with cursor } }) :
    w.KeepsSlots w' name := by
  by_cases hne : w.tableNames.find name = some other
  · intro number placed hnumber hplaced
    cases hne.symm.trans hnumber
    cases found.symm.trans hplaced
    refine ⟨by rw [hnames, hnumber], cursor, ?_⟩
    rw [htables, Directory.find_modify, if_pos rfl, hplaced]
    rfl
  · exact .of_ne hnames htables hne

/-- A table that keeps its slots and is kept afterwards keeps its slots. -/
theorem KeepsSlots.andKeepsTable {w'' : World K V} (h : w.KeepsSlots w' name)
    (h' : w'.KeepsTable w'' name) : w.KeepsSlots w'' name := by
  intro number placed hnumber hplaced
  obtain ⟨hnumber', cursor, hplaced'⟩ := h number placed hnumber hplaced
  obtain ⟨hnumber'', hplaced''⟩ := h' number _ hnumber' hplaced'
  exact ⟨hnumber'', cursor, hplaced''⟩

/-- A request to a reclaimer is a pass of a reclaimer over the payloads that it may clear, or leaves
them alone. -/
theorem reclaimer_overReclaimer (index : number < w.reclaimers.length)
    (orderly : (w.reclaimer number).Orderly) (other : String) (asking : Reclaimer.Request) :
    ∃ limit, (w.reclaimer number).live.take limit =
        (w.reclaimer number).live.take (w.passed number (.reclaimer other asking)) ∧
      ((w.overReclaimer other asking).world.reclaimer number = (w.reclaimer number).clear limit ∨
        limit = 0 ∧
          (w.overReclaimer other asking).world.reclaimer number =
            (w.reclaimer number).compact) := by
  by_cases howner : w.reclaimerOf other = some number
  · rw [overReclaimer, howner]
    cases asking with
    | clear limit =>
      rw [passed, if_pos howner]
      exact ⟨limit, rfl, .inl (reclaimer_setReclaimer_self index _)⟩
    | clearAll =>
      rw [passed, if_pos howner]
      refine ⟨(w.reclaimer number).registry.length, ?_, .inl (reclaimer_setReclaimer_self index _)⟩
      -- There are at least as many handles as live payloads.
      rw [List.take_of_length_le orderly.live_sublist.length_le,
        List.take_of_length_le orderly.tracked_eq.ge]
    | tracked => exact ⟨0, rfl, .inr ⟨rfl, reclaimer_setReclaimer_self index _⟩⟩
    | epoch | budget | literal => exact ⟨0, rfl, .inl (Reclaimer.clear_zero _).symm⟩
  · have hpassed : w.passed number (.reclaimer other asking) = 0 := by
      cases asking <;> simp [passed, howner]
    rw [hpassed]
    refine ⟨0, rfl, .inl ?_⟩
    rw [Reclaimer.clear_zero]
    unfold overReclaimer
    split
    · rfl
    · next owner found =>
      have hne : owner ≠ number := by
        rintro rfl
        exact howner found
      cases asking with
      | clear | clearAll | tracked => exact reclaimer_setReclaimer_of_ne hne _
      | epoch | budget | literal => rfl

variable [DecidableEq K] [Hashed K]

/-! ## Tables in use -/

/-- A table in a world that is to its users what is said. -/
structure PlacedTable.Portrays (placed : PlacedTable K V) (w : World K V) (keys values : Strength)
    (p : PlainTable K V) : Prop where
  /-- How keys are held. -/
  keys : placed.table.config.keyStrength = keys
  /-- How values are held. -/
  values : placed.table.config.valueStrength = values
  /-- What is in the table. -/
  models : placed.table.Models (w.reclaimer placed.reclaimer) p.map
  /-- How many slots are stale. -/
  unseen : (placed.table.stale (w.reclaimer placed.reclaimer)).length = p.unseen

/-- The table of the name is to its users what is said. -/
def Portrays (w : World K V) (name : String) (keys values : Strength) (p : PlainTable K V) : Prop :=
  ∃ number placed, w.tableNames.find name = some number ∧ w.tables.find number = some placed ∧
    placed.Portrays w keys values p

omit [DecidableEq K] [Hashed K] in
/-- Work on a table changes no name. -/
theorem tableNames_overTable (w : World K V) (number : Nat)
    (work : Table K V → Reclaimer → Step (Table K V) (SoftCache.Notice K V) (Reply K V)) :
    (w.overTable number work).world.tableNames = w.tableNames := by
  unfold overTable
  split <;> rfl

/-- Work on a table that does what a request asks of it is answered as the map answers. -/
theorem PlacedTable.Portrays.serves [DecidableEq V] (h : placed.Portrays w keys values p)
    (index : placed.reclaimer < w.reclaimers.length) (found : w.tables.find number = some placed)
    {asking : Table.Request K V} (unbounded : ∀ limit, asking ≠ .setBound limit)
    (work : Table K V → Reclaimer → Step (Table K V) (SoftCache.Notice K V) (Reply K V))
    (same : work placed.table (w.reclaimer placed.reclaimer) =
      placed.table.perform (w.reclaimer placed.reclaimer) asking) :
    ∃ placed' p', (w.overTable number work).world.tables.find number = some placed' ∧
      placed'.Portrays (w.overTable number work).world keys values p' ∧
      p.Serves keys values asking (w.overTable number work).reply p' := by
  set r := w.reclaimer placed.reclaimer
  set done := placed.table.perform r asking
  obtain ⟨m', hanswers, hrenders⟩ := h.models.answers_perform asking unbounded
  rw [h.keys, h.values] at hanswers
  have hworks := works_overTable found index work
  rw [same] at hworks
  refine ⟨{ placed with table := done.state }, ⟨m', (done.state.stale done.reclaimer).length⟩, ?_,
    ⟨?_, ?_, ?_, ?_⟩, ?_, ?_, ?_⟩
  · exact hworks.found
  · exact (congrArg Table.Config.keyStrength hrenders.config).trans h.keys
  · exact (congrArg Table.Config.valueStrength hrenders.config).trans h.values
  · rw [hworks.reclaimer]
    exact hrenders.models
  · rw [hworks.reclaimer]
  · rw [hworks.reply]
    exact hanswers
  · exact hrenders.stale_le.trans_eq h.unseen
  · rintro rfl
    -- The sweep finds what was stale and leaves nothing stale.
    rw [hworks.reply, ← h.unseen, ← h.models.sound.result_removeExpired]
    exact ⟨rfl, congrArg List.length (h.models.sound.stale_removeExpired h.models.issued)⟩

/-! ## One request -/

variable [Ordered K] [Literal K] [DecidableEq V] [Literal V]

/-- What comes of a request that asks nothing of a table leaves its slots alone. -/
theorem keepsSlots_of_effect (h : w.Sound) (named : w.Named) {notices : List (Notice K V)}
    (effect : w.Effect request w' notices) (spared : request.spares name)
    (unasked : w.asked name request = none) : w.KeepsSlots w' name := by
  cases hworks : request.works with
  | false => exact (keeps_of_effect h effect spared hworks).1.table.slots
  | true =>
    cases effect with
    | @table other asking _ _ _ hnumber =>
      have hother : other ≠ name := by
        intro hsame
        rw [asked, if_pos hsame] at unasked
        cases unasked
      -- Another name leads to another table.
      exact .of_ne rfl rfl fun hname => hother (named.apart other name _ hnumber hname)
    | @randomWalk _ newName number placed _ _ found hdrawn =>
      subst hdrawn
      have hdrawn : w.KeepsSlots
          { w with tables := w.tables.modify number { placed with
            table := (placed.table.randomEntries (w.reclaimer placed.reclaimer)).state } }
          name := .of_cursor rfl found placed.table.cursor.advance rfl
      exact hdrawn.andKeepsTable (keeps_addWalk _ name newName _ .entries _).table
    | @remove _ walked placed _ hwalked found hdone =>
      by_cases hne : w.tableNames.find name = some walked.table
      · subst hdone
        -- The walk has come to nothing, or has removed that already.
        have hlast : walked.walk.last = none := by
          simpa [asked, hwalked, hne] using unasked
        refine .of_cursor rfl found placed.table.cursor ?_
        simp only [Walk.remove, hlast]
        rfl
      · exact .of_ne rfl rfl hne
    | nothing | cache | recorder | goOn => exact .of_eq rfl rfl
    | newReclaimer | newTable | newCache | copy | drop | reclaimer | walk => cases hworks

/-- What is not asked of a table leaves its slots alone. -/
theorem keepsSlots_perform (h : w.Sound) (named : w.Named) (spared : request.spares name)
    (unasked : w.asked name request = none) :
    w.KeepsSlots (w.perform request).world name :=
  keepsSlots_of_effect h named (w.effect_perform request) spared unasked

/-- What is asked of a table is answered as the map answers it. -/
theorem serves_perform (h : w.Sound) (portrays : w.Portrays name keys values p)
    {asking : Table.Request K V} (hasked : w.asked name request = some asking)
    (unbounded : ∀ limit, asking ≠ .setBound limit) :
    ∃ p', p.Serves keys values asking (w.perform request).reply p' ∧
      (w.perform request).world.Portrays name keys values p' := by
  obtain ⟨number, placed, hnumber, found, hplaced⟩ := portrays
  have hindex := (h.tables _ (Directory.mem_of_find found)).index
  cases request with
  | table other request =>
    obtain ⟨rfl, rfl⟩ : other = name ∧ request = asking := by
      simpa [asked] using hasked
    obtain ⟨placed', p', hfound, hplaced', hserves⟩ :=
      hplaced.serves hindex found unbounded (fun t r => t.perform r request) rfl
    rw [perform_table hnumber]
    refine ⟨p', hserves, number, placed', ?_, hfound, hplaced'⟩
    rw [tableNames_overTable]
    exact hnumber
  | onWalk walk request =>
    cases request with
    | remove =>
      -- The walk removes the key that it came to last, as if it were asked to under the name.
      obtain ⟨walked, hwalk, hremove⟩ := Option.bind_eq_some_iff.mp hasked
      rw [hnumber] at hremove
      by_cases hsame : some number = some walked.table
      · rw [if_pos hsame] at hremove
        cases hsame
        obtain ⟨key, hlast, rfl⟩ := Option.map_eq_some_iff.mp hremove
        obtain ⟨placed', p', hfound, hplaced', hserves⟩ :=
          hplaced.serves hindex found unbounded (fun t r => (walked.walk.remove t r).1.map .flag)
            (by rw [Walk.remove, hlast]; rfl)
        rw [World.perform, overWalk, hwalk]
        refine ⟨p', hserves, walked.table, placed', ?_, hfound, ?_⟩
        · exact (congrArg (·.find name) (tableNames_overTable w _ _)).trans hnumber
        · exact ⟨hplaced'.keys, hplaced'.values, hplaced'.models, hplaced'.unseen⟩
      · rw [if_neg hsame] at hremove
        cases hremove
    | next | rest | remaining | literal => cases hasked
  | _ => cases hasked

/-- In an epoch that lasts, requests that are no passes leave the slots of a table that keeps them
as live as they are. -/
theorem isStale_perform (h : w.Sound) (hpass : ∀ other passing, request ≠ .reclaimer other passing)
    (found : w.tables.find number = some placed)
    (quiet : ((w.perform request).world.reclaimer placed.reclaimer).epoch =
      (w.reclaimer placed.reclaimer).epoch) {placed' : PlacedTable K V}
    (found' : (w.perform request).world.tables.find number = some placed')
    (hreclaimer : placed'.reclaimer = placed.reclaimer)
    (hbuckets : placed'.table.buckets = placed.table.buckets) {s : Slot K V}
    (hs : s ∈ placed.table.buckets.slots) :
    s.isStale ((w.perform request).world.reclaimer placed.reclaimer) =
      s.isStale (w.reclaimer placed.reclaimer) := by
  have hindex := (h.tables _ (Directory.mem_of_find found)).index
  have hand := (h.advances request hpass).hands.handover placed.reclaimer hindex
  refine Slot.isStale_congr fun payload hp => hand.mem_live_iff quiet ?_ fun _ => ?_
  · exact (h.issued_table found).lt_next payload (Table.mem_payloads hs hp)
  · -- The table keeps its slots, so what they hold stays in custody.
    rw [← hreclaimer]
    refine mem_custody_of_table (Directory.mem_of_find found') ?_
    rw [← hbuckets] at hs
    exact Table.mem_payloads hs hp

/-- Requests that ask nothing of a table and are no passes leave what it is to its users. -/
theorem portrays_perform (h : w.Sound) (named : w.Named) (spared : request.spares name)
    (portrays : w.Portrays name keys values p) (unasked : w.asked name request = none)
    (hpass : ∀ other passing, request ≠ .reclaimer other passing) :
    (w.perform request).world.Portrays name keys values p := by
  obtain ⟨number, placed, hnumber, found, hplaced⟩ := portrays
  obtain ⟨hnumber', cursor, found'⟩ :=
    keepsSlots_perform h named spared unasked number placed hnumber found
  have hbudget := hplaced.models.budget
  have hindex := (h.tables _ (Directory.mem_of_find found)).index
  have hand := (h.advances request hpass).hands.handover placed.reclaimer hindex
  have hbudget' := hand.precedes.budget.trans hbudget
  have hsound' := (h.perform request).tables _ (Directory.mem_of_find found')
  set r' := (w.perform request).world.reclaimer placed.reclaimer
  -- The table has its slots still, and they are as live as before.
  have hstale : ∀ s ∈ placed.table.buckets.slots,
      s.isStale r' = s.isStale (w.reclaimer placed.reclaimer) := fun s hs =>
    isStale_perform h hpass found (hand.quiet (.inl hbudget)) found' rfl rfl hs
  have hentries : Table.entries { placed.table with cursor } r' =
      placed.table.entries (w.reclaimer placed.reclaimer) :=
    Table.entries_congr rfl hstale
  refine ⟨number, _, hnumber', found', hplaced.keys, hplaced.values, ?_, ?_⟩
  · refine ⟨hsound'.table, (h.perform request).issued_table found', hsound'.swept, hbudget',
      hplaced.models.bound, ?_, hplaced.models.admitted⟩
    show p.map.Lists (Table.entries { placed.table with cursor } r')
    rw [hentries]
    exact hplaced.models.lists
  · rw [← hplaced.unseen]
    exact congrArg List.length (List.filter_congr hstale)

/-- What is not asked of a table takes from it just what a pass clears. -/
theorem loses_perform (h : w.Sound) (named : w.Named) (spared : request.spares name)
    (portrays : w.Portrays name keys values p) (unasked : w.asked name request = none) :
    ∃ p', p.Loses (w.Strikes name request) p' ∧
      (w.perform request).world.Portrays name keys values p' := by
  by_cases hpass : ∀ other passing, request ≠ .reclaimer other passing
  · refine ⟨p, .nothing p ?_, portrays_perform h named spared portrays unasked hpass⟩
    obtain ⟨number, placed, hnumber, found, -⟩ := portrays
    refine not_strikes hnumber found ?_
    cases request with
    | reclaimer other passing => exact absurd rfl (hpass other passing)
    | _ => rfl
  · push Not at hpass
    obtain ⟨other, passing, rfl⟩ := hpass
    obtain ⟨number, placed, hnumber, found, hplaced⟩ := portrays
    obtain ⟨hnumber', found'⟩ := (keeps_perform h spared rfl).1.table number placed hnumber found
    have hindex := (h.tables _ (Directory.mem_of_find found)).index
    -- Only a pass of the reclaimer of the table clears something here.
    obtain ⟨limit, hlimit, hpasses⟩ :=
      reclaimer_overReclaimer hindex hplaced.models.issued.toOrderly other passing
    obtain ⟨m', hlookup, hmodels, hsum⟩ := hplaced.models.overReclaimer hpasses
    refine ⟨⟨m', _⟩, ⟨fun key value => ?_, ?_⟩, number, placed, hnumber', found',
      hplaced.keys, hplaced.values, hmodels, rfl⟩
    · rw [strikes_iff hnumber found, Table.Struck, ← hlimit]
      exact hlookup key value
    · rw [← hplaced.unseen]
      exact hsum

/-! ## All requests -/

/-- A plain table that is followed while requests are carried out in a world. It is what the table
of the name is to its users before each request and after the last, and each request is answered as
the map answers it or takes from the map what a pass clears. -/
inductive Refines (name : String) (keys values : Strength) :
    World K V → PlainTable K V → List (Request K V) → Prop
  /-- There are no more requests. -/
  | done {w : World K V} {p : PlainTable K V} :
    w.Portrays name keys values p → Refines name keys values w p []
  /-- The table is asked for something. -/
  | asked {w : World K V} {p p' : PlainTable K V} {request : Request K V}
    {asking : Table.Request K V} {rest : List (Request K V)} :
    w.Portrays name keys values p → w.asked name request = some asking →
      p.Serves keys values asking (w.perform request).reply p' →
      Refines name keys values (w.perform request).world p' rest →
      Refines name keys values w p (request :: rest)
  /-- Something else is done. -/
  | unasked {w : World K V} {p p' : PlainTable K V} {request : Request K V}
    {rest : List (Request K V)} :
    w.Portrays name keys values p → w.asked name request = none →
      p.Loses (w.Strikes name request) p' →
      Refines name keys values (w.perform request).world p' rest →
      Refines name keys values w p (request :: rest)

/-- Requests that leave the name to its table, and the table without a bound, are those of a plain
table. -/
theorem refines_requests (h : w.Sound) (named : w.Named) {requests : List (Request K V)}
    (spared : ∀ request ∈ requests, request.spares name)
    (unbounded : ∀ request ∈ requests, ∀ limit, request ≠ .table name (.setBound limit))
    (portrays : w.Portrays name keys values p) : Refines name keys values w p requests := by
  -- By induction on the requests, each of which leaves a plain table to go on with.
  induction requests generalizing w p with
  | nil => exact .done portrays
  | cons request rest ih =>
    have hspared := spared request List.mem_cons_self
    have hrest : ∀ p', (w.perform request).world.Portrays name keys values p' →
        Refines name keys values (w.perform request).world p' rest := fun p' =>
      ih (h.perform request) (named.perform request)
        (fun other hother => spared other (List.mem_cons_of_mem _ hother))
        (fun other hother => unbounded other (List.mem_cons_of_mem _ hother))
    rcases hasked : w.asked name request with _ | asking
    · obtain ⟨p', hloses, hportrays⟩ := loses_perform h named hspared portrays hasked
      exact .unasked portrays hasked hloses (hrest p' hportrays)
    · have hbound : ∀ limit, asking ≠ .setBound limit := by
        rintro limit rfl
        exact unbounded request List.mem_cons_self limit (eq_of_asked_setBound hasked)
      obtain ⟨p', hserves, hportrays⟩ := serves_perform h portrays hasked hbound
      exact .asked portrays hasked hserves (hrest p' hportrays)

omit [DecidableEq K] [Hashed K] [Ordered K] [Literal K] [DecidableEq V] [Literal V] in
/-- A table that is brought in has its name. -/
theorem found_addTable (w : World K V) (name : String) (placed : PlacedTable K V) :
    (w.addTable name placed).tableNames.find name = some w.nextTable ∧
      (w.addTable name placed).tables.find w.nextTable = some placed := by
  have hname : (w.enterTable name placed).tableNames.find name = some w.nextTable := by
    rw [find_tableNames_enterTable, if_pos rfl]
  have htable : (w.enterTable name placed).tables.find w.nextTable = some placed := by
    rw [find_tables_enterTable, if_pos rfl]
  obtain ⟨hname', htable'⟩ := (keeps_collect (w.enterTable name placed) name).table _ _ hname htable
  -- A cache that had the name goes, and no table with it.
  obtain ⟨reclaimers, -, heq⟩ := (w.enterTable name placed).collect.removeCache_eq name
  rw [addTable_eq, heq]
  exact ⟨hname', htable'⟩

omit [DecidableEq K] [Hashed K] [Ordered K] [Literal K] [DecidableEq V] [Literal V] in
/-- The reclaimer that is provided has no budget if the one of the name has none. -/
theorem budget_of_provide {reclaimer : Option String}
    (unlimited : ∀ other ∈ reclaimer, ∀ number ∈ w.reclaimerOf other,
      (w.reclaimer number).budget = none)
    (hprovide : w.provide reclaimer = some (w', number)) :
    (w'.reclaimer number).budget = none := by
  cases reclaimer with
  | none =>
    cases hprovide
    rw [reclaimer_addReclaimer]
    rfl
  | some other =>
    obtain ⟨number', hnumber, heq⟩ := Option.map_eq_some_iff.mp hprovide
    cases heq
    exact unlimited other rfl number hnumber

omit [Ordered K] [Literal K] [DecidableEq V] [Literal V] in
/-- A table that was just made is empty to its users. -/
theorem portrays_addTable (h : w.Sound) (index : number < w.reclaimers.length)
    (hbudget : (w.reclaimer number).budget = none) {options : Table.Options} {table : Table K V}
    (hmade : Table.create w.shared options (w.reclaimer number).epoch = .ok table)
    (hbound : options.bound = none) (name : String) (listener : Option String) :
    (w.addTable name ⟨table, number, listener⟩).Portrays name options.keyStrength
      options.valueStrength ⟨∅, 0⟩ := by
  have hadded := h.placeTable index hmade name listener
  obtain ⟨hname, found⟩ := w.found_addTable name ⟨table, number, listener⟩
  have hplaced := hadded.sound.tables _ (Directory.mem_of_find found)
  have hissued := hadded.sound.issued_table found
  -- The budget of the reclaimer does not change when the table is brought in.
  have hbudget' := (hadded.hands.handover number index).precedes.budget.trans hbudget
  obtain ⟨loadFactor, cursor, rfl⟩ := Table.create_eq hmade
  have hslots : (Table.empty (K := K) (V := V) ⟨options.keyStrength, options.valueStrength,
      loadFactor, options.order⟩ options.capacity options.bound cursor
      (w.reclaimer number).epoch).buckets.slots = [] := Buckets.slots_empty _
  refine ⟨_, _, hname, found, rfl, rfl, ?_, ?_⟩
  · refine ⟨hplaced.table, hissued, hplaced.swept, hbudget', hbound, ?_, ?_⟩
    · rw [Table.entries_eq_map_content]
      dsimp only
      rw [hslots]
      exact .empty
    · intro key value hvalue
      rw [Finmap.lookup_empty] at hvalue
      cases hvalue
  · unfold Table.stale
    dsimp only
    rw [hslots]
    rfl

/-- A table that is made without a bound, and with a reclaimer without a budget that anything else
may share, is a plain table that is empty at first. -/
theorem Reachable.refines (h : w.Reachable) {making : Making Table.Options}
    (hbound : making.options.bound = none)
    (unlimited : ∀ other ∈ making.reclaimer, ∀ number ∈ w.reclaimerOf other,
      (w.reclaimer number).budget = none)
    (made : (w.perform (.newTable name making)).reply = .done) {requests : List (Request K V)}
    (spared : ∀ request ∈ requests, request.spares name)
    (unbounded : ∀ request ∈ requests, ∀ limit, request ≠ .table name (.setBound limit)) :
    Refines name making.options.keyStrength making.options.valueStrength
      (w.perform (.newTable name making)).world ⟨∅, 0⟩ requests := by
  have hworld := h.perform (.newTable name making)
  refine refines_requests hworld.sound hworld.named spared unbounded ?_
  obtain ⟨-, ⟨-, hreply⟩ | ⟨provided, number, table, hprovide, hmade, heq⟩⟩ :=
    w.make_cases making (Table.create w.shared) fun w number table =>
      w.addTable name ⟨table, number, if making.listened then some name else none⟩
  · exact absurd made hreply
  · obtain ⟨hprovided, hindex⟩ := h.sound.provide hprovide
    obtain ⟨reclaimers, rfl⟩ := provide_eq hprovide
    rw [World.perform, makeTable, heq]
    exact portrays_addTable hprovided.sound hindex (budget_of_provide unlimited hprovide) hmade
      hbound
      name _

/-- A world with a reclaimer that a cache has as well. -/
def sharing : World Clustered String :=
  run {}
    [.newReclaimer "r" none,
      .newCache "c" { options := { size := 1, softSize := 1 }, reclaimer := some "r" }]

/-- A table whose values the reclaimer of the cache can reclaim. -/
def sharedMaking : Making Table.Options :=
  { options := { valueStrength := .reclaimable }, reclaimer := some "r" }

/-- Requests under which keys collide, a value is reclaimed, and entries are removed by a walk and
at random. -/
def sharedRequests : List (Request Clustered String) :=
  [.table "t" (.put (some ⟨1⟩) (some "a")), .table "t" (.put (some ⟨5⟩) (some "b")),
    .table "t" (.put none (some "c")), .table "t" (.put (some ⟨1⟩) (some "d")),
    .table "t" (.put (some ⟨9⟩) none), .reclaimer "c" (.clear 1), .table "t" (.get (some ⟨1⟩)),
    .table "t" .removeExpired, .walk "t" .keys "w", .onWalk "w" .next, .onWalk "w" .remove,
    .table "t" .length, .table "t" .removeRandom, .table "t" .removeRandom]

/-- The table answers these requests as a plain table. -/
theorem refines_sharedRequests :
    ((sharing.perform (.newTable "t" sharedMaking)).world.outcomes sharedRequests).map (·.reply) =
        [.value none, .value none, .value none, .value (some "a"),
          .refused TableError.nullValue.report, .count 1, .value (some "d"), .count 1, .count 2,
          .items [.key none], .flag true, .count 1, .item (some (.entry (some ⟨1⟩, some "d"))),
          .item none] ∧
      Refines "t" .strong .reclaimable (sharing.perform (.newTable "t" sharedMaking)).world ⟨∅, 0⟩
        sharedRequests := by
  refine ⟨by decide +kernel, ?_⟩
  have hreachable : sharing.Reachable := ⟨_, _, rfl⟩
  have hmade : (sharing.perform (.newTable "t" sharedMaking)).reply = .done := by decide +kernel
  refine hreachable.refines rfl (by decide +kernel) hmade ?_ ?_
  · simp [sharedRequests, Request.spares]
  · simp [sharedRequests]

end World

end SoftCache
