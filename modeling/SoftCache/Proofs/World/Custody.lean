import SoftCache.Proofs.Cache.Tiers
import SoftCache.Proofs.Directory
import SoftCache.World.Basic

/-!
# Custody in a world

A reclaimer may serve many tables and caches. What it has in custody are the payloads of all of
them. `World.Hands` says that each reclaimer hands its custody over from one world to another. Work
on one table or cache does so since it is nothing to the others (`World.hands_of_share`), and so
does letting go of what nothing refers to (`World.hands_collect`, `World.hands_removeCache`).
-/

open scoped List

namespace SoftCache.World

variable {K V : Type} {w w' w'' : World K V}

/-! ## Reclaimers by number -/

/-- The reclaimer of a number that was set is the one that was given. -/
theorem reclaimer_set_self {reclaimers : List Reclaimer} {number : Nat}
    (index : number < w.reclaimers.length) {r : Reclaimer}
    (hset : reclaimers = w.reclaimers.set number r) :
    reclaimers.getD number (.ofBudget none) = r := by
  rw [hset, List.getD_eq_getElem?_getD, List.getElem?_set_self (by simpa using index)]
  rfl

/-- The reclaimers of other numbers are as they were. -/
theorem reclaimer_set_of_ne {reclaimers : List Reclaimer} {number other : Nat}
    (hne : number ≠ other) {r : Reclaimer} (hset : reclaimers = w.reclaimers.set number r) :
    reclaimers.getD other (.ofBudget none) = w.reclaimer other := by
  rw [hset, reclaimer, List.getD_eq_getElem?_getD, List.getD_eq_getElem?_getD,
    List.getElem?_set_ne hne]

/-- A reclaimer that was set is there. -/
theorem reclaimer_setReclaimer_self {number : Nat} (index : number < w.reclaimers.length)
    (r : Reclaimer) : (w.setReclaimer number r).reclaimer number = r :=
  reclaimer_set_self index rfl

/-- Setting a reclaimer to what it is changes nothing. -/
theorem setReclaimer_of_eq {number : Nat} {r : Reclaimer} (same : w.reclaimer number = r) :
    w.setReclaimer number r = w := by
  by_cases index : number < w.reclaimers.length
  · rw [← same, setReclaimer, reclaimer, List.getD_eq_getElem?_getD,
      List.getElem?_eq_getElem index, Option.getD_some, List.set_getElem_self]
  · rw [setReclaimer, List.set_eq_of_length_le (Nat.le_of_not_lt index)]

/-- Setting a reclaimer changes no other. -/
theorem reclaimer_setReclaimer_of_ne {number other : Nat} (hne : number ≠ other) (r : Reclaimer) :
    (w.setReclaimer number r).reclaimer other = w.reclaimer other :=
  reclaimer_set_of_ne hne rfl

/-- A reclaimer that is brought in has the next number. -/
theorem reclaimer_addReclaimer (w : World K V) (r : Reclaimer) :
    (w.addReclaimer r).reclaimer w.reclaimers.length = r := by
  rw [reclaimer, addReclaimer, List.getD_eq_getElem?_getD, List.getElem?_append_right le_rfl,
    Nat.sub_self]
  rfl

/-- The reclaimers that were there keep their numbers when another is brought in. -/
theorem reclaimer_of_append {w' : World K V} {r : Reclaimer} {number : Nat}
    (added : w'.reclaimers = w.reclaimers ++ [r]) (there : number < w.reclaimers.length) :
    w'.reclaimer number = w.reclaimer number := by
  rw [reclaimer, reclaimer, added, List.getD_eq_getElem?_getD, List.getElem?_append_left there,
    List.getD_eq_getElem?_getD]

/-- A reclaimer was there, or it is the one that is brought in. -/
theorem lt_or_eq_of_addReclaimer {r : Reclaimer} {number : Nat}
    (there : number < (w.addReclaimer r).reclaimers.length) :
    number < w.reclaimers.length ∨ number = w.reclaimers.length := by
  rw [addReclaimer, List.length_append, List.length_singleton] at there
  omega

/-! ## Custody -/

/-- Payloads as one reclaimer sees them: all of them if it is theirs, and none otherwise. -/
def share (owner : Nat) (payloads : List Nat) (number : Nat) : List Nat :=
  if owner = number then payloads else []

/-- The share of an owner are its own payloads. -/
@[simp] theorem share_self (owner : Nat) (payloads : List Nat) :
    share owner payloads owner = payloads :=
  if_pos rfl

/-- What a table has of the payloads of a reclaimer. -/
def tableShare (number : Nat) (entry : Nat × PlacedTable K V) : List Nat :=
  share entry.2.reclaimer entry.2.table.payloads number

/-- What a cache has of the payloads of a reclaimer. -/
def cacheShare (number : Nat) (entry : String × PlacedCache K V) : List Nat :=
  share entry.2.reclaimer entry.2.cache.payloads number

/-- The payloads of a reclaimer that tables and caches hold. -/
def custody (w : World K V) (number : Nat) : List Nat :=
  w.tables.flatMap (tableShare number) ++ w.caches.flatMap (cacheShare number)

/-- The payloads of a table are in custody of its reclaimer. -/
theorem mem_custody_of_table {entry : Nat × PlacedTable K V} (h : entry ∈ w.tables) {payload : Nat}
    (hp : payload ∈ entry.2.table.payloads) : payload ∈ w.custody entry.2.reclaimer := by
  refine List.mem_append_left _ (List.mem_flatMap.mpr ⟨entry, h, ?_⟩)
  rwa [tableShare, share_self]

/-- The payloads of a cache are in custody of its reclaimer. -/
theorem mem_custody_of_cache {entry : String × PlacedCache K V} (h : entry ∈ w.caches)
    {payload : Nat} (hp : payload ∈ entry.2.cache.payloads) :
    payload ∈ w.custody entry.2.reclaimer := by
  refine List.mem_append_right _ (List.mem_flatMap.mpr ⟨entry, h, ?_⟩)
  rwa [cacheShare, share_self]

/-- Each reclaimer of a world hands over what it has in custody. -/
structure Hands (w w' : World K V) : Prop where
  /-- Reclaimers stay. -/
  length_le : w.reclaimers.length ≤ w'.reclaimers.length
  /-- What is in custody is handed over. -/
  handover : ∀ number < w.reclaimers.length,
    Handover (w.reclaimer number) (w'.reclaimer number) (w.custody number) (w'.custody number)

/-- What is handed over twice is handed over. -/
theorem Hands.trans (h : w.Hands w') (h' : w'.Hands w'') : w.Hands w'' where
  length_le := h.length_le.trans h'.length_le
  handover number index :=
    (h.handover number index).trans (h'.handover number (index.trans_le h.length_le))

/-- All payloads in custody have been issued. -/
def Issued (w : World K V) : Prop :=
  ∀ number < w.reclaimers.length, (w.reclaimer number).Issued (w.custody number)

/-- If nothing is done, then all stays in custody. -/
theorem hands_refl (issued : w.Issued) : w.Hands w :=
  ⟨le_rfl, fun number index => .refl (issued number index)⟩

/-- What one owner hands over is nothing to the others. -/
theorem hands_of_share (issued : w.Issued) {owner : Nat} (index : owner < w.reclaimers.length)
    {r : Reclaimer} {before after : List Nat} (rest : Nat → List Nat)
    (hset : w'.reclaimers = w.reclaimers.set owner r)
    (hbefore : ∀ number, w.custody number ~ share owner before number ++ rest number)
    (hafter : ∀ number, w'.custody number ~ share owner after number ++ rest number)
    (hand : Handover (w.reclaimer owner) r before after) : w.Hands w' := by
  refine ⟨by rw [hset, List.length_set], fun number hindex => ?_⟩
  by_cases howner : owner = number
  · subst howner
    have hb := hbefore owner
    have ha := hafter owner
    rw [share_self] at hb ha
    rw [show w'.reclaimer owner = r from reclaimer_set_self index hset]
    exact (hand.frame ((issued owner index).perm hb)).perm hb.symm ha.symm
  · have hb := hbefore number
    have ha := hafter number
    rw [share, if_neg howner, List.nil_append] at hb ha
    rw [show w'.reclaimer number = w.reclaimer number from reclaimer_set_of_ne howner hset]
    exact (Handover.refl (issued number hindex)).perm .rfl (hb.trans ha.symm)

/-! ## Letting go -/

/-- Lets tables go one after the other. -/
def dismissAll (w : World K V) (gone : Directory Nat (PlacedTable K V)) : World K V :=
  gone.foldl (fun w entry => w.dismiss entry.2.reclaimer entry.2.table.buckets.slots) w

/-- Letting tables go changes only reclaimers. -/
theorem dismissAll_eq (w : World K V) (gone : Directory Nat (PlacedTable K V)) :
    ∃ reclaimers, reclaimers.length = w.reclaimers.length ∧
      w.dismissAll gone = { w with reclaimers } := by
  induction gone generalizing w with
  | nil => exact ⟨w.reclaimers, rfl, rfl⟩
  | cons entry rest ih =>
    obtain ⟨reclaimers, hlength, heq⟩ :=
      ih (w.dismiss entry.2.reclaimer entry.2.table.buckets.slots)
    refine ⟨reclaimers, hlength.trans ?_, heq⟩
    exact List.length_set ..

/-- The payloads of tables that are let go are released. -/
theorem handover_dismissAll (gone : Directory Nat (PlacedTable K V)) (number : Nat)
    {held : List Nat} (index : ∀ entry ∈ gone, entry.2.reclaimer < w.reclaimers.length)
    (issued : (w.reclaimer number).Issued (held ++ gone.flatMap (tableShare number))) :
    Handover (w.reclaimer number) ((w.dismissAll gone).reclaimer number)
      (held ++ gone.flatMap (tableShare number)) held := by
  -- By induction on the tables that go, each of which releases what it holds to its own reclaimer.
  induction gone generalizing w with
  | nil =>
    rw [List.flatMap_nil, List.append_nil] at issued ⊢
    exact .refl issued
  | cons entry rest ih =>
    have hlength : (w.dismiss entry.2.reclaimer entry.2.table.buckets.slots).reclaimers.length =
        w.reclaimers.length := List.length_set ..
    have hrest := fun entry hentry => (index entry (List.mem_cons_of_mem _ hentry)).trans_eq
      hlength.symm
    have hfirst : Handover (w.reclaimer number)
        ((w.dismiss entry.2.reclaimer entry.2.table.buckets.slots).reclaimer number)
        (held ++ (entry :: rest).flatMap (tableShare number))
        (held ++ rest.flatMap (tableShare number)) := by
      rw [List.flatMap_cons] at issued ⊢
      by_cases howner : entry.2.reclaimer = number
      · subst howner
        rw [show (w.dismiss entry.2.reclaimer entry.2.table.buckets.slots).reclaimer _ = _ from
          reclaimer_set_self (index entry List.mem_cons_self) rfl]
        -- The table is one of this reclaimer.
        refine .release issued ?_
        rw [tableShare, share_self, List.append_assoc]
        exact List.perm_append_comm.append_left _
      · rw [show (w.dismiss entry.2.reclaimer entry.2.table.buckets.slots).reclaimer _ = _ from
          reclaimer_set_of_ne howner rfl]
        rw [tableShare, share, if_neg howner, List.nil_append] at issued ⊢
        exact .refl issued
    exact hfirst.trans (ih hrest hfirst.issued)

/-- What is left of the tables when those go that nothing refers to. -/
def leftTables (w : World K V) : Directory Nat (PlacedTable K V) :=
  w.tables.filter fun entry => w.referredTables.contains entry.1

/-- Letting go of the tables that nothing refers to changes tables and reclaimers. -/
theorem collect_eq (w : World K V) :
    ∃ reclaimers, reclaimers.length = w.reclaimers.length ∧
      w.collect = { w with tables := w.leftTables, reclaimers } :=
  dismissAll_eq { w with tables := w.leftTables }
    (w.tables.filter fun entry => !w.referredTables.contains entry.1)

/-- The payloads of the tables that nothing refers to are released. -/
theorem hands_collect (issued : w.Issued)
    (index : ∀ entry ∈ w.tables, entry.2.reclaimer < w.reclaimers.length) :
    w.Hands w.collect := by
  obtain ⟨reclaimers, hlength, heq⟩ := w.collect_eq
  refine ⟨by rw [heq]; exact hlength.ge, fun number hindex => ?_⟩
  set gone := w.tables.filter fun entry => !w.referredTables.contains entry.1 with hgone
  -- What is in custody is held by tables that stay or by tables that go.
  have hcustody : w.custody number ~
      custody { w with tables := w.leftTables } number ++ gone.flatMap (tableShare number) := by
    have htables := (List.filter_append_perm (fun entry : Nat × PlacedTable K V =>
      w.referredTables.contains entry.1) w.tables).flatMap_right (tableShare number)
    rw [List.flatMap_append, ← hgone] at htables
    rw [List.perm_iff_count] at htables ⊢
    intro payload
    have hcount := htables payload
    simp only [custody, leftTables, List.count_append] at hcount ⊢
    omega
  have hdismissed := handover_dismissAll (w := { w with tables := w.leftTables }) gone number
    (fun entry hentry => index entry (List.mem_filter.mp hentry).1)
    ((issued number hindex).perm hcustody)
  refine hdismissed.perm hcustody.symm (.of_eq ?_)
  rw [heq]
  rfl

/-- Letting go of a cache changes caches and reclaimers. -/
theorem removeCache_eq (w : World K V) (name : String) :
    ∃ reclaimers, reclaimers.length = w.reclaimers.length ∧
      w.removeCache name = { w with caches := w.caches.erase name, reclaimers } := by
  cases found : w.caches.find name with
  | none =>
    -- There is no cache, and nothing to erase.
    refine ⟨w.reclaimers, rfl, ?_⟩
    rw [removeCache, found, Directory.erase_eq_self (Directory.not_mem_of_find found)]
  | some placed =>
    rw [removeCache, found]
    exact ⟨_, List.length_set .., rfl⟩

/-- The tables that are left when one name is gone. -/
def tablesWithout (w : World K V) (name : String) : Directory Nat (PlacedTable K V) :=
  leftTables { w with tableNames := w.tableNames.erase name }

/-- Letting go of what has a name leaves the rest as it is, reclaimers apart. -/
theorem removeNamed_eq (w : World K V) (name : String) :
    ∃ reclaimers, reclaimers.length = w.reclaimers.length ∧
      w.removeNamed name =
        { w with
          tableNames := w.tableNames.erase name
          tables := w.tablesWithout name
          caches := w.caches.erase name
          reclaimers } := by
  obtain ⟨collected, hcollected, hcollect⟩ :=
    collect_eq { w with tableNames := w.tableNames.erase name }
  obtain ⟨removed, hremoved, hremove⟩ :=
    removeCache_eq { w with
      tableNames := w.tableNames.erase name
      tables := w.tablesWithout name
      reclaimers := collected } name
  refine ⟨removed, hremoved.trans hcollected, ?_⟩
  rw [removeNamed, hcollect]
  exact hremove

/-- The world with one more table under a name, beside what had it. -/
def enterTable (w : World K V) (name : String) (placed : PlacedTable K V) : World K V :=
  { w with
    tables := w.tables.set w.nextTable placed
    tableNames := w.tableNames.set name w.nextTable
    nextTable := w.nextTable + 1 }

/-- A table is brought in, and then what had its name goes. -/
theorem addTable_eq (w : World K V) (name : String) (placed : PlacedTable K V) :
    w.addTable name placed = (w.enterTable name placed).collect.removeCache name := rfl

/-- A table that is brought in has the next number. -/
theorem find_tables_enterTable (w : World K V) (name : String) (placed : PlacedTable K V)
    (number : Nat) : (w.enterTable name placed).tables.find number =
      if w.nextTable = number then some placed else w.tables.find number :=
  Directory.find_set ..

/-- The next number has the name of the table that is brought in. -/
theorem find_tableNames_enterTable (w : World K V) (name : String) (placed : PlacedTable K V)
    (other : String) : (w.enterTable name placed).tableNames.find other =
      if name = other then some w.nextTable else w.tableNames.find other :=
  Directory.find_set ..

/-- The payloads of a cache that is let go are released. -/
theorem hands_removeCache (issued : w.Issued)
    (index : ∀ entry ∈ w.caches, entry.2.reclaimer < w.reclaimers.length)
    (distinct : (w.caches.map Prod.fst).Nodup) (name : String) : w.Hands (w.removeCache name) := by
  unfold removeCache
  split
  · exact hands_refl issued
  · next placed found =>
    have hindex := index _ (Directory.mem_of_find found)
    have hgone : Handover (w.reclaimer placed.reclaimer)
        ((w.reclaimer placed.reclaimer).dismiss
          (placed.cache.hard.buckets.slots ++ placed.cache.soft.buckets.slots))
        placed.cache.payloads [] := by
      have hissued := (issued placed.reclaimer hindex).perm
        ((Directory.flatMap_perm_erase distinct found (cacheShare placed.reclaimer)).append_left _)
      have hright := hissued.right.left
      rw [cacheShare, share_self] at hright
      refine .release hright ?_
      rw [List.flatMap_append]
      exact .rfl
    refine hands_of_share issued hindex (fun number => w.tables.flatMap (tableShare number) ++
      (w.caches.erase name).flatMap (cacheShare number)) rfl (fun number => ?_) (fun number => ?_)
      hgone
    · have hcaches := Directory.flatMap_perm_erase distinct found (cacheShare number)
      refine (hcaches.append_left _).trans ?_
      rw [← List.append_assoc, ← List.append_assoc]
      exact List.perm_append_comm.append_right _
    · rw [share, ite_self, List.nil_append]
      exact .rfl

end SoftCache.World
