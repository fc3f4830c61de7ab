import SoftCache.Proofs.Table.Walking
import SoftCache.Proofs.World.Budget
import SoftCache.Proofs.World.Nulls
import SoftCache.Proofs.World.Using

/-!
# Walks that go on

A walk has shown some of its entries and has the others before it (`World.Going`). Only what is
asked of the walk itself changes that, and then it is known from the answer (`World.Going.read`).
Its table stays in the world even if it loses its name. What the walk removes from the table is the
entry that it showed last, once, if that is still live, and nothing else (`World.Going.walks`).
-/

open scoped List

namespace SoftCache.World

variable {K V : Type} {w w' w'' : World K V} {name walk : String} {number : Nat} {view : View}
  {entries shown remaining : List (Entry K V)} {due : Bool}

/-- The live entries of the table of a number. -/
def live (w : World K V) (number : Nat) : List (Entry K V) :=
  match w.tables.find number with
  | none => []
  | some placed => placed.table.entries (w.reclaimer placed.reclaimer)

/-- The live entries of a number are those of its table. -/
theorem live_eq {placed : PlacedTable K V} (found : w.tables.find number = some placed) :
    w.live number = placed.table.entries (w.reclaimer placed.reclaimer) := by
  rw [live, found]

/-- No key is live twice in a table. -/
theorem Sound.nodup_live [Hashed K] (h : w.Sound) (number : Nat) :
    ((w.live number).map Prod.fst).Nodup := by
  cases found : w.tables.find number with
  | none =>
    rw [live, found]
    exact List.nodup_nil
  | some placed =>
    rw [live_eq found]
    exact (h.tables _ (Directory.mem_of_find found)).table.nodup_entries _

/-! ## What is seen of a walk -/

/-- What is known of a walk to somebody who reads its answers. -/
structure Sight (K V : Type) where
  /-- The items that it has shown. -/
  items : List (Item K V) := []
  /-- Whether it has shown one since it was last asked to remove one. -/
  due : Bool := false

namespace Sight

/-- What is known of a walk when it has answered once more. -/
def hear (sight : Sight K V) : Walk.Request → Reply K V → Sight K V
  | .remove, _ => { sight with due := false }
  | _, .items items => ⟨sight.items ++ items, sight.due || !items.isEmpty⟩
  | _, _ => sight

/-- What is known of the walk of the name when a request has been answered. -/
def read (sight : Sight K V) (walk : String) (request : Request K V) (reply : Reply K V) :
    Sight K V :=
  match request with
  | .onWalk name asking => if name = walk then sight.hear asking reply else sight
  | _ => sight

/-- What is asked of the walk itself is heard. -/
theorem read_onWalk (sight : Sight K V) (walk : String) (asking : Walk.Request)
    (reply : Reply K V) : sight.read walk (.onWalk walk asking) reply = sight.hear asking reply :=
  if_pos rfl

/-- Nothing is known of it from the answer to something else. -/
theorem read_of_other (sight : Sight K V) {request : Request K V}
    (other : ∀ asking, request ≠ .onWalk walk asking) (reply : Reply K V) :
    sight.read walk request reply = sight := by
  cases request with
  | onWalk name asking =>
    refine if_neg ?_
    rintro rfl
    exact other asking rfl
  | _ => rfl

end Sight

/-- A walk that has shown some entries and has others before it. It is to remove the last one, if
that is due. -/
def paused (view : View) (shown remaining : List (Entry K V)) (due : Bool) : Walk K V :=
  ⟨view, remaining, if due then shown.getLast?.map Prod.fst else none⟩

/-- How many of the entries that remain a walk comes to when it is asked for something. -/
def reach (remaining : List (Entry K V)) : Walk.Request → Nat
  | .next => 1
  | .rest => remaining.length
  | _ => 0

/-- Whatever a walk is asked for, it is known from the answer where it is afterwards. -/
theorem step_paused [DecidableEq K] [Hashed K] (view : View) (shown remaining : List (Entry K V))
    {due : Bool} (nonempty : due = true → shown ≠ []) (t : Table K V) (r : Reclaimer)
    (asking : Walk.Request) :
    let after := ((paused view shown remaining due).step t r asking).result
    let sight := Sight.hear ⟨shown.map view.item, due⟩ asking after.1
    let shown' := shown ++ remaining.take (reach remaining asking)
    sight.items = shown'.map view.item ∧
      after.2 = paused view shown' (remaining.drop (reach remaining asking)) sight.due ∧
      (sight.due = true → shown' ≠ []) := by
  intro after sight shown'
  cases asking with
  | next =>
    cases remaining with
    | nil =>
      have hshown : shown' = shown := List.append_nil shown
      have hdue : sight.due = due := Bool.or_false due
      rw [hshown, hdue]
      exact ⟨List.append_nil _, rfl, nonempty⟩
    | cons entry rest =>
      have hshown : shown' = shown ++ [entry] := rfl
      have hdue : sight.due = true := Bool.or_true due
      rw [hshown, hdue]
      refine ⟨?_, ?_, by simp⟩
      · show shown.map view.item ++ [entry].map view.item = _
        rw [List.map_append]
      · simp [after, Walk.step, Walk.next, Step.done, paused, reach]
  | rest =>
    have hshown : shown' = shown ++ remaining := congrArg _ (List.take_length)
    have hdue : sight.due = (due || !(remaining.map view.item).isEmpty) := rfl
    rw [hshown, hdue]
    refine ⟨List.map_append.symm, ?_, ?_⟩
    · rcases remaining.eq_nil_or_concat with rfl | ⟨before, entry, rfl⟩ <;>
        simp [after, Walk.step, Walk.rest, Step.done, paused, reach]
    · cases remaining with
      | nil => simpa using nonempty
      | cons entry rest => simp
  | remaining | literal =>
    have hshown : shown' = shown := List.append_nil shown
    rw [hshown]
    exact ⟨rfl, rfl, nonempty⟩
  | remove =>
    have hshown : shown' = shown := List.append_nil shown
    rw [hshown]
    exact ⟨rfl, rfl, fun heq => absurd heq Bool.false_ne_true⟩

/-- Whether a request begins a walk under the name. -/
def Request.beginsWalk (walk : String) : Request K V → Prop
  | .walk _ _ newName | .randomWalk _ newName => newName = walk
  | _ => False

/-! ## What leaves a walk alone -/

/-- The walk of the name stays where it is, and its table stays in the world. -/
def KeepsWalk (w w' : World K V) (walk : String) : Prop :=
  ∀ walked, w.walks.find walk = some walked → (w.tables.find walked.table).isSome →
    w'.walks.find walk = some walked ∧ (w'.tables.find walked.table).isSome

namespace KeepsWalk

/-- Only the place of the walk and the tables matter. -/
theorem of_eq (walks : w'.walks.find walk = w.walks.find walk) (tables : w'.tables = w.tables) :
    w.KeepsWalk w' walk := by
  intro walked found there
  rw [walks, tables]
  exact ⟨found, there⟩

/-- A walk that is kept twice is kept. -/
theorem trans (h : w.KeepsWalk w' walk) (h' : w'.KeepsWalk w'' walk) : w.KeepsWalk w'' walk := by
  intro walked found there
  obtain ⟨found', there'⟩ := h walked found there
  exact h' walked found' there'

/-- A table is worked on. -/
theorem of_modify {placed : PlacedTable K V} (walks : w'.walks.find walk = w.walks.find walk)
    (tables : w'.tables = w.tables.modify number placed) : w.KeepsWalk w' walk := by
  intro walked found there
  rw [walks, tables, Directory.find_modify_eq_map, Option.isSome_map]
  exact ⟨found, there⟩

end KeepsWalk

/-- The table of a walk is referred to. -/
theorem keepsWalk_collect (w : World K V) (walk : String) : w.KeepsWalk w.collect walk := by
  obtain ⟨reclaimers, -, heq⟩ := w.collect_eq
  rw [heq]
  intro walked found there
  have hreferred : w.referredTables.contains walked.table = true := by
    rw [List.contains_iff_mem]
    exact List.mem_append_right _ (List.mem_map.mpr ⟨_, Directory.mem_of_find found, rfl⟩)
  refine ⟨found, ?_⟩
  rwa [leftTables, Directory.find_filter hreferred]

/-- To remove a cache keeps every walk. -/
theorem keepsWalk_removeCache (w : World K V) (name walk : String) :
    w.KeepsWalk (w.removeCache name) walk := by
  obtain ⟨reclaimers, -, heq⟩ := w.removeCache_eq name
  rw [heq]
  exact .of_eq rfl rfl

/-- To remove a name keeps every walk: its table stays as long as it is walked over. -/
theorem keepsWalk_removeNamed (w : World K V) (name walk : String) :
    w.KeepsWalk (w.removeNamed name) walk := by
  have herase : w.KeepsWalk { w with tableNames := w.tableNames.erase name } walk := .of_eq rfl rfl
  exact (herase.trans (keepsWalk_collect _ walk)).trans (keepsWalk_removeCache _ name walk)

/-- A table that is brought in takes the place of none, whatever name it is given. -/
theorem keepsWalk_addTable (w : World K V) (name walk : String) (placed : PlacedTable K V) :
    w.KeepsWalk (w.addTable name placed) walk := by
  have hput : w.KeepsWalk (w.enterTable name placed) walk := by
    refine fun walked found there => ⟨found, ?_⟩
    rw [find_tables_enterTable]
    split
    · rfl
    · exact there
  exact (hput.trans (keepsWalk_collect _ walk)).trans (keepsWalk_removeCache _ name walk)

/-- To bring a cache in keeps every walk. -/
theorem keepsWalk_addCache (w : World K V) (name walk : String) (placed : PlacedCache K V) :
    w.KeepsWalk (w.addCache name placed) walk :=
  (keepsWalk_removeNamed w name walk).trans (.of_eq rfl rfl)

/-- A walk that begins under another name. -/
theorem keepsWalk_addWalk (w : World K V) {newName : String} (hne : newName ≠ walk) (number : Nat)
    (view : View) (entries : List (Entry K V)) :
    w.KeepsWalk (w.addWalk newName number view entries).world walk := by
  have hset : w.KeepsWalk
      { w with walks := w.walks.set newName ⟨.start view entries, number⟩ } walk :=
    .of_eq ((Directory.find_set ..).trans (if_neg hne)) rfl
  exact hset.trans (keepsWalk_collect _ walk)

section Requests

variable [DecidableEq K] [Hashed K] [Ordered K] [Literal K] [DecidableEq V] [Literal V]
  {request : Request K V}

/-- What comes of a request that is not made to a walk, and begins none under its name, leaves the
walk alone. -/
theorem keepsWalk_of_effect {notices : List (Notice K V)} (effect : w.Effect request w' notices)
    (spared : ¬request.beginsWalk walk) (other : ∀ asking, request ≠ .onWalk walk asking) :
    w.KeepsWalk w' walk := by
  have hne : ∀ {name : String} {asking : Walk.Request}, request = .onWalk name asking →
      name ≠ walk := by
    rintro name asking rfl rfl
    exact other asking rfl
  cases effect with
  | @newTable _ _ reclaimers =>
    refine KeepsWalk.trans ?_ (keepsWalk_addTable { w with reclaimers } _ walk _)
    exact .of_eq rfl rfl
  | @newCache _ _ reclaimers =>
    refine KeepsWalk.trans ?_ (keepsWalk_addCache { w with reclaimers } _ walk _)
    exact .of_eq rfl rfl
  | copy =>
    refine KeepsWalk.trans ?_ (keepsWalk_addTable (w.setReclaimer _ _) _ walk _)
    exact .of_eq rfl rfl
  | drop => exact keepsWalk_removeNamed w _ walk
  | table => exact .of_modify rfl rfl
  | walk => exact keepsWalk_addWalk w spared _ _ _
  | @randomWalk _ _ number placed drawn =>
    refine KeepsWalk.trans ?_ (keepsWalk_addWalk
      { w with tables := w.tables.modify number { placed with table := drawn.state } } spared _ _ _)
    exact .of_modify rfl rfl
  | goOn => exact .of_eq ((Directory.find_modify ..).trans (if_neg (hne rfl))) rfl
  | remove => exact .of_modify ((Directory.find_modify ..).trans (if_neg (hne rfl))) rfl
  | nothing | newReclaimer | cache | recorder | reclaimer => exact .of_eq rfl rfl

/-- A request that is not made to a walk, and begins none under its name, leaves it alone. -/
theorem keepsWalk_perform (w : World K V) (spared : ¬request.beginsWalk walk)
    (other : ∀ asking, request ≠ .onWalk walk asking) :
    w.KeepsWalk (w.perform request).world walk :=
  keepsWalk_of_effect (w.effect_perform request) spared other

/-! ## A walk that goes on -/

/-- What a walk over a table is asked for comes to what the walk and the table make of it. -/
theorem Sound.goesOn (h : w.Sound) {walked : PlacedWalk K V} {placed : PlacedTable K V}
    (there : w.walks.find walk = some walked) (found : w.tables.find walked.table = some placed)
    (asking : Walk.Request) :
    w.GoesOn walk walked placed
      (walked.walk.step placed.table (w.reclaimer placed.reclaimer) asking)
      (w.perform (.onWalk walk asking)) :=
  goesOn_overWalk there found (h.tables _ (Directory.mem_of_find found)).index asking

/-- A walk over the table of a number that has shown some entries and has others before it. -/
structure Going (w : World K V) (walk : String) (number : Nat) (view : View)
    (shown remaining : List (Entry K V)) (due : Bool) : Prop where
  /-- The walk is where it has been left. -/
  walked : w.walks.find walk = some ⟨paused view shown remaining due, number⟩
  /-- The table is in the world. -/
  there : (w.tables.find number).isSome
  /-- Nothing is to be removed before something is shown. -/
  nonempty : due = true → shown ≠ []

namespace Going

/-- The walk is asked for something. -/
theorem ask (h : w.Going walk number view shown remaining due) (sound : w.Sound)
    (asking : Walk.Request) :
    let outcome := w.perform (.onWalk walk asking)
    let sight := Sight.hear ⟨shown.map view.item, due⟩ asking outcome.reply
    let shown' := shown ++ remaining.take (reach remaining asking)
    sight.items = shown'.map view.item ∧ outcome.world.Going walk number view shown'
      (remaining.drop (reach remaining asking)) sight.due := by
  intro outcome sight shown'
  obtain ⟨placed, found⟩ := Option.isSome_iff_exists.mp h.there
  have hgoes := sound.goesOn h.walked found asking
  have hwalked := (hgoes.walks walk).trans (if_pos rfl)
  obtain ⟨hitems, hafter, hnonempty⟩ := step_paused view shown remaining h.nonempty placed.table
    (w.reclaimer placed.reclaimer) asking
  rw [← hgoes.reply] at hitems hafter hnonempty
  rw [hafter] at hwalked
  exact ⟨hitems, hwalked, Option.isSome_iff_exists.mpr ⟨_, hgoes.found⟩, hnonempty⟩

/-- Whatever is asked for, what has been shown and what remains is still all that there was. -/
theorem read (h : w.Going walk number view shown remaining due) (sound : w.Sound)
    (spared : ¬request.beginsWalk walk) :
    let sight := Sight.read ⟨shown.map view.item, due⟩ walk request (w.perform request).reply
    ∃ shown' remaining', shown' ++ remaining' = shown ++ remaining ∧
      sight.items = shown'.map view.item ∧
      (w.perform request).world.Going walk number view shown' remaining' sight.due := by
  intro sight
  by_cases other : ∀ asking, request ≠ .onWalk walk asking
  · have hsight : sight = ⟨shown.map view.item, due⟩ := Sight.read_of_other _ other _
    obtain ⟨hwalked, hthere⟩ := keepsWalk_perform w spared other _ h.walked h.there
    rw [hsight]
    exact ⟨shown, remaining, rfl, rfl, hwalked, hthere, h.nonempty⟩
  · push Not at other
    obtain ⟨asking, rfl⟩ := other
    obtain ⟨hitems, hgoing⟩ := h.ask sound asking
    have hsight := Sight.read_onWalk ⟨shown.map view.item, due⟩ walk asking
      (w.perform (.onWalk walk asking)).reply
    rw [← hsight] at hitems hgoing
    refine ⟨_, _, ?_, hitems, hgoing⟩
    rw [List.append_assoc, List.take_append_drop]

end Going

/-! ## What a walk removes -/

/-- Requests that register nothing and are no passes leave the live entries of a table in which they
leave the slots. -/
theorem Sound.live_perform_of_buckets (h : w.Sound)
    (hpass : ∀ name passing, request ≠ .reclaimer name passing) (hnone : request.registers = false)
    {placed placed' : PlacedTable K V} (found : w.tables.find number = some placed)
    (found' : (w.perform request).world.tables.find number = some placed')
    (reclaimer : placed'.reclaimer = placed.reclaimer)
    (buckets : placed'.table.buckets = placed.table.buckets) :
    (w.perform request).world.live number = w.live number := by
  have hindex := (h.tables _ (Directory.mem_of_find found)).index
  have hand := (h.advances request hpass).hands.handover placed.reclaimer hindex
  have hquiet := hand.quiet (.inr ((w.unregistered_perform hpass hnone).next _ hindex))
  rw [live_eq found, live_eq found', reclaimer]
  exact Table.entries_congr buckets fun s hs =>
    isStale_perform h hpass found hquiet found' reclaimer buckets hs

/-- So they leave those of a table that they leave as it is. -/
theorem Sound.live_perform_of_find (h : w.Sound)
    (hpass : ∀ name passing, request ≠ .reclaimer name passing) (hnone : request.registers = false)
    (same : (w.perform request).world.tables.find number = w.tables.find number) :
    (w.perform request).world.live number = w.live number := by
  cases found : w.tables.find number with
  | none => rw [live, live, same, found]
  | some placed => exact h.live_perform_of_buckets hpass hnone found (same.trans found) rfl rfl

/-- A walk over the table of a number: what it shows next, and what it removes. -/
structure Walks (w : World K V) (walk : String) (number : Nat) (view : View)
    (shown remaining : List (Entry K V)) (due : Bool) : Prop where
  /-- The next item is that of the first entry that remains. -/
  next : (w.perform (.onWalk walk .next)).reply = .items (remaining.head?.toList.map view.item)
  /-- All items that remain are those of the entries that remain. -/
  rest : (w.perform (.onWalk walk .rest)).reply = .items (remaining.map view.item)
  /-- These are counted. -/
  count : (w.perform (.onWalk walk .remaining)).reply = .count remaining.length
  /-- None of this takes an entry from the table. -/
  reads : ∀ asking ≠ .remove, (w.perform (.onWalk walk asking)).world.live number = w.live number
  /-- If an item was shown since the last removal, just the entry of its key is removed. The answer
  is whether that was live. -/
  removes : due = true → ∃ entry, shown.getLast? = some entry ∧
    (w.perform (.onWalk walk .remove)).reply =
      .flag ((w.live number).any fun other => other.1 = entry.1) ∧
    (w.perform (.onWalk walk .remove)).world.live number =
      (w.live number).filter fun other => other.1 ≠ entry.1
  /-- Otherwise nothing is removed. -/
  spares : due = false → (w.perform (.onWalk walk .remove)).reply = .flag false ∧
    (w.perform (.onWalk walk .remove)).world.live number = w.live number
  /-- Nothing is removed from another table. -/
  elsewhere : ∀ other ≠ number,
    (w.perform (.onWalk walk .remove)).world.live other = w.live other

/-- A walk that goes on in a reachable world shows the entries that remain, and removes just what it
has shown last. -/
theorem Going.walks (going : w.Going walk number view shown remaining due) (h : w.Reachable) :
    w.Walks walk number view shown remaining due := by
  obtain ⟨placed, found⟩ := Option.isSome_iff_exists.mp going.there
  have hsound := (h.sound.tables _ (Directory.mem_of_find found)).table
  have hfull : placed.table.Full := h.full_has (.table (Directory.mem_of_find found))
  have hissued := h.sound.issued_table found
  have hremoves := (paused view shown remaining due).removes hsound hissued hfull
  have hgoes := h.sound.goesOn going.walked found
  have hlive := live_eq found
  have hanswer : (w.perform (.onWalk walk .remove)).reply = .flag ((w.live number).any
      fun other => (paused view shown remaining due).last = some other.1) := by
    rw [(hgoes .remove).reply, hlive, ← hremoves.result]
    rfl
  have hremoved : (w.perform (.onWalk walk .remove)).world.live number =
      (w.live number).filter
        fun other => (paused view shown remaining due).last ≠ some other.1 := by
    rw [live_eq (hgoes .remove).found, hlive, ← hremoves.entries]
    exact congrArg _ (hgoes .remove).reclaimer
  constructor
  case next =>
    rw [(hgoes .next).reply]
    cases remaining <;> rfl
  case rest => exact (hgoes .rest).reply
  case count => exact (hgoes .remaining).reply
  case reads =>
    intro asking reads
    refine h.sound.live_perform_of_buckets (fun _ _ heq => by cases heq) rfl found
      (hgoes asking).found rfl ?_
    cases asking with
    | next | rest | remaining | literal => rfl
    | remove => exact absurd rfl reads
  case removes =>
    intro hdue
    obtain ⟨entry, hentry⟩ := Option.isSome_iff_exists.mp
      (List.getLast?_isSome.mpr (going.nonempty hdue))
    have hlast : (paused view shown remaining due).last = some entry.1 := by
      rw [paused, if_pos hdue, hentry, Option.map_some]
    rw [hlast] at hanswer hremoved
    refine ⟨entry, hentry, hanswer.trans (congrArg Reply.flag ?_), hremoved.trans ?_⟩
    · exact congrArg (List.any _) (funext fun other => by simp [eq_comm])
    · exact List.filter_congr fun other _ => by simp [eq_comm]
  case spares =>
    intro hdue
    have hlast : (paused view shown remaining due).last = none := by
      rw [paused, if_neg (by simp [hdue])]
    rw [hlast] at hanswer hremoved
    refine ⟨hanswer.trans (congrArg Reply.flag ?_), hremoved.trans ?_⟩
    · exact List.any_eq_false.mpr fun other _ => by simp
    · exact List.filter_eq_self.mpr fun other _ => by simp
  case elsewhere =>
    intro other hne
    exact h.sound.live_perform_of_find (fun _ _ heq => by cases heq) rfl
      ((hgoes .remove).others other hne)

end Requests

end SoftCache.World
