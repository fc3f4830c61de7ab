import Mathlib.Algebra.GroupWithZero.Nat
import SoftCache.Proofs.Checked.World
import SoftCache.Proofs.Table.Aiming
import SoftCache.Proofs.Table.Capacity
import SoftCache.Proofs.World.Following

/-!
# Cursors in the world

The cursor of a table is at the fraction that is next after all aims that the table has taken, round
and round, and it is of no matter how many buckets and entries there were, and what was done with
other tables that were given the same fractions. When the table holds both sides strongly, its aims
can be counted from outside: they are the evictions that it has counted, the attempts at an entry
that were answered with none, and the listings from a drawn bucket on
(`World.Reachable.cursor_law`).
-/

namespace SoftCache

/-- A new table has its cursor at the first of the fractions that were chosen, or else at the first
of those that are shared. -/
theorem Table.create_cursor {K V : Type} {shared : SharedFractions} {o : Options} {epoch : Nat}
    {t : Table K V} (h : create shared o epoch = .ok t) :
    t.cursor = ⟨o.fractions.getD shared.fractions, 0⟩ := by
  simp only [create, bind, Except.bind, pure, Except.pure] at h
  split at h
  · cases h
  · split at h
    · cases h
    · next cursor hcursor =>
      cases h
      cases hfractions : o.fractions with
      | none =>
        rw [hfractions] at hcursor
        have hshared : Cursor.shared shared = cursor := Except.ok.inj hcursor
        show cursor = _
        rw [← hshared, Option.getD_none, Cursor.shared]
      | some fractions =>
        rw [hfractions] at hcursor
        exact (Cursor.ofFractions_eq_ok_iff.mp hcursor).2.2

namespace World

variable {K V : Type} [DecidableEq K] [Hashed K] [DecidableEq V]

/-! ## Aims in turns -/

/-- The tables that take aim in a turn. -/
def Turn.aims (turn : Turn K V) : List (Table K V) :=
  turn.table.aims turn.reclaimer turn.request

/-- How many attempts at an entry have found nothing in turns, as the answers say. -/
def failures (turns : List (Turn K V)) : Nat :=
  (turns.map fun turn => turn.request.failures turn.outcome.reply).sum

/-- How many listings from a drawn bucket on there are in turns. -/
def listings (turns : List (Turn K V)) : Nat :=
  (turns.map fun turn => turn.request.listings).sum

/-- The aims of a table are those of its turns. -/
theorem Follows.aimed {listener : Option String} {t t' : Table K V} {turns : List (Turn K V)}
    (h : Follows listener t turns t') :
    t.Aimed t' (turns.flatMap Turn.aims) (failures turns + listings turns) := by
  induction h with
  | still t => exact .refl t
  | @turn turn rest t hfits _ ih =>
    have hstep := hfits.sound.aimed_perform hfits.issued turn.request
    have hfailures : turn.request.failures turn.step.result =
        turn.request.failures turn.outcome.reply := by
      rcases hfits.reply with hreply | hwalk
      · rw [hreply]
      · -- A walk that begins makes no attempt.
        rw [hwalk]
        rfl
    have hidle : failures (turn :: rest) + listings (turn :: rest) =
        turn.request.failures turn.step.result + turn.request.listings +
          (failures rest + listings rest) := by
      simp only [failures, listings, List.map_cons, List.sum_cons, hfailures]
      omega
    rw [List.flatMap_cons, hidle]
    exact hstep.trans ih

/-- The cursor of a table after its turns, and where each aim on the way was taken. -/
structure KeepsAim (t : Table K V) (turns : List (Turn K V)) (t' : Table K V) : Prop where
  /-- There are fractions to be read, and they stay what they are. -/
  fractions : t.cursor.fractions ≠ [] ∧ t'.cursor.fractions = t.cursor.fractions
  /-- The cursor has moved on by one for each aim, round and round. -/
  position : t'.cursor.position =
    (t.cursor.position + (turns.flatMap Turn.aims).length) % t.cursor.fractions.length
  /-- Each aim is taken with the fraction of its number. -/
  fraction : ∀ j (hj : j < (turns.flatMap Turn.aims).length), ∃ fraction,
    t.cursor.fractions[(t.cursor.position + j) % t.cursor.fractions.length]? = some fraction ∧
      ∀ capacity, (turns.flatMap Turn.aims)[j].cursor.target capacity = fraction.target capacity
  /-- With two strong sides there is an aim for each eviction, each attempt that found nothing, and
  each listing. -/
  aims : t.config.keyStrength = .strong → t.config.valueStrength = .strong →
    (turns.flatMap Turn.aims).length =
      t'.metrics.evictions + failures turns + listings turns
  /-- So the cursor is where these counts say. -/
  counted : t.config.keyStrength = .strong → t.config.valueStrength = .strong →
    t'.cursor.position =
      (t.cursor.position + (t'.metrics.evictions + failures turns + listings turns)) %
        t.cursor.fractions.length

/-- A table that begins to count from zero keeps its aim. -/
theorem Follows.keepsAim {listener : Option String} {t t' : Table K V} {turns : List (Turn K V)}
    (h : Follows listener t turns t') (fit : t.cursor.Fit) (fresh : t.metrics = {}) :
    KeepsAim t turns t' := by
  obtain ⟨-, hcursor, hturns, hevictions⟩ := h.aimed
  rw [Cursor.iterate_advance fit] at hcursor
  have hposition : t'.cursor.position = (t.cursor.position + (turns.flatMap Turn.aims).length) %
      t.cursor.fractions.length := by
    rw [hcursor]
  have haims : t.config.keyStrength = .strong → t.config.valueStrength = .strong →
      (turns.flatMap Turn.aims).length =
        t'.metrics.evictions + failures turns + listings turns := by
    intro keys values
    have hcount := hevictions keys values
    have hzero : t.metrics.evictions = 0 := by rw [fresh]
    omega
  constructor
  case fractions => exact ⟨fit.ne_nil, by rw [hcursor]⟩
  case position => exact hposition
  case fraction =>
    intro j hj
    have hlength : 0 < t.cursor.fractions.length := Nat.zero_lt_of_lt fit
    refine ⟨_, List.getElem?_eq_getElem (Nat.mod_lt (t.cursor.position + j) hlength),
      fun capacity => ?_⟩
    have hj' : (turns.flatMap Turn.aims)[j].cursor = Cursor.advance^[j] t.cursor := by
      have hmap : ((turns.flatMap Turn.aims).map (·.cursor))[j]? =
          some (Cursor.advance^[j] t.cursor) := by
        rw [hturns, List.getElem?_iterate _ _ _ _ hj]
      rw [List.getElem?_map, List.getElem?_eq_getElem hj] at hmap
      exact Option.some.inj hmap
    rw [hj', Cursor.iterate_advance fit, Cursor.target,
      List.getElem?_eq_getElem (Nat.mod_lt (t.cursor.position + j) hlength)]
    rfl
  case aims => exact haims
  case counted =>
    intro keys values
    rw [hposition, haims keys values]

/-! ## All requests -/

variable [Ordered K] [Literal K] [Literal V] {w : World K V} {name : String} {request : Request K V}

/-- From its making on, whatever is done in the world, the cursor of a table is at the fraction that
is next after all its aims, and with both sides held strongly these are the evictions that it has
counted, the attempts that found nothing and the listings. It starts at the first of the fractions
that the table was given, or else of those that are shared. -/
theorem Reachable.cursor_law (h : w.Reachable) (brings : request.bringsTable name)
    (made : (w.perform request).reply = .done) :
    ∃ number placed, (w.perform request).world.tableNames.find name = some number ∧
      (w.perform request).world.tables.find number = some placed ∧ placed.table.metrics = {} ∧
      (∀ making, request = .newTable name making →
        placed.table.cursor = ⟨making.options.fractions.getD w.shared.fractions, 0⟩ ∧
          placed.table.config.keyStrength = making.options.keyStrength ∧
          placed.table.config.valueStrength = making.options.valueStrength) ∧
      ∀ requests placed',
        ((w.perform request).world.run requests).tables.find number = some placed' →
          KeepsAim placed.table ((w.perform request).world.turns number requests) placed'.table ∧
          ∀ name', ((w.perform request).world.run requests).tableNames.find name' = some number →
            (((w.perform request).world.run requests).perform (.table name' .position)).reply =
                .number placed'.table.cursor.position ∧
              (((w.perform request).world.run requests).perform (.table name' .metrics)).reply =
                .tableMetrics placed'.table.metrics := by
  obtain ⟨number, placed, hname, hfound, hfresh, hmade⟩ := exists_of_bringsTable brings made
  have hreachable := h.perform request
  have hsound := hreachable.sound
  refine ⟨number, placed, hname, hfound, hfresh, ?_, fun requests placed' hfound' => ⟨?_, ?_⟩⟩
  · rintro making heq
    obtain ⟨epoch, hcreate⟩ := hmade making heq
    obtain ⟨hkeys, hvalues, -⟩ := Table.create_first hcreate
    exact ⟨Table.create_cursor hcreate, hkeys, hvalues⟩
  · have hold := hsound.fresh number (List.mem_map_of_mem (f := Prod.fst)
      (Directory.mem_of_find hfound))
    obtain ⟨before, hbefore, -, hfollows⟩ := follows_run hsound hold hfound'
    cases hfound.symm.trans hbefore
    have hfit := (hreachable.everywhere Fit.persists).tables _ (Directory.mem_of_find hfound)
    exact hfollows.keepsAim hfit.cursor hfresh
  · intro name' hname'
    rw [perform_table hname', perform_table hname', overTable, overTable, hfound']
    exact ⟨rfl, rfl⟩

/-- A table of at most two slots, with three fractions. -/
def thriceMaking : Making Table.Options :=
  { options :=
      { capacity := 4, bound := some 2
        fractions := some [.finite false 1 (-1), .finite false 0 0, .finite false 3 (-2)] } }

/-- Requests under which the table evicts an entry for want of room and another because of a new
bound, lists its entries twice, is asked for more entries than it has, and evicts once more, while
another table with the same fractions evicts as well. -/
def thriceRequests : List (Request Clustered String) :=
  [.table "t" (.putAll (some [(⟨1⟩, "a"), (⟨2⟩, "b"), (⟨3⟩, "c")])), .newTable "u" thriceMaking,
    .table "t" .randomEntries, .table "u" (.putAll (some [(⟨1⟩, "a"), (⟨2⟩, "b"), (⟨3⟩, "c")])),
    .table "t" (.setBound (some 1)), .randomWalk "t" "w", .table "t" (.removeRandoms 3),
    .table "t" (.put (some ⟨4⟩) (some "d")), .table "t" .clear, .table "t" .removeRandom,
    .table "t" (.put none none), .table "t" (.put (some ⟨5⟩) none)]

/-- The table has evicted four entries and taken aim nine times, so its cursor is at the first
fraction again. -/
theorem cursor_law_of_thriceRequests :
    let start := (({} : World Clustered String).perform (.newTable "t" thriceMaking)).world
    (((start.run thriceRequests).tables.find 0).map fun placed =>
      (placed.table.cursor.position, placed.table.metrics.evictions)) = some (0, 4) ∧
    (failures (start.turns 0 thriceRequests), listings (start.turns 0 thriceRequests)) = (3, 2) ∧
    ((start.turns 0 thriceRequests).flatMap Turn.aims).map
      (fun t => (t.cursor.position, t.cursor.target t.capacity, t.count)) =
      [(0, 2, 3), (1, 0, 2), (2, 3, 2), (0, 2, 1), (1, 0, 1), (2, 3, 0), (0, 2, 0), (1, 0, 0),
        (2, 3, 2)] ∧
    ∃ number placed, start.tableNames.find "t" = some number ∧
      start.tables.find number = some placed ∧ placed.table.metrics = {} ∧
      (∀ making, (.newTable "t" thriceMaking : Request Clustered String) = .newTable "t" making →
        placed.table.cursor = ⟨making.options.fractions.getD SharedFractions.spread.fractions, 0⟩ ∧
          placed.table.config.keyStrength = making.options.keyStrength ∧
          placed.table.config.valueStrength = making.options.valueStrength) ∧
      ∀ requests placed', (start.run requests).tables.find number = some placed' →
        KeepsAim placed.table (start.turns number requests) placed'.table ∧
        ∀ name', (start.run requests).tableNames.find name' = some number →
          ((start.run requests).perform (.table name' .position)).reply =
              .number placed'.table.cursor.position ∧
            ((start.run requests).perform (.table name' .metrics)).reply =
              .tableMetrics placed'.table.metrics := by
  have hmade : (({} : World Clustered String).perform (.newTable "t" thriceMaking)).reply =
      .done := by decide +kernel
  have hbrings : (.newTable "t" thriceMaking : Request Clustered String).bringsTable "t" := rfl
  exact ⟨by decide +kernel, by decide +kernel, by decide +kernel,
    Reachable.cursor_law ⟨_, [], rfl⟩ hbrings hmade⟩

end World

end SoftCache
