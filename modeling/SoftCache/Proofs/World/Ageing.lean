import SoftCache.Proofs.Cache.Ageing
import SoftCache.Proofs.World.Everywhere
import SoftCache.Proofs.World.Following
import SoftCache.Proofs.World.Sweeping

/-!
# The order of use in a world

Every table of a reachable world has lived, and so has every tier of a cache. Whatever life it has
had, its buckets are in the order of use, and what has to go is what has gone unused for longest
(`World.Reachable.order_of_use`). The life of a table that has a number is what it has been asked
for since it was made or copied.
-/

namespace SoftCache.World

variable {K V : Type} [DecidableEq K] [Hashed K] [DecidableEq V] {w : World K V}

/-- What a turn of a table does to its stamps. -/
def Turn.marks (turn : Turn K V) : List (Mark K) :=
  turn.table.marks turn.reclaimer turn.request

/-- A table lives from turn to turn. -/
theorem Follows.lived {listener : Option String} {t t' : Table K V} {turns : List (Turn K V)}
    (h : Follows listener t turns t') {σ : Stamps K} (lived : t.Lived σ) :
    t'.Lived (σ.marked (turns.flatMap Turn.marks)) := by
  induction h generalizing σ with
  | still t => exact lived
  | @turn turn rest t hfits _ ih =>
    rw [List.flatMap_cons, Stamps.marked_append]
    exact ih (lived.asked hfits.issued turn.request)

variable [Ordered K] [Literal K] [Literal V]

/-- Whatever is asked for, tables and tiers live on. -/
theorem persists_lived :
    Persists (fun t : Table K V => ∃ σ, t.Lived σ)
      fun c => (∃ σ, c.hard.Lived σ) ∧ ∃ σ, c.soft.Lived σ where
  created shared options epoch t hmade := by
    obtain ⟨loadFactor, cursor, rfl⟩ := Table.create_eq hmade
    exact ⟨_, .made ..⟩
  copied t r _ issued := fun ⟨_, hσ⟩ => ⟨_, hσ.copied issued⟩
  asked t r request _ issued := fun ⟨_, hσ⟩ => ⟨_, hσ.asked issued request⟩
  made shared options epoch c hmade := Cache.lived_create hmade
  served c r request htiered issued := fun ⟨hhard, hsoft⟩ =>
    have hlived : (c.perform r request).Lived :=
      Cache.Lived.perform ⟨hhard, hsoft, htiered.hardStrengths.2, issued⟩ request
    ⟨hlived.hard, hlived.soft⟩

/-- Every table and every tier of a reachable world has lived. -/
theorem Reachable.exists_lived (h : w.Reachable) {t : Table K V} {r : Reclaimer}
    (there : w.Has t r) : ∃ σ, t.Lived σ := by
  have heverywhere := h.everywhere persists_lived
  cases there with
  | table hentry => exact heverywhere.tables _ hentry
  | hard hentry => exact (heverywhere.caches _ hentry).1
  | soft hentry => exact (heverywhere.caches _ hentry).2

/-- A table that is brought in begins without stamps. -/
theorem Reachable.lived_of_bringsTable (h : w.Reachable) {request : Request K V} {name : String}
    (brings : request.bringsTable name) (made : (w.perform request).reply = .done) :
    ∃ number placed, (w.perform request).world.tableNames.find name = some number ∧
      (w.perform request).world.tables.find number = some placed ∧
      placed.table.Lived .fresh := by
  obtain ⟨number, placed, hname, hfound, ⟨making, epoch, -, hmade⟩ |
    ⟨original, number₀, placed₀, -, hfound₀, hcopy⟩⟩ := cases_of_bringsTable brings made
  · obtain ⟨loadFactor, cursor, hempty⟩ := Table.create_eq hmade
    refine ⟨number, placed, hname, hfound, ?_⟩
    rw [hempty]
    exact .made ..
  · obtain ⟨σ, hσ⟩ := h.exists_lived (.table (Directory.mem_of_find hfound₀))
    refine ⟨number, placed, hname, hfound, ?_⟩
    rw [hcopy]
    exact hσ.copied (h.sound.issued_table hfound₀)

/-- A world with tables that are in the order of use. -/
structure InOrderOfUse (w : World K V) : Prop where
  /-- Every table and every tier of a cache has lived, and its reclaimer has issued what it
  holds. -/
  lived : ∀ t r, w.Has t r → r.Issued t.payloads ∧ ∃ σ, t.Lived σ
  /-- Whatever life a table has had, also amid a request, its buckets are in the order of use. -/
  kept : ∀ (t : Table K V) σ, t.Lived σ → ∀ r, r.Issued t.payloads → t.KeptByUse σ r
  /-- A table that is made or copied begins without stamps. -/
  brought : ∀ request name, request.bringsTable name → (w.perform request).reply = .done →
    ∃ number placed, (w.perform request).world.tableNames.find name = some number ∧
      (w.perform request).world.tables.find number = some placed ∧ placed.table.Lived .fresh
  /-- From then on its slots are stamped by what it is asked for. -/
  turns : ∀ requests number placed placed', w.tables.find number = some placed →
    (w.run requests).tables.find number = some placed' → ∀ σ, placed.table.Lived σ →
    placed'.table.Lived (σ.marked ((w.turns number requests).flatMap Turn.marks))

/-- The buckets of all tables are in the order of use, so that what has gone unused for longest goes
first. -/
theorem Reachable.order_of_use (h : w.Reachable) : w.InOrderOfUse where
  lived t r there := ⟨h.sound.issued_has there, h.exists_lived there⟩
  kept t σ hσ r issued := hσ.keptByUse issued
  brought request name := h.lived_of_bringsTable
  turns requests number placed placed' found found' σ hσ := by
    have hold := h.sound.fresh number (List.mem_map_of_mem (f := Prod.fst)
      (Directory.mem_of_find found))
    obtain ⟨before, hbefore, -, hfollows⟩ := follows_run h.sound hold found'
    obtain rfl : before = placed := Option.some.inj (hbefore.symm.trans found)
    exact hfollows.lived hσ

/-- A new table of four buckets, which keeps the order of use. -/
def agedMaking : Making Table.Options :=
  { options := { capacity := 4, order := .recency } }

/-- Requests under which a table is resized. Of three slots that share a bucket then, two are used
again, and a fourth comes. -/
def agedRequests : List (Request Clustered String) :=
  [.table "t" (.put (some ⟨1⟩) (some "a")), .table "t" (.put (some ⟨5⟩) (some "b")),
    .table "t" (.put (some ⟨9⟩) (some "c")), .table "t" (.get (some ⟨1⟩)),
    .table "t" (.put (some ⟨2⟩) (some "d")), .table "t" (.put (some ⟨13⟩) (some "e")),
    .table "t" (.get (some ⟨5⟩)), .table "t" (.put (some ⟨9⟩) (some "f"))]

/-- A world with the new table. -/
def unaged : World Clustered String :=
  run {} [.newTable "t" agedMaking]

/-- The example is reachable. -/
theorem unaged_reachable : unaged.Reachable := ⟨_, _, rfl⟩

/-- The stamps of the table after the requests. -/
def agedStamps : Stamps Clustered :=
  Stamps.fresh.marked ((unaged.turns 0 agedRequests).flatMap Turn.marks)

/-- The table is resized after the fifth stamp. The key that was not used since goes before the
three keys of its bucket that were. -/
theorem unaged_order_of_use :
    unaged.InOrderOfUse ∧ ∃ placed, (unaged.run agedRequests).tables.find 0 = some placed ∧
      placed.table.Lived agedStamps ∧
      (placed.table.buckets.keys 5).map (fun key => (key, agedStamps.last key)) =
        [(some ⟨1⟩, 0), (some ⟨13⟩, 6), (some ⟨5⟩, 7), (some ⟨9⟩, 8)] ∧
      (placed.table.removeRandoms ((unaged.run agedRequests).reclaimer placed.reclaimer) 3).result =
        [some (some ⟨2⟩, some "d"), some (some ⟨1⟩, some "a"), some (some ⟨13⟩, some "e")] := by
  have hempty : (run {} [] : World Clustered String).InOrderOfUse :=
    Reachable.order_of_use ⟨_, [], rfl⟩
  obtain ⟨number, first, hnumber, hfirst, hfresh⟩ :=
    hempty.brought (.newTable "t" agedMaking) "t" rfl (by decide +kernel)
  obtain rfl : number = 0 := Option.some.inj
    (hnumber.symm.trans (by decide +kernel : unaged.tableNames.find "t" = some 0))
  obtain ⟨placed, hplaced⟩ := Option.isSome_iff_exists.mp
    (by decide +kernel : ((unaged.run agedRequests).tables.find 0).isSome = true)
  have hkeys : ∀ placed ∈ (unaged.run agedRequests).tables.find 0,
      (placed.table.buckets.keys 5).map (fun key => (key, agedStamps.last key)) =
        [(some ⟨1⟩, 0), (some ⟨13⟩, 6), (some ⟨5⟩, 7), (some ⟨9⟩, 8)] := by
    decide +kernel
  have htaken : ∀ placed ∈ (unaged.run agedRequests).tables.find 0,
      (placed.table.removeRandoms
          ((unaged.run agedRequests).reclaimer placed.reclaimer) 3).result =
        [some (some ⟨2⟩, some "d"), some (some ⟨1⟩, some "a"), some (some ⟨13⟩, some "e")] := by
    decide +kernel
  have hunaged := Reachable.order_of_use unaged_reachable
  exact ⟨hunaged, placed, hplaced,
    hunaged.turns agedRequests 0 first placed hfirst hplaced .fresh hfresh,
    hkeys placed hplaced, htaken placed hplaced⟩

end SoftCache.World
