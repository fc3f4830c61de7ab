import SoftCache.Proofs.Cache.Losses
import SoftCache.Proofs.World.Transparency

/-!
# What a cache loses while nothing is cleared

From the making of a cache on, whatever else is done in the world, the cache is whole as long as no
epoch of its reclaimer begins and no null is put into it (`World.wholeSince_perform`). So there is
an exact account of what each request to it then costs (`World.Reachable.cache_losses`).
-/

namespace SoftCache.World

variable {K V : Type} [DecidableEq K] [Hashed K] {w : World K V} {name : String}
  {placed placed' : PlacedCache K V} {epoch : Nat} {request : Request K V}

/-- A cache that is whole as long as its reclaimer is still in the epoch. -/
structure WholeSince (w : World K V) (placed : PlacedCache K V) (epoch : Nat) : Prop where
  /-- The epoch has begun. -/
  begun : epoch ≤ (w.reclaimer placed.reclaimer).epoch
  /-- While it lasts, the cache is whole. -/
  whole : (w.reclaimer placed.reclaimer).epoch = epoch →
    placed.cache.Whole (w.reclaimer placed.reclaimer) []

variable [Ordered K] [Literal K] [DecidableEq V] [Literal V]

/-- A cache is as whole after a request as before, unless a null is put into it. -/
theorem wholeSince_perform (h : w.Sound) (spared : request.spares name)
    (filled : ∀ key, request ≠ .cache name (.put key none))
    (found : w.caches.find name = some placed) (since : w.WholeSince placed epoch) :
    ∃ placed', (w.perform request).world.caches.find name = some placed' ∧
      placed'.reclaimer = placed.reclaimer ∧
      (w.perform request).world.WholeSince placed' epoch := by
  have index : placed.reclaimer < w.reclaimers.length :=
    (h.caches _ (Directory.mem_of_find found)).index
  have hbegun := since.begun
  have hlater := (precedes_perform h index request).epoch_le
  have hbegun' := hbegun.trans hlater
  -- If the epoch lasts now, it lasted before, and the cache was whole.
  have hwhole : ((w.perform request).world.reclaimer placed.reclaimer).epoch = epoch →
      placed.cache.Whole (w.reclaimer placed.reclaimer) [] ∧
        ((w.perform request).world.reclaimer placed.reclaimer).epoch =
          (w.reclaimer placed.reclaimer).epoch := by
    intro hlasts
    have hlasted : (w.reclaimer placed.reclaimer).epoch = epoch := by omega
    exact ⟨since.whole hlasted, hlasts.trans hlasted.symm⟩
  by_cases hother : ∀ asking, request ≠ .cache name asking
  · obtain ⟨hkeeps, -⟩ := keepsCache_perform h spared hother
    obtain ⟨recorder, found'⟩ := hkeeps placed found
    refine ⟨_, found', rfl, hbegun', fun hlasts => ?_⟩
    obtain ⟨hwhole, hquiet⟩ := hwhole hlasts
    exact hwhole.under ((h.perform request).issued_cache found')
      (live_perform h found hquiet found' rfl rfl)
  · push Not at hother
    obtain ⟨asking, rfl⟩ := hother
    obtain ⟨-, -, hreclaimer, recorder, found'⟩ := h.perform_cache found asking
    refine ⟨_, found', rfl, hbegun', fun hlasts => ?_⟩
    obtain ⟨hwhole, hquiet⟩ := hwhole hlasts
    dsimp only
    rw [hreclaimer] at hquiet ⊢
    exact hwhole.perform hquiet fun key hput => filled key (congrArg (Request.cache name) hput)

/-- A cache is as whole after requests that leave it its name, unless a null is put into it. -/
theorem wholeSince_run (h : w.Sound) {requests : List (Request K V)}
    (spared : ∀ request ∈ requests, request.spares name)
    (filled : ∀ key, .cache name (.put key none) ∉ requests)
    (found : w.caches.find name = some placed) (since : w.WholeSince placed epoch) :
    ∃ placed', (w.run requests).caches.find name = some placed' ∧
      placed'.reclaimer = placed.reclaimer ∧ (w.run requests).WholeSince placed' epoch := by
  induction requests generalizing w placed with
  | nil => exact ⟨placed, found, rfl, since⟩
  | cons request rest ih =>
    obtain ⟨placed', found', hreclaimer, hsince⟩ :=
      wholeSince_perform h (spared request List.mem_cons_self)
        (fun key hput => filled key (hput ▸ List.mem_cons_self)) found since
    obtain ⟨placed'', found'', hreclaimer', hsince'⟩ := ih (h.perform request)
      (fun other hother => spared other (List.mem_cons_of_mem _ hother))
      (fun key hput => filled key (List.mem_cons_of_mem _ hput)) found' hsince
    exact ⟨placed'', found'', hreclaimer'.trans hreclaimer, hsince'⟩

/-- A cache is whole when it is made. -/
theorem wholeSince_of_made (h : w.Sound) {making : Making Cache.Options}
    (made : (w.perform (.newCache name making)).reply = .done)
    (found : (w.perform (.newCache name making)).world.caches.find name = some placed) :
    (w.perform (.newCache name making)).world.WholeSince placed
      ((w.perform (.newCache name making)).world.reclaimer placed.reclaimer).epoch := by
  obtain ⟨placed', _, found', -, hmade⟩ := exists_of_made made
  obtain rfl : placed' = placed := Option.some.inj (found'.symm.trans found)
  exact ⟨le_rfl, fun _ => Cache.whole_create hmade ((h.perform _).issued_cache found).none⟩

/-- As long as no epoch of the reclaimer of a cache has begun since it was made, and no null was put
into it, there is an exact account of what a request to it costs, whatever its bounds and those of
its tiers have become. -/
theorem Reachable.cache_losses (h : w.Reachable) {making : Making Cache.Options}
    (made : (w.perform (.newCache name making)).reply = .done) {requests : List (Request K V)}
    (spared : ∀ request ∈ requests, request.spares name)
    (filled : ∀ key, .cache name (.put key none) ∉ requests)
    (found : (w.perform (.newCache name making)).world.caches.find name = some placed)
    (found' : ((w.perform (.newCache name making)).world.run requests).caches.find name =
      some placed')
    (quiet : (((w.perform (.newCache name making)).world.run requests).reclaimer
        placed.reclaimer).epoch =
      ((w.perform (.newCache name making)).world.reclaimer placed.reclaimer).epoch) :
    placed'.reclaimer = placed.reclaimer ∧
      placed'.cache.Losses
        (((w.perform (.newCache name making)).world.run requests).reclaimer placed.reclaimer) := by
  have hsince := wholeSince_of_made h.sound made found
  obtain ⟨after, hafter, hreclaimer, hsince'⟩ :=
    wholeSince_run (h.perform _).sound spared filled found hsince
  obtain rfl : after = placed' := Option.some.inj (hafter.symm.trans found')
  have hwhole := hsince'.whole
  rw [hreclaimer] at hwhole
  exact ⟨hreclaimer, (hwhole quiet).losses⟩

/-- A cache of two keys, with a soft tier of one and a listener. -/
def brimmingMaking : Making Cache.Options :=
  { options := { size := 2, softSize := 1 }, reclaimer := some "r", listened := true }

/-- Requests that pin a key of the brimming cache and then fill both tiers. -/
def brimmingRequests : List (Request UInt64 String) :=
  [.newTable "t" { options := { valueStrength := .reclaimable }, reclaimer := some "r" },
    .table "t" (.put (some 1) (some "z")), .cache "c" (.put 1 (some "a")), .cache "c" (.pin 1),
    .cache "c" (.put 2 (some "b")), .cache "c" (.put 3 (some "c")), .cache "c" (.put 4 (some "d")),
    .cache "c" (.get 2)]

/-- The world in which both tiers of the brimming cache are full. -/
def brimming : World UInt64 String :=
  (((run {} [.newReclaimer "r" none]).perform (.newCache "c" brimmingMaking)).world).run
    brimmingRequests

/-- In the full cache a new key and the pinned one each cost an entry, a key of the soft tier costs
none, and a smaller size costs all that is then over the bound of the soft tier. -/
theorem brimming_losses :
    ∃ placed, brimming.caches.find "c" = some placed ∧
      ¬placed.cache.HasRoom (brimming.reclaimer placed.reclaimer) ∧
      ([.put 5 (some "e"), .unpin 1, .put 2 (some "f"), .setSize 0].map fun asking =>
        heard "c" (brimming.perform (.cache "c" asking)).notices) =
          [[.added 5 (some "e"), .removed 3 (some "c") false], [.removed 3 (some "c") false],
            [.removed 2 (some "b") false, .added 2 (some "f")],
            [.removed 3 (some "c") false, .removed 2 (some "b") false]] ∧
      placed.cache.Losses (brimming.reclaimer placed.reclaimer) := by
  have hsome : (brimming.caches.find "c").isSome = true := by decide +kernel
  have hfull : ∀ placed ∈ brimming.caches.find "c",
      ¬placed.cache.HasRoom (brimming.reclaimer placed.reclaimer) := by decide +kernel
  obtain ⟨placed, found⟩ := Option.isSome_iff_exists.mp hsome
  have hreachable : (run {} [.newReclaimer "r" none] : World UInt64 String).Reachable := ⟨_, _, rfl⟩
  have hmade : ((run {} [.newReclaimer "r" none] : World UInt64 String).perform
      (.newCache "c" brimmingMaking)).reply = .done := by decide +kernel
  obtain ⟨before, epoch, found', -, -⟩ := exists_of_made hmade
  have hquiet : ∀ before ∈ ((run {} [.newReclaimer "r" none] : World UInt64 String).perform
      (.newCache "c" brimmingMaking)).world.caches.find "c",
      (brimming.reclaimer before.reclaimer).epoch =
        (((run {} [.newReclaimer "r" none] : World UInt64 String).perform
          (.newCache "c" brimmingMaking)).world.reclaimer before.reclaimer).epoch := by
    decide +kernel
  have hspared : ∀ request ∈ brimmingRequests, request.spares "c" := by
    simp [brimmingRequests, Request.spares]
  have hfilled : ∀ key, .cache "c" (.put key none) ∉ brimmingRequests := by simp [brimmingRequests]
  obtain ⟨hreclaimer, hlosses⟩ :=
    hreachable.cache_losses hmade hspared hfilled found' found (hquiet before found')
  refine ⟨placed, found, hfull placed found, by decide +kernel, ?_⟩
  rw [hreclaimer]
  exact hlosses

end SoftCache.World
