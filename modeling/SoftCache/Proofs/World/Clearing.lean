import SoftCache.Proofs.Cache.Clearing
import SoftCache.Proofs.World.Pinning

/-!
# Clearing a cache in a world

Who listens to a cache hears of all that was in it when it is cleared, once each, and of nothing
else. Afterwards there is nothing to be found in it, but the keys that were pinned still are, and
the sizes are what they were (`World.Reachable.clears_cache`).
-/

namespace SoftCache.World

variable {K V : Type} [DecidableEq K] [Hashed K] [Ordered K] [Literal K] [DecidableEq V] [Literal V]
  {w : World K V} {name : String} {placed : PlacedCache K V}

/-- What it means that the cache of a name is cleared in a world. -/
structure Clears (w : World K V) (name : String) (placed : PlacedCache K V) : Prop where
  /-- The cache announces all that was in it, and keeps its pins and sizes. -/
  cache : Cache.Clears placed.cache (w.reclaimer placed.reclaimer)
    (placed.cache.clear (w.reclaimer placed.reclaimer))
  /-- There is no answer to wait for. -/
  reply : (w.perform (.cache name .clear)).reply = .nothing
  /-- Who listens hears what the cache announces, and nothing else is heard. -/
  notices : (w.perform (.cache name .clear)).notices =
    placed.listener.toList.flatMap fun listener =>
      (placed.cache.clear (w.reclaimer placed.reclaimer)).notices.map (.cache listener)
  /-- The cache is there afterwards as it was cleared. -/
  found : ∃ recorder, (w.perform (.cache name .clear)).world.caches.find name =
    some { placed with
      cache := (placed.cache.clear (w.reclaimer placed.reclaimer)).state, recorder }
  /-- Its length is zero. -/
  length : ((w.perform (.cache name .clear)).world.perform (.cache name .length)).reply = .count 0
  /-- No key has a value, a pinned one neither. -/
  valueless : ∀ key, (w.perform (.cache name .clear)).world.fetch name key = .value none
  /-- The same keys are pinned as before. -/
  pinned : ((w.perform (.cache name .clear)).world.perform (.cache name .pinnedKeys)).reply =
    (w.perform (.cache name .pinnedKeys)).reply
  /-- The hard tier has the size that it had. -/
  size : ((w.perform (.cache name .clear)).world.perform (.cache name .size)).reply =
    (w.perform (.cache name .size)).reply
  /-- And so has the soft tier. -/
  softSize : ((w.perform (.cache name .clear)).world.perform (.cache name .softSize)).reply =
    (w.perform (.cache name .softSize)).reply

/-- A cache of a reachable world, whatever is in it, is cleared completely, and each entry is
announced once. -/
theorem Reachable.clears_cache (h : w.Reachable) (found : w.caches.find name = some placed) :
    w.Clears name placed := by
  set r := w.reclaimer placed.reclaimer
  have htiered := (h.sound.caches _ (Directory.mem_of_find found)).cache
  have hissued := h.sound.issued_cache found
  have hclears := htiered.clears hissued
  have hsound := h.sound.perform (.cache name .clear)
  obtain ⟨hreply, hnotices, hreclaimer, recorder, found'⟩ := h.sound.perform_cache found .clear
  -- What is asked of the cache before and afterwards is answered by the cache as it is then.
  have hbefore := fun asked => (h.sound.perform_cache found asked).1
  have hafter := fun asked => (hsound.perform_cache found' asked).1
  constructor
  case cache => exact hclears
  case reply => exact hreply
  case notices => exact hnotices
  case found => exact ⟨recorder, found'⟩
  case length =>
    rw [hafter .length, hreclaimer]
    set cleared := placed.cache.clear r
    show Reply.count (cleared.state.length cleared.reclaimer).result = _
    rw [htiered.result_length_clear hissued]
  case valueless =>
    intro key
    rw [fetch, hafter (.get key), hreclaimer]
    exact congrArg Reply.value (htiered.result_get_clear hissued key)
  case pinned =>
    rw [hafter .pinnedKeys, hbefore .pinnedKeys]
    exact congrArg Cache.keyItems placed.cache.pinnedKeys_bare
  case size =>
    rw [hafter .size, hbefore .size]
    rfl
  case softSize =>
    rw [hafter .softSize, hbefore .softSize]
    rfl

/-- A world with a cache to which somebody listens. Of its keys one is pinned with a value and one
without, two are in the hard tier, one of them with a null, and of the two in the soft tier a pass
has cleared one, which nobody has come upon. -/
def assorted : World UInt64 String :=
  run {}
    [.newReclaimer "r" none,
      .newCache "c"
        { options := { size := 2, softSize := 4 }, reclaimer := some "r", listened := true },
      .cache "c" (.put 1 (some "a")), .cache "c" (.put 2 (some "b")),
      .cache "c" (.put 3 (some "c")), .cache "c" (.put 4 (some "d")), .cache "c" (.pin 4),
      .cache "c" (.pin 9), .cache "c" (.put 5 none), .reclaimer "r" (.clear 1)]

/-- The cache announces what was in it tier by tier when it is cleared, and the key that has
expired in between. -/
theorem assorted_clears :
    ∃ placed, assorted.caches.find "c" = some placed ∧
      (assorted.perform (.cache "c" .clear)).notices =
        [.cache "c" (.removed 4 (some "d") false), .cache "c" (.removed 2 none true),
          .cache "c" (.removed 5 none false), .cache "c" (.removed 1 (some "a") false),
          .cache "c" (.removed 3 (some "c") false)] ∧
      assorted.Clears "c" placed := by
  have hsome : (assorted.caches.find "c").isSome = true := by decide +kernel
  obtain ⟨placed, found⟩ := Option.isSome_iff_exists.mp hsome
  have hreachable : assorted.Reachable := ⟨_, _, rfl⟩
  exact ⟨placed, found, by decide +kernel, hreachable.clears_cache found⟩

end SoftCache.World
