import SoftCache.Proofs.Cache.Stillness
import SoftCache.Proofs.World.Pinning
import SoftCache.Proofs.World.Refinement

/-!
# Reads and passes move nothing

Whatever is read of a cache, every key stays in its tier and keeps its value, and so it does when a
reclaimer makes a pass that does not clear it (`World.Reachable.stays`). All that a read announces
are keys of the soft tier whose values had been cleared. What is answered for a key agrees.
-/

namespace SoftCache.World

variable {K V : Type} [DecidableEq K] [Hashed K] [Ordered K] [Literal K] [DecidableEq V] [Literal V]
  {w w' : World K V} {name : String} {placed placed' : PlacedCache K V}

/-- A key is in the same tier of the cache of the name in both worlds, and the same is found for
it. -/
structure Rests (w w' : World K V) (name : String) (key : K) : Prop where
  /-- The key is where it was. -/
  locate : (w'.perform (.cache name (.locate key))).reply =
    (w.perform (.cache name (.locate key))).reply
  /-- The value is what it was. -/
  fetch : w'.fetch name key = w.fetch name key

/-- A cache in a world that is moved neither by reads nor by passes. -/
structure Stays (w : World K V) (name : String) (placed : PlacedCache K V) : Prop where
  /-- A read moves no key. -/
  reading : ∀ asking : Cache.Request K V, asking.reads = true → ∀ key,
    w.Rests (w.perform (.cache name asking)).world name key
  /-- A read announces just that values of the soft tier have expired that had been cleared. -/
  announced : ∀ asking : Cache.Request K V, asking.reads = true →
    ∀ notice ∈ (placed.cache.perform (w.reclaimer placed.reclaimer) asking).notices,
      placed.cache.Expires (w.reclaimer placed.reclaimer) notice
  /-- Nothing else is heard in the world. -/
  heard : ∀ asking : Cache.Request K V, asking.reads = true →
    ∀ notice ∈ (w.perform (.cache name asking)).notices, ∃ expiry,
      notice = .cache name expiry ∧ placed.cache.Expires (w.reclaimer placed.reclaimer) expiry
  /-- A pass moves no key, unless it clears a payload of its slot in the soft tier. -/
  passing : ∀ other passing key, ¬placed.cache.soft.Struck (w.reclaimer placed.reclaimer)
      (w.passed placed.reclaimer (.reclaimer other passing : Request K V)) (some key) →
    w.Rests (w.perform (.reclaimer other passing)).world name key
  /-- A pass announces nothing. -/
  silent : ∀ other passing, (w.perform (.reclaimer other passing)).notices = []
  /-- What is answered for a key agrees. -/
  agrees : ∀ key, placed.cache.Agrees (w.reclaimer placed.reclaimer) key

/-- A key rests if it is in the same tier of the cache as it is left, and is found there with the
same value. -/
theorem Sound.rests (h : w.Sound) (h' : w'.Sound) (found : w.caches.find name = some placed)
    (found' : w'.caches.find name = some placed') {key : K}
    (locate : placed'.cache.locate (w'.reclaimer placed'.reclaimer) key =
      placed.cache.locate (w.reclaimer placed.reclaimer) key)
    (get : (placed'.cache.get (w'.reclaimer placed'.reclaimer) key).result =
      (placed.cache.get (w.reclaimer placed.reclaimer) key).result) : w.Rests w' name key where
  locate := by
    rw [(h.perform_cache found (.locate key)).1, (h'.perform_cache found' (.locate key)).1]
    exact congrArg Reply.tier locate
  fetch := by
    rw [fetch, fetch, (h.perform_cache found (.get key)).1, (h'.perform_cache found' (.get key)).1]
    exact congrArg Reply.value get

/-- A read moves no key. -/
theorem Sound.rests_of_reads (h : w.Sound) (found : w.caches.find name = some placed)
    {asking : Cache.Request K V} (reads : asking.reads = true) (key : K) :
    w.Rests (w.perform (.cache name asking)).world name key := by
  have htiered := (h.caches _ (Directory.mem_of_find found)).cache
  have hissued := h.issued_cache found
  have hattends := Cache.attends_perform htiered hissued asking
  have hretains := Cache.retains_perform htiered hissued reads
  obtain ⟨-, -, hreclaimer, recorder, found'⟩ := h.perform_cache found asking
  refine h.rests (h.perform _) found found' ?_ ?_
  · rw [hreclaimer]
    exact hretains.locate hattends htiered key
  · rw [hreclaimer]
    exact hretains.result_get hattends htiered hissued key

omit [DecidableEq K] [Hashed K] [Ordered K] [Literal K] [DecidableEq V] [Literal V] in
/-- A pass leaves a slot as stale as it was, if it clears none of its payloads. -/
theorem isStale_overReclaimer {number : Nat} (index : number < w.reclaimers.length)
    (orderly : (w.reclaimer number).Orderly) (other : String) (passing : Reclaimer.Request)
    {s : Slot K V} (spared : ∀ payload ∈ s.payloads, payload ∉ (w.reclaimer number).live.take
      (w.passed number (.reclaimer other passing : Request K V))) :
    s.isStale ((w.overReclaimer other passing).world.reclaimer number) =
      s.isStale (w.reclaimer number) := by
  obtain ⟨limit, hlimit, hpasses⟩ := reclaimer_overReclaimer index orderly other passing
  refine Slot.isStale_congr fun payload hp => ?_
  have hspared := spared payload hp
  rw [← hlimit] at hspared
  rcases hpasses with hpass | ⟨-, hcompact⟩
  · rw [hpass, orderly.toFiled.live_clear]
    constructor
    · exact fun hlive => List.mem_of_mem_drop hlive
    · intro hlive
      rw [← List.take_append_drop limit (w.reclaimer number).live] at hlive
      exact (List.mem_append.mp hlive).resolve_left hspared
  · rw [hcompact]
    rfl

/-- A pass moves no key of which it clears no payload. -/
theorem Sound.rests_of_passing (h : w.Sound) (found : w.caches.find name = some placed)
    (other : String) (passing : Reclaimer.Request) {key : K}
    (spared : ¬placed.cache.soft.Struck (w.reclaimer placed.reclaimer)
      (w.passed placed.reclaimer (.reclaimer other passing : Request K V)) (some key)) :
    w.Rests (w.perform (.reclaimer other passing)).world name key := by
  have hplaced := h.caches _ (Directory.mem_of_find found)
  have hissued := h.issued_cache found
  have h' := h.perform (.reclaimer other passing)
  have hspares : (Request.reclaimer other passing : Request K V).spares name := trivial
  have hkeeps := (keeps_perform h hspares rfl).1
  obtain ⟨recorder, found'⟩ := hkeeps.cache placed found
  have hissued' := h'.issued_cache found'
  have hsame : ∀ s ∈ placed.cache.soft.buckets.slots, s.key.content = some key →
      s.isStale ((w.overReclaimer other passing).world.reclaimer placed.reclaimer) =
        s.isStale (w.reclaimer placed.reclaimer) := fun s hs hkey =>
    isStale_overReclaimer hplaced.index hissued.toOrderly other passing fun payload hp hcleared =>
      spared ⟨s, hs, hkey, payload, hp, hcleared⟩
  have hsoft := Cache.mem_softEntries_congr hsame
  have hhard : ∀ value, (some key, value) ∈ placed.cache.hard.entries
      ((w.overReclaimer other passing).world.reclaimer placed.reclaimer) ↔
        (some key, value) ∈ placed.cache.hard.entries (w.reclaimer placed.reclaimer) := by
    intro value
    rw [hplaced.cache.entries_hard (w.reclaimer placed.reclaimer)]
  refine h.rests h' found found' ?_ ?_
  · exact hplaced.cache.locate_congr hplaced.cache rfl hhard hsoft
  · exact hplaced.cache.result_get_congr hplaced.cache hissued hissued' rfl hhard hsoft

/-- The caches of a reachable world are moved neither by reads nor by passes. -/
theorem Reachable.stays (h : w.Reachable) (found : w.caches.find name = some placed) :
    w.Stays name placed := by
  have hplaced := h.sound.caches _ (Directory.mem_of_find found)
  have hissued := h.sound.issued_cache found
  have hannounced : ∀ asking : Cache.Request K V, asking.reads = true →
      ∀ notice ∈ (placed.cache.perform (w.reclaimer placed.reclaimer) asking).notices,
        placed.cache.Expires (w.reclaimer placed.reclaimer) notice := fun _ reads =>
    (Cache.retains_perform hplaced.cache hissued reads).notices
  constructor
  case reading => exact fun _ reads => h.sound.rests_of_reads found reads
  case announced => exact hannounced
  case heard =>
    intro asking reads notice hnotice
    rw [(h.sound.perform_cache found asking).2.1] at hnotice
    obtain ⟨listener, hlistener, hheard⟩ := List.mem_flatMap.mp hnotice
    obtain ⟨expiry, hexpiry, rfl⟩ := List.mem_map.mp hheard
    have hname := hplaced.heard listener (by simpa using hlistener)
    exact ⟨expiry, by rw [hname], hannounced asking reads expiry hexpiry⟩
  case passing => exact fun other passing _ => h.sound.rests_of_passing found other passing
  case silent =>
    intro other passing
    have hspared : (Request.reclaimer other passing : Request K V).spares name := trivial
    exact (keeps_perform h.sound hspared rfl).2
  case agrees => exact hplaced.cache.agrees hissued

/-- A world with a cache to which somebody listens. A key is pinned, another has a null in the hard
tier, and of the two in the soft tier a pass has cleared one. -/
def settled : World Clustered String :=
  run {}
    [.newReclaimer "r" none,
      .newCache "c"
        { options := { size := 1, softSize := 4, byUse := true }, reclaimer := some "r",
          listened := true },
      .cache "c" (.put ⟨1⟩ (some "a")), .cache "c" (.pin ⟨1⟩), .cache "c" (.put ⟨2⟩ (some "b")),
      .cache "c" (.put ⟨6⟩ (some "c")), .cache "c" (.put ⟨10⟩ none), .reclaimer "r" (.clear 1)]

/-- In the settled world a lookup of a live key of the soft tier drops the slot of the other one and
announces it. The key is not moved by that, nor by a pass that clears nothing. -/
theorem settled_stays :
    ∃ placed, settled.caches.find "c" = some placed ∧
      ([1, 2, 6, 10].map fun key =>
        ((settled.perform (.cache "c" (.locate ⟨key⟩))).reply, settled.fetch "c" ⟨key⟩)) =
          [(.tier (some .pinned), .value (some "a")), (.tier none, .value none),
            (.tier (some .soft), .value (some "c")), (.tier (some .hard), .value none)] ∧
      (settled.perform (.cache "c" (.get ⟨6⟩))).notices = [.cache "c" (.removed ⟨2⟩ none true)] ∧
      settled.Rests (settled.perform (.cache "c" (.get ⟨6⟩))).world "c" ⟨6⟩ ∧
      settled.Stays "c" placed := by
  have hsome : (settled.caches.find "c").isSome = true := by decide +kernel
  obtain ⟨placed, found⟩ := Option.isSome_iff_exists.mp hsome
  have hreachable : settled.Reachable := ⟨_, _, rfl⟩
  have hstays := hreachable.stays found
  exact ⟨placed, found, by decide +kernel, by decide +kernel, hstays.reading _ rfl _, hstays⟩

end SoftCache.World
