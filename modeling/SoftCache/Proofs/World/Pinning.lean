import SoftCache.Proofs.Cache.Pinning
import SoftCache.Proofs.World.Listening

/-!
# Pins over time

From the making of a cache on, and whatever else is done in the world, just those keys are pinned
that were pinned last, and a pinned key has the value that it had when it was pinned, or the one
that has been established since (`World.Reachable.pin_law`). `World.Pins` says which keys are pinned
with which values. One request makes of them what it says (`World.Sound.pins_perform`), and from
that follows what many requests do (`World.Sound.pins_run`, `World.Sound.pins_kept`).
-/

open scoped List

namespace SoftCache.World

variable {K V : Type} {w : World K V} {name : String} {key : K} {pinned : K → Option (Option V)}

/-- Requests of which the last one to pin or to unpin the key was to pin it. -/
def LastPinned (name : String) (key : K) (requests : List (Request K V)) : Prop :=
  ∃ before after, requests = before ++ .cache name (.pin key) :: after ∧
    .cache name (.unpin key) ∉ after

/-- The first of some requests decides only if none after it does. -/
theorem lastPinned_cons {request : Request K V} {rest : List (Request K V)} :
    LastPinned name key (request :: rest) ↔ LastPinned name key rest ∨
      (request = .cache name (.pin key) ∧ .cache name (.unpin key) ∉ rest) := by
  constructor
  · rintro ⟨_ | ⟨first, before⟩, after, heq, kept⟩
    · cases heq
      exact .inr ⟨rfl, kept⟩
    · cases heq
      exact .inl ⟨before, after, rfl, kept⟩
  · rintro (⟨before, after, rfl, kept⟩ | ⟨rfl, kept⟩)
    · exact ⟨request :: before, after, rfl, kept⟩
    · exact ⟨[], rest, rfl, kept⟩

/-- The cache of the name has these pins. -/
def Pins (w : World K V) (name : String) (pinned : K → Option (Option V)) [DecidableEq K] : Prop :=
  ∃ placed, w.caches.find name = some placed ∧ ∀ key, placed.cache.pins.find key = pinned key

variable [DecidableEq K]

/-- The value that a pinned key of the cache of the name has after a request that leaves it
pinned. -/
def Request.establish (name : String) (key : K) (now : Option V) : Request K V → Option V
  | .cache asked request => if asked = name then request.establish key now else now
  | _ => now

/-- What is pinned under a key of the cache of the name after a request, where a lookup would have
found `seen`. -/
def Request.repin (name : String) (key : K) (seen : Option V) (now : Option (Option V)) :
    Request K V → Option (Option V)
  | .cache asked request => if asked = name then request.repin key seen now else now
  | _ => now

/-- A key is pinned with what a lookup would have found. -/
theorem Request.repin_pin (name : String) (key : K) (seen : Option V) (now : Option (Option V)) :
    (Request.cache name (.pin key)).repin name key seen now = some seen := by
  rw [repin, if_pos rfl, Cache.Request.repin, if_pos rfl]

/-- A request that is none to unpin a pinned key leaves it pinned, with the value established. -/
theorem Request.repin_some {request : Request K V} (kept : request ≠ .cache name (.unpin key))
    (value : Option V) :
    request.repin name key value (some value) = some (request.establish name key value) := by
  cases request with
  | cache asked asking =>
    by_cases same : asked = name
    · rw [repin, if_pos same, establish, if_pos same]
      refine Cache.Request.repin_some (fun heq => kept ?_) value
      rw [same, heq]
    · rw [repin, if_neg same, establish, if_neg same]
  | _ => rfl

/-- A key is pinned after a request to pin it, and stays pinned until there is one to unpin it. -/
theorem Request.isSome_repin (request : Request K V) (seen : Option V) (now : Option (Option V)) :
    (request.repin name key seen now).isSome ↔ request = .cache name (.pin key) ∨
      (now.isSome ∧ request ≠ .cache name (.unpin key)) := by
  cases request with
  | cache asked asking =>
    by_cases same : asked = name
    · rw [repin, if_pos same, Cache.Request.isSome_repin]
      simp [same]
    · simp [repin, same]
  | _ => simp [repin]

/-- What is not asked of the cache leaves its pins alone. -/
theorem Request.repin_of_other {request : Request K V}
    (hother : ∀ asked, request ≠ .cache name asked) (seen : Option V) (now : Option (Option V)) :
    request.repin name key seen now = now := by
  cases request with
  | cache asked asking =>
    refine if_neg ?_
    rintro rfl
    exact hother asking rfl
  | _ => rfl

variable [Hashed K] [Ordered K] [Literal K] [DecidableEq V] [Literal V]

/-! ## One request -/

/-- The answer of a lookup in the cache of the name. -/
def fetch (w : World K V) (name : String) (key : K) : Reply K V :=
  (w.perform (.cache name (.get key))).reply

/-- What is pinned in the cache of the name can be looked up, and every request makes of it what it
says. -/
theorem Sound.pins_perform (h : w.Sound) (pins : w.Pins name pinned) :
    ∃ seen : K → Option V, (∀ key, w.fetch name key = .value (seen key)) ∧
      (∀ key value, pinned key = some value → seen key = value) ∧
      ∀ request, request.spares name →
        (w.perform request).world.Pins name fun key =>
          request.repin name key (seen key) (pinned key) := by
  obtain ⟨placed, found, hpins⟩ := pins
  have htiered := (h.caches _ (Directory.mem_of_find found)).cache
  have hissued := h.issued_cache found
  refine ⟨fun key => (placed.cache.get (w.reclaimer placed.reclaimer) key).result,
    fun key => ?_, fun key value hvalue => ?_, fun request spared => ?_⟩
  · exact (h.perform_cache found (.get key)).1
  · exact htiered.result_get_of_find hissued ((hpins key).trans hvalue)
  by_cases hother : ∀ asked, request ≠ .cache name asked
  · -- What is not asked of the cache leaves it alone.
    obtain ⟨recorder, found'⟩ := (keepsCache_perform h spared hother).1 placed found
    exact ⟨_, found', fun key => (hpins key).trans (Request.repin_of_other hother ..).symm⟩
  · push Not at hother
    obtain ⟨asked, rfl⟩ := hother
    obtain ⟨-, -, -, recorder, found'⟩ := h.perform_cache found asked
    refine ⟨_, found', fun key => (htiered.find_perform hissued asked key).trans ?_⟩
    rw [hpins]
    exact (if_pos rfl).symm

/-- A lookup of a pinned key finds the value of its pin. -/
theorem Sound.fetch_pinned (h : w.Sound) (pins : w.Pins name pinned) {value : Option V}
    (hkey : pinned key = some value) : w.fetch name key = .value value := by
  obtain ⟨seen, hfetch, hseen, -⟩ := h.pins_perform pins
  rw [hfetch, hseen key value hkey]

/-! ## Many requests -/

/-- While it is not unpinned, a key stays pinned, with the value that is established. -/
theorem Sound.pins_kept (h : w.Sound) {requests : List (Request K V)}
    (spared : ∀ request ∈ requests, request.spares name) (pins : w.Pins name pinned)
    {value : Option V} (hkey : pinned key = some value)
    (kept : .cache name (.unpin key) ∉ requests) :
    ∃ pinned', (w.run requests).Pins name pinned' ∧
      pinned' key = some (requests.foldl (Request.establish name key) value) := by
  -- By induction on the requests, each of which leaves the key pinned.
  induction requests generalizing w pinned value with
  | nil => exact ⟨pinned, pins, hkey⟩
  | cons request rest ih =>
    rw [List.mem_cons, not_or] at kept
    obtain ⟨seen, -, hseen, hperform⟩ := h.pins_perform pins
    refine ih (h.perform request) (fun other hother => spared other (List.mem_cons_of_mem _ hother))
      (hperform request (spared request List.mem_cons_self)) ?_ kept.2
    rw [hkey, hseen key value hkey]
    exact Request.repin_some (Ne.symm kept.1) value

/-- A key is pinned in the end if it was pinned last, or before and not unpinned since. -/
theorem Sound.pins_run (h : w.Sound) {requests : List (Request K V)}
    (spared : ∀ request ∈ requests, request.spares name) (pins : w.Pins name pinned) :
    ∃ pinned', (w.run requests).Pins name pinned' ∧
      ∀ key, (pinned' key).isSome ↔ LastPinned name key requests ∨
        ((pinned key).isSome ∧ .cache name (.unpin key) ∉ requests) := by
  induction requests generalizing w pinned with
  | nil =>
    refine ⟨pinned, pins, fun key => ?_⟩
    have hnever : ¬ LastPinned name key ([] : List (Request K V)) := by
      rintro ⟨before, after, heq, -⟩
      simp at heq
    simp [hnever]
  | cons request rest ih =>
    obtain ⟨seen, -, -, hperform⟩ := h.pins_perform pins
    obtain ⟨pinned', hpins', hkeys⟩ := ih (h.perform request)
      (fun other hother => spared other (List.mem_cons_of_mem _ hother))
      (hperform request (spared request List.mem_cons_self))
    refine ⟨pinned', hpins', fun key => ?_⟩
    rw [hkeys, Request.isSome_repin, lastPinned_cons, List.mem_cons, not_or, ne_comm]
    tauto

/-! ## Pinning and unpinning -/

/-- What the cache of the name does without any change changes nothing in the world. -/
theorem Sound.perform_still (h : w.Sound) {placed : PlacedCache K V}
    (found : w.caches.find name = some placed) {asked : Cache.Request K V} {reply : Reply K V}
    (still : placed.cache.perform (w.reclaimer placed.reclaimer) asked =
      .done placed.cache (w.reclaimer placed.reclaimer) reply) :
    w.perform (.cache name asked) = { reply, world := w } := by
  have hrecorder : placed.recorder.hear ([] : List (Cache.Notice K V)) = placed.recorder := by
    rw [Recorder.hear, List.map_nil, List.append_nil]
  have hcaches : w.caches.modify name placed = w.caches := Directory.modify_of_find h.distinct found
  have hsilent : ∀ α : Type, (placed.listener.toList.flatMap fun _ => ([] : List α)) = [] :=
    fun α => List.flatMap_eq_nil_iff.mpr fun _ _ => rfl
  rw [World.perform, World.overCache, found]
  simp only [still, Step.done, List.map_nil, hsilent, hrecorder, hcaches]
  rw [setReclaimer_of_eq rfl]

/-- To pin a pinned key changes nothing in the world, and is answered with whether it has a
value. -/
theorem Sound.perform_pin_again (h : w.Sound) (pins : w.Pins name pinned) {value : Option V}
    (hkey : pinned key = some value) :
    w.perform (.cache name (.pin key)) = { reply := .flag value.isSome, world := w } := by
  obtain ⟨placed, found, hpins⟩ := pins
  refine h.perform_still found ?_
  rw [Cache.perform, Cache.pin, hpins, hkey]
  rfl

/-- To pin a key is answered with whether a lookup finds something for it, and changes the answer of
no lookup. -/
theorem Sound.fetch_pin (h : w.Sound) (pins : w.Pins name pinned) (key : K) :
    ∃ value, w.fetch name key = .value value ∧
      (w.perform (.cache name (.pin key))).reply = .flag value.isSome ∧
      ∀ other,
        (w.perform (.cache name (.pin key))).world.fetch name other = w.fetch name other := by
  obtain ⟨placed, found, hpins⟩ := pins
  have htiered := (h.caches _ (Directory.mem_of_find found)).cache
  have hissued := h.issued_cache found
  obtain ⟨hreply, -, hreclaimer, recorder, found'⟩ := h.perform_cache found (.pin key)
  refine ⟨_, (h.perform_cache found (.get key)).1, ?_, fun other => ?_⟩
  · rw [hreply]
    exact congrArg Reply.flag (htiered.result_pin hissued key)
  · have hfetch := ((h.perform _).perform_cache found' (.get other)).1
    rw [fetch, fetch, hfetch, hreclaimer, (h.perform_cache found (.get other)).1]
    exact congrArg Reply.value (htiered.result_get_pin hissued key other)

/-- Just the pinned keys are answered, each once. -/
theorem Sound.pinnedKeys_perform (h : w.Sound) (pins : w.Pins name pinned) :
    ∃ keys, (w.perform (.cache name .pinnedKeys)).reply = Cache.keyItems keys ∧ keys.Nodup ∧
      ∀ key, key ∈ keys ↔ (pinned key).isSome := by
  obtain ⟨placed, found, hpins⟩ := pins
  have htiered := (h.caches _ (Directory.mem_of_find found)).cache
  refine ⟨_, (h.perform_cache found .pinnedKeys).1, htiered.pins_distinct, fun key => ?_⟩
  rw [← hpins, Directory.isSome_find_iff]
  rfl

/-- To unpin a key is answered with whether it was pinned. -/
theorem Sound.unpin_perform (h : w.Sound) (pins : w.Pins name pinned) (key : K) :
    (w.perform (.cache name (.unpin key))).reply = .flag (pinned key).isSome := by
  obtain ⟨placed, found, hpins⟩ := pins
  rw [(h.perform_cache found (.unpin key)).1, ← hpins]
  exact congrArg Reply.flag (Cache.result_unpin ..)

/-! ## The law of pins -/

/-- What holds of the pins of the cache of the name when these requests have been carried out since
its making. -/
structure PinLaw (name : String) (start : World K V) (requests : List (Request K V)) : Prop where
  /-- Just the keys are pinned that were pinned last. -/
  pinned : ∃ keys, ((start.run requests).perform (.cache name .pinnedKeys)).reply =
      Cache.keyItems keys ∧ keys.Nodup ∧ ∀ key, key ∈ keys ↔ LastPinned name key requests
  /-- A pinned key has the value that it had when it was pinned, or the one that has been
  established since. -/
  value : ∀ {key before after}, requests = before ++ .cache name (.pin key) :: after →
    .cache name (.unpin key) ∉ after → ∃ value, (start.run before).fetch name key = .value value ∧
      (start.run requests).fetch name key =
        .value (after.foldl (Request.establish name key) value)
  /-- To pin a key is answered with whether it has a value, and changes the answer of no lookup. -/
  pin : ∀ key, ∃ value, (start.run requests).fetch name key = .value value ∧
    ((start.run requests).perform (.cache name (.pin key))).reply = .flag value.isSome ∧
    ∀ other, ((start.run requests).perform (.cache name (.pin key))).world.fetch name other =
      (start.run requests).fetch name other
  /-- To pin a key a second time changes nothing, and is answered in the same way. -/
  pinTwice : ∀ key, let once := (start.run requests).perform (.cache name (.pin key))
    once.world.perform (.cache name (.pin key)) = { reply := once.reply, world := once.world }
  /-- To pin a key that is pinned changes nothing, whatever has been done since it was pinned. -/
  pinAgain : ∀ key, LastPinned name key requests →
    ∃ value, (start.run requests).fetch name key = .value value ∧
      (start.run requests).perform (.cache name (.pin key)) =
        { reply := .flag value.isSome, world := start.run requests }
  /-- To unpin a key is answered with whether it was pinned. -/
  unpin : ∀ key, ∃ flag, ((start.run requests).perform (.cache name (.unpin key))).reply =
    .flag flag ∧ (flag = true ↔ LastPinned name key requests)

/-- A cache that was just made has no pins. -/
theorem pins_of_made {making : Making Cache.Options}
    (made : (w.perform (.newCache name making)).reply = .done) :
    (w.perform (.newCache name making)).world.Pins name fun _ => none := by
  obtain ⟨placed, epoch, found, -, hmade⟩ := exists_of_made made
  obtain ⟨loadFactor, cursor, order, hcache⟩ := Cache.create_eq hmade
  refine ⟨placed, found, fun key => ?_⟩
  rw [hcache]
  rfl

/-- From the making of a cache on, whatever is done in the world, its pins keep the law. -/
theorem Reachable.pin_law (h : w.Reachable) {making : Making Cache.Options}
    (made : (w.perform (.newCache name making)).reply = .done) {requests : List (Request K V)}
    (spared : ∀ request ∈ requests, request.spares name) :
    PinLaw name (w.perform (.newCache name making)).world requests := by
  have hstart := (h.perform (.newCache name making)).sound
  have hmade := pins_of_made made
  set start := (w.perform (.newCache name making)).world
  obtain ⟨pinned, hpins, hkeys⟩ := hstart.pins_run spared hmade
  have hlast : ∀ key, (pinned key).isSome ↔ LastPinned name key requests := by
    simpa using hkeys
  have hsound := hstart.run requests
  constructor
  case pinned =>
    obtain ⟨keys, hreply, hnodup, hmem⟩ := hsound.pinnedKeys_perform hpins
    exact ⟨keys, hreply, hnodup, fun key => (hmem key).trans (hlast key)⟩
  case value =>
    rintro key before after rfl kept
    have hbefore := fun request hrequest => spared request (List.mem_append_left _ hrequest)
    have hafter := fun request hrequest =>
      spared request (List.mem_append_right before (List.mem_cons_of_mem _ hrequest))
    -- Just before the key is pinned it is looked up, and from then on its pin is followed.
    obtain ⟨pinned', hpins', -⟩ := hstart.pins_run hbefore hmade
    obtain ⟨seen, hfetch, -, hperform⟩ := (hstart.run before).pins_perform hpins'
    obtain ⟨pinned'', hpins'', hkey⟩ := ((hstart.run before).perform _).pins_kept hafter
      (hperform (.cache name (.pin key)) trivial) (Request.repin_pin ..) kept
    refine ⟨_, hfetch key, ?_⟩
    rw [run_append] at hsound ⊢
    exact hsound.fetch_pinned hpins'' hkey
  case pin => exact hsound.fetch_pin hpins
  case pinTwice =>
    intro key once
    obtain ⟨seen, hfetch, -, hperform⟩ := hsound.pins_perform hpins
    obtain ⟨value, hvalue, hreply, -⟩ := hsound.fetch_pin hpins key
    have hseen : seen key = value := Reply.value.inj ((hfetch key).symm.trans hvalue)
    rw [hreply, ← hseen]
    exact (hsound.perform _).perform_pin_again (hperform (.cache name (.pin key)) trivial)
      (Request.repin_pin ..)
  case pinAgain =>
    intro key last
    obtain ⟨value, hkey⟩ := Option.isSome_iff_exists.mp ((hlast key).mpr last)
    exact ⟨value, hsound.fetch_pinned hpins hkey, hsound.perform_pin_again hpins hkey⟩
  case unpin =>
    exact fun key => ⟨_, hsound.unpin_perform hpins key, hlast key⟩

/-- A cache of two keys, with a soft tier of two. -/
def pinnedMaking : Making Cache.Options :=
  { options := { size := 2, softSize := 2 }, reclaimer := some "r", listened := false }

/-- The world in which the cache of two keys is made, under a budget of one payload. -/
def unpinnedWorld : World UInt64 String :=
  run {} [.newReclaimer "r" (some 1)]

/-- Requests that pin a cleared value, a null and a value, and then change what is pinned. -/
def pinningRequests : List (Request UInt64 String) :=
  [.cache "c" (.put 1 (some "a")), .cache "c" (.put 2 (some "b")), .cache "c" (.put 3 (some "c")),
    .reclaimer "r" (.clear 1), .cache "c" (.pin 2), .cache "c" (.put 4 none), .cache "c" (.pin 4),
    .cache "c" (.pin 1), .cache "c" (.pin 3), .cache "c" (.setSize 0), .reclaimer "r" (.clear 9),
    .cache "c" (.put 1 (some "d")), .cache "c" (.remove 3), .cache "c" (.putAll [(2, "e")] false),
    .cache "c" (.unpin 4), .cache "c" (.unpin 4), .cache "c" (.get 1), .cache "c" (.get 2),
    .cache "c" (.get 3)]

/-- A key whose value had been cleared is pinned with none, and what is pinned outlives a size of
zero. -/
theorem pin_law_pinningRequests :
    let start := (unpinnedWorld.perform (.newCache "c" pinnedMaking)).world
    (start.outcomes pinningRequests).map (·.reply) =
        [.value none, .value none, .value none, .count 1, .flag false, .value none, .flag false,
          .flag true, .flag true, .nothing, .count 0, .value (some "a"), .value (some "c"),
          .nothing, .flag true, .flag false, .value (some "d"), .value (some "e"), .value none] ∧
      PinLaw "c" start pinningRequests := by
  refine ⟨by decide +kernel, Reachable.pin_law ⟨_, _, rfl⟩ (by decide +kernel) ?_⟩
  simp [pinningRequests, Request.spares]

end SoftCache.World
