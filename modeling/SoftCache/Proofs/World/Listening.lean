import SoftCache.Proofs.World.Frames

/-!
# Listening to a cache

Somebody who listens to a cache from its making on and keeps a mirror of what is announced knows at
any time just what is in the cache, whatever else is done in the world (`World.Reachable.tracks`).
One request leads from a mirror of the cache before to one of the cache afterwards
(`World.Sound.replays`), and `World.Tracks` says so of all requests one after the other.
-/

open scoped List

namespace SoftCache.World

variable {K V : Type} {w w' : World K V} {name : String}

/-! ## What is heard and what may be lost -/

/-- The notices for who listens to a cache under its name. -/
def heard (name : String) (notices : List (Notice K V)) : List (Cache.Notice K V) :=
  notices.filterMap fun
    | .cache listener notice => if listener = name then some notice else none
    | .table .. => none

/-- What is announced to a listener of the name is heard. -/
theorem heard_self (name : String) (notices : List (Cache.Notice K V)) :
    heard name ((some name).toList.flatMap fun listener => notices.map (.cache listener)) =
      notices := by
  rw [heard, Option.toList_some, List.flatMap_singleton, List.filterMap_map]
  exact (List.filterMap_congr fun notice _ => if_pos rfl).trans List.filterMap_some

/-- What is announced to a listener of another name is not heard. -/
theorem heard_of_ne {listener : Option String} (hne : ∀ other ∈ listener, other ≠ name)
    (notices : List (Cache.Notice K V)) :
    heard name (listener.toList.flatMap fun listener => notices.map (.cache listener)) = [] := by
  cases listener with
  | none => rfl
  | some other =>
    rw [heard, Option.toList_some, List.flatMap_singleton, List.filterMap_map]
    exact List.filterMap_eq_nil_iff.mpr fun notice _ => if_neg (hne other rfl)

/-- What tables announce is not heard under the name of a cache. -/
theorem heard_table (name : String) (listener : Option String)
    (notices : List (SoftCache.Notice K V)) :
    heard (K := K) name (listener.toList.flatMap fun listener => notices.map (.table listener)) =
      [] := by
  cases listener with
  | none => rfl
  | some listener =>
    rw [heard, Option.toList_some, List.flatMap_singleton, List.filterMap_map]
    exact List.filterMap_eq_nil_iff.mpr fun notice _ => rfl

variable [DecidableEq K] [Hashed K] [Ordered K] [Literal K] [DecidableEq V] [Literal V]

/-- What comes of a request that asks nothing of a cache leaves it alone, and is not heard under its
name. -/
theorem keepsCache_of_effect (h : w.Sound) {request : Request K V} {notices : List (Notice K V)}
    (effect : w.Effect request w' notices) (spared : request.spares name)
    (hother : ∀ asked, request ≠ .cache name asked) :
    w.KeepsCache w' name ∧ heard name notices = [] := by
  cases hworks : request.works with
  | false =>
    obtain ⟨hkeeps, rfl⟩ := keeps_of_effect h effect spared hworks
    exact ⟨hkeeps.cache, rfl⟩
  | true =>
    cases effect with
    | nothing => exact ⟨.of_eq rfl, rfl⟩
    | table => exact ⟨.of_eq rfl, heard_table ..⟩
    | @cache asked asking _ _ _ found =>
      have hne : asked ≠ name := by
        rintro rfl
        exact hother asking rfl
      refine ⟨.of_eq ((Directory.find_modify ..).trans (if_neg hne)), ?_⟩
      -- Who listens to another cache does so under another name.
      have hlistener := (h.caches _ (Directory.mem_of_find found)).heard
      exact heard_of_ne (fun other hother => (hlistener other hother).trans_ne hne) _
    | @recorder asked placed found =>
      refine ⟨fun old hold => ?_, rfl⟩
      by_cases hasked : asked = name
      · subst hasked
        cases found.symm.trans hold
        refine ⟨.empty, (Directory.find_modify ..).trans ?_⟩
        rw [if_pos rfl, hold]
        rfl
      · exact ⟨old.recorder, (Directory.find_modify ..).trans ((if_neg hasked).trans hold)⟩
    | @randomWalk _ newName number placed drawn =>
      have hdrawn : w.KeepsCache
          { w with tables := w.tables.modify number { placed with table := drawn.state } } name :=
        .of_eq rfl
      exact ⟨hdrawn.trans (keeps_addWalk _ name newName number .entries drawn.result).cache, rfl⟩
    | goOn => exact ⟨.of_eq rfl, rfl⟩
    | remove => exact ⟨.of_eq rfl, heard_table ..⟩
    | newReclaimer | newTable | newCache | copy | drop | reclaimer | walk => cases hworks

/-- What is not asked of a cache leaves it alone, and is not heard under its name. -/
theorem keepsCache_perform (h : w.Sound) {request : Request K V} (spared : request.spares name)
    (hother : ∀ asked, request ≠ .cache name asked) :
    w.KeepsCache (w.perform request).world name ∧ heard name (w.perform request).notices = [] :=
  keepsCache_of_effect h (w.effect_perform request) spared hother

/-- What is asked of a cache is done by the cache and its reclaimer. -/
theorem Sound.perform_cache (h : w.Sound) {placed : PlacedCache K V}
    (found : w.caches.find name = some placed) (asked : Cache.Request K V) :
    let done := placed.cache.perform (w.reclaimer placed.reclaimer) asked
    (w.perform (.cache name asked)).reply = done.result ∧
      (w.perform (.cache name asked)).notices =
        (placed.listener.toList.flatMap fun listener => done.notices.map (.cache listener)) ∧
      (w.perform (.cache name asked)).world.reclaimer placed.reclaimer = done.reclaimer ∧
      ∃ recorder, (w.perform (.cache name asked)).world.caches.find name =
        some { placed with cache := done.state, recorder } := by
  intro done
  have index := (h.caches _ (Directory.mem_of_find found)).index
  rw [World.perform, World.overCache, found]
  refine ⟨rfl, rfl, reclaimer_setReclaimer_self (by exact index) _,
    placed.recorder.hear (placed.listener.toList.flatMap fun _ => done.notices),
    (Directory.find_modify ..).trans ?_⟩
  rw [if_pos rfl, found]
  rfl

/-- A cache that is made is there, as it was created. -/
theorem exists_of_made {making : Making Cache.Options}
    (made : (w.perform (.newCache name making)).reply = .done) :
    ∃ placed epoch, (w.perform (.newCache name making)).world.caches.find name = some placed ∧
      (placed.listener = if making.listened then some name else none) ∧
      Cache.create w.shared making.options epoch = .ok placed.cache := by
  obtain ⟨-, ⟨-, hreply⟩ | ⟨provided, number, cache, -, hmade, heq⟩⟩ :=
    w.make_cases making (Cache.create w.shared) fun w number cache =>
      w.addCache name ⟨cache, number, if making.listened then some name else none, .empty⟩
  · exact absurd made hreply
  · rw [World.perform, makeCache, heq]
    exact ⟨_, _, (Directory.find_set ..).trans (if_pos rfl), rfl, hmade⟩

end SoftCache.World
