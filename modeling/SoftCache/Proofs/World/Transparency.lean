import SoftCache.Proofs.Cache.Transparency
import SoftCache.Proofs.World.Listening
import SoftCache.Proofs.World.Refinement

/-!
# Using a cache

Who uses a cache whose soft tier has no bound, under a reclaimer that clears nothing, has to do with
a plain cache, whatever else is done in the world (`World.Reachable.imitates`). What is asked of the
cache is answered as the plain cache answers it, and only what leaves that is announced to leave
(`World.answers_perform`). Everything else leaves the plain cache alone (`World.carries_perform`).
-/

open scoped List

namespace SoftCache.World

variable {K V : Type} {w w' : World K V} {name : String} {listened : Bool} {p : PlainCache K V}
  {request : Request K V}

/-! ## Undisturbed caches -/

/-- How many payloads a request clears in a pass of the reclaimer of the cache of the name. -/
def cleared (w : World K V) (name : String) (request : Request K V) : Nat :=
  (w.caches.find name).elim 0 fun placed =>
    (w.reclaimer placed.reclaimer).clearable (w.passed placed.reclaimer request)

/-- What is heard of the entries that leave a cache, if somebody listens. -/
def farewells (listened : Bool) (gone : List (K × V)) : List (Cache.Notice K V) :=
  if listened then gone.map PlainCache.farewell else []

variable [DecidableEq K] [Hashed K]

/-- The cache of the name, to which somebody may listen, is a plain cache to its users. -/
def Carries (w : World K V) (name : String) (listened : Bool) (p : PlainCache K V) : Prop :=
  ∃ placed, w.caches.find name = some placed ∧
    placed.listener = (if listened then some name else none) ∧
    placed.cache.Carries (w.reclaimer placed.reclaimer) [] p

variable [Ordered K] [Literal K] [DecidableEq V] [Literal V]

/-- While the requests are carried out, the reclaimer of the cache of the name clears nothing. -/
def Undisturbed (name : String) : World K V → List (Request K V) → Prop
  | _, [] => True
  | w, request :: rest =>
    w.cleared name request = 0 ∧ Undisturbed name (w.perform request).world rest

/-- Whether a cache is undisturbed can be found out. -/
instance decidableUndisturbed (name : String) :
    (w : World K V) → (requests : List (Request K V)) → Decidable (Undisturbed name w requests)
  | _, [] => .isTrue trivial
  | w, request :: rest =>
    have := decidableUndisturbed name (w.perform request).world rest
    inferInstanceAs (Decidable (w.cleared name request = 0 ∧ _))

/-! ## One request -/

/-- What is asked of the cache is answered as the plain cache answers it, and only what leaves the
plain cache is announced to leave. -/
theorem answers_perform (h : w.Sound) (carries : w.Carries name listened p)
    {asking : Cache.Request K V} (mild : PlainCache.Mild asking) :
    ∃ gone p', p.Answers asking (w.perform (.cache name asking)).reply gone p' ∧
      (heard name (w.perform (.cache name asking)).notices).filter Cache.Notice.isRemoval =
        farewells listened gone ∧
      (w.perform (.cache name asking)).world.Carries name listened p' := by
  obtain ⟨placed, found, hlistener, hcache⟩ := carries
  obtain ⟨gone, p', hanswers, hbrings⟩ := hcache.answers_perform mild
  obtain ⟨hreply, hnotices, hreclaimer, recorder, found'⟩ := h.perform_cache found asking
  rw [hreply]
  refine ⟨gone, p', hanswers, ?_, _, found', hlistener, ?_⟩
  · rw [hnotices, hlistener]
    cases listened with
    | true =>
      rw [if_pos rfl, heard_self]
      exact hbrings.gone_eq
    | false => rfl
  · rw [hreclaimer]
    exact hbrings.carries

/-- To a reclaimer a request hands over what is in custody, or it is a pass over what it may clear,
or it leaves all of that alone. -/
theorem reclaimer_perform (h : w.Sound) {owner : Nat} (index : owner < w.reclaimers.length)
    (request : Request K V) :
    Handover (w.reclaimer owner) ((w.perform request).world.reclaimer owner) (w.custody owner)
        ((w.perform request).world.custody owner) ∨
      ∃ limit, (w.reclaimer owner).live.take limit =
          (w.reclaimer owner).live.take (w.passed owner request) ∧
        ((w.perform request).world.reclaimer owner = (w.reclaimer owner).clear limit ∨
          (w.perform request).world.reclaimer owner = (w.reclaimer owner).compact) := by
  by_cases hpass : ∀ other passing, request ≠ .reclaimer other passing
  · exact .inl ((h.advances request hpass).hands.handover owner index)
  · push Not at hpass
    obtain ⟨other, passing, rfl⟩ := hpass
    obtain ⟨limit, hlimit, hpasses⟩ :=
      reclaimer_overReclaimer index (h.issued owner index).toOrderly other passing
    exact .inr ⟨limit, hlimit, hpasses.imp_right And.right⟩

/-- Time passes for a reclaimer, whatever is requested. -/
theorem precedes_perform (h : w.Sound) {owner : Nat} (index : owner < w.reclaimers.length)
    (request : Request K V) :
    (w.reclaimer owner).Precedes ((w.perform request).world.reclaimer owner) := by
  obtain hand | ⟨limit, -, hclear | hcompact⟩ := reclaimer_perform h index request
  · exact hand.precedes
  · rw [hclear]
    exact Reclaimer.precedes_clear _ limit
  · rw [hcompact]
    exact ⟨rfl, le_rfl, le_rfl, fun _ _ hlive => hlive⟩

/-- In an epoch that lasts, what is live and stays in custody stays live. -/
theorem live_of_quiet (h : w.Sound) {owner : Nat} (index : owner < w.reclaimers.length)
    (quiet : ((w.perform request).world.reclaimer owner).epoch = (w.reclaimer owner).epoch)
    {payload : Nat} (hn : payload < (w.reclaimer owner).next)
    (hkept : payload ∈ (w.perform request).world.custody owner)
    (hlive : payload ∈ (w.reclaimer owner).live) :
    payload ∈ ((w.perform request).world.reclaimer owner).live := by
  obtain hand | ⟨limit, -, hclear | hcompact⟩ := reclaimer_perform h index request
  · exact hand.live_of_live quiet hn hlive fun _ => hkept
  · rw [hclear] at quiet ⊢
    -- A pass that clears something begins an epoch.
    have hnothing : (w.reclaimer owner).clearable limit = 0 := by
      by_contra hsome
      rw [Reclaimer.epoch_clear, if_neg hsome] at quiet
      omega
    rwa [Reclaimer.live_clear_of_clearable hnothing]
  · rwa [hcompact]

/-- An undisturbed reclaimer without a budget begins no epoch. -/
theorem epoch_of_undisturbed (h : w.Sound) {placed : PlacedCache K V}
    (found : w.caches.find name = some placed)
    (hbudget : (w.reclaimer placed.reclaimer).budget = none)
    (undisturbed : w.cleared name request = 0) :
    ((w.perform request).world.reclaimer placed.reclaimer).epoch =
      (w.reclaimer placed.reclaimer).epoch := by
  have index := (h.caches _ (Directory.mem_of_find found)).index
  obtain hand | ⟨limit, hlimit, hclear | hcompact⟩ := reclaimer_perform h index request
  · exact hand.quiet (.inl hbudget)
  · have hfiled := (h.issued _ index).toFiled
    have hnothing : (w.reclaimer placed.reclaimer).clearable limit = 0 := by
      rw [cleared, found, Option.elim_some, hfiled.clearable_eq_zero_iff,
        ← List.take_eq_nil_iff, ← hlimit, List.take_eq_nil_iff] at undisturbed
      exact hfiled.clearable_eq_zero_iff.mpr undisturbed
    rw [hclear, Reclaimer.epoch_clear, if_pos hnothing]
  · rw [hcompact]
    rfl

/-- What a cache keeps and was live stays live while no epoch begins. -/
theorem live_perform (h : w.Sound) {placed : PlacedCache K V}
    (found : w.caches.find name = some placed)
    (quiet : ((w.perform request).world.reclaimer placed.reclaimer).epoch =
      (w.reclaimer placed.reclaimer).epoch) {placed' : PlacedCache K V}
    (found' : (w.perform request).world.caches.find name = some placed')
    (hreclaimer : placed'.reclaimer = placed.reclaimer) (hcache : placed'.cache = placed.cache) :
    ∀ payload ∈ placed.cache.payloads, payload ∈ (w.reclaimer placed.reclaimer).live →
      payload ∈ ((w.perform request).world.reclaimer placed.reclaimer).live := by
  have index := (h.caches _ (Directory.mem_of_find found)).index
  refine fun payload hp =>
    live_of_quiet h index quiet ((h.issued_cache found).lt_next payload hp) ?_
  -- The cache keeps its payloads, so they stay in custody.
  rw [← hreclaimer]
  refine mem_custody_of_cache (Directory.mem_of_find found') ?_
  rw [hcache]
  exact hp

/-- What is not asked of an undisturbed cache leaves the plain cache alone, and is not heard. -/
theorem carries_perform (h : w.Sound) (spared : request.spares name)
    (carries : w.Carries name listened p) (hother : ∀ asking, request ≠ .cache name asking)
    (undisturbed : w.cleared name request = 0) :
    heard name (w.perform request).notices = [] ∧
      (w.perform request).world.Carries name listened p := by
  obtain ⟨placed, found, hlistener, hcache⟩ := carries
  obtain ⟨hkeeps, hheard⟩ := keepsCache_perform h spared hother
  obtain ⟨recorder, found'⟩ := hkeeps placed found
  have index := (h.caches _ (Directory.mem_of_find found)).index
  have hbudget := (precedes_perform h index request).budget.trans hcache.budget
  have hquiet := epoch_of_undisturbed h found hcache.budget undisturbed
  have hlive := live_perform h found hquiet found' rfl rfl
  have hissued := (h.perform request).issued_cache found'
  exact ⟨hheard, _, found', hlistener, hcache.under hissued hbudget hlive⟩

/-! ## All requests -/

/-- A plain cache that is followed while requests are carried out in a world. It is what the cache
of the name is to its users before each request and after the last. What is asked of the cache is
answered as the plain one answers it, and what leaves the plain one is all that is announced to
leave. -/
inductive Imitates (name : String) (listened : Bool) :
    World K V → PlainCache K V → List (Request K V) → Prop
  /-- There are no more requests. -/
  | done {w : World K V} {p : PlainCache K V} :
    w.Carries name listened p → Imitates name listened w p []
  /-- The cache is asked for something. -/
  | asked {w : World K V} {p p' : PlainCache K V} {asking : Cache.Request K V}
    {gone : List (K × V)} {rest : List (Request K V)} :
    w.Carries name listened p →
      p.Answers asking (w.perform (.cache name asking)).reply gone p' →
      (heard name (w.perform (.cache name asking)).notices).filter Cache.Notice.isRemoval =
        farewells listened gone →
      Imitates name listened (w.perform (.cache name asking)).world p' rest →
      Imitates name listened w p (.cache name asking :: rest)
  /-- Something else is done. -/
  | unasked {w : World K V} {p : PlainCache K V} {request : Request K V}
    {rest : List (Request K V)} :
    w.Carries name listened p → (∀ asking, request ≠ .cache name asking) →
      heard name (w.perform request).notices = [] →
      Imitates name listened (w.perform request).world p rest →
      Imitates name listened w p (request :: rest)

/-- Mild requests to an undisturbed cache, and any others that leave the name to it, are those of a
plain cache. -/
theorem imitates_requests (h : w.Sound) {requests : List (Request K V)}
    (spared : ∀ request ∈ requests, request.spares name)
    (mild : ∀ asking, .cache name asking ∈ requests → PlainCache.Mild asking)
    (undisturbed : Undisturbed name w requests) (carries : w.Carries name listened p) :
    Imitates name listened w p requests := by
  -- By induction on the requests, each of which leaves a plain cache to go on with.
  induction requests generalizing w p with
  | nil => exact .done carries
  | cons request rest ih =>
    obtain ⟨hcleared, hundisturbed⟩ := undisturbed
    have hrest : ∀ p', (w.perform request).world.Carries name listened p' →
        Imitates name listened (w.perform request).world p' rest := fun p' =>
      ih (h.perform request) (fun other hother => spared other (List.mem_cons_of_mem _ hother))
        (fun asking hasking => mild asking (List.mem_cons_of_mem _ hasking)) hundisturbed
    by_cases hother : ∀ asking, request ≠ .cache name asking
    · obtain ⟨hheard, hcarries⟩ :=
        carries_perform h (spared request List.mem_cons_self) carries hother hcleared
      exact .unasked carries hother hheard (hrest p hcarries)
    · push Not at hother
      obtain ⟨asking, rfl⟩ := hother
      obtain ⟨gone, p', hanswers, hheard, hcarries⟩ :=
        answers_perform h carries (mild asking List.mem_cons_self)
      exact .asked carries hanswers hheard (hrest p' hcarries)

omit [Ordered K] [Literal K] [DecidableEq V] [Literal V] in
/-- A cache that was just made is empty to its users. -/
theorem carries_addCache (h : w.Sound) {number : Nat} (index : number < w.reclaimers.length)
    (hbudget : (w.reclaimer number).budget = none) {options : Cache.Options} {cache : Cache K V}
    (hmade : Cache.create w.shared options (w.reclaimer number).epoch = .ok cache)
    (negative : options.softSize < 0) (name : String) (listened : Bool) :
    (w.addCache name
      ⟨cache, number, if listened then some name else none, .empty⟩).Carries name listened
        ⟨∅, ∅, options.size⟩ := by
  have hadded := h.placeCache index hmade name listened
  have found : (w.addCache name
      ⟨cache, number, if listened then some name else none, .empty⟩).caches.find name =
        some ⟨cache, number, if listened then some name else none, .empty⟩ :=
    (Directory.find_set ..).trans (if_pos rfl)
  -- The budget of the reclaimer does not change when the cache is brought in.
  have hbudget' := (hadded.hands.handover number index).precedes.budget.trans hbudget
  exact ⟨_, found, rfl,
    Cache.carries_create hmade negative (hadded.sound.issued_cache found) hbudget'⟩

/-- A cache that is made with a soft tier without a bound, and with a reclaimer without a budget
that anything else may share, is a plain cache that is empty at first, while nothing is cleared. -/
theorem Reachable.imitates (h : w.Reachable) {making : Making Cache.Options}
    (negative : making.options.softSize < 0)
    (unlimited : ∀ other ∈ making.reclaimer, ∀ number ∈ w.reclaimerOf other,
      (w.reclaimer number).budget = none)
    (made : (w.perform (.newCache name making)).reply = .done) {requests : List (Request K V)}
    (spared : ∀ request ∈ requests, request.spares name)
    (mild : ∀ asking, .cache name asking ∈ requests → PlainCache.Mild asking)
    (undisturbed : Undisturbed name (w.perform (.newCache name making)).world requests) :
    Imitates name making.listened (w.perform (.newCache name making)).world
      ⟨∅, ∅, making.options.size⟩ requests := by
  refine imitates_requests (h.perform _).sound spared mild undisturbed ?_
  obtain ⟨-, ⟨-, hreply⟩ | ⟨provided, number, cache, hprovide, hmade, heq⟩⟩ :=
    w.make_cases making (Cache.create w.shared) fun w number cache =>
      w.addCache name ⟨cache, number, if making.listened then some name else none, .empty⟩
  · exact absurd made hreply
  · obtain ⟨hprovided, hindex⟩ := h.sound.provide hprovide
    obtain ⟨reclaimers, rfl⟩ := provide_eq hprovide
    rw [World.perform, makeCache, heq]
    exact carries_addCache hprovided.sound hindex (budget_of_provide unlimited hprovide) hmade
      negative name _

/-- A world with two reclaimers and a table for each. -/
def divided : World UInt64 String :=
  run {}
    [.newReclaimer "r" none, .newReclaimer "s" none,
      .newTable "t" { options := { valueStrength := .reclaimable }, reclaimer := some "r" },
      .newTable "u" { options := { valueStrength := .reclaimable }, reclaimer := some "s" }]

/-- A cache of one key, with a soft tier without a bound and a listener. -/
def dividedMaking : Making Cache.Options :=
  { options := { size := 1, softSize := -3 }, reclaimer := some "r", listened := true }

/-- Requests under which entries overflow, are pinned and unpinned and put again, and the size is
zero for a while. -/
def dividedRequests : List (Request UInt64 String) :=
  [.cache "c" (.put 1 (some "a")), .cache "c" (.put 2 (some "b")), .cache "c" (.pin 1),
    .table "u" (.put (some 1) (some "x")), .cache "c" (.put 3 (some "c")), .cache "c" (.setSize 0),
    .cache "c" (.put 4 (some "d")), .cache "c" (.put 1 (some "e")), .reclaimer "s" .clearAll,
    .cache "c" (.unpin 1), .cache "c" (.get 2), .cache "c" .length, .cache "c" (.remove 2),
    .cache "c" (.containsKey 2), .cache "c" (.setSize 2), .cache "c" (.put 3 (some "f")),
    .cache "c" (.containsValue (some "c")), .cache "c" .clear, .cache "c" .length]

/-- The cache answers these requests as a plain cache, and what leaves it has been replaced, removed
or cleared. -/
theorem imitates_dividedRequests :
    ((divided.perform (.newCache "c" dividedMaking)).world.outcomes dividedRequests).map (·.reply) =
        [.value none, .value none, .flag true, .value none, .value none, .nothing, .value none,
          .value (some "a"), .count 1, .flag true, .value (some "b"), .count 3, .value (some "b"),
          .flag false, .nothing, .value (some "c"), .flag false, .nothing, .count 0] ∧
      ((divided.perform (.newCache "c" dividedMaking)).world.outcomes dividedRequests).flatMap
          (fun outcome => (heard "c" outcome.notices).filter Cache.Notice.isRemoval) =
        [.removed 1 (some "a") false, .removed 2 (some "b") false, .removed 3 (some "c") false,
          .removed 3 (some "f") false, .removed 1 (some "e") false] ∧
      Imitates "c" true (divided.perform (.newCache "c" dividedMaking)).world ⟨∅, ∅, 1⟩
        dividedRequests := by
  refine ⟨by decide +kernel, by decide +kernel, ?_⟩
  have hreachable : divided.Reachable := ⟨_, _, rfl⟩
  have hmade : (divided.perform (.newCache "c" dividedMaking)).reply = .done := by decide +kernel
  refine hreachable.imitates (by decide +kernel) (by decide +kernel) hmade ?_ ?_ (by decide +kernel)
  · simp [dividedRequests, Request.spares]
  · simp [dividedRequests, PlainCache.Mild]

end SoftCache.World
