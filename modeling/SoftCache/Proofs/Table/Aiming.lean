import Mathlib.Data.List.Iterate
import SoftCache.Proofs.Table.Tallies

/-!
# Where the cursor is asked to point

A table takes *aim* whenever it asks its cursor for a bucket: for each entry that it evicts or tries
to take at random, and for each listing from a bucket on that is drawn. `Table.aims` lists the
tables, as they are at these moments, in a request. Each aim moves the cursor on by one fraction and
nothing else moves it (`Table.Aimed`), so its number alone decides which fraction an aim takes. In
a table that holds both sides strongly an aim for the sake of the bound always evicts an entry, so
the aims are as many as the evictions, the attempts that found nothing and the listings
(`Table.Sound.aimed_perform`).
-/

open scoped List

namespace SoftCache

variable {K V α β : Type}

/-! ## Cursors that have moved on -/

namespace Cursor

/-- A cursor that has moved on by so many fractions. -/
theorem iterate_advance {c : Cursor} (h : c.position < c.fractions.length) (n : Nat) :
    advance^[n] c = { c with position := (c.position + n) % c.fractions.length } := by
  induction n with
  | zero =>
    rw [Function.iterate_zero_apply, Nat.add_zero, Nat.mod_eq_of_lt h]
  | succ n ih =>
    rw [Function.iterate_succ_apply', ih, advance]
    show (⟨_, _⟩ : Cursor) = ⟨_, _⟩
    rw [Nat.mod_add_mod, Nat.add_assoc]

end Cursor

/-! ## Aims -/

namespace Table

/-- The tables that take aim while entries are evicted down to a bound. The last aim may find
nothing. -/
def aimsDownTo (bound : Nat) (t : Table K V) (r : Reclaimer) : List (Table K V) :=
  if t.count ≤ bound then []
  else
    let taken := t.takeNear r
    match _found : taken.result with
    | none => [t]
    | some _ => t :: aimsDownTo bound taken.state.tallyEviction taken.reclaimer
termination_by t.count
decreasing_by exact count_takeNear_lt (by assumption) (by omega)

/-- The tables that take aim while the bound is enforced, if there is one. -/
def aimsForBound (t : Table K V) (r : Reclaimer) : List (Table K V) :=
  match t.bound with
  | none => []
  | some bound => aimsDownTo bound t r

/-- The tables that take aim in so many attempts at an entry. -/
def aimsByAttempts (t : Table K V) (r : Reclaimer) : Nat → List (Table K V)
  | 0 => []
  | n + 1 => t :: (t.removeRandom r).state.aimsByAttempts (t.removeRandom r).reclaimer n

section Keys

variable [DecidableEq K] [Hashed K]

/-- The tables that take aim when an entry has been put into a new slot, if its key has none. -/
def aimsByFound (t : Table K V) (r : Reclaimer) (key : Option K) (value : Option V) :
    List (Table K V) :=
  match t.slotFor? r key with
  | some _ => []
  | none =>
    let added := t.addSlot r key value
    let grown := added.state.grow added.reclaimer
    grown.state.aimsForBound grown.reclaimer

/-- The tables that take aim when an entry is put, unless it is refused. -/
def aimsByPut (t : Table K V) (r : Reclaimer) (key : Option K) (value : Option V) :
    List (Table K V) :=
  match t.refusal key value with
  | some _ => []
  | none =>
    let purged := t.purge r (t.indexOf key)
    purged.state.aimsByFound purged.reclaimer key value

/-- The tables that take aim when entries are put one after the other. -/
def aimsByAll (t : Table K V) (r : Reclaimer) : List (K × V) → List (Table K V)
  | [] => []
  | (key, value) :: rest =>
    let step := t.put r (some key) (some value)
    t.aimsByPut r (some key) (some value) ++ step.state.aimsByAll step.reclaimer rest

/-- The tables that take aim in a request. -/
def aims (t : Table K V) (r : Reclaimer) : Request K V → List (Table K V)
  | .put key value => t.aimsByPut r key value
  | .putAll (some entries) => t.aimsByAll r entries
  | .removeRandom => [t]
  | .removeRandoms n => t.aimsByAttempts r n
  | .setBound bound => { t with bound := bound }.aimsForBound r
  | .randomEntries => [t]
  | _ => []

end Keys

/-- How many attempts at an entry have found nothing, as the answer says. -/
def Request.failures : Request K V → Reply K V → Nat
  | .removeRandom, .item item => [item].countP Option.isNone
  | .removeRandoms _, .attempts items => items.countP Option.isNone
  | _, _ => 0

/-- How many listings from a drawn bucket on a request asks for. -/
def Request.listings : Request K V → Nat
  | .randomEntries => 1
  | _ => 0

end Table

/-- A table that has become another, in work in which these tables took aim and so many of the aims
evicted nothing. -/
structure Table.Aimed (t t' : Table K V) (aims : List (Table K V)) (idle : Nat) : Prop where
  /-- What was fixed when the table was made. -/
  config : t'.config = t.config
  /-- The cursor moves on by one for each aim. -/
  cursor : t'.cursor = Cursor.advance^[aims.length] t.cursor
  /-- Each aim is taken where the one before has left the cursor. -/
  inTurn : aims.map (·.cursor) = List.iterate Cursor.advance t.cursor aims.length
  /-- In a table with two strong sides, the other aims evict an entry each. -/
  evictions : t.config.keyStrength = .strong → t.config.valueStrength = .strong →
    t'.metrics.evictions + idle = t.metrics.evictions + aims.length

namespace Table.Aimed

variable {t t' t'' : Table K V} {aims aims' : List (Table K V)} {idle idle' : Nat}

/-- Work that neither takes aim nor evicts. -/
theorem none (config : t'.config = t.config) (cursor : t'.cursor = t.cursor)
    (evictions : t'.metrics.evictions = t.metrics.evictions) : t.Aimed t' [] 0 :=
  ⟨config, cursor, rfl, fun _ _ => evictions⟩

/-- Nothing is done. -/
theorem refl (t : Table K V) : t.Aimed t [] 0 :=
  .none rfl rfl rfl

/-- One piece of work and then another. -/
theorem trans (h : t.Aimed t' aims idle) (h' : t'.Aimed t'' aims' idle') :
    t.Aimed t'' (aims ++ aims') (idle + idle') where
  config := h'.config.trans h.config
  cursor := by
    rw [h'.cursor, h.cursor, List.length_append, ← Function.iterate_add_apply, Nat.add_comm]
  inTurn := by
    rw [List.map_append, List.length_append, List.iterate_add, h.inTurn, h'.inTurn, h.cursor]
  evictions keys values := by
    have hfirst := h.evictions keys values
    have hsecond := h'.evictions (h.config ▸ keys) (h.config ▸ values)
    rw [List.length_append]
    omega

/-- Work without an aim and then other work. -/
theorem after (h : t.Aimed t' [] 0) (h' : t'.Aimed t'' aims idle) : t.Aimed t'' aims idle := by
  simpa only [List.nil_append, Nat.zero_add] using h.trans h'

end Table.Aimed

namespace Table

variable {t : Table K V} {r : Reclaimer}

/-! ## Work without an aim -/

/-- To purge a bucket does not aim. -/
theorem aimed_purge (t : Table K V) (r : Reclaimer) (i : Nat) : t.Aimed (t.purge r i).state [] 0 :=
  .none rfl rfl rfl

/-- To sweep by request does not aim. -/
theorem aimed_removeExpired (t : Table K V) (r : Reclaimer) :
    t.Aimed (t.removeExpired r).state [] 0 := by
  unfold removeExpired
  split
  · exact .none rfl rfl rfl
  · exact .refl t

/-- To count the entries does not aim. -/
theorem aimed_length (t : Table K V) (r : Reclaimer) : t.Aimed (t.length r).state [] 0 := by
  have hswept : t.Aimed (t.sweep r).state [] 0 := by
    unfold sweep
    split
    · exact .refl t
    · exact t.aimed_removeExpired r
  exact hswept.after (.refl _)

/-- To clear a table does not aim, and the cursor stays. -/
theorem aimed_clear (t : Table K V) (r : Reclaimer) : t.Aimed (t.clear r).state [] 0 :=
  .none rfl rfl rfl

/-- To grow does not aim, and the cursor stays. -/
theorem aimed_grow (t : Table K V) (r : Reclaimer) : t.Aimed (t.grow r).state [] 0 := by
  rw [grow_eq]
  split
  · exact .refl t
  · induction t, r using enlarge_induction with
    | case1 t r moved enough =>
      rw [enlarge_eq, if_pos enough]
      exact .none rfl rfl rfl
    | case2 t r moved more ih =>
      rw [enlarge_eq, if_neg more]
      have hmoved : t.Aimed moved.state [] 0 := .none rfl rfl rfl
      exact hmoved.after (ih more)

section Keys

variable [DecidableEq K] [Hashed K]

/-- A lookup does not aim. -/
theorem aimed_lookup (t : Table K V) (r : Reclaimer) (key : Option K) :
    t.Aimed (t.lookup r key).state [] 0 := by
  by_cases hkey : t.excludes key = true
  · rw [lookup, if_pos hkey]
    exact .none rfl rfl rfl
  · rw [lookup_eq r (by simpa using hkey), Step.andThen_state]
    have htidy : t.Aimed (t.tidy r key).state [] 0 := by
      unfold tidy
      split
      · exact t.aimed_purge r _
      · exact .refl t
    refine htidy.after ?_
    split
    · exact .none rfl rfl rfl
    · unfold touch
      split <;> exact .none rfl rfl rfl

/-- A removal does not aim. -/
theorem aimed_removeIf (t : Table K V) (r : Reclaimer) (key : Option K)
    (accept : Option V → Bool) : t.Aimed (t.removeIf r key accept).state [] 0 := by
  by_cases hkey : t.excludes key = true
  · rw [removeIf, if_pos hkey]
    exact .refl t
  · rw [removeIf_eq r _ (by simpa using hkey), Step.andThen_state]
    refine (t.aimed_purge r (t.indexOf key)).after ?_
    unfold removeFound
    split
    · exact .refl _
    · split
      · exact .none rfl rfl rfl
      · exact .refl _

end Keys

/-! ## Attempts and evictions -/

/-- An attempt at an entry takes aim once, and it is idle if it finds nothing. -/
theorem aimed_removeRandom (t : Table K V) (r : Reclaimer) :
    t.Aimed (t.removeRandom r).state [t] ([(t.removeRandom r).result].countP Option.isNone) := by
  have hresult : (t.removeRandom r).result = (t.takeNear r).result := rfl
  have hstate : (t.removeRandom r).state =
      if (t.takeNear r).result.isSome then (t.takeNear r).state.tallyEviction
      else (t.takeNear r).state := rfl
  rw [hresult]
  cases found : (t.takeNear r).result with
  | none =>
    rw [found] at hstate
    exact ⟨by rw [hstate]; rfl, by rw [hstate]; rfl, rfl, fun _ _ => by rw [hstate]; rfl⟩
  | some entry =>
    rw [found] at hstate
    exact ⟨by rw [hstate]; rfl, by rw [hstate]; rfl, rfl, fun _ _ => by rw [hstate]; rfl⟩

/-- To remove entries at random aims once for each, and those that are not found are counted. -/
theorem aimed_removeRandoms (t : Table K V) (r : Reclaimer) (n : Nat) :
    t.Aimed (t.removeRandoms r n).state (t.aimsByAttempts r n)
      ((t.removeRandoms r n).result.countP Option.isNone) := by
  induction n generalizing t r with
  | zero => exact .refl t
  | succ n ih =>
    have hrest := ih (t.removeRandom r).state (t.removeRandom r).reclaimer
    -- The first attempt comes before the others.
    have hidle : (t.removeRandoms r (n + 1)).result.countP Option.isNone =
        [(t.removeRandom r).result].countP Option.isNone +
          ((t.removeRandom r).state.removeRandoms (t.removeRandom r).reclaimer n).result.countP
            Option.isNone := by
      rw [← List.countP_append]
      rfl
    rw [hidle]
    exact (t.aimed_removeRandom r).trans hrest

/-- An eviction that finds nothing has aimed once. -/
theorem aimsDownTo_of_none {bound : Nat} (more : ¬t.count ≤ bound)
    (nothing : (t.takeNear r).result = none) : aimsDownTo bound t r = [t] := by
  rw [aimsDownTo, if_neg more]
  dsimp only
  split
  · rfl
  · next found =>
    rw [nothing] at found
    cases found

/-- An eviction that finds an entry aims again for the next one. -/
theorem aimsDownTo_of_some {bound : Nat} {entry : Entry K V} (more : ¬t.count ≤ bound)
    (found : (t.takeNear r).result = some entry) :
    aimsDownTo bound t r =
      t :: aimsDownTo bound (t.takeNear r).state.tallyEviction (t.takeNear r).reclaimer := by
  rw [aimsDownTo, if_neg more]
  dsimp only
  split
  · next nothing =>
    rw [nothing] at found
    cases found
  · rfl

section Hash

variable [Hashed K]

/-- A table with two strong sides that has a slot gives an entry up. -/
theorem Coherent.exists_takeNear (h : t.Coherent) (keys : t.config.keyStrength = .strong)
    (values : t.config.valueStrength = .strong) (r : Reclaimer) (some : 0 < t.count) :
    (t.takeNear r).result ≠ none := by
  intro nothing
  have hfound : (t.nearest r).found = none := Option.map_eq_none_iff.mp nothing
  have hstale : (t.nearest r).stale = [] := by
    rw [List.eq_nil_iff_forall_not_mem]
    intro s hs
    have hmem : s ∈ t.buckets.slots := (Buckets.slots_probe _ _).symm.subset
      (List.mem_append_left _ (List.mem_append_right _ hs))
    have hlive := Slot.isStale_of_suits_strong (h.suited s hmem) keys values r
    exact absurd (Buckets.isStale_of_mem_stale _ _ s hs) (by simp [hlive])
  have hleft : (t.takeNear r).state.count =
      t.count - ((t.nearest r).stale ++ (t.nearest r).found.toList).length := rfl
  rw [h.count_of_takeNear nothing, hstale, hfound] at hleft
  have hnone : 0 = t.count := hleft
  omega

/-- No aim for the sake of the bound is idle in a table with two strong sides. -/
theorem Coherent.aimed_evictDownTo (h : t.Coherent) (bound : Nat) (r : Reclaimer) :
    t.Aimed (Table.evictDownTo bound t r).state (aimsDownTo bound t r) 0 := by
  -- By induction on the evictions, each of which takes aim once.
  induction t, r using evictDownTo.induct bound with
  | case1 t r enough =>
    rw [Table.evictDownTo, if_pos enough, aimsDownTo, if_pos enough]
    exact .refl t
  | case2 t r more taken nothing =>
    rw [evictDownTo_of_none more nothing, aimsDownTo_of_none more nothing]
    refine ⟨rfl, rfl, rfl, fun keys values => ?_⟩
    exact absurd nothing (h.exists_takeNear keys values r (by omega))
  | case3 t r more taken entry found ih =>
    rw [evictDownTo_of_some more found, aimsDownTo_of_some more found]
    have hevicted : t.Aimed (t.evicting bound r entry).state [t] 0 :=
      ⟨rfl, rfl, rfl, fun _ _ => rfl⟩
    exact hevicted.trans (ih ((h.takeNear r).adjust ..))

/-- To keep the bound aims once for each entry that is evicted, and once in vain if none is left. -/
theorem Coherent.aimed_enforceBound (h : t.Coherent) (r : Reclaimer) :
    t.Aimed (t.enforceBound r).state (t.aimsForBound r) 0 := by
  unfold Table.enforceBound aimsForBound
  cases t.bound with
  | none => exact .refl t
  | some bound => exact h.aimed_evictDownTo bound r

end Hash

/-! ## Requests -/

section Keys

variable [DecidableEq K] [Hashed K]

/-- A put aims as often as it evicts. -/
theorem Coherent.aimed_put (h : t.Coherent) (issued : r.Issued t.payloads) (key : Option K)
    (value : Option V) : t.Aimed (t.put r key value).state (t.aimsByPut r key value) 0 := by
  unfold Table.put aimsByPut
  cases t.refusal key value with
  | some error => exact .refl t
  | none =>
    suffices hinsert : t.Aimed (t.insert r key value).state
        ((t.purge r (t.indexOf key)).state.aimsByFound (t.purge r (t.indexOf key)).reclaimer key
          value) 0 from hinsert
    rw [insert_eq, Step.andThen_state]
    refine (t.aimed_purge r (t.indexOf key)).after ?_
    set purged := t.purge r (t.indexOf key)
    unfold insertFound aimsByFound
    cases missing : purged.state.slotFor? purged.reclaimer key with
    | some slot => exact .none rfl rfl rfl
    | none =>
      -- A slot is added, and the table grows before anything is evicted.
      have habsent := (h.missing issued missing).1
      rw [contents, List.map_map] at habsent
      have hadded := (h.purge r (t.indexOf key)).addSlot purged.reclaimer value habsent
      set added := purged.state.addSlot purged.reclaimer key value
      obtain ⟨hgrown, -⟩ := hadded.grow added.reclaimer
      have hadd : purged.state.Aimed added.state [] 0 := .none rfl rfl rfl
      have hgrow := hadd.after (aimed_grow added.state added.reclaimer)
      exact hgrow.after (hgrown.aimed_enforceBound _)

/-- To put entries aims as often as each of them does. -/
theorem Sound.aimed_putAll (h : t.Sound) (issued : r.Issued t.payloads) (entries : List (K × V)) :
    t.Aimed (t.putAll r entries).state (t.aimsByAll r entries) 0 := by
  induction entries generalizing t r with
  | nil => exact .refl t
  | cons entry rest ih =>
    have hput := upholds_put h issued (some entry.1) (some entry.2)
    exact (h.toCoherent.aimed_put issued _ _).trans (ih hput.sound hput.issued)

/-- In every request the aims move the cursor, and those that evict nothing are the attempts that
found nothing and the listings. -/
theorem Sound.aimed_perform [DecidableEq V] (h : t.Sound) (issued : r.Issued t.payloads)
    (request : Request K V) :
    t.Aimed (t.perform r request).state (t.aims r request)
      (request.failures (t.perform r request).result + request.listings) := by
  cases request with
  | get key => exact t.aimed_lookup r key
  | containsEntry key value => exact t.aimed_lookup r key
  | put key value => exact h.toCoherent.aimed_put issued key value
  | putAll source =>
    cases source with
    | none => exact .refl t
    | some entries => exact h.aimed_putAll issued entries
  | remove key => exact t.aimed_removeIf r key _
  | removeKey key => exact t.aimed_removeIf r key _
  | removeEntry key value => exact t.aimed_removeIf r key _
  | removeRandom =>
    have hfailures : Request.failures .removeRandom (t.perform r .removeRandom).result =
        [(t.removeRandom r).result].countP Option.isNone := by
      show [(t.removeRandom r).result.map entryItem].countP Option.isNone = _
      cases (t.removeRandom r).result <;> rfl
    rw [hfailures]
    exact t.aimed_removeRandom r
  | removeRandoms n =>
    have hfailures : Request.failures (.removeRandoms n) (t.perform r (.removeRandoms n)).result =
        (t.removeRandoms r n).result.countP Option.isNone := by
      show ((t.removeRandoms r n).result.map _).countP Option.isNone = _
      rw [List.countP_map]
      exact List.countP_congr fun entry _ => by cases entry <;> rfl
    rw [hfailures]
    exact t.aimed_removeRandoms r n
  | removeExpired => exact t.aimed_removeExpired r
  | length | isEmpty | viewLiteral => exact t.aimed_length r
  | clear => exact t.aimed_clear r
  | setBound bound =>
    obtain ⟨config, cursor, inTurn, evictions⟩ :=
      (h.toCoherent.adjust bound t.cursor t.metrics t.sweptEpoch).aimed_enforceBound r
    exact ⟨config, cursor, inTurn, evictions⟩
  | randomEntries => exact ⟨rfl, rfl, rfl, fun _ _ => rfl⟩
  | containsKey | containsValue | entries | bound | capacity | position | metrics | config
  | literal | snapshot | check => exact .refl t

end Keys

end Table

end SoftCache
