import Mathlib.Data.Finmap
import SoftCache.Table.Request

/-!
# Plain maps

What a table without a bound is to its users is a plain map from keys to values, either of which may
be null. `PlainMap.Answers` is what such a map answers to the requests to a table and what becomes
of it, with no buckets, no hashes and no stale slots. A list of entries `Lists` a map if it has each
of the entries of the map once; the lemmas about it say how the list changes with the map.
-/

open scoped List

namespace SoftCache

/-- A finite map from keys to values, either of which may be null. -/
abbrev PlainMap (K V : Type) : Type :=
  Finmap fun _ : Option K => Option V

namespace PlainMap

variable {K V : Type}

/-! ## Answers -/

/-- Why an entry is not admitted: a side that is held reclaimably cannot be null. -/
def refusal (keys values : Strength) (key : Option K) (value : Option V) : Option TableError :=
  match key, keys, value, values with
  | none, .reclaimable, _, _ => some .nullKey
  | _, _, none, .reclaimable => some .nullValue
  | _, _, _, _ => none

/-- A list that has each entry of the map once. -/
structure Lists [DecidableEq K] (m : PlainMap K V) (l : List (Entry K V)) : Prop where
  /-- No key is there twice. -/
  nodup : (l.map Prod.fst).Nodup
  /-- What is there are the entries of the map. -/
  mem_iff : ∀ key value, (key, value) ∈ l ↔ m.lookup key = some value

/-- Entries that are drawn from the map one after the other. Nothing is drawn only when nothing is
left. -/
inductive Draws [DecidableEq K] : PlainMap K V → List (Option (Entry K V)) → PlainMap K V → Prop
  /-- No more entries are drawn. -/
  | done {m : PlainMap K V} : Draws m [] m
  /-- Any of the entries is drawn. -/
  | entry {m m' : PlainMap K V} {key : Option K} {value : Option V}
    {rest : List (Option (Entry K V))} :
    m.lookup key = some value → Draws (m.erase key) rest m' →
      Draws m (some (key, value) :: rest) m'
  /-- There is nothing to draw. -/
  | nothing {m' : PlainMap K V} {rest : List (Option (Entry K V))} :
    Draws ∅ rest m' → Draws ∅ (none :: rest) m'

/-- Puts entries one after the other. -/
def putAll [DecidableEq K] (m : PlainMap K V) (entries : List (K × V)) : PlainMap K V :=
  entries.foldl (fun m entry => m.insert (some entry.1) (some entry.2)) m

/-- Whether a request asks how a table is kept, and not for its entries. -/
def inspects : Table.Request K V → Bool
  | .bound | .capacity | .position | .metrics | .config | .literal | .snapshot | .check => true
  | _ => false

/-- What a map answers to a request, and the map afterwards, where keys and values are held with
these strengths. How many stale slots a sweep finds and how a table is kept is not for the map to
say. -/
inductive Answers [DecidableEq K] [DecidableEq V] (keys values : Strength)
    (m : PlainMap K V) : Table.Request K V → Reply K V → PlainMap K V → Prop
  /-- The value of the key, or nothing. -/
  | get (key : Option K) : Answers keys values m (.get key) (.value (m.lookup key).join) m
  /-- Whether the key has a value, which may be null. -/
  | containsKey (key : Option K) :
    Answers keys values m (.containsKey key) (.flag (m.lookup key).isSome) m
  /-- Whether a key has the value. -/
  | containsValue {value : Option V} {flag : Bool} :
    (flag = true ↔ ∃ key, m.lookup key = some value) →
      Answers keys values m (.containsValue value) (.flag flag) m
  /-- Whether the key has the value. -/
  | containsEntry (key : Option K) (value : Option V) :
    Answers keys values m (.containsEntry key value) (.flag (m.lookup key == some value)) m
  /-- An entry that is not admitted is refused. -/
  | refused {key : Option K} {value : Option V} {error : TableError} :
    refusal keys values key value = some error →
      Answers keys values m (.put key value) (.refused error.report) m
  /-- The key is given the value, and its old value is answered. -/
  | put {key : Option K} {value : Option V} :
    refusal keys values key value = none →
      Answers keys values m (.put key value) (.value (m.lookup key).join) (m.insert key value)
  /-- There are no entries to put. -/
  | noSource : Answers keys values m (.putAll none) (.refused TableError.noSource.report) m
  /-- All entries are put, the later ones over the earlier ones. -/
  | putAll (entries : List (K × V)) :
    Answers keys values m (.putAll (some entries)) .done (m.putAll entries)
  /-- The key goes, and its value is answered. -/
  | remove (key : Option K) :
    Answers keys values m (.remove key) (.value (m.lookup key).join) (m.erase key)
  /-- The key goes, and it is answered whether it was there. -/
  | removeKey (key : Option K) :
    Answers keys values m (.removeKey key) (.flag (m.lookup key).isSome) (m.erase key)
  /-- The key goes if it has the value, and it is answered whether it had. -/
  | removeEntry (key : Option K) (value : Option V) :
    Answers keys values m (.removeEntry key value) (.flag (m.lookup key == some value))
      (if m.lookup key == some value then m.erase key else m)
  /-- Any entry goes and is answered. -/
  | removeRandom {entry : Option (Entry K V)} {m' : PlainMap K V} :
    m.Draws [entry] m' →
      Answers keys values m .removeRandom (.item (entry.map Table.entryItem)) m'
  /-- Any entries go, so many of them, and are answered. -/
  | removeRandoms {entries : List (Option (Entry K V))} {m' : PlainMap K V} :
    m.Draws entries m' →
      Answers keys values m (.removeRandoms entries.length)
        (.attempts (entries.map (·.map Table.entryItem))) m'
  /-- A sweep changes nothing. -/
  | removeExpired (n : Nat) : Answers keys values m .removeExpired (.count n) m
  /-- The number of keys. -/
  | length : Answers keys values m .length (.count m.keys.card) m
  /-- Whether there is no key. -/
  | isEmpty : Answers keys values m .isEmpty (.flag (m.keys.card == 0)) m
  /-- The number of keys, in a text. -/
  | viewLiteral (view : View) :
    Answers keys values m (.viewLiteral view) (.text (view.literal m.keys.card)) m
  /-- All keys go. -/
  | clear : Answers keys values m .clear .nothing ∅
  /-- The entries in any order. -/
  | entries {l : List (Entry K V)} :
    m.Lists l → Answers keys values m .entries (.items (l.map Table.entryItem)) m
  /-- The entries in any order. -/
  | randomEntries {l : List (Entry K V)} :
    m.Lists l → Answers keys values m .randomEntries (.items (l.map Table.entryItem)) m
  /-- How the table is kept does not change the map. -/
  | inspected {request : Table.Request K V} (reply : Reply K V) :
    inspects request = true → Answers keys values m request reply m

/-- A map has as many keys as a list that has each of its entries once. -/
theorem card_keys_of_lists {κ α : Type} [DecidableEq κ] {m : Finmap fun _ : κ => α}
    {l : List (κ × α)} (nodup : (l.map Prod.fst).Nodup)
    (mem_iff : ∀ key value, (key, value) ∈ l ↔ m.lookup key = some value) :
    m.keys.card = l.length := by
  have hkeys : m.keys = (l.map Prod.fst).toFinset := by
    ext key
    rw [Finmap.mem_keys, Finmap.mem_iff, List.mem_toFinset, List.mem_map]
    constructor
    · rintro ⟨value, hvalue⟩
      exact ⟨(key, value), (mem_iff key value).mpr hvalue, rfl⟩
    · rintro ⟨⟨key, value⟩, hentry, rfl⟩
      exact ⟨value, (mem_iff key value).mp hentry⟩
  calc m.keys.card = (l.map Prod.fst).toFinset.card := by rw [hkeys]
    _ = (l.map Prod.fst).length := List.toFinset_card_of_nodup nodup
    _ = l.length := List.length_map _

/-- Without a key that it does not have a map is the same. -/
theorem erase_of_absent [DecidableEq K] {m : PlainMap K V} {key : Option K}
    (habsent : m.lookup key = none) : Finmap.erase key m = m := by
  apply Finmap.ext_lookup
  intro other
  by_cases hsame : other = key
  · rw [hsame, Finmap.lookup_erase, habsent]
  · rw [Finmap.lookup_erase_ne hsame]

/-- What is drawn in two parts is drawn. -/
theorem Draws.append [DecidableEq K] {m m' m'' : PlainMap K V}
    {first second : List (Option (Entry K V))} (h : m.Draws first m') (h' : m'.Draws second m'') :
    m.Draws (first ++ second) m'' := by
  induction h with
  | done => exact h'
  | entry hvalue _ ih => exact .entry hvalue (ih h')
  | nothing _ ih => exact .nothing (ih h')

/-! ## Lists of entries -/

namespace Lists

variable [DecidableEq K] {m : PlainMap K V} {l l' : List (Entry K V)} {key : Option K}

/-- No entries list the empty map. -/
theorem empty : Lists (∅ : PlainMap K V) [] where
  nodup := List.nodup_nil
  mem_iff key value := by simp

/-- The order does not matter. -/
theorem perm (h : m.Lists l) (hl : l ~ l') : m.Lists l' where
  nodup := (hl.map Prod.fst).nodup_iff.mp h.nodup
  mem_iff key value := by rw [← h.mem_iff, hl.mem_iff]

/-- A key of the list is one of the map. -/
theorem mem_keys_iff (h : m.Lists l) : key ∈ l.map Prod.fst ↔ key ∈ m := by
  rw [Finmap.mem_iff, List.mem_map]
  constructor
  · rintro ⟨⟨key, value⟩, hentry, rfl⟩
    exact ⟨value, (h.mem_iff key value).mp hentry⟩
  · rintro ⟨value, hvalue⟩
    exact ⟨(key, value), (h.mem_iff key value).mpr hvalue, rfl⟩

/-- The list is as long as the map has keys. -/
theorem card_keys (h : m.Lists l) : m.keys.card = l.length :=
  card_keys_of_lists h.nodup h.mem_iff

/-- A map without entries is empty. -/
theorem eq_empty (h : m.Lists []) : m = ∅ := by
  apply Finmap.ext_lookup
  intro key
  have habsent : key ∉ m := by
    rw [← h.mem_keys_iff]
    exact List.not_mem_nil
  rw [Finmap.lookup_eq_none.mpr habsent, Finmap.lookup_empty]

/-- Without the entry of a key the list is one of the map without the key. -/
theorem erase (h : m.Lists l)
    (hl : l ~ l' ++ (m.lookup key).toList.map fun value => (key, value)) :
    Lists (Finmap.erase key m) l' := by
  have hnodup := (hl.map Prod.fst).nodup_iff.mp h.nodup
  rw [List.map_append, List.nodup_append] at hnodup
  obtain ⟨hkeys, -, hapart⟩ := hnodup
  refine ⟨hkeys, fun other value => ?_⟩
  by_cases hsame : other = key
  · subst hsame
    rw [Finmap.lookup_erase]
    -- If the key were still in the list, then it would have been there twice.
    refine ⟨fun hentry => ?_, fun hnone => absurd hnone.symm (Option.some_ne_none value)⟩
    have hthere := (h.mem_iff other value).mp (hl.symm.subset (List.mem_append_left _ hentry))
    rw [hthere] at hapart
    exact absurd rfl (hapart other (List.mem_map_of_mem hentry) other (List.mem_singleton_self _))
  · rw [Finmap.lookup_erase_ne hsame, ← h.mem_iff, hl.mem_iff, List.mem_append]
    refine ⟨fun hentry => .inl hentry, fun hentry => hentry.resolve_right fun hold => ?_⟩
    obtain ⟨old, -, heq⟩ := List.mem_map.mp hold
    exact hsame (congrArg Prod.fst heq).symm

/-- The entry of a key, if it has one, stands apart from the rest of the list. -/
theorem split (h : m.Lists l) (key : Option K) :
    ∃ rest, l ~ rest ++ (m.lookup key).toList.map fun value => (key, value) := by
  rcases hvalue : m.lookup key with _ | value
  · exact ⟨l, .of_eq (List.append_nil l).symm⟩
  · obtain ⟨before, after, rfl⟩ := List.append_of_mem ((h.mem_iff key value).mpr hvalue)
    exact ⟨before ++ after, List.perm_middle.trans (List.perm_append_singleton _ _).symm⟩

/-- A key that the list does not have is put into the map with its value. -/
theorem insert_absent (h : Lists (Finmap.erase key m) l) (value : Option V) :
    Lists (Finmap.insert key value m) (l ++ [(key, value)]) := by
  have habsent : key ∉ l.map Prod.fst := by
    rw [h.mem_keys_iff]
    exact Finmap.notMem_erase_self
  constructor
  case nodup =>
    rw [List.map_append]
    exact h.nodup.append (List.nodup_singleton key) (List.disjoint_singleton.mpr habsent)
  case mem_iff =>
    intro other value'
    rw [List.mem_append, List.mem_singleton, Prod.mk.injEq]
    by_cases hsame : other = key
    · subst hsame
      have hnot : (other, value') ∉ l := fun hentry => habsent (List.mem_map_of_mem hentry)
      rw [Finmap.lookup_insert, Option.some_inj]
      exact ⟨fun hentry => (hentry.resolve_left hnot).2.symm, fun heq => .inr ⟨rfl, heq.symm⟩⟩
    · rw [Finmap.lookup_insert_of_ne m hsame, h.mem_iff, Finmap.lookup_erase_ne hsame]
      exact ⟨fun hentry => hentry.resolve_right fun heq => hsame heq.1, .inl⟩

/-- An entry that comes in place of the old one of its key is put into the map. -/
theorem insert (h : m.Lists l) {value : Option V}
    (hl : l ++ [(key, value)] ~ l' ++ (m.lookup key).toList.map fun value => (key, value)) :
    Lists (Finmap.insert key value m) l' := by
  obtain ⟨rest, hrest⟩ := h.split key
  have hput := (h.erase hrest).insert_absent value
  refine hput.perm ?_
  -- The old entry is on both sides.
  rw [← List.perm_append_right_iff ((m.lookup key).toList.map fun value => (key, value))]
  refine .trans ?_ hl
  rw [List.append_assoc]
  refine .trans (List.perm_append_comm.append_left rest) ?_
  rw [← List.append_assoc]
  exact hrest.symm.append_right _

end Lists

/-- A map with an entry for each of the entries given, if no key is given twice. -/
theorem exists_lists [DecidableEq K] {l : List (Entry K V)} (nodup : (l.map Prod.fst).Nodup) :
    ∃ m : PlainMap K V, m.Lists l := by
  induction l with
  | nil => exact ⟨∅, .empty⟩
  | cons entry rest ih =>
    rw [List.map_cons, List.nodup_cons] at nodup
    obtain ⟨m, hm⟩ := ih nodup.2
    have habsent : m.lookup entry.1 = none := by
      rw [Finmap.lookup_eq_none, ← hm.mem_keys_iff]
      exact nodup.1
    rw [← erase_of_absent habsent] at hm
    exact ⟨_, (hm.insert_absent entry.2).perm (List.perm_append_singleton entry rest)⟩

end PlainMap

end SoftCache
