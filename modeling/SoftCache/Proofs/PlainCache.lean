import Mathlib.Data.Finmap
import SoftCache.Proofs.Cache.Mirror
import SoftCache.Cache.Request

/-!
# Plain caches

What a cache with a soft tier without a bound is to its users, as long as nothing is cleared, is a
plain map from keys to values. Where an entry is kept is not for the map to say: it only matters
whether a key is pinned and whether the hard tier has any room, since a value that is put is not
taken otherwise. `PlainCache.Answers` is what such a map answers to the requests to a cache, what
becomes of it, and which entries are announced to be gone.
-/

open scoped List

namespace SoftCache

variable {K V : Type}

/-- What a cache is to its users. -/
structure PlainCache (K V : Type) where
  /-- What is in the cache. -/
  map : Finmap fun _ : K => V
  /-- The pinned keys, with a value or without. -/
  pins : Finset K
  /-- The size of the cache, which its soft tier may exceed. -/
  size : Nat

/-- Whether a notice says that an entry left the cache. -/
def Cache.Notice.isRemoval : Cache.Notice K V → Bool
  | .added .. => false
  | .removed .. => true

namespace PlainCache

/-- What somebody who listens knows of the cache. -/
def mirror [DecidableEq K] (p : PlainCache K V) : Cache.Mirror K V :=
  fun key => (p.map.lookup key).map some

/-- The notice that an entry left the cache with its value. -/
def farewell (entry : K × V) : Cache.Notice K V :=
  .removed entry.1 (some entry.2) false

/-- A key and a value as an entry. -/
def filled (entry : K × V) : Entry K V :=
  (some entry.1, some entry.2)

variable [DecidableEq K]

/-- The entry of a key, if it has one. -/
def entryOf (p : PlainCache K V) (key : K) : List (K × V) :=
  (p.map.lookup key).toList.map fun value => (key, value)

/-- What is known of a key is its value. -/
theorem join_mirror (p : PlainCache K V) (key : K) : (p.mirror key).join = p.map.lookup key := by
  unfold mirror
  cases p.map.lookup key <;> rfl

/-- What is known of a key that is given a value. -/
theorem mirror_insert (p : PlainCache K V) (key : K) (value : V) :
    mirror { p with map := p.map.insert key value } = p.mirror.enter key (some value) := by
  funext other
  by_cases hsame : other = key
  · subst hsame
    simp [mirror, Cache.Mirror.enter]
  · simp [mirror, Cache.Mirror.enter, hsame]

/-- What is known of a key that goes. -/
theorem mirror_erase (p : PlainCache K V) (key : K) :
    mirror { p with map := p.map.erase key } = p.mirror.strike key := by
  funext other
  by_cases hsame : other = key
  · subst hsame
    simp [mirror, Cache.Mirror.strike]
  · simp [mirror, Cache.Mirror.strike, hsame]

/-- Nothing is known of an empty cache. -/
theorem mirror_empty (pins : Finset K) (size : Nat) :
    mirror (⟨∅, pins, size⟩ : PlainCache K V) = Cache.Mirror.empty := by
  funext key
  simp [mirror, Cache.Mirror.empty]

/-- If what is known of a key is announced as removed, then its entry leaves. -/
theorem removals_mirror (p : PlainCache K V) (key : K) :
    ((p.mirror key).toList.map fun old => Cache.Notice.removed key old false).filter
        Cache.Notice.isRemoval =
      (p.entryOf key).map farewell := by
  unfold mirror entryOf
  cases p.map.lookup key <;> rfl

/-- A list that has each entry of the map once. -/
structure Lists (p : PlainCache K V) (l : List (K × V)) : Prop where
  /-- No key is there twice. -/
  nodup : (l.map Prod.fst).Nodup
  /-- What is there are the entries of the map. -/
  mem_iff : ∀ key value, (key, value) ∈ l ↔ p.map.lookup key = some value

/-! ## Putting -/

/-- Whether a value that is put under a key is taken. -/
def takes (p : PlainCache K V) (key : K) : Prop :=
  p.size ≠ 0 ∨ key ∈ p.pins

/-- Whether a value of the key is taken can be decided. -/
instance (p : PlainCache K V) (key : K) : Decidable (p.takes key) :=
  inferInstanceAs (Decidable (_ ∨ _))

/-- Puts a value, if it is taken. -/
def put (p : PlainCache K V) (key : K) (value : V) : PlainCache K V :=
  if p.takes key then { p with map := p.map.insert key value } else p

/-- What is replaced by a value that is put. -/
def replaced (p : PlainCache K V) (key : K) : List (K × V) :=
  if p.takes key then p.entryOf key else []

/-- Puts entries one after the other, and replaces values only if asked to. -/
def putAll (p : PlainCache K V) (replace : Bool) : List (K × V) → PlainCache K V
  | [] => p
  | (key, value) :: rest =>
    if !replace && (p.map.lookup key).isSome then p.putAll replace rest
    else (p.put key value).putAll replace rest

/-- What is replaced by entries that are put one after the other. -/
def replacedAll (p : PlainCache K V) (replace : Bool) : List (K × V) → List (K × V)
  | [] => []
  | (key, value) :: rest =>
    if !replace && (p.map.lookup key).isSome then p.replacedAll replace rest
    else p.replaced key ++ (p.put key value).replacedAll replace rest

/-! ## Answers -/

/-- Whether a request asks how a cache is kept, and not for its entries. -/
def inspects : Cache.Request K V → Bool
  | .byUse | .metrics | .snapshot | .literal => true
  | _ => false

/-- Whether a request puts no null and leaves the soft tier without a bound. -/
def Mild : Cache.Request K V → Prop
  | .put _ value => value ≠ none
  | .setSoftSize softSize => softSize < 0
  | _ => True

/-- What a plain cache answers to a request, which entries leave it, and what it is afterwards. It
answers mild requests only. -/
inductive Answers (p : PlainCache K V) :
    Cache.Request K V → Reply K V → List (K × V) → PlainCache K V → Prop
  /-- The value of the key, or nothing. -/
  | get (key : K) : Answers p (.get key) (.value (p.map.lookup key)) [] p
  /-- The key is given the value, and its old value is answered and leaves. -/
  | put {key : K} (value : V) :
    p.takes key → Answers p (.put key (some value)) (.value (p.map.lookup key)) (p.entryOf key)
      { p with map := p.map.insert key value }
  /-- A key that is not pinned is given no value if the size is zero. -/
  | refused {key : K} (value : V) :
    ¬p.takes key → Answers p (.put key (some value)) (.value none) [] p
  /-- All entries are put, the later ones over the earlier ones. -/
  | putAll (entries : List (K × V)) (replace : Bool) :
    Answers p (.putAll entries replace) .nothing (p.replacedAll replace entries)
      (p.putAll replace entries)
  /-- The key goes, and its value is answered. -/
  | remove (key : K) :
    Answers p (.remove key) (.value (p.map.lookup key)) (p.entryOf key)
      { p with map := p.map.erase key }
  /-- Whether the key has a value. -/
  | containsKey (key : K) : Answers p (.containsKey key) (.flag (p.map.lookup key).isSome) [] p
  /-- Whether a key has the value. -/
  | containsValue {value : V} {flag : Bool} :
    (flag = true ↔ ∃ key, p.map.lookup key = some value) →
      Answers p (.containsValue (some value)) (.flag flag) [] p
  /-- Whether a key is pinned without a value. -/
  | containsNull {flag : Bool} :
    (flag = true ↔ ∃ key ∈ p.pins, p.map.lookup key = none) →
      Answers p (.containsValue none) (.flag flag) [] p
  /-- A key that has a value is in some tier. -/
  | locate {key : K} {tier : Option Tier} :
    tier.isSome = (p.map.lookup key).isSome → Answers p (.locate key) (.tier tier) [] p
  /-- The key is pinned, and it is answered whether it has a value. -/
  | pin (key : K) :
    Answers p (.pin key) (.flag (p.map.lookup key).isSome) [] { p with pins := insert key p.pins }
  /-- The key is not pinned any more, and it is answered whether it was. -/
  | unpin (key : K) :
    Answers p (.unpin key) (.flag (decide (key ∈ p.pins))) [] { p with pins := p.pins.erase key }
  /-- The pinned keys in any order. -/
  | pinnedKeys {keys : List K} :
    keys.Nodup → (∀ key, key ∈ keys ↔ key ∈ p.pins) →
      Answers p .pinnedKeys (Cache.keyItems keys) [] p
  /-- The keys of all entries in any order. -/
  | keys {l : List (K × V)} : p.Lists l → Answers p .keys (Cache.keyItems (l.map Prod.fst)) [] p
  /-- The entries in any order. -/
  | entries {l : List (K × V)} :
    p.Lists l → Answers p .entries
      (.items (l.map fun (key, value) => .entry (some key, some value))) [] p
  /-- The values of the entries in any order. -/
  | values {l : List (K × V)} :
    p.Lists l → Answers p .values (.items (l.map fun (_, value) => .value (some value))) [] p
  /-- The size is set, and nothing is lost by it. -/
  | setSize (size : Nat) : Answers p (.setSize size) .nothing [] { p with size }
  /-- The soft tier stays without a bound. -/
  | setSoftSize {softSize : Int} :
    softSize < 0 → Answers p (.setSoftSize softSize) .nothing [] p
  /-- The size. -/
  | size : Answers p .size (.number p.size) [] p
  /-- There is no bound of the soft tier. -/
  | softSize : Answers p .softSize (.number (-1)) [] p
  /-- The number of entries. -/
  | length : Answers p .length (.count p.map.keys.card) [] p
  /-- Whether there is no entry. -/
  | isEmpty : Answers p .isEmpty (.flag (p.map.keys.card == 0)) [] p
  /-- Nothing has expired. -/
  | removeExpired : Answers p .removeExpired (.count 0) [] p
  /-- All entries leave in any order, and the pins stay. -/
  | clear {l : List (K × V)} : p.Lists l → Answers p .clear .nothing l { p with map := ∅ }
  /-- The self-check finds nothing. -/
  | check : Answers p .check .done [] p
  /-- How the cache is kept is not for the map to say. -/
  | inspected {request : Cache.Request K V} (reply : Reply K V) :
    inspects request = true → Answers p request reply [] p

end PlainCache

end SoftCache
