import SoftCache.Cache.Basic

/-!
# Lookups and changes of a cache

A lookup goes through the tiers in order. A new value goes to the pin of its key if there is one,
and otherwise to the hard tier; what overflows from there goes to the soft tier, unless that takes
nothing.
-/

namespace SoftCache.Cache

variable {K V : Type} [DecidableEq K] [Hashed K]

/-! ## Looking up -/

/-- Looks a key up in the pinned, the hard and the soft tier, and counts where it was found. A null
value counts as not found. -/
def get (c : Cache K V) (r : Reclaimer) (key : K) : Step (Cache K V) (Notice K V) (Option V) :=
  match c.pinnedValue key with
  | some value => .done (c.tally fun m => { m with pinnedHits := m.pinnedHits + 1 }) r (some value)
  | none =>
    (c.overHard r (·.get · (some key))).andThen fun
      | c, r, some value =>
        .done (c.tally fun m => { m with hardHits := m.hardHits + 1 }) r (some value)
      | c, r, none =>
        (c.overSoft r (·.get · (some key))).andThen fun
          | c, r, some value =>
            .done (c.tally fun m => { m with softHits := m.softHits + 1 }) r (some value)
          | c, r, none => .done (c.tally fun m => { m with misses := m.misses + 1 }) r none

/-! ## Overflow -/

/-- Routes entries that the hard tier gave up: into the soft tier if that may hold any and the value
is not null, and otherwise out of the cache. -/
def routeOverflow (c : Cache K V) (r : Reclaimer) :
    List (Entry K V) → Step (Cache K V) (Notice K V) Unit
  | [] => .done c r ()
  | (none, _) :: rest => c.routeOverflow r rest
  | (some key, value) :: rest =>
    let routed :=
      if value.isSome && c.softSize ≠ 0 then
        let counted := c.tally fun m => { m with overflows := m.overflows + 1 }
        (counted.overSoft r (·.insert · (some key) value)).map fun _ => ()
      else c.announce r [.removed key value false]
    routed.andThen fun c r _ => c.routeOverflow r rest

/-! ## Putting and removing -/

/-- The notices of a value that takes the place of another. The null of a pin without a value is no
entry, so its coming and going is not announced. -/
def pinNotices (key : K) (old new : Option V) : List (Notice K V) :=
  (if old.isSome then [.removed key old false] else []) ++
    (if new.isSome then [.added key new] else [])

/-- Puts a value, which may be null, and answers the one that it replaces. A cache of size zero
takes only values of pinned keys. -/
def put (c : Cache K V) (r : Reclaimer) (key : K) (value : Option V) :
    Step (Cache K V) (Notice K V) (Option V) :=
  match c.pins.find key with
  | some old =>
    ({ c with pins := c.pins.modify key value }.announce r (pinNotices key old value)).map
      fun _ => old
  | none =>
    if c.size = 0 then .done c r none
    else
      (c.overSoft r (·.remove · (some key))).andThen fun c r fromSoft =>
        (c.overHard r (·.insert · (some key) value)).andThen fun c r placement =>
          -- A key is in one tier at most, so at most one of the two is there.
          let previous := placement.previous.or (fromSoft.map some)
          let gone := previous.toList.map fun old => Notice.removed key old false
          (c.announce r (gone ++ [.added key value])).andThen fun c r _ =>
            (c.routeOverflow r placement.evicted).map fun _ => previous.join

/-- Puts entries one after the other, those of keys that have an entry only if asked to replace. -/
def putAll (c : Cache K V) (r : Reclaimer) (replace : Bool) :
    List (K × V) → Step (Cache K V) (Notice K V) Unit
  | [] => .done c r ()
  | (key, value) :: rest =>
    if !replace && c.containsKey r key then c.putAll r replace rest
    else (c.put r key (some value)).andThen fun c r _ => c.putAll r replace rest

/-- Removes the entry of a key and answers its value. A pinned key stays pinned. -/
def remove (c : Cache K V) (r : Reclaimer) (key : K) : Step (Cache K V) (Notice K V) (Option V) :=
  let taken : Step (Cache K V) (Notice K V) (Option (Option V)) :=
    match c.pins.find key with
    | some old => .done { c with pins := c.pins.modify key none } r (old.map some)
    | none =>
      (c.overHard r (·.removeEntry · (some key))).andThen fun
        | c, r, some value => .done c r (some value)
        | c, r, none => c.overSoft r (·.removeEntry · (some key))
  taken.andThen fun c r old =>
    (c.announce r (old.toList.map fun old => .removed key old false)).map fun _ => old.join

/-- The removal notices of a tier that is cleared. -/
def removals (entries : List (Entry K V)) : List (Notice K V) :=
  entries.filterMap fun
    | (some key, value) => some (.removed key value false)
    | (none, _) => none

/-- Removes all entries, the pinned ones first, and then announces what had already expired in the
soft tier. The pins stay, without values. -/
def clear (c : Cache K V) (r : Reclaimer) : Step (Cache K V) (Notice K V) Unit :=
  let pinned := c.pins.filterMap fun ((key, value) : K × Option V) =>
    value.map fun value => Notice.removed key (some value) false
  ({ c with
      pins := c.pins.map fun ((key, _) : K × Option V) => (key, none) }.announce r pinned).andThen
    fun c r _ =>
      (c.overSoft r Table.removeExpired).andThen fun c r _ =>
        (c.announce r (removals (c.hard.entries r))).andThen fun c r _ =>
          (c.overHard r Table.clear).andThen fun c r _ =>
            (c.announce r (removals (c.soft.entries r))).andThen fun c r _ =>
              c.overSoft r Table.clear

/-! ## Pinning -/

/-- Pins a key with the value that it has, and answers whether it has one. A null value in the hard
tier leaves the cache. -/
def pin [Ordered K] (c : Cache K V) (r : Reclaimer) (key : K) :
    Step (Cache K V) (Notice K V) Bool :=
  match c.pins.find key with
  | some value => .done c r value.isSome
  | none =>
    let taken : Step (Cache K V) (Notice K V) (Option V) :=
      (c.overHard r (·.removeEntry · (some key))).andThen fun
        | c, r, some (some value) => .done c r (some value)
        | c, r, some none => (c.announce r [.removed key none false]).map fun _ => none
        | c, r, none => c.overSoft r (·.remove · (some key))
    taken.andThen fun c r value =>
      let pins := Directory.insertBefore (Ordered.before key) key value c.pins
      .done { c with pins } r value.isSome

/-- Unpins a key and answers whether it was pinned. Its value goes to the hard tier, or like an
overflow if the cache has size zero. -/
def unpin (c : Cache K V) (r : Reclaimer) (key : K) : Step (Cache K V) (Notice K V) Bool :=
  match c.pins.find key with
  | none => .done c r false
  | some value =>
    let unpinned := { c with pins := c.pins.erase key }
    let moved : Step (Cache K V) (Notice K V) Unit :=
      match value with
      | none => .done unpinned r ()
      | some value =>
        if c.size = 0 then unpinned.routeOverflow r [(some key, some value)]
        else
          (unpinned.overHard r (·.insert · (some key) (some value))).andThen fun c r placement =>
            c.routeOverflow r placement.evicted
    moved.map fun _ => true

/-! ## Sizes -/

/-- Gives the hard tier a bound. What is over it overflows. -/
def setSize (c : Cache K V) (r : Reclaimer) (size : Nat) : Step (Cache K V) (Notice K V) Unit :=
  ({ c with size }.overHard r (·.setBound · (some size))).andThen fun c r evicted =>
    let routed := c.routeOverflow r evicted
    { routed with log := .hardBound size evicted.length :: routed.log }

/-- Gives the soft tier a bound, or none for a negative size. What is over it leaves the cache. -/
def setSoftSize (c : Cache K V) (r : Reclaimer) (softSize : Int) :
    Step (Cache K V) (Notice K V) Unit :=
  let softSize := max softSize (-1)
  ({ c with softSize }.overSoft r (·.setBound · (softBound softSize))).andThen fun c r dropped =>
    { Step.done c r () with log := [.softBound softSize dropped.length] }

/-- The number of entries. -/
def length (c : Cache K V) (r : Reclaimer) : Step (Cache K V) (Notice K V) Nat :=
  (c.overHard r Table.length).andThen fun c r hard =>
    (c.overSoft r Table.length).andThen fun c r soft =>
      .done c r ((c.pins.filter (·.2.isSome)).length + hard + soft)

/-- Drops the stale slots of the soft tier and answers how many there were. -/
def removeExpired (c : Cache K V) (r : Reclaimer) : Step (Cache K V) (Notice K V) Nat :=
  c.overSoft r Table.removeExpired

end SoftCache.Cache
