import SoftCache.Cache.Request
import SoftCache.Proofs.Checked.Table

/-!
# Work on a cache with checks

What a cache can be asked for, where all work on its tiers is done with checks. A cache computes
with no index, remainder or difference of its own. It is *fit* if both of its tiers are
(`Cache.Fit`), and all work on a fit cache passes its checks, comes to what it comes to without
them, and leaves a fit cache (`Cache.Fit.perform`).
-/

namespace SoftCache

open SoftCache.Checked

variable {K V α : Type}

/-- A cache on which all work passes its checks. -/
structure Cache.Fit (c : Cache K V) : Prop where
  /-- The hard tier is fit. -/
  hard : c.hard.Fit
  /-- The soft tier is fit. -/
  soft : c.soft.Fit

namespace Cache

/-! ## Work with checks -/

namespace Checked

/-- Works on the hard tier with checks. What comes of it is taken from there as it is without. -/
def overHard (c : Cache K V) (r : Reclaimer)
    (work : Table K V → Reclaimer → Option (Step (Table K V) (SoftCache.Notice K V) α)) :
    Option (Step (Cache K V) (Notice K V) α) :=
  (work c.hard r).map fun done => c.overHard r fun _ _ => done

/-- Works on the soft tier with checks. What comes of it is taken from there as it is without. -/
def overSoft (c : Cache K V) (r : Reclaimer)
    (work : Table K V → Reclaimer → Option (Step (Table K V) (SoftCache.Notice K V) α)) :
    Option (Step (Cache K V) (Notice K V) α) :=
  (work c.soft r).map fun done => c.overSoft r fun _ _ => done

variable [DecidableEq K] [Hashed K]

/-- The value of a key in a table. -/
def getFrom (key : K) (t : Table K V) (r : Reclaimer) :
    Option (Step (Table K V) (SoftCache.Notice K V) (Option V)) :=
  (Table.Checked.lookup t r (some key)).map (Step.map Option.join)

/-- Removes the entry of a key from a table and answers its value. -/
def takeFrom (key : K) (t : Table K V) (r : Reclaimer) :
    Option (Step (Table K V) (SoftCache.Notice K V) (Option (Option V))) :=
  Table.Checked.removeIf t r (some key) fun _ => true

/-- Removes the entry of a key from a table and answers its value, or nothing if it is null. -/
def takeValueFrom (key : K) (t : Table K V) (r : Reclaimer) :
    Option (Step (Table K V) (SoftCache.Notice K V) (Option V)) :=
  (takeFrom key t r).map (Step.map Option.join)

/-- Puts an entry into a table. -/
def putInto (key : K) (value : Option V) (t : Table K V) (r : Reclaimer) :
    Option (Step (Table K V) (SoftCache.Notice K V) (Table.Placement K V)) :=
  Table.Checked.insert t r (some key) value

/-- Looks a key up in the pinned, the hard and the soft tier, and counts where it was found. -/
def get (c : Cache K V) (r : Reclaimer) (key : K) :
    Option (Step (Cache K V) (Notice K V) (Option V)) :=
  match c.pinnedValue key with
  | some value =>
    some (.done (c.tally fun m => { m with pinnedHits := m.pinnedHits + 1 }) r (some value))
  | none =>
    andThen (overHard c r (getFrom key)) fun
      | c, r, some value =>
        some (.done (c.tally fun m => { m with hardHits := m.hardHits + 1 }) r (some value))
      | c, r, none =>
        andThen (overSoft c r (getFrom key)) fun
          | c, r, some value =>
            some (.done (c.tally fun m => { m with softHits := m.softHits + 1 }) r (some value))
          | c, r, none => some (.done (c.tally fun m => { m with misses := m.misses + 1 }) r none)

/-- Routes entries that the hard tier gave up into the soft tier, or out of the cache. -/
def routeOverflow (c : Cache K V) (r : Reclaimer) :
    List (Entry K V) → Option (Step (Cache K V) (Notice K V) Unit)
  | [] => some (.done c r ())
  | (none, _) :: rest => routeOverflow c r rest
  | (some key, value) :: rest =>
    let routed :=
      if value.isSome && c.softSize ≠ 0 then
        let counted := c.tally fun m => { m with overflows := m.overflows + 1 }
        (overSoft counted r (putInto key value)).map (Step.map fun _ => ())
      else some (c.announce r [.removed key value false])
    andThen routed fun c r _ => routeOverflow c r rest

/-- Puts a value, which may be null, and answers the one that it replaces. -/
def put (c : Cache K V) (r : Reclaimer) (key : K) (value : Option V) :
    Option (Step (Cache K V) (Notice K V) (Option V)) :=
  match c.pins.find key with
  | some _ => some (c.put r key value)
  | none =>
    if c.size = 0 then some (.done c r none)
    else
      andThen (overSoft c r (takeValueFrom key)) fun c r fromSoft =>
        andThen (overHard c r (putInto key value)) fun c r placement =>
          let previous := placement.previous.or (fromSoft.map some)
          let gone := previous.toList.map fun old => Notice.removed key old false
          andThen (some (c.announce r (gone ++ [.added key value]))) fun c r _ =>
            (routeOverflow c r placement.evicted).map (Step.map fun _ => previous.join)

/-- The tier in which the entry of a key is. -/
def locate (c : Cache K V) (r : Reclaimer) (key : K) : Option (Option Tier) := do
  if (c.pinnedValue key).isSome then return some .pinned
  else if ← Table.Checked.containsKey c.hard r (some key) then return some .hard
  else if ← Table.Checked.containsKey c.soft r (some key) then return some .soft
  else return none

/-- Puts entries one after the other, those of keys that have an entry only if asked to replace. -/
def putAll (c : Cache K V) (r : Reclaimer) (replace : Bool) :
    List (K × V) → Option (Step (Cache K V) (Notice K V) Unit)
  | [] => some (.done c r ())
  | (key, value) :: rest =>
    let there := if replace then some false else (locate c r key).map Option.isSome
    there.bind fun there =>
      if there then putAll c r replace rest
      else andThen (put c r key (some value)) fun c r _ => putAll c r replace rest

/-- Removes the entry of a key and answers its value. -/
def remove (c : Cache K V) (r : Reclaimer) (key : K) :
    Option (Step (Cache K V) (Notice K V) (Option V)) :=
  let taken : Option (Step (Cache K V) (Notice K V) (Option (Option V))) :=
    match c.pins.find key with
    | some old => some (.done { c with pins := c.pins.modify key none } r (old.map some))
    | none =>
      andThen (overHard c r (takeFrom key)) fun
        | c, r, some value => some (.done c r (some value))
        | c, r, none => overSoft c r (takeFrom key)
  andThen taken fun c r old =>
    some ((c.announce r (old.toList.map fun old => .removed key old false)).map fun _ => old.join)

/-- Removes all entries. The pins stay, without values. -/
def clear (c : Cache K V) (r : Reclaimer) : Option (Step (Cache K V) (Notice K V) Unit) :=
  let pinned := c.pins.filterMap fun ((key, value) : K × Option V) =>
    value.map fun value => Notice.removed key (some value) false
  let bare := c.pins.map fun ((key, _) : K × Option V) => (key, (none : Option V))
  andThen (some ({ c with pins := bare }.announce r pinned)) fun c r _ =>
    andThen (overSoft c r Table.Checked.removeExpired) fun c r _ =>
      andThen (some (c.announce r (removals (c.hard.entries r)))) fun c r _ =>
        andThen (some (c.overHard r Table.clear)) fun c r _ =>
          andThen (some (c.announce r (removals (c.soft.entries r)))) fun c r _ =>
            some (c.overSoft r Table.clear)

/-- Pins a key with the value that it has, and answers whether it has one. -/
def pin [Ordered K] (c : Cache K V) (r : Reclaimer) (key : K) :
    Option (Step (Cache K V) (Notice K V) Bool) :=
  match c.pins.find key with
  | some value => some (.done c r value.isSome)
  | none =>
    let taken : Option (Step (Cache K V) (Notice K V) (Option V)) :=
      andThen (overHard c r (takeFrom key)) fun
        | c, r, some (some value) => some (.done c r (some value))
        | c, r, some none => some ((c.announce r [.removed key none false]).map fun _ => none)
        | c, r, none => overSoft c r (takeValueFrom key)
    andThen taken fun c r value =>
      let pins := Directory.insertBefore (Ordered.before key) key value c.pins
      some (.done { c with pins } r value.isSome)

/-- Unpins a key and answers whether it was pinned. Its value goes to the hard tier or overflows. -/
def unpin (c : Cache K V) (r : Reclaimer) (key : K) :
    Option (Step (Cache K V) (Notice K V) Bool) :=
  match c.pins.find key with
  | none => some (.done c r false)
  | some value =>
    let unpinned := { c with pins := c.pins.erase key }
    let moved : Option (Step (Cache K V) (Notice K V) Unit) :=
      match value with
      | none => some (.done unpinned r ())
      | some value =>
        if c.size = 0 then routeOverflow unpinned r [(some key, some value)]
        else
          andThen (overHard unpinned r (putInto key (some value))) fun c r placement =>
            routeOverflow c r placement.evicted
    moved.map (Step.map fun _ => true)

/-- Gives a table a bound. -/
def bounding (bound : Option Nat) (t : Table K V) (r : Reclaimer) :
    Option (Step (Table K V) (SoftCache.Notice K V) (List (Entry K V))) :=
  Table.Checked.enforceBound { t with bound } r

/-- Gives the hard tier a bound. What is over it overflows. -/
def setSize (c : Cache K V) (r : Reclaimer) (size : Nat) :
    Option (Step (Cache K V) (Notice K V) Unit) :=
  andThen (overHard { c with size } r (bounding (some size))) fun c r evicted =>
    (routeOverflow c r evicted).map fun routed =>
      { routed with log := .hardBound size evicted.length :: routed.log }

/-- Gives the soft tier a bound, or none for a negative size. -/
def setSoftSize (c : Cache K V) (r : Reclaimer) (softSize : Int) :
    Option (Step (Cache K V) (Notice K V) Unit) :=
  let softSize := max softSize (-1)
  andThen (overSoft { c with softSize } r (bounding (softBound softSize))) fun c r dropped =>
    some { Step.done c r () with log := [.softBound softSize dropped.length] }

/-- The number of entries. -/
def length (c : Cache K V) (r : Reclaimer) : Option (Step (Cache K V) (Notice K V) Nat) :=
  andThen (overHard c r Table.Checked.length) fun c r hard =>
    andThen (overSoft c r Table.Checked.length) fun c r soft =>
      some (.done c r ((c.pins.filter (·.2.isSome)).length + hard + soft))

/-- Whether a pinned key is in another tier, or a key of the hard tier in the soft one. -/
def overlap? (c : Cache K V) (r : Reclaimer) : Option (Option Violation) := do
  let pinned ← c.pinnedKeys.anyM fun key => do
    let inHard ← Table.Checked.containsKey c.hard r (some key)
    let inSoft ← Table.Checked.containsKey c.soft r (some key)
    return inHard || inSoft
  let both ← (tierEntries .hard (c.hard.entries r)).anyM fun (_, key, _) =>
    Table.Checked.containsKey c.soft r (some key)
  return if pinned then some .pinnedInTier else if both then some .inBothTiers else none

/-- Whether the soft tier, after a count, holds too much. -/
def softOverBound? (c : Cache K V) (r : Reclaimer) :
    Option (Step (Cache K V) (Notice K V) (Option Violation)) :=
  match softBound c.softSize with
  | none => some (.done c r none)
  | some bound =>
    (overSoft c r Table.Checked.length).map (Step.map fun entries =>
      if bound < entries then some (.softOverBound entries bound) else none)

/-- The first thing that is wrong with the cache, if anything is. -/
def violation? (c : Cache K V) (r : Reclaimer) :
    Option (Step (Cache K V) (Notice K V) (Option Violation)) := do
  let inHard ← Table.Checked.violation? c.hard
  let inSoft ← Table.Checked.violation? c.soft
  match inHard <|> inSoft with
  | some violation => return .done c r (some (.table violation))
  | none =>
    if c.size < c.hard.count then return .done c r (some (.hardOverBound c.hard.count c.size))
    else
      andThen (softOverBound? c r) fun c r found =>
        (overlap? c r).map fun overlap => .done c r (found <|> overlap)

/-- Carries a request out. What is not named here has nothing to check. -/
def perform [Ordered K] [DecidableEq V] [Literal K] [Literal V] (c : Cache K V) (r : Reclaimer) :
    Request K V → Option (Step (Cache K V) (Notice K V) (Reply K V))
  | .get key => (get c r key).map (Step.map .value)
  | .put key value => (put c r key value).map (Step.map .value)
  | .putAll entries replace => (putAll c r replace entries).map (Step.map fun _ => .nothing)
  | .remove key => (remove c r key).map (Step.map .value)
  | .containsKey key => (locate c r key).map fun tier => c.read r (.flag tier.isSome)
  | .locate key => (locate c r key).map fun tier => c.read r (.tier tier)
  | .pin key => (pin c r key).map (Step.map .flag)
  | .unpin key => (unpin c r key).map (Step.map .flag)
  | .setSize size => (setSize c r size).map (Step.map fun _ => .nothing)
  | .setSoftSize softSize => (setSoftSize c r softSize).map (Step.map fun _ => .nothing)
  | .length => (length c r).map (Step.map .count)
  | .isEmpty => (length c r).map (Step.map fun n => .flag (n == 0))
  | .removeExpired => (overSoft c r Table.Checked.removeExpired).map (Step.map .count)
  | .clear => (clear c r).map (Step.map fun _ => .nothing)
  | .check =>
    (violation? c r).map (Step.map fun
      | none => .done
      | some violation => .refused ⟨.invariant, violation.message⟩)
  | request => some (c.perform r request)

end Checked

/-! ## No check fails -/

variable {c c' : Cache K V} {r : Reclaimer}

namespace Fit

/-- Only the tiers matter. -/
theorem of_eq (h : c.Fit) (hard : c'.hard = c.hard) (soft : c'.soft = c.soft) : c'.Fit where
  hard := by
    rw [hard]
    exact h.hard
  soft := by
    rw [soft]
    exact h.soft

/-- What is counted does not matter. -/
theorem tally (h : c.Fit) (count : Metrics → Metrics) : (c.tally count).Fit :=
  h.of_eq rfl rfl

/-- To announce something leaves a fit cache fit. -/
theorem announce (h : c.Fit) (notices : List (Notice K V)) :
    Safe Fit (some (c.announce r notices)) (c.announce r notices) :=
  .some (h.of_eq rfl rfl)

/-- Work that passes its checks on the hard tier passes them on the cache. -/
theorem overHard (h : c.Fit)
    {checked : Table K V → Reclaimer → Option (Step (Table K V) (SoftCache.Notice K V) α)}
    {work : Table K V → Reclaimer → Step (Table K V) (SoftCache.Notice K V) α}
    (safe : Safe Table.Fit (checked c.hard r) (work c.hard r)) :
    Safe Fit (Checked.overHard c r checked) (c.overHard r work) where
  eq_some := by
    rw [Checked.overHard, safe.eq_some]
    rfl
  fit := ⟨safe.fit, h.soft⟩

/-- Work that passes its checks on the soft tier passes them on the cache. -/
theorem overSoft (h : c.Fit)
    {checked : Table K V → Reclaimer → Option (Step (Table K V) (SoftCache.Notice K V) α)}
    {work : Table K V → Reclaimer → Step (Table K V) (SoftCache.Notice K V) α}
    (safe : Safe Table.Fit (checked c.soft r) (work c.soft r)) :
    Safe Fit (Checked.overSoft c r checked) (c.overSoft r work) where
  eq_some := by
    rw [Checked.overSoft, safe.eq_some]
    rfl
  fit := ⟨h.hard, safe.fit⟩

/-- A cache that was made is fit. -/
theorem create {shared : SharedFractions} {o : Options} {epoch : Nat}
    (made : Cache.create shared o epoch = .ok c) : c.Fit := by
  simp only [Cache.create, bind, Except.bind, pure, Except.pure] at made
  split at made
  · cases made
  · split at made
    · cases made
    · next cursor hcursor =>
      cases made
      have hfit := Cursor.fit_of_ofFractions? hcursor
      exact ⟨Table.fit_empty hfit, Table.fit_empty hfit⟩

/-! ### Sizes and clearing -/

/-- To count a fit cache is safe. -/
theorem length (h : c.Fit) : Safe Fit (Checked.length c r) (c.length r) :=
  (h.overHard h.hard.length).next fun _ _ _ h => (h.overSoft h.soft.length).next fun _ _ _ h =>
    .some h

/-- To count the soft tier of a fit cache is safe. -/
theorem softOverBound? (h : c.Fit) :
    Safe Fit (Checked.softOverBound? c r) (c.softOverBound? r) := by
  unfold Checked.softOverBound? Cache.softOverBound?
  cases softBound c.softSize with
  | none => exact .some h
  | some bound => exact (h.overSoft h.soft.length).map _

/-- To sweep a fit cache is safe. -/
theorem removeExpired (h : c.Fit) :
    Safe Fit (Checked.overSoft c r Table.Checked.removeExpired) (c.removeExpired r) :=
  h.overSoft h.soft.removeExpired

/-- To clear a fit cache is safe. -/
theorem clear (h : c.Fit) : Safe Fit (Checked.clear c r) (c.clear r) := by
  unfold Checked.clear Cache.clear
  refine Safe.next (.some (h.of_eq rfl rfl)) fun c r _ h => ?_
  refine h.removeExpired.next fun c r _ h => (h.announce _).next fun c r _ h => ?_
  refine Safe.next (.some ⟨h.hard.clear r, h.soft⟩) fun c r _ h => ?_
  exact (h.announce _).next fun c r _ h => .some ⟨h.hard, h.soft.clear r⟩

/-- To set the bound of the soft tier is safe. -/
theorem setSoftSize (h : c.Fit) (softSize : Int) :
    Safe Fit (Checked.setSoftSize c r softSize) (c.setSoftSize r softSize) := by
  unfold Checked.setSoftSize Cache.setSoftSize
  generalize max softSize (-1) = size
  have hsized : Fit { c with softSize := size } := h.of_eq rfl rfl
  have hbounded : Table.Fit { c.soft with bound := softBound size } := h.soft.of_eq rfl rfl rfl
  have hset : Safe Fit
      (Checked.overSoft { c with softSize := size } r (Checked.bounding (softBound size)))
      ({ c with softSize := size }.overSoft r (·.setBound · (softBound size))) :=
    hsized.overSoft hbounded.enforceBound
  refine hset.next fun c r dropped h => ?_
  exact .some h

section Keys

variable [DecidableEq K] [Hashed K]

/-! ### Lookups -/

/-- To look into the hard tier is safe. -/
theorem getHard (h : c.Fit) (key : K) :
    Safe Fit (Checked.overHard c r (Checked.getFrom key)) (c.overHard r (·.get · (some key))) :=
  h.overHard ((h.hard.lookup (some key)).map Option.join)

/-- To look into the soft tier is safe. -/
theorem getSoft (h : c.Fit) (key : K) :
    Safe Fit (Checked.overSoft c r (Checked.getFrom key)) (c.overSoft r (·.get · (some key))) :=
  h.overSoft ((h.soft.lookup (some key)).map Option.join)

/-- To get a value from a fit cache is safe. -/
theorem get (h : c.Fit) (key : K) : Safe Fit (Checked.get c r key) (c.get r key) := by
  unfold Checked.get Cache.get
  cases c.pinnedValue key with
  | some value => exact .some (h.of_eq rfl rfl)
  | none =>
    refine (h.getHard key).next fun c r found h => ?_
    cases found with
    | some value => exact .some (h.of_eq rfl rfl)
    | none =>
      refine (h.getSoft key).next fun c r found h => ?_
      cases found with
      | some value => exact .some (h.of_eq rfl rfl)
      | none => exact .some (h.of_eq rfl rfl)

/-- To locate a key in a fit cache has an outcome. -/
theorem locate (h : c.Fit) (key : K) : Checked.locate c r key = some (c.locate r key) := by
  unfold Checked.locate Cache.locate
  rw [h.hard.containsKey, h.soft.containsKey]
  split
  · rfl
  · cases c.hard.containsKey r (some key) with
    | true => rfl
    | false => cases c.soft.containsKey r (some key) <;> rfl

/-! ### Changes -/

/-- To remove a key from the hard tier is safe. -/
theorem takeHard (h : c.Fit) (key : K) :
    Safe Fit (Checked.overHard c r (Checked.takeFrom key))
      (c.overHard r (·.removeEntry · (some key))) :=
  h.overHard (h.hard.removeIf (some key) _)

/-- To remove a key from the soft tier is safe. -/
theorem takeSoft (h : c.Fit) (key : K) :
    Safe Fit (Checked.overSoft c r (Checked.takeFrom key))
      (c.overSoft r (·.removeEntry · (some key))) :=
  h.overSoft (h.soft.removeIf (some key) _)

/-- To take a value from the soft tier is safe. -/
theorem takeSoftValue (h : c.Fit) (key : K) :
    Safe Fit (Checked.overSoft c r (Checked.takeValueFrom key))
      (c.overSoft r (·.remove · (some key))) :=
  h.overSoft ((h.soft.removeIf (some key) _).map Option.join)

/-- To put an entry into the hard tier is safe. -/
theorem putHard (h : c.Fit) (key : K) (value : Option V) :
    Safe Fit (Checked.overHard c r (Checked.putInto key value))
      (c.overHard r (·.insert · (some key) value)) :=
  h.overHard (h.hard.insert (some key) value)

/-- To put an entry into the soft tier is safe. -/
theorem putSoft (h : c.Fit) (key : K) (value : Option V) :
    Safe Fit (Checked.overSoft c r (Checked.putInto key value))
      (c.overSoft r (·.insert · (some key) value)) :=
  h.overSoft (h.soft.insert (some key) value)

/-- To move entries into the soft tier is safe, one after the other. -/
theorem routeOverflow (h : c.Fit) (entries : List (Entry K V)) :
    Safe Fit (Checked.routeOverflow c r entries) (c.routeOverflow r entries) := by
  induction entries generalizing c r with
  | nil => exact .some h
  | cons entry rest ih =>
    obtain ⟨key, value⟩ := entry
    cases key with
    | none => exact ih h
    | some key =>
      unfold Checked.routeOverflow Cache.routeOverflow
      refine Safe.next ?_ fun c r _ h => ih h
      split
      · exact ((h.tally _).putSoft key value).map _
      · exact h.announce _

/-- To put an entry into a fit cache is safe. -/
theorem put (h : c.Fit) (key : K) (value : Option V) :
    Safe Fit (Checked.put c r key value) (c.put r key value) := by
  unfold Checked.put
  cases found : c.pins.find key with
  | some old =>
    refine .some ?_
    rw [Cache.put, found]
    exact h.of_eq rfl rfl
  | none =>
    rw [Cache.put, found]
    dsimp only
    split
    · exact .some h
    · refine (h.takeSoftValue key).next fun c r fromSoft h => ?_
      refine (h.putHard key value).next fun c r placement h => ?_
      exact (h.announce _).next fun c r _ h => (h.routeOverflow _).map _

/-- To put entries into a fit cache is safe, one after the other. -/
theorem putAll (h : c.Fit) (replace : Bool) (entries : List (K × V)) :
    Safe Fit (Checked.putAll c r replace entries) (c.putAll r replace entries) := by
  induction entries generalizing c r with
  | nil => exact .some h
  | cons entry rest ih =>
    have hput : Safe Fit
        (andThen (Checked.put c r entry.1 (some entry.2)) fun c r _ =>
          Checked.putAll c r replace rest)
        ((c.put r entry.1 (some entry.2)).andThen fun c r _ => c.putAll r replace rest) :=
      (h.put entry.1 (some entry.2)).next fun c r _ h => ih h
    unfold Checked.putAll Cache.putAll
    rw [h.locate]
    cases replace with
    | true => exact hput
    | false =>
      show Safe Fit (if c.containsKey r entry.1 then _ else _)
        (if c.containsKey r entry.1 then _ else _)
      split
      · exact ih h
      · exact hput

/-- To remove an entry from a fit cache is safe. -/
theorem remove (h : c.Fit) (key : K) : Safe Fit (Checked.remove c r key) (c.remove r key) := by
  unfold Checked.remove Cache.remove
  refine Safe.next ?_ fun c r old h => .some (h.of_eq rfl rfl)
  cases c.pins.find key with
  | some old => exact .some (h.of_eq rfl rfl)
  | none =>
    refine (h.takeHard key).next fun c r taken h => ?_
    cases taken with
    | some value => exact .some h
    | none => exact h.takeSoft key

/-- To pin a key of a fit cache is safe. -/
theorem pin [Ordered K] (h : c.Fit) (key : K) : Safe Fit (Checked.pin c r key) (c.pin r key) := by
  unfold Checked.pin Cache.pin
  cases c.pins.find key with
  | some value => exact .some h
  | none =>
    refine Safe.next ?_ fun c r value h => .some (h.of_eq rfl rfl)
    refine (h.takeHard key).next fun c r taken h => ?_
    match taken with
    | some (some value) => exact .some h
    | some none => exact .some (h.of_eq rfl rfl)
    | none => exact h.takeSoftValue key

/-- To unpin a key of a fit cache is safe. -/
theorem unpin (h : c.Fit) (key : K) : Safe Fit (Checked.unpin c r key) (c.unpin r key) := by
  have herased : Fit { c with pins := c.pins.erase key } := h.of_eq rfl rfl
  unfold Checked.unpin Cache.unpin
  cases c.pins.find key with
  | none => exact .some h
  | some value =>
    refine Safe.map _ ?_
    cases value with
    | none => exact .some herased
    | some value =>
      dsimp only
      split
      · exact herased.routeOverflow _
      · exact (herased.putHard key (some value)).next fun c r placement h => h.routeOverflow _

/-! ### Bounds and the self-check -/

/-- To set the bound of the hard tier is safe. -/
theorem setSize (h : c.Fit) (size : Nat) :
    Safe Fit (Checked.setSize c r size) (c.setSize r size) := by
  have hsized : Fit { c with size } := h.of_eq rfl rfl
  have hbounded : Table.Fit { c.hard with bound := some size } := h.hard.of_eq rfl rfl rfl
  have hset : Safe Fit (Checked.overHard { c with size } r (Checked.bounding (some size)))
      ({ c with size }.overHard r (·.setBound · (some size))) :=
    hsized.overHard hbounded.enforceBound
  refine hset.next fun c r evicted h => ?_
  have hrouted := h.routeOverflow (r := r) evicted
  exact ⟨by rw [hrouted.eq_some]; rfl, hrouted.fit⟩

/-- To look for a key in two places has an outcome. -/
theorem overlap?_eq (h : c.Fit) : Checked.overlap? c r = some (c.overlap? r) := by
  have hany {α : Type} (l : List α) (test : α → Bool) :
      (l.anyM fun a => some (test a)) = some (l.any test) := List.anyM_pure ..
  unfold Checked.overlap? Cache.overlap?
  simp only [h.hard.containsKey, h.soft.containsKey, Option.bind_eq_bind, Option.bind_some,
    Option.pure_def, hany]

/-- The self-check of a fit cache is safe. -/
theorem violation? (h : c.Fit) : Safe Fit (Checked.violation? c r) (c.violation? r) := by
  unfold Checked.violation? Cache.violation?
  rw [h.hard.violation?_eq, h.soft.violation?_eq]
  simp only [Option.bind_eq_bind, Option.bind_some]
  cases c.hard.violation? <|> c.soft.violation? with
  | some violation => exact .some h
  | none =>
    dsimp only
    split
    · exact .some h
    · refine h.softOverBound?.next fun c r found h => ?_
      rw [h.overlap?_eq]
      exact .some h

/-- Every request to a fit cache is safe. -/
theorem perform [Ordered K] [DecidableEq V] [Literal K] [Literal V] (h : c.Fit)
    (request : Request K V) : Safe Fit (Checked.perform c r request) (c.perform r request) := by
  cases request with
  | get key => exact (h.get key).map _
  | put key value => exact (h.put key value).map _
  | putAll entries replace => exact (h.putAll replace entries).map _
  | remove key => exact (h.remove key).map _
  | containsKey key =>
    rw [Checked.perform, h.locate]
    exact .some h
  | locate key =>
    rw [Checked.perform, h.locate]
    exact .some h
  | pin key => exact (h.pin key).map _
  | unpin key => exact (h.unpin key).map _
  | setSize size => exact (h.setSize size).map _
  | setSoftSize softSize => exact (h.setSoftSize softSize).map _
  | length => exact h.length.map _
  | isEmpty => exact h.length.map _
  | removeExpired => exact h.removeExpired.map _
  | clear => exact h.clear.map _
  | check => exact h.violation?.map _
  | containsValue | pinnedKeys | keys | entries | values | size | softSize | byUse | metrics
  | snapshot | literal => exact .some h

end Keys

end Fit

end Cache

end SoftCache
