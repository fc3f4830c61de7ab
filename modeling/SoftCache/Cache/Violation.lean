import SoftCache.Cache.Update
import SoftCache.Table.Violation

/-!
# The self-check of a cache

A cache checks both of its tables, their sizes, and that no key is in two tiers. The check counts
the soft tier, and so drops its stale slots as counting does. No sequence of operations leads to a
violation.
-/

namespace SoftCache.Cache

variable {K V : Type} [DecidableEq K] [Hashed K]

/-- What may be wrong with a cache. -/
inductive Violation where
  /-- Something is wrong with one of the tables. -/
  | table (violation : Table.Violation)
  /-- The hard tier holds too much. -/
  | hardOverBound (entries bound : Nat)
  /-- The soft tier holds too much. -/
  | softOverBound (entries bound : Nat)
  /-- A pinned key is in the hard or the soft tier too. -/
  | pinnedInTier
  /-- A key is in the hard and the soft tier. -/
  | inBothTiers
deriving DecidableEq

/-- The message for a violation. -/
def Violation.message : Violation → String
  | .table violation => violation.message
  | .hardOverBound entries bound => s!"hard tier holds {entries} entries, bound is {bound}"
  | .softOverBound entries bound => s!"soft tier holds {entries} entries, bound is {bound}"
  | .pinnedInTier => "pinned key also present in a tier"
  | .inBothTiers => "key present in both hard and soft tiers"

/-- Whether a pinned key is in another tier, or a key of the hard tier in the soft one. -/
def overlap? (c : Cache K V) (r : Reclaimer) : Option Violation :=
  if c.pinnedKeys.any fun key =>
      c.hard.containsKey r (some key) || c.soft.containsKey r (some key) then
    some .pinnedInTier
  else if (tierEntries .hard (c.hard.entries r)).any fun (_, key, _) =>
      c.soft.containsKey r (some key) then
    some .inBothTiers
  else none

/-- Whether the soft tier, after a count, holds too much. -/
def softOverBound? (c : Cache K V) (r : Reclaimer) :
    Step (Cache K V) (Notice K V) (Option Violation) :=
  match softBound c.softSize with
  | none => .done c r none
  | some bound =>
    (c.overSoft r Table.length).map fun entries =>
      if bound < entries then some (.softOverBound entries bound) else none

/-- The first thing that is wrong with the cache, if anything is. -/
def violation? (c : Cache K V) (r : Reclaimer) :
    Step (Cache K V) (Notice K V) (Option Violation) :=
  match c.hard.violation? <|> c.soft.violation? with
  | some violation => .done c r (some (.table violation))
  | none =>
    if c.size < c.hard.count then .done c r (some (.hardOverBound c.hard.count c.size))
    else
      (c.softOverBound? r).andThen fun c r found => .done c r (found <|> c.overlap? r)

end SoftCache.Cache
