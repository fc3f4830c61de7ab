import SoftCache.Holder
import SoftCache.Key.Basic

/-!
# Slots

A slot of a table holds a key and a value. It is *stale* when the reclaimer has cleared either. A
stale slot is no entry any more, but it stays in its bucket until an operation comes upon it and
announces what has expired.
-/

namespace SoftCache

/-- An entry: a key and a value, either of which may be null. -/
abbrev Entry (K V : Type) := Option K × Option V

/-- What a table announces. -/
inductive Notice (K V : Type) where
  /-- A key was cleared; what is left is its value. -/
  | keyExpired (value : Option V)
  /-- A value was cleared; what is left is its key. -/
  | valueExpired (key : Option K)
  /-- An entry was evicted because the table was over its bound. -/
  | overflow (entry : Entry K V)
deriving DecidableEq

/-- A slot of a table. -/
structure Slot (K V : Type) where
  /-- The hash of the key. -/
  hash : UInt64
  /-- The key. -/
  key : Holder K
  /-- The value. -/
  value : Holder V
deriving DecidableEq

namespace Slot

variable {K V : Type}

/-- Whether the reclaimer has cleared the key or the value. -/
def isStale (r : Reclaimer) (s : Slot K V) : Bool :=
  s.key.isCleared r || s.value.isCleared r

/-- Whether the slot has this key. A slot whose key was cleared has none, but one whose value was
cleared still has its key. -/
def isFor [DecidableEq K] (r : Reclaimer) (hash : UInt64) (key : Option K) (s : Slot K V) : Bool :=
  s.hash == hash && s.key.holds r key

/-- The entry in a slot that is not stale. -/
def entry (r : Reclaimer) (s : Slot K V) : Entry K V :=
  (s.key.get r, s.value.get r)

/-- What is announced of a stale slot: a cleared key with what is left of the value, or else the key
of a cleared value. -/
def expiration (r : Reclaimer) (s : Slot K V) : Notice K V :=
  if s.key.isCleared r then .keyExpired (s.value.get r) else .valueExpired (s.key.get r)

/-- The payloads that the slot has registered. -/
def payloads (s : Slot K V) : List Nat :=
  s.key.payloads ++ s.value.payloads

end Slot

/-- The reclaimer after slots have left their table. -/
def Reclaimer.dismiss {K V : Type} (r : Reclaimer) (slots : List (Slot K V)) : Reclaimer :=
  r.release (slots.flatMap Slot.payloads)

end SoftCache
