import SoftCache.Key.Mixing
import SoftCache.Text.Quoted

/-!
# Keys

A table needs equality and a hash of its keys, `Hashed`. A cache also lists its pinned keys in an
order, `Ordered`. A key may be absent: the null key is a key of its own, with the hash zero. Numbers
and texts are keys, and so are numbers that are hashed by their remainder modulo four only, with
which collisions are easily had.
-/

namespace SoftCache

/-- Keys that have a hash. -/
class Hashed (K : Type) where
  /-- The hash of a key. -/
  hash : K → UInt64

/-- Keys that are listed in an order. -/
class Ordered (K : Type) where
  /-- Whether the first key is listed before the second. -/
  before : K → K → Bool

/-- The hash of a key that may be null. -/
def nullableHash {K : Type} [Hashed K] : Option K → UInt64
  | none => 0
  | some key => Hashed.hash key

/-- A number is hashed as one word. -/
instance : Hashed UInt64 := ⟨Mixing.hashNumber⟩

/-- Numbers are in order of size. -/
instance : Ordered UInt64 := ⟨fun a b => a < b⟩

/-- Numbers are shown by their digits. -/
instance : Literal UInt64 := ⟨fun n => toString n.toNat⟩

/-- Texts are hashed as their bytes. -/
instance : Hashed String := ⟨Mixing.hashText⟩

/-- Texts are in the order of their characters. -/
instance : Ordered String := ⟨fun a b => a < b⟩

/-- A number of which only the remainder modulo four is hashed. -/
structure Clustered where
  /-- The number itself, by which keys are compared. -/
  number : UInt64
deriving DecidableEq

/-- These keys share four hashes. -/
instance : Hashed Clustered := ⟨fun k => Mixing.hashNumber (k.number % 4)⟩

/-- They are in the order of their numbers. -/
instance : Ordered Clustered := ⟨fun a b => a.number < b.number⟩

/-- They are shown as their numbers. -/
instance : Literal Clustered := ⟨fun k => Literal.literal k.number⟩

end SoftCache
