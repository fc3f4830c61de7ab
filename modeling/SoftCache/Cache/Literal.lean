import SoftCache.Cache.Basic

/-!
# Caches in diagnostic texts
-/

namespace SoftCache.Cache

variable {K V : Type}

/-- The options of a cache that is to be made. Of the fractions nothing is shown. -/
def Options.literal (o : Options) : String :=
  partialRecord "CacheMapBuilder"
    [field "lru" o.byUse, field "cache_size" o.size, field "soft_reference_size" o.softSize,
      "load_factor: " ++ Layout.diagnostic.write .single o.loadFactor]

/-- The cache with its entries. -/
def literal [Literal K] [Literal V] (c : Cache K V) (r : Reclaimer) : String :=
  record "CacheMap"
    [field "lru" c.byUse, field "cache_size" c.size, field "soft_reference_size" c.softSize,
      field "pinned" c.pins.length, field "entries" (c.entries r)]

end SoftCache.Cache
