import SoftCache.Table.Basic

/-!
# Tables in diagnostic texts
-/

namespace SoftCache.Table

variable {K V : Type}

/-- The options of a table that is to be made. Of the fractions nothing is shown. -/
def Options.literal (o : Options) : String :=
  partialRecord "ReferenceTableBuilder"
    [field "key_strength" o.keyStrength, field "value_strength" o.valueStrength,
      field "initial_capacity" o.capacity,
      "load_factor: " ++ Layout.diagnostic.write .single o.loadFactor,
      field "max_size" o.bound, field "eviction_order" o.order]

/-- The table, with the number of its slots, stale ones included. -/
def literal (t : Table K V) : String :=
  record "ConcurrentReferenceTable"
    [field "key_strength" t.config.keyStrength, field "value_strength" t.config.valueStrength,
      field "len" t.count, field "capacity" t.capacity,
      field "load_factor" t.config.loadFactor, field "max_size" t.bound]

end SoftCache.Table
