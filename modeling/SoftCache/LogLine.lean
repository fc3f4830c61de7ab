import SoftCache.Error

/-!
# The log

What reclaimers, tables and caches write to the log besides their answers and notices.
-/

namespace SoftCache

/-- How important a line of the log is. -/
inductive LogLevel where
  | trace
  | debug
  | warn
deriving DecidableEq

/-- The name of a level. -/
def LogLevel.name : LogLevel → String
  | trace => "TRACE"
  | debug => "DEBUG"
  | warn => "WARN"

/-- A line of the log, by what it reports. -/
inductive LogLine where
  /-- A reclaimer cleared payloads. -/
  | cleared (payloads : Nat)
  /-- A table moved its entries to more buckets. -/
  | resized (before after entries : Nat)
  /-- A table over its bound evicted an entry. -/
  | overBound (bound : Nat)
  /-- A sweep dropped stale slots. -/
  | purged (slots : Nat)
  /-- The hard tier of a cache was given a bound. -/
  | hardBound (bound displaced : Nat)
  /-- The soft tier of a cache was given a bound, where a negative one means none. -/
  | softBound (bound : Int) (dropped : Nat)
  /-- A configuration was refused. -/
  | rejected (error : ConfigError)
deriving DecidableEq

namespace LogLine

/-- The level that a line is written at. -/
def level : LogLine → LogLevel
  | resized .. | overBound _ => .trace
  | rejected _ => .warn
  | _ => .debug

/-- The text of a line. -/
def message : LogLine → String
  | cleared payloads => s!"memory reclaimer cleared {payloads} reclaimable payloads"
  | resized before after entries =>
    s!"reference table resized {before} -> {after} buckets ({entries} entries)"
  | overBound bound => s!"reference table over max size {bound}, evicted one entry"
  | purged slots => s!"reference table purged {slots} reclaimed slots"
  | hardBound bound displaced => s!"cache size set to {bound}, {displaced} entries displaced"
  | softBound bound dropped => s!"soft reference size set to {bound}, {dropped} entries dropped"
  | rejected error => "rejecting configuration: " ++ error.message

end LogLine

end SoftCache
