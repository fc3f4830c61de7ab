import SoftCache.Number.Decimal
import SoftCache.Text.Quoted

/-!
# What can go wrong

A configuration is refused for one of four causes, `ConfigError`, and an operation for one of three,
`TableError`. A `Report` is an error as it is shown: its kind and its message.
-/

namespace SoftCache

/-- Why a configuration is refused. -/
inductive ConfigError where
  /-- The load factor is not a finite number greater than zero. -/
  | loadFactorNotPositive (given : Binary)
  /-- With this load factor no table of a reasonable capacity holds even one entry. -/
  | loadFactorTooSmall (given : Binary)
  /-- There is no fraction to draw from. -/
  | noFractions
  /-- One of the fractions is not in `[0, 1)`. -/
  | notFraction (given : Binary)
deriving DecidableEq

/-- The message for a refused configuration. -/
def ConfigError.message : ConfigError → String
  | loadFactorNotPositive given =>
    "load factor must be finite and > 0, got " ++ Layout.message.write .single given
  | loadFactorTooSmall given =>
    "load factor " ++ Layout.message.write .single given ++ " is too small to hold a single entry"
  | noFractions => "fraction array must not be empty"
  | notFraction given =>
    "fraction " ++ Layout.message.write .double given ++ " is outside [0, 1)"

/-- Why an operation on a table is refused. -/
inductive TableError where
  /-- A null key cannot be held reclaimably. -/
  | nullKey
  /-- A null value cannot be held reclaimably. -/
  | nullValue
  /-- There are no entries to put. -/
  | noSource
deriving DecidableEq

/-- The kinds of errors. -/
inductive ErrorKind where
  | config
  | invariant
  | invalidArgument
  | nullArgument
deriving DecidableEq

/-- The name of a kind of errors. -/
def ErrorKind.name : ErrorKind → String
  | config => "ConfigError"
  | invariant => "InvariantError"
  | invalidArgument => "InvalidArgument"
  | nullArgument => "NullArgument"

/-- An error as it is shown. -/
structure Report where
  /-- What kind of error it is. -/
  kind : ErrorKind
  /-- What exactly is wrong. -/
  message : String
deriving DecidableEq

namespace Report

/-- The text for the user. Wrong arguments are named as such in front of the message. -/
def display (r : Report) : String :=
  match r.kind with
  | .config | .invariant => r.message
  | .invalidArgument => "invalid argument: " ++ r.message
  | .nullArgument => "null argument: " ++ r.message

/-- The error in a diagnostic text. -/
def literal (r : Report) : String :=
  r.kind.name ++ "(" ++ quoted r.message ++ ")"

end Report

/-- The report of a refused configuration. -/
def ConfigError.report (e : ConfigError) : Report :=
  ⟨.config, e.message⟩

/-- The report of a refused operation. -/
def TableError.report : TableError → Report
  | nullKey => ⟨.invalidArgument, "null key on a table with reclaimable keys"⟩
  | nullValue => ⟨.invalidArgument, "null value on a table with reclaimable values"⟩
  | noSource => ⟨.nullArgument, "put_all source"⟩

end SoftCache
