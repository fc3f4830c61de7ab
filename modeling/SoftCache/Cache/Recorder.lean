import SoftCache.Cache.Basic

/-!
# Recorders

A recorder keeps what a cache announces, without the values themselves.
-/

namespace SoftCache

/-- What a recorder keeps of a notice. -/
inductive Recorded (K : Type) where
  | added (key : K)
  | removed (key : K) (hadValue expired : Bool)
deriving DecidableEq

/-- What was announced so far, the oldest first. -/
structure Recorder (K : Type) where
  /-- What was announced. -/
  events : List (Recorded K)
deriving DecidableEq

namespace Recorder

variable {K V : Type}

/-- A recorder that has heard nothing. -/
def empty : Recorder K := ⟨[]⟩

/-- What is kept of a notice. -/
def record : Cache.Notice K V → Recorded K
  | .added key _ => .added key
  | .removed key value expired => .removed key value.isSome expired

/-- The recorder after notices. -/
def hear (l : Recorder K) (notices : List (Cache.Notice K V)) : Recorder K :=
  ⟨l.events ++ notices.map record⟩

/-- How many additions were announced. -/
def additions (l : Recorder K) : Nat :=
  l.events.countP fun
    | .added _ => true
    | .removed .. => false

/-- How many removals were announced that were no expirations. -/
def removals (l : Recorder K) : Nat :=
  l.events.countP fun
    | .removed _ _ expired => !expired
    | .added _ => false

/-- How many expirations were announced. -/
def expirations (l : Recorder K) : Nat :=
  l.events.countP fun
    | .removed _ _ expired => expired
    | .added _ => false

/-- The keys that were removed and not expired, in order. -/
def removedKeys (l : Recorder K) : List K :=
  l.events.filterMap fun
    | .removed key _ false => some key
    | _ => none

/-- The recorder in a diagnostic text. -/
def literal (l : Recorder K) : String :=
  SoftCache.record "RecordingListener" [field "events" l.events.length]

end Recorder

end SoftCache
