import SoftCache.Reclaimer

/-!
# Holders

One side of a slot, its key or its value, is held strongly or reclaimably, or is null. What is held
strongly stays; what is held reclaimably can be read as long as its reclaimer has not cleared it.
-/

namespace SoftCache

/-- How a table holds its keys or its values. -/
inductive Strength where
  /-- Until the entry is removed. -/
  | strong
  /-- Until the entry is removed or the reclaimer clears it. -/
  | reclaimable
deriving DecidableEq

/-- Whether nothing but a removal takes what is held so. -/
def Strength.isStrong : Strength → Bool
  | strong => true
  | reclaimable => false

/-- Strengths are shown by their names. -/
instance : Literal Strength :=
  ⟨fun
    | .strong => "Strong"
    | .reclaimable => "Reclaimable"⟩

/-- A held key or value. -/
inductive Holder (α : Type) where
  /-- Null is held. -/
  | null
  /-- The content is held strongly. -/
  | strong (content : α)
  /-- The content is held until the reclaimer clears the payload of this number. -/
  | reclaimable (payload : Nat) (content : α)
deriving DecidableEq

namespace Holder

variable {α : Type}

/-- Whether the reclaimer has cleared what was held. -/
def isCleared (r : Reclaimer) : Holder α → Bool
  | reclaimable payload _ => !r.isLive payload
  | _ => false

/-- What is held. Null and a cleared payload both give nothing. -/
def get (r : Reclaimer) : Holder α → Option α
  | null => none
  | strong content => some content
  | reclaimable payload content => if r.isLive payload then some content else none

/-- The payloads that the holder has registered. -/
def payloads : Holder α → List Nat
  | reclaimable payload _ => [payload]
  | _ => []

/-- Whether exactly this is held, null included. A cleared payload matches nothing. -/
def holds [DecidableEq α] (r : Reclaimer) (wanted : Option α) (h : Holder α) : Bool :=
  !h.isCleared r && h.get r == wanted

/-- Nothing can be read of what was cleared. -/
theorem get_eq_none_of_isCleared {r : Reclaimer} {h : Holder α} (cleared : h.isCleared r = true) :
    h.get r = none := by
  cases h <;> simp_all [isCleared, get]

/-- What is cleared has a payload that is not live. -/
theorem isCleared_iff {r : Reclaimer} {h : Holder α} :
    h.isCleared r = true ↔ ∃ payload ∈ h.payloads, payload ∉ r.live := by
  cases h <;> simp [isCleared, payloads, Reclaimer.isLive]

end Holder

/-- A holder that was made, with the reclaimer after its registration. -/
structure Held (α : Type) where
  /-- The new holder. -/
  holder : Holder α
  /-- The reclaimer that knows its payload. -/
  reclaimer : Reclaimer
  /-- What the registration wrote to the log. -/
  log : List LogLine

namespace Held

variable {α : Type}

/-- Holds something with the strength given. Only a reclaimable payload is registered. -/
def of (s : Strength) (content : Option α) (r : Reclaimer) : Held α :=
  match content, s with
  | none, _ => ⟨.null, r, []⟩
  | some content, .strong => ⟨.strong content, r, []⟩
  | some content, .reclaimable => ⟨.reclaimable r.next content, r.register, r.registerLog⟩

/-- Holds once more what a holder holds, in the same way. A payload that is cleared by now leaves
null. -/
def again (h : Holder α) (r : Reclaimer) : Held α :=
  match h with
  | .null => ⟨.null, r, []⟩
  | .strong content => ⟨.strong content, r, []⟩
  | .reclaimable _ _ => of .reclaimable (h.get r) r

end Held

end SoftCache
