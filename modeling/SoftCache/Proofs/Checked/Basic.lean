import SoftCache.Step
import SoftCache.Table.Buckets

/-!
# Work with checks

Tables and caches are defined by total functions: what is subtracted from less gives zero, there is
nothing past the last bucket, and a remainder by zero is the dividend. Here the same work is done
with checks, and has no outcome if one of them fails. Work that is `Checked.Safe` passes all of its
checks and comes to what the unchecked work comes to. Since it also leaves a state from which it can
go on, safe work after safe work is safe (`Checked.Safe.andThen`).
-/

namespace SoftCache.Checked

variable {σ ν α β K V : Type}

/-! ## Checks -/

/-- The difference of two numbers, unless it is negative. -/
def minus (a b : Nat) : Option Nat :=
  if b ≤ a then some (a - b) else none

/-- The remainder of a division, unless it is by zero. -/
def remainder (a b : Nat) : Option Nat :=
  if b = 0 then none else some (a % b)

/-- What comes before a position in a list and what comes from there on, unless the position is
past its end. -/
def splitAt (l : List α) (i : Nat) : Option (List α × List α) :=
  if i ≤ l.length then some (l.take i, l.drop i) else none

/-- The element at a position and the list without it, unless there is none. -/
def takeOut (l : List α) (i : Nat) : Option (α × List α) :=
  l[i]?.map fun a => (a, l.eraseIdx i)

/-- The slots of a bucket, unless it is past the last one. -/
def bucket (b : Buckets K V) (i : Nat) : Option (List (Slot K V)) :=
  b[i]?

/-- The buckets with the slots of one of them replaced, unless it is past the last one. -/
def setBucket (b : Buckets K V) (i : Nat) (slots : List (Slot K V)) : Option (Buckets K V) :=
  if i < b.size then some (b.set i slots) else none

/-- A difference that is not negative has an outcome. -/
theorem minus_eq {a b : Nat} (h : b ≤ a) : minus a b = some (a - b) :=
  if_pos h

/-- A remainder by a positive number has an outcome. -/
theorem remainder_eq {a b : Nat} (h : 0 < b) : remainder a b = some (a % b) :=
  if_neg (Nat.pos_iff_ne_zero.mp h)

/-- A bucket that there is can be read. -/
theorem bucket_eq {b : Buckets K V} {i : Nat} (h : i < b.size) :
    bucket b i = some (b.bucket i) := by
  simp [bucket, Buckets.bucket, Array.getD_eq_getD_getElem?, h]

/-- A bucket that there is can be filled anew. -/
theorem setBucket_eq {b : Buckets K V} {i : Nat} (h : i < b.size) (slots : List (Slot K V)) :
    setBucket b i slots = some (b.set i slots) :=
  if_pos h

/-! ## Steps with checks -/

/-- One piece of work with checks and then another. -/
def andThen (first : Option (Step σ ν α)) (second : σ → Reclaimer → α → Option (Step σ ν β)) :
    Option (Step σ ν β) :=
  first.bind fun one =>
    (second one.state one.reclaimer one.result).map fun two =>
      { two with notices := one.notices ++ two.notices, log := one.log ++ two.log }

/-- Work that passes its checks and comes to what the work without checks comes to, in a state in
which more can be done. -/
structure Safe (Fit : σ → Prop) (checked : Option (Step σ ν α)) (plain : Step σ ν α) : Prop where
  /-- No check fails. -/
  eq_some : checked = some plain
  /-- More can be done. -/
  fit : Fit plain.state

namespace Safe

variable {Fit : σ → Prop} {checked : Option (Step σ ν α)} {plain : Step σ ν α}

/-- An outcome without checks is safe. -/
theorem some (fit : Fit plain.state) : Safe Fit (some plain) plain :=
  ⟨rfl, fit⟩

/-- One safe piece of work and then another is safe. -/
theorem andThen (h : Safe Fit checked plain)
    {checked' : σ → Reclaimer → α → Option (Step σ ν β)} {plain' : σ → Reclaimer → α → Step σ ν β}
    (h' : Safe Fit (checked' plain.state plain.reclaimer plain.result)
      (plain' plain.state plain.reclaimer plain.result)) :
    Safe Fit (Checked.andThen checked checked') (plain.andThen plain') where
  eq_some := by
    rw [Checked.andThen, h.eq_some, Option.bind_some, h'.eq_some]
    rfl
  fit := h'.fit

/-- Safe work can be followed by whatever is safe in all states in which more can be done. -/
theorem next (h : Safe Fit checked plain)
    {checked' : σ → Reclaimer → α → Option (Step σ ν β)} {plain' : σ → Reclaimer → α → Step σ ν β}
    (h' : ∀ s r a, Fit s → Safe Fit (checked' s r a) (plain' s r a)) :
    Safe Fit (Checked.andThen checked checked') (plain.andThen plain') :=
  h.andThen (h' _ _ _ h.fit)

/-- The answer does not matter. -/
theorem map (f : α → β) (h : Safe Fit checked plain) :
    Safe Fit (checked.map (Step.map f)) (plain.map f) where
  eq_some := by
    rw [h.eq_some]
    rfl
  fit := h.fit

end Safe

end SoftCache.Checked
