import SoftCache.Reclaimer

/-!
# Steps of work

An operation on a table or a cache answers, leaves a new state and a new reclaimer, announces
notices and writes to the log. `Step` holds all five, and `Step.andThen` is one piece of work after
another: what they announce and write is joined in order.
-/

namespace SoftCache

/-- What an operation on a state of type `σ` comes to, with notices of type `ν`. -/
structure Step (σ ν α : Type) where
  /-- The answer. -/
  result : α
  /-- The state afterwards. -/
  state : σ
  /-- The reclaimer afterwards. -/
  reclaimer : Reclaimer
  /-- What was announced, in order. -/
  notices : List ν
  /-- What was written to the log, in order. -/
  log : List LogLine

namespace Step

variable {σ ν α β : Type}

/-- An answer that changes and announces nothing. -/
def done (state : σ) (reclaimer : Reclaimer) (result : α) : Step σ ν α :=
  ⟨result, state, reclaimer, [], []⟩

/-- One piece of work and then another. -/
def andThen (first : Step σ ν α) (second : σ → Reclaimer → α → Step σ ν β) : Step σ ν β :=
  let rest := second first.state first.reclaimer first.result
  { rest with notices := first.notices ++ rest.notices, log := first.log ++ rest.log }

/-- The same work with another answer. -/
def map (f : α → β) (step : Step σ ν α) : Step σ ν β :=
  { step with result := f step.result }

section Lemmas

variable (first : Step σ ν α) (second : σ → Reclaimer → α → Step σ ν β)

/-- The answer is that of the second piece of work. -/
@[simp] theorem andThen_result :
    (first.andThen second).result =
      (second first.state first.reclaimer first.result).result := rfl

/-- The state is that after the second piece of work. -/
@[simp] theorem andThen_state :
    (first.andThen second).state =
      (second first.state first.reclaimer first.result).state := rfl

/-- The reclaimer is that after the second piece of work. -/
@[simp] theorem andThen_reclaimer :
    (first.andThen second).reclaimer =
      (second first.state first.reclaimer first.result).reclaimer := rfl

/-- What the first piece of work announces comes first. -/
@[simp] theorem andThen_notices :
    (first.andThen second).notices =
      first.notices ++ (second first.state first.reclaimer first.result).notices := rfl

/-- What the first piece of work writes comes first. -/
@[simp] theorem andThen_log :
    (first.andThen second).log =
      first.log ++ (second first.state first.reclaimer first.result).log := rfl

end Lemmas

end Step

end SoftCache
