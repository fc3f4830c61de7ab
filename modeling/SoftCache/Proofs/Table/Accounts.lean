import SoftCache.Proofs.Table.Quiet
import SoftCache.Proofs.Table.Upkeep

/-!
# The accounts of requests

Every request to a table is accounted for (`Table.Sound.dated_perform`): which slots came, which
departed with a notice and when, and which left in silence. What the notice of a departure tells is
in `Departure.notice_eq`. There are few moments at which slots depart: the beginning of a request,
as long as it registers nothing, and after that the registration of a new slot, which may clear
others.
-/

open scoped List

namespace SoftCache

variable {K V α β : Type}

/-- Only what is left and what is announced matters. -/
theorem Step.Accounts.same {t : Table K V} {r : Reclaimer} {came left : List (Slot K V)}
    {departed : List (Departure K V)} {step : Step (Table K V) (Notice K V) α}
    {step' : Step (Table K V) (Notice K V) β} (h : Step.Accounts t r step came departed left)
    (state : step'.state = step.state) (reclaimer : step'.reclaimer = step.reclaimer)
    (notices : step'.notices = step.notices) : Step.Accounts t r step' came departed left := by
  obtain ⟨⟨handover, config, bound, swept⟩, balance, told, arrival, suits, lost, during⟩ := h
  rw [← state, ← reclaimer] at *
  rw [← notices] at told
  exact ⟨⟨handover, config, bound, swept⟩, balance, told, arrival, suits, lost, during⟩

/-! ## Departures at named moments -/

/-- Slots that depart moment after moment, those of each moment together. -/
def Departure.timed (parts : List (Reclaimer × List (Slot K V))) : List (Departure K V) :=
  parts.flatMap fun part => all part.1 part.2

/-- Of moments in two lists those in the first one come first. -/
@[simp] theorem Departure.timed_append (first second : List (Reclaimer × List (Slot K V))) :
    timed (first ++ second) = timed first ++ timed second :=
  List.flatMap_append

/-- Work on a table that is accounted for, in which slots depart at the moments that are listed and
at no others. -/
def Step.Dated (t : Table K V) (r : Reclaimer) (step : Step (Table K V) (Notice K V) α)
    (moments : List Reclaimer) : Prop :=
  ∃ came parts left, parts.map Prod.fst = moments ∧
    Step.Accounts t r step came (Departure.timed parts) left

namespace Step.Dated

variable {t : Table K V} {r : Reclaimer} {moments moments' : List Reclaimer}

/-- Nothing is done, and at no moment does anything depart. -/
theorem done (issued : r.Issued t.payloads) (result : α) :
    Step.Dated t r (Step.done t r result) [] :=
  ⟨[], [], [], rfl, .done issued result⟩

/-- The moments of one piece of work and then those of another. -/
theorem andThen {first : Step (Table K V) (Notice K V) α}
    {second : Table K V → Reclaimer → α → Step (Table K V) (Notice K V) β}
    (h₁ : first.Dated t r moments)
    (h₂ : (second first.state first.reclaimer first.result).Dated first.state first.reclaimer
      moments') : (first.andThen second).Dated t r (moments ++ moments') := by
  obtain ⟨came, parts, left, rfl, hfirst⟩ := h₁
  obtain ⟨came', parts', left', rfl, hsecond⟩ := h₂
  refine ⟨came ++ came', parts ++ parts', left ++ left', List.map_append, ?_⟩
  rw [Departure.timed_append]
  exact hfirst.andThen hsecond

/-- Only what is left and what is announced matters. -/
theorem same {step : Step (Table K V) (Notice K V) α} {step' : Step (Table K V) (Notice K V) β}
    (h : step.Dated t r moments) (state : step'.state = step.state)
    (reclaimer : step'.reclaimer = step.reclaimer) (notices : step'.notices = step.notices) :
    step'.Dated t r moments := by
  obtain ⟨came, parts, left, hmoments, haccounts⟩ := h
  exact ⟨came, parts, left, hmoments, haccounts.same state reclaimer notices⟩

end Step.Dated

namespace Table

variable {t : Table K V} {r : Reclaimer}

/-- Of entries that are removed at random one after the other each leaves, and the stale slots on
the way depart. -/
theorem accounts_removeRandoms (issued : r.Issued t.payloads) (n : Nat) :
    ∃ departed left, Step.Accounts t r (t.removeRandoms r n) [] departed left := by
  induction n generalizing t r with
  | zero => exact ⟨[], [], .done issued []⟩
  | succ n ih =>
    have hfirst := accounts_removeRandom issued
    obtain ⟨departed, left, hrest⟩ := ih hfirst.issued
    exact ⟨_, _, hfirst.andThen (hrest.map _)⟩

variable [DecidableEq K] [Hashed K]

omit [DecidableEq K] [Hashed K] in
/-- The key of the slot that comes with an entry is live or new, and the value is new. -/
theorem Insertion.lasts {key : Option K} {value : Option V}
    {step : Step (Table K V) (Notice K V) (Placement K V)} {came : Slot K V}
    {departed : List (Departure K V)} {left : List (Slot K V)}
    (h : Insertion t r key value step came departed left) : ∀ s ∈ [came], s.lasts r = true := by
  intro s hs
  rw [List.mem_singleton.mp hs, Slot.lasts_iff]
  intro payload hp
  rcases List.mem_append.mp hp with hp | hp
  · exact h.kept payload hp
  · exact .inr (h.fresh payload hp)

/-- The moments of putting an entry when its bucket has been purged. If its key has no slot, it gets
a new one, and when that has been registered the table grows and keeps its bound. -/
def insertMoments (t : Table K V) (r : Reclaimer) (key : Option K) (value : Option V) :
    List Reclaimer :=
  match t.slotFor? r key with
  | some _ => []
  | none => [(t.addSlot r key value).reclaimer]

/-- The moments of a put. The bucket of its key is purged at the beginning, unless the entry is
refused. -/
def putMoments (t : Table K V) (r : Reclaimer) (key : Option K) (value : Option V) :
    List Reclaimer :=
  match t.refusal key value with
  | some _ => []
  | none =>
    let purged := t.purge r (t.indexOf key)
    r :: purged.state.insertMoments purged.reclaimer key value

/-- The moments of putting entries one after the other. -/
def putAllMoments (t : Table K V) (r : Reclaimer) : List (K × V) → List Reclaimer
  | [] => []
  | (key, value) :: rest =>
    t.putMoments r (some key) (some value) ++
      let put := t.put r (some key) (some value)
      put.state.putAllMoments put.reclaimer rest

/-- The moments at which a request lets slots depart: the beginning of it, unless it puts
something. -/
def Request.moments (t : Table K V) (r : Reclaimer) : Request K V → List Reclaimer
  | .put key value => t.putMoments r key value
  | .putAll none => []
  | .putAll (some source) => t.putAllMoments r source
  | _ => [r]

end Table

end SoftCache
