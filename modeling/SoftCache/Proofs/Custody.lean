import SoftCache.Proofs.Registry
import SoftCache.Proofs.Table.Slots

/-!
# Custody of payloads

Every payload is held in one place. A reclaimer has `Issued` the payloads of a list if it has handed
out their numbers and no number is there twice. Work that begins with the payloads of one list and
ends with those of another is a `Handover`: the new payloads were issued meanwhile, and what is live
and not given up stays live, unless a pass clears it. So what one table does is nothing to another
table of the same reclaimer, unless the budget clears something (`Handover.frame`), and a slot that
stays in its table stays as live as it was (`Table.same_of_mem`). What is found cleared in spite of
that is `Lost`: it had been cleared before, or was cleared on the way.
-/

open scoped List

namespace SoftCache

variable {K V α β : Type}

/-! ## Reclaimers in time -/

/-- One reclaimer may become the other: numbers are handed out in order, and what is not live any
more does not come back. -/
structure Reclaimer.Precedes (r r' : Reclaimer) : Prop where
  /-- The budget is fixed. -/
  budget : r'.budget = r.budget
  /-- Epochs pass. -/
  epoch_le : r.epoch ≤ r'.epoch
  /-- Numbers are not given back. -/
  next_le : r.next ≤ r'.next
  /-- A number that has been handed out does not become live again. -/
  live : ∀ payload < r.next, payload ∈ r'.live → payload ∈ r.live

namespace Reclaimer

variable {r : Reclaimer}

/-- Time may stand still. -/
theorem Precedes.refl (r : Reclaimer) : r.Precedes r :=
  ⟨rfl, le_rfl, le_rfl, fun _ _ h => h⟩

/-- What comes later than something later comes later. -/
theorem Precedes.trans {r₁ r₂ r₃ : Reclaimer} (h₁ : r₁.Precedes r₂) (h₂ : r₂.Precedes r₃) :
    r₁.Precedes r₃ where
  budget := h₂.budget.trans h₁.budget
  epoch_le := h₁.epoch_le.trans h₂.epoch_le
  next_le := h₁.next_le.trans h₂.next_le
  live payload hn hl := h₁.live payload hn (h₂.live payload (hn.trans_le h₁.next_le) hl)

/-- A pass only clears. -/
theorem precedes_clear (r : Reclaimer) (limit : Nat) : r.Precedes (r.clear limit) where
  budget := budget_clear r limit
  epoch_le := by
    rw [epoch_clear]
    split <;> omega
  next_le := by rw [next_clear]
  live _ _ hl := mem_live_of_clear hl

/-- A registration makes only the new payload live. -/
theorem precedes_register (r : Reclaimer) : r.Precedes r.register where
  budget := budget_register r
  epoch_le := by
    have hle := (precedes_clear r.enrol.tidy r.enrol.tidy.excess).epoch_le
    rwa [epoch_tidy] at hle
  next_le := by
    rw [next_register]
    omega
  live payload hn hl := (mem_live_of_register hl).resolve_right hn.ne

/-- A release makes nothing live. -/
theorem precedes_release (r : Reclaimer) (payloads : List Nat) :
    r.Precedes (r.release payloads) where
  budget := rfl
  epoch_le := le_rfl
  next_le := le_rfl
  live _ _ hl := (mem_live_release.mp hl).1

end Reclaimer

/-- Making a holder registers at most its own payload. -/
theorem Held.precedes_of (s : Strength) (content : Option α) (r : Reclaimer) :
    r.Precedes (Held.of s content r).reclaimer := by
  cases content with
  | none => exact .refl r
  | some content =>
    cases s with
    | strong => exact .refl r
    | reclaimable => exact r.precedes_register

/-! ## What has been issued -/

/-- Numbers that the reclaimer has handed out, each for one holder. -/
structure Reclaimer.Issued (r : Reclaimer) (payloads : List Nat) : Prop extends r.Orderly where
  /-- No number is held twice. -/
  nodup : payloads.Nodup
  /-- Each number has been handed out. -/
  lt_next : ∀ payload ∈ payloads, payload < r.next

namespace Reclaimer

variable {r r' r'' : Reclaimer} {l l' : List Nat}

namespace Issued

/-- The order in which the numbers are listed does not matter. -/
theorem perm (h : r.Issued l) (hl : l ~ l') : r.Issued l' :=
  ⟨h.toOrderly, hl.nodup_iff.mp h.nodup, fun payload hp => h.lt_next payload (hl.symm.subset hp)⟩

/-- Of numbers that were issued the first ones were issued. -/
theorem left (h : r.Issued (l ++ l')) : r.Issued l :=
  ⟨h.toOrderly, (List.nodup_append.mp h.nodup).1, fun payload hp =>
    h.lt_next payload (List.mem_append_left _ hp)⟩

/-- Of numbers that were issued the last ones were issued. -/
theorem right (h : r.Issued (l ++ l')) : r.Issued l' :=
  ⟨h.toOrderly, (List.nodup_append.mp h.nodup).2.1, fun payload hp =>
    h.lt_next payload (List.mem_append_right _ hp)⟩

/-- Nothing can always be said to have been issued. -/
theorem none (h : r.Issued l) : r.Issued [] :=
  ⟨h.toOrderly, List.nodup_nil, fun _ hp => nomatch hp⟩

/-- A pass takes nothing back. -/
theorem clear (h : r.Issued l) (limit : Nat) : (r.clear limit).Issued l where
  toOrderly := h.toOrderly.clear limit
  nodup := h.nodup
  lt_next payload hp := by
    rw [next_clear]
    exact h.lt_next payload hp

/-- Numbers stay issued when the registry is compacted. -/
theorem compact (h : r.Issued l) : r.compact.Issued l :=
  ⟨h.toOrderly.compact, h.nodup, h.lt_next⟩

/-- A payload in one part of what is issued is not in the other. -/
theorem not_mem_right (h : r.Issued (l ++ l')) {payload : Nat} (hp : payload ∈ l) :
    payload ∉ l' := fun hp' => (List.nodup_append.mp h.nodup).2.2 payload hp payload hp' rfl

end Issued

/-! ## What has been cleared -/

/-- A pass has cleared a payload between one moment and another: an epoch has begun, and only later
payloads are live. -/
structure Clears (r r' : Reclaimer) (payload : Nat) : Prop where
  /-- An epoch has begun. -/
  epoch_lt : r.epoch < r'.epoch
  /-- What is live came later. -/
  older : ∀ other ∈ r'.live, payload < other

/-- A payload that has been cleared: before the first moment, or between it and the second. -/
def Lost (r r' : Reclaimer) (payload : Nat) : Prop :=
  payload < r'.next ∧ (payload < r.next ∧ payload ∉ r.live ∨ r.Clears r' payload)

/-- What has been cleared stays so. -/
theorem Clears.mono {payload : Nat} (h : r.Clears r' payload) (hn : payload < r'.next)
    (later : r'.Precedes r'') : r.Clears r'' payload where
  epoch_lt := h.epoch_lt.trans_le later.epoch_le
  older other hother := by
    by_cases hold : other < r'.next
    · exact h.older other (later.live other hold hother)
    · omega

/-- What was cleared after a moment was cleared after any earlier one. -/
theorem Clears.earlier {payload : Nat} (h : r'.Clears r'' payload) (earlier : r.Precedes r') :
    r.Clears r'' payload :=
  ⟨earlier.epoch_le.trans_lt h.epoch_lt, h.older⟩

/-- What was lost at a moment is lost at any later one. -/
theorem Lost.mono {payload : Nat} (h : r.Lost r' payload) (later : r'.Precedes r'') :
    r.Lost r'' payload :=
  ⟨h.1.trans_le later.next_le, h.2.imp_right fun hc => hc.mono h.1 later⟩

/-- A registration clears a payload or leaves it live. -/
theorem Orderly.mem_live_register (h : r.Orderly) {payload : Nat}
    (hp : payload ∈ r.live ∨ payload = r.next) :
    payload ∈ r.register.live ∨ r.Clears r.register payload := by
  have hfiled := h.toFiled.enrol.tidy
  have hmem : payload ∈ r.enrol.tidy.live := by
    rw [live_tidy]
    rcases hp with hp | rfl
    · exact List.mem_append_left _ hp
    · exact List.mem_append_right _ (List.mem_singleton_self _)
  have hlive : r.register.live = r.enrol.tidy.live.drop r.enrol.tidy.excess := hfiled.live_clear _
  rw [← List.take_append_drop r.enrol.tidy.excess r.enrol.tidy.live] at hmem
  rcases List.mem_append.mp hmem with hcleared | hkept
  · -- The pass clears the oldest payloads, so what it leaves came later.
    right
    have hsorted := hfiled.sorted_live
    rw [← List.take_append_drop r.enrol.tidy.excess r.enrol.tidy.live] at hsorted
    refine ⟨?_, fun other hother => ?_⟩
    · have hclearable : r.enrol.tidy.clearable r.enrol.tidy.excess ≠ 0 := by
        intro hzero
        rcases hfiled.clearable_eq_zero_iff.mp hzero with hzero | hnil
        · rw [hzero, List.take_zero] at hcleared
          cases hcleared
        · rw [hnil, List.take_nil] at hcleared
          cases hcleared
      rw [Reclaimer.register, epoch_clear, if_neg hclearable, epoch_tidy]
      exact Nat.lt_succ_self _
    · rw [hlive] at hother
      exact (List.pairwise_append.mp hsorted).2.2 payload hcleared other hother
  · left
    rw [hlive]
    exact hkept

end Reclaimer

/-! ## Handing over -/

/-- Work that begins with the payloads `before` in custody and ends with those of `after`. -/
structure Handover (r r' : Reclaimer) (before after : List Nat) : Prop where
  /-- Time passes. -/
  precedes : r.Precedes r'
  /-- What is in custody at the end has been issued, each payload for one holder. -/
  issued : r'.Issued after
  /-- What is new at the end was issued meanwhile. -/
  origin : ∀ payload ∈ after, payload ∈ before ∨ r.next ≤ payload
  /-- Without a budget, or without a registration, no epoch begins. -/
  quiet : r.budget = none ∨ r'.next = r.next → r'.epoch = r.epoch
  /-- What was live and is not given up is live, unless a pass clears it. -/
  keeps : ∀ payload < r.next, payload ∈ r.live → (payload ∈ before → payload ∈ after) →
    payload ∈ r'.live ∨ r.Clears r' payload
  /-- What is new is live, unless a pass clears it. -/
  fresh : ∀ payload ∈ after, r.next ≤ payload → payload ∈ r'.live ∨ r.Clears r' payload
  /-- What is live at the end is in custody, or has been in somebody else's. -/
  kept : ∀ payload ∈ r'.live, payload ∈ after ∨ payload ∈ r.live ∧ payload ∉ before
  /-- Payloads were registered and released, and none that is in custody at the end was released. -/
  course : ∃ events, r.replay events = r' ∧ ∀ payload ∈ events.flatMap Reclaimer.Event.payloads,
    payload < r'.next ∧ (payload ∈ before ∨ r.next ≤ payload) ∧ payload ∉ after

namespace Handover

variable {r r' r₁ r₂ r₃ : Reclaimer} {before after l l' l₁ l₂ l₃ gone rest : List Nat}

/-- Nothing is handed over. -/
theorem refl (h : r.Issued l) : Handover r r l l :=
  ⟨.refl r, h, fun _ hp => .inl hp, fun _ => rfl, fun _ _ hl _ => .inl hl,
    fun payload hp hn => absurd (h.lt_next payload hp) (by omega),
    fun _ hl => or_iff_not_imp_left.mpr fun hnot => ⟨hl, hnot⟩, [], rfl, List.forall_mem_nil _⟩

/-- The order of the list does not matter. -/
theorem perm (h : Handover r r' before after) {before' after' : List Nat} (hb : before ~ before')
    (ha : after ~ after') : Handover r r' before' after' where
  precedes := h.precedes
  issued := h.issued.perm ha
  origin payload hp := (h.origin payload (ha.symm.subset hp)).imp_left fun hp => hb.subset hp
  quiet := h.quiet
  keeps payload hn hl hkept :=
    h.keeps payload hn hl fun hp => ha.symm.subset (hkept (hb.subset hp))
  fresh payload hp hn := h.fresh payload (ha.symm.subset hp) hn
  kept payload hl :=
    (h.kept payload hl).imp (fun hp => ha.subset hp) fun ⟨hold, hnot⟩ =>
      ⟨hold, fun hp => hnot (hb.symm.subset hp)⟩
  course := by
    obtain ⟨events, hreplay, hreleased⟩ := h.course
    refine ⟨events, hreplay, fun payload hp => ?_⟩
    obtain ⟨hn, hheld, hgone⟩ := hreleased payload hp
    exact ⟨hn, hheld.imp_left fun hp => hb.subset hp, fun hp => hgone (ha.symm.subset hp)⟩

/-- One handover and then another. -/
theorem trans (h₁ : Handover r₁ r₂ l₁ l₂) (h₂ : Handover r₂ r₃ l₂ l₃) : Handover r₁ r₃ l₁ l₃ where
  precedes := h₁.precedes.trans h₂.precedes
  issued := h₂.issued
  origin payload hp := by
    rcases h₂.origin payload hp with hp | hp
    · exact h₁.origin payload hp
    · exact .inr (h₁.precedes.next_le.trans hp)
  quiet hquiet := by
    have hn₁ := h₁.precedes.next_le
    have hn₂ := h₂.precedes.next_le
    have hfirst : r₂.epoch = r₁.epoch := h₁.quiet (hquiet.imp_right fun heq => by omega)
    have hsecond : r₃.epoch = r₂.epoch := by
      refine h₂.quiet ?_
      rcases hquiet with hbudget | heq
      · exact .inl (h₁.precedes.budget.trans hbudget)
      · right
        omega
    exact hsecond.trans hfirst
  keeps payload hn hl hkept := by
    have hn₂ : payload < r₂.next := hn.trans_le h₁.precedes.next_le
    -- What is old and in custody at the end was in custody all the time.
    have hsecond : payload ∈ l₃ → payload ∈ l₂ := fun hp =>
      (h₂.origin payload hp).resolve_right (by omega)
    have hfirst : payload ∈ l₂ → payload ∈ l₁ := fun hp =>
      (h₁.origin payload hp).resolve_right (by omega)
    rcases h₁.keeps payload hn hl fun hp => hsecond (hkept hp) with hmiddle | hcleared
    · have hend := h₂.keeps payload hn₂ hmiddle fun hp => hkept (hfirst hp)
      exact hend.imp_right fun hc => hc.earlier h₁.precedes
    · exact .inr (hcleared.mono hn₂ h₂.precedes)
  fresh payload hp hn := by
    rcases h₂.origin payload hp with hmiddle | hnew
    · have hn₂ := h₁.issued.lt_next payload hmiddle
      rcases h₁.fresh payload hmiddle hn with hlive | hcleared
      · have hend := h₂.keeps payload hn₂ hlive fun _ => hp
        exact hend.imp_right fun hc => hc.earlier h₁.precedes
      · exact .inr (hcleared.mono hn₂ h₂.precedes)
    · exact (h₂.fresh payload hp hnew).imp_right fun hc => hc.earlier h₁.precedes
  kept payload hl := by
    rcases h₂.kept payload hl with hp | ⟨hmiddle, hnot⟩
    · exact .inl hp
    · exact .inr ((h₁.kept payload hmiddle).resolve_left hnot)
  course := by
    obtain ⟨first, hfirst, hreleased₁⟩ := h₁.course
    obtain ⟨second, hsecond, hreleased₂⟩ := h₂.course
    have hn₁ := h₁.precedes.next_le
    have hn₂ := h₂.precedes.next_le
    refine ⟨first ++ second, by rw [Reclaimer.replay_append, hfirst, hsecond], fun payload hp => ?_⟩
    rw [List.flatMap_append, List.mem_append] at hp
    rcases hp with hp | hp
    · obtain ⟨hn, hheld, hgone⟩ := hreleased₁ payload hp
      refine ⟨hn.trans_le hn₂, hheld, fun hend => ?_⟩
      -- What was given up does not come into custody again.
      rcases h₂.origin payload hend with hback | hnew
      · exact hgone hback
      · omega
    · obtain ⟨hn, hheld, hgone⟩ := hreleased₂ payload hp
      refine ⟨hn, ?_, hgone⟩
      rcases hheld with hmiddle | hnew
      · exact h₁.origin payload hmiddle
      · exact .inr (hn₁.trans hnew)

/-- Payloads that are given up are released. -/
theorem release (h : r.Issued l) (hl : l ~ l' ++ gone) : Handover r (r.release gone) l l' where
  precedes := r.precedes_release gone
  issued := ⟨h.toOrderly.release gone, (h.perm hl).left.nodup, (h.perm hl).left.lt_next⟩
  origin payload hp := .inl (hl.symm.subset (List.mem_append_left _ hp))
  quiet _ := rfl
  keeps payload _ hlive hkept := by
    refine .inl (Reclaimer.mem_live_release.mpr ⟨hlive, fun hgone => ?_⟩)
    -- What is released is not in custody any more.
    have hp : payload ∈ l' := hkept (hl.symm.subset (List.mem_append_right _ hgone))
    exact (h.perm hl).not_mem_right hp hgone
  fresh payload hp hn := absurd ((h.perm hl).left.lt_next payload hp) (by omega)
  kept payload hlive := by
    obtain ⟨hold, hnot⟩ := Reclaimer.mem_live_release.mp hlive
    by_cases hp : payload ∈ l
    · exact .inl ((List.mem_append.mp (hl.subset hp)).resolve_right hnot)
    · exact .inr ⟨hold, hp⟩
  course := by
    refine ⟨[.released gone], rfl, fun payload hp => ?_⟩
    have hgone : payload ∈ gone := by simpa [Reclaimer.Event.payloads] using hp
    have hthere : payload ∈ l := hl.symm.subset (List.mem_append_right _ hgone)
    exact ⟨h.lt_next payload hthere, .inl hthere, fun hend =>
      (h.perm hl).not_mem_right hend hgone⟩

/-- The payload of a new holder comes into custody. -/
theorem hold (h : r.Issued l) (s : Strength) (content : Option α) :
    Handover r (Held.of s content r).reclaimer l
      (l ++ (Held.of s content r).holder.payloads) := by
  cases content with
  | none => simpa [Held.of, Holder.payloads] using refl h
  | some content =>
    cases s with
    | strong => simpa [Held.of, Holder.payloads] using refl h
    | reclaimable =>
      -- Only a reclaimable content is registered.
      show Handover r r.register l (l ++ [r.next])
      refine ⟨r.precedes_register, ⟨h.toOrderly.register, ?_, ?_⟩, ?_, ?_, ?_, ?_, ?_,
        [.registered], rfl, List.forall_mem_nil _⟩
      · have hnew : r.next ∉ l := fun hp => absurd (h.lt_next r.next hp) (Nat.lt_irrefl _)
        exact h.nodup.append (List.nodup_singleton _) (List.disjoint_singleton.mpr hnew)
      · intro payload hp
        rw [Reclaimer.next_register]
        rcases List.mem_append.mp hp with hp | hp
        · exact Nat.lt_succ_of_lt (h.lt_next payload hp)
        · cases List.mem_singleton.mp hp
          exact Nat.lt_succ_self _
      · intro payload hp
        rcases List.mem_append.mp hp with hp | hp
        · exact .inl hp
        · cases List.mem_singleton.mp hp
          exact .inr le_rfl
      · -- Without a budget nothing is over it, so there is no pass.
        rintro (hbudget | heq)
        · rw [Reclaimer.register_of_budget hbudget]
          rfl
        · -- A payload has been registered, so the other case is impossible.
          rw [Reclaimer.next_register] at heq
          omega
      · exact fun payload _ hl _ => h.toOrderly.mem_live_register (.inl hl)
      · intro payload hp hn
        rcases List.mem_append.mp hp with hp | hp
        · exact absurd (h.lt_next payload hp) (by omega)
        · exact h.toOrderly.mem_live_register (.inr (List.mem_singleton.mp hp))
      · intro payload hlive
        rcases Reclaimer.mem_live_of_register hlive with hold | rfl
        · by_cases hp : payload ∈ l
          · exact .inl (List.mem_append_left _ hp)
          · exact .inr ⟨hold, hp⟩
        · exact .inl (List.mem_append_right _ (List.mem_singleton_self _))

/-- What is in custody elsewhere is not touched. -/
theorem frame (h : Handover r r' before after) (hrest : r.Issued (before ++ rest)) :
    Handover r r' (before ++ rest) (after ++ rest) where
  precedes := h.precedes
  issued := by
    refine ⟨h.issued.toOrderly, ?_, fun payload hp => ?_⟩
    · rw [List.nodup_append]
      refine ⟨h.issued.nodup, hrest.right.nodup, ?_⟩
      rintro p hp _ hq rfl
      -- What comes into custody is new, and what is elsewhere has been issued.
      rcases h.origin p hp with hold | hnew
      · exact hrest.not_mem_right hold hq
      · exact absurd (hrest.right.lt_next p hq) (by omega)
    · rcases List.mem_append.mp hp with hp | hp
      · exact h.issued.lt_next payload hp
      · exact (hrest.right.lt_next payload hp).trans_le h.precedes.next_le
  origin payload hp := by
    rcases List.mem_append.mp hp with hp | hp
    · exact (h.origin payload hp).imp_left (List.mem_append_left _)
    · exact .inl (List.mem_append_right _ hp)
  quiet := h.quiet
  keeps payload hn hl hkept := by
    refine h.keeps payload hn hl fun hp => ?_
    rcases List.mem_append.mp (hkept (List.mem_append_left _ hp)) with hafter | hafter
    · exact hafter
    · exact absurd hafter (hrest.not_mem_right hp)
  fresh payload hp hn := by
    rcases List.mem_append.mp hp with hp | hp
    · exact h.fresh payload hp hn
    · exact absurd (hrest.right.lt_next payload hp) (by omega)
  kept payload hl := by
    rcases h.kept payload hl with hp | ⟨hold, hnot⟩
    · exact .inl (List.mem_append_left _ hp)
    · by_cases hp : payload ∈ rest
      · exact .inl (List.mem_append_right _ hp)
      · exact .inr ⟨hold, fun hthere => (List.mem_append.mp hthere).elim hnot hp⟩
  course := by
    obtain ⟨events, hreplay, hreleased⟩ := h.course
    refine ⟨events, hreplay, fun payload hp => ?_⟩
    obtain ⟨hn, hheld, hgone⟩ := hreleased payload hp
    refine ⟨hn, hheld.imp_left (List.mem_append_left _), fun hend => ?_⟩
    rcases List.mem_append.mp hend with hend | hother
    · exact hgone hend
    · rcases hheld with hthere | hnew
      · exact hrest.not_mem_right hthere hother
      · exact absurd (hrest.right.lt_next payload hother) (by omega)

/-! ## What stays as it was -/

/-- In an epoch that lasts, what was live and is not given up stays live. -/
theorem live_of_live (h : Handover r r' before after) (hepoch : r'.epoch = r.epoch) {payload : Nat}
    (hn : payload < r.next) (hl : payload ∈ r.live) (hkept : payload ∈ before → payload ∈ after) :
    payload ∈ r'.live :=
  (h.keeps payload hn hl hkept).resolve_right fun hc => hc.epoch_lt.ne' hepoch

/-- In an epoch that lasts, what is new is live. -/
theorem live_of_new (h : Handover r r' before after) (hepoch : r'.epoch = r.epoch) {payload : Nat}
    (hp : payload ∈ after) (hn : r.next ≤ payload) : payload ∈ r'.live :=
  (h.fresh payload hp hn).resolve_right fun hc => hc.epoch_lt.ne' hepoch

/-- In an epoch that lasts, a payload that stays in custody is as live as it was. -/
theorem mem_live_iff (h : Handover r r' before after) (hepoch : r'.epoch = r.epoch) {payload : Nat}
    (hn : payload < r.next) (hkept : payload ∈ before → payload ∈ after) :
    payload ∈ r'.live ↔ payload ∈ r.live :=
  ⟨h.precedes.live payload hn, fun hl => h.live_of_live hepoch hn hl hkept⟩

/-- What is in custody and not live has been cleared. -/
theorem lost (h : Handover r r' before after) {payload : Nat} (hp : payload ∈ after)
    (hdead : payload ∉ r'.live) : r.Lost r' payload := by
  refine ⟨h.issued.lt_next payload hp, ?_⟩
  by_cases hn : payload < r.next
  · by_cases hl : payload ∈ r.live
    · exact .inr ((h.keeps payload hn hl fun _ => hp).resolve_left hdead)
    · exact .inl ⟨hn, hl⟩
  · exact .inr ((h.fresh payload hp (by omega)).resolve_left hdead)

/-- What is in custody and lost later on has been lost from the beginning on. -/
theorem lost_trans (h : Handover r₁ r₂ before after) {payload : Nat} (hp : payload ∈ after)
    (later : r₂.Lost r₃ payload) (hlater : r₂.Precedes r₃) : r₁.Lost r₃ payload := by
  obtain ⟨hn, ⟨hn₂, hdead⟩ | hcleared⟩ := later
  · exact (h.lost hp hdead).mono hlater
  · exact ⟨hn, .inr (hcleared.earlier h.precedes)⟩

end Handover

/-- A holder whose payload is as live under one reclaimer as under another is as cleared. -/
theorem Holder.isCleared_congr {r r' : Reclaimer} {h : Holder α}
    (same : ∀ payload ∈ h.payloads, payload ∈ r'.live ↔ payload ∈ r.live) :
    h.isCleared r' = h.isCleared r := by
  cases h with
  | null => rfl
  | strong content => rfl
  | reclaimable payload content =>
    have := same payload (List.mem_singleton_self _)
    simp [isCleared, Reclaimer.isLive, this]

/-- What can be read of a holder depends only on whether its payload is live. -/
theorem Holder.get_congr {r r' : Reclaimer} {h : Holder α}
    (same : ∀ payload ∈ h.payloads, payload ∈ r'.live ↔ payload ∈ r.live) : h.get r' = h.get r := by
  cases h with
  | null | strong => rfl
  | reclaimable payload content =>
    have hlive : r'.isLive payload = r.isLive payload := by
      rw [Bool.eq_iff_iff, Reclaimer.isLive_iff, Reclaimer.isLive_iff]
      exact same payload (List.mem_singleton_self _)
    rw [get, get, hlive]

namespace Slot

variable {r r' : Reclaimer} {s : Slot K V}

/-- Whether a slot is stale depends only on which of its payloads are live. -/
theorem isStale_congr (same : ∀ payload ∈ s.payloads, payload ∈ r'.live ↔ payload ∈ r.live) :
    s.isStale r' = s.isStale r := by
  rw [isStale, isStale,
    Holder.isCleared_congr fun payload hp => same payload (List.mem_append_left _ hp),
    Holder.isCleared_congr fun payload hp => same payload (List.mem_append_right _ hp)]

/-- The payloads of a slot that is not stale are live. -/
theorem mem_live (live : s.isStale r = false) {payload : Nat} (hp : payload ∈ s.payloads) :
    payload ∈ r.live := by
  obtain ⟨hkey, hvalue⟩ := isStale_eq_false_iff.mp live
  by_contra hdead
  rcases List.mem_append.mp hp with hp | hp
  · exact absurd (Holder.isCleared_iff.mpr ⟨payload, hp, hdead⟩) (by simp [hkey])
  · exact absurd (Holder.isCleared_iff.mpr ⟨payload, hp, hdead⟩) (by simp [hvalue])

end Slot

/-! ## Custody of a table -/

namespace Table

/-- The payloads that the slots of a table hold. -/
def payloads (t : Table K V) : List Nat :=
  t.buckets.slots.flatMap Slot.payloads

variable {t t' : Table K V} {r r' : Reclaimer}

/-- The payloads of a slot of the table are payloads of the table. -/
theorem mem_payloads {s : Slot K V} (hs : s ∈ t.buckets.slots) {payload : Nat}
    (hp : payload ∈ s.payloads) : payload ∈ t.payloads :=
  List.mem_flatMap.mpr ⟨s, hs, hp⟩

/-- The payloads of a table are those of its slots in any order. -/
theorem payloads_perm {l : List (Slot K V)} (h : t.buckets.slots ~ l) :
    t.payloads ~ l.flatMap Slot.payloads :=
  h.flatMap_right _

/-- A slot that stays in its table is as live as it was. -/
theorem same_of_mem (h : Handover r r' t.payloads t'.payloads)
    (hepoch : r'.epoch = r.epoch) (hissued : r.Issued t.payloads) {s : Slot K V}
    (hs : s ∈ t.buckets.slots) (hs' : s ∈ t'.buckets.slots) :
    ∀ payload ∈ s.payloads, payload ∈ r'.live ↔ payload ∈ r.live :=
  fun _ hp => h.mem_live_iff hepoch (hissued.lt_next _ (mem_payloads hs hp)) fun _ =>
    mem_payloads hs' hp

/-! ## Work on a table -/

/-- Nothing has been lost since the last sweep, unless an epoch began since. -/
structure Swept (t : Table K V) (r : Reclaimer) : Prop where
  /-- The last sweep was no later than now. -/
  epoch_le : t.sweptEpoch ≤ r.epoch
  /-- In the epoch of the last sweep every payload is live. -/
  live : t.sweptEpoch = r.epoch → ∀ payload ∈ t.payloads, payload ∈ r.live

/-- What is new since the last sweep, and what was there already, is live until an epoch begins. -/
theorem Swept.handover {before after : List Nat} (h : t.Swept r)
    (hand : Handover r r' before after) (within : ∀ payload ∈ t'.payloads, payload ∈ after)
    (old : ∀ payload ∈ t'.payloads, payload < r.next → payload ∈ t.payloads)
    (swept : t'.sweptEpoch = t.sweptEpoch) : t'.Swept r' where
  epoch_le := by
    rw [swept]
    exact h.epoch_le.trans hand.precedes.epoch_le
  live hepoch payload hp := by
    -- No epoch can have begun, or the last sweep would be too late.
    have hle := h.epoch_le
    have hle' := hand.precedes.epoch_le
    have hsame : r'.epoch = r.epoch := by omega
    by_cases hnew : r.next ≤ payload
    · exact hand.live_of_new hsame (within payload hp) hnew
    · have hn : payload < r.next := by omega
      have hlive : payload ∈ r.live := h.live (by omega) payload (old payload hp hn)
      exact hand.live_of_live hsame hn hlive fun _ => within payload hp

/-- A pass that clears something begins an epoch, so it is seen that something may be lost. -/
theorem Swept.clear (h : t.Swept r) (limit : Nat) : t.Swept (r.clear limit) where
  epoch_le := h.epoch_le.trans (r.precedes_clear limit).epoch_le
  live hepoch := by
    have hle := h.epoch_le
    rw [Reclaimer.epoch_clear] at hepoch
    split at hepoch
    · next hnone =>
      rw [Reclaimer.live_clear_of_clearable hnone]
      exact h.live hepoch
    · omega

end Table

/-- Work on a table that hands its payloads over, and leaves it what was chosen for it. -/
structure Step.Tends (t : Table K V) (r : Reclaimer) (step : Step (Table K V) (Notice K V) α) :
    Prop where
  /-- The payloads of the table are handed over. -/
  handover : Handover r step.reclaimer t.payloads step.state.payloads
  /-- What was fixed stays so. -/
  config : step.state.config = t.config
  /-- The bound stays as it is. -/
  bound : step.state.bound = t.bound
  /-- What a sweep has seen to is still seen to. -/
  swept : t.Swept r → step.state.Swept step.reclaimer

namespace Step.Tends

variable {t : Table K V} {r : Reclaimer}

/-- Work that is no sweep. -/
theorem ofHandover {step : Step (Table K V) (Notice K V) α}
    (hand : Handover r step.reclaimer t.payloads step.state.payloads)
    (config : step.state.config = t.config) (bound : step.state.bound = t.bound)
    (swept : step.state.sweptEpoch = t.sweptEpoch) : step.Tends t r where
  handover := hand
  config := config
  bound := bound
  swept h := h.handover hand (fun _ hp => hp)
    (fun payload hp hn => (hand.origin payload hp).resolve_right (by omega)) swept

/-- Nothing is done. -/
theorem done (h : r.Issued t.payloads) (result : α) :
    Step.Tends t r (Step.done t r result) :=
  .ofHandover (.refl h) rfl rfl rfl

/-- One piece of work and then another. -/
theorem andThen {first : Step (Table K V) (Notice K V) α}
    {second : Table K V → Reclaimer → α → Step (Table K V) (Notice K V) β}
    (h₁ : first.Tends t r)
    (h₂ : (second first.state first.reclaimer first.result).Tends first.state first.reclaimer) :
    (first.andThen second).Tends t r where
  handover := h₁.handover.trans h₂.handover
  config := h₂.config.trans h₁.config
  bound := h₂.bound.trans h₁.bound
  swept h := h₂.swept (h₁.swept h)

/-- The answer does not matter. -/
theorem map {step : Step (Table K V) (Notice K V) α} (f : α → β) (h : step.Tends t r) :
    (step.map f).Tends t r :=
  ⟨h.handover, h.config, h.bound, h.swept⟩

/-- What is in custody after the work has been issued. -/
theorem issued {step : Step (Table K V) (Notice K V) α} (h : step.Tends t r) :
    step.reclaimer.Issued step.state.payloads :=
  h.handover.issued

end Step.Tends

namespace Table

variable {t t' : Table K V} {r r' : Reclaimer}

/-- Slots are dismissed from a table. -/
theorem handover_dismiss (h : r.Issued t.payloads) {gone : List (Slot K V)}
    (balance : t.buckets.slots ~ t'.buckets.slots ++ gone) :
    Handover r (r.dismiss gone) t.payloads t'.payloads := by
  refine .release h ?_
  rw [payloads, payloads, ← List.flatMap_append]
  exact balance.flatMap_right _

end Table

end SoftCache
