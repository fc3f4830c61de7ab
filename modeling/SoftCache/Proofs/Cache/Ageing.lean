import SoftCache.Proofs.Cache.Upkeep
import SoftCache.Proofs.Table.Ageing
import SoftCache.Proofs.Table.Nulls

/-!
# The life of the tiers

A cache does nothing to its tiers but ask them for what any table can be asked for. So its tiers
live as tables do (`Cache.Lived.perform`): what a tier refuses it is not asked for, and the
reclaimer has always issued what both tiers hold.
-/

namespace SoftCache

variable {K V α β : Type} [DecidableEq K] [Hashed K] [DecidableEq V]

/-- A cache of which both tiers have lived. -/
structure Cache.Lived (c : Cache K V) (r : Reclaimer) : Prop where
  /-- The hard tier has stamps. -/
  hard : ∃ σ, c.hard.Lived σ
  /-- The soft tier has stamps. -/
  soft : ∃ σ, c.soft.Lived σ
  /-- The hard tier holds values strongly. -/
  strong : c.hard.config.valueStrength = .strong
  /-- What the tiers hold has been issued. -/
  issued : r.Issued c.payloads

/-- Work that leaves tiers that have lived. -/
def Step.Lived (step : Step (Cache K V) (Cache.Notice K V) α) : Prop :=
  step.state.Lived step.reclaimer

/-- What the last piece of work leaves is left. -/
theorem Step.Lived.andThen {first : Step (Cache K V) (Cache.Notice K V) α}
    {second : Cache K V → Reclaimer → α → Step (Cache K V) (Cache.Notice K V) β}
    (h : (second first.state first.reclaimer first.result).Lived) :
    (first.andThen second).Lived := h

/-- Nothing is done. -/
theorem Step.Lived.done {c : Cache K V} {r : Reclaimer} (h : c.Lived r) (result : α) :
    (Step.done c r result : Step (Cache K V) (Cache.Notice K V) α).Lived := h

/-- The answer does not matter. -/
theorem Step.Lived.map {step : Step (Cache K V) (Cache.Notice K V) α} (f : α → β) (h : step.Lived) :
    (step.map f).Lived := h

namespace Cache

variable {c c' : Cache K V} {r : Reclaimer}

/-- Only the tiers matter. -/
theorem Lived.of_tiers (h : c.Lived r) (hard : c'.hard = c.hard) (soft : c'.soft = c.soft) :
    c'.Lived r where
  hard := hard ▸ h.hard
  soft := soft ▸ h.soft
  strong := hard ▸ h.strong
  issued := by
    rw [payloads, hard, soft]
    exact h.issued

/-- Nothing that is counted has to do with age. -/
theorem Lived.tally (h : c.Lived r) (count : Metrics → Metrics) : (c.tally count).Lived r :=
  h.of_tiers rfl rfl

/-- Something is announced. -/
theorem Lived.announce (h : c.Lived r) (notices : List (Notice K V)) :
    (c.announce r notices).Lived :=
  h.of_tiers rfl rfl

/-- The hard tier is asked for something. -/
theorem Lived.overHard (h : c.Lived r)
    {work : Table K V → Reclaimer → Step (Table K V) (SoftCache.Notice K V) α}
    (request : Table.Request K V) (answer : α → Reply K V)
    (asks : c.hard.perform r request = (work c.hard r).map answer) :
    (c.overHard r work).Lived := by
  obtain ⟨σ, hσ⟩ := h.hard
  have hissued : r.Issued c.hard.payloads := h.issued.left
  have hlives := hσ.asked hissued request
  have hhand := (Table.minds_perform hσ.sound hissued request).handover
  have hconfig := Table.config_perform hσ.sound hissued request
  rw [asks] at hlives hhand hconfig
  constructor
  case hard => exact ⟨_, hlives⟩
  case soft => exact h.soft
  case strong => exact (congrArg Table.Config.valueStrength hconfig).trans h.strong
  case issued => exact (handover_hard h.issued rfl hhand c.size c.metrics).issued

/-- The soft tier is asked for something. -/
theorem Lived.overSoft (h : c.Lived r)
    {work : Table K V → Reclaimer → Step (Table K V) (SoftCache.Notice K V) α}
    (request : Table.Request K V) (answer : α → Reply K V)
    (asks : c.soft.perform r request = (work c.soft r).map answer) :
    (c.overSoft r work).Lived := by
  obtain ⟨σ, hσ⟩ := h.soft
  have hissued : r.Issued c.soft.payloads := h.issued.right
  have hlives := hσ.asked hissued request
  have hhand := (Table.minds_perform hσ.sound hissued request).handover
  rw [asks] at hlives hhand
  constructor
  case hard => exact h.hard
  case soft => exact ⟨_, hlives⟩
  case strong => exact h.strong
  case issued => exact (handover_soft h.issued rfl hhand c.softSize c.metrics).issued

/-- A table that does not refuse an entry is asked to put it when it inserts it. -/
theorem perform_put {t : Table K V} {key : Option K} {value : Option V}
    (admitted : t.refusal key value = none) :
    t.perform r (.put key value) =
      (t.insert r key value).map fun placement => .value placement.previous.join := by
  rw [Table.perform, Table.put, admitted]
  rfl

/-! ## Work on the tiers -/

/-- The hard tier refuses nothing, so an insertion is what it can be asked for. -/
theorem Lived.insertHard (h : c.Lived r) (key : K) (value : Option V) :
    (c.overHard r (·.insert · (some key) value)).Lived := by
  have hadmitted : c.hard.refusal (some key) value = none :=
    Table.refusal_eq_none_iff.mpr ⟨by simp, by simp [h.strong]⟩
  exact h.overHard _ _ (perform_put hadmitted)

/-- The soft tier refuses no value that is not null. -/
theorem Lived.insertSoft (h : c.Lived r) (key : K) (value : Option V) (full : value.isSome) :
    (c.overSoft r (·.insert · (some key) value)).Lived := by
  have hadmitted : c.soft.refusal (some key) value = none :=
    Table.refusal_eq_none_iff.mpr ⟨by simp, fun _ => Option.isSome_iff_ne_none.mp full⟩
  exact h.overSoft _ _ (perform_put hadmitted)

/-- An entry that the hard tier gave up goes to the soft tier, or is only announced. -/
theorem Lived.routeEntry (h : c.Lived r) (key : K) (value : Option V) :
    (c.routeEntry r key value).Lived := by
  unfold Cache.routeEntry
  split
  · next hsettles =>
    have hfull : value.isSome := (Bool.and_eq_true_iff.mp hsettles).1
    exact .map _ ((h.tally _).insertSoft key value hfull)
  · exact h.announce _

/-- Both tiers age by requests when the hard tier overflows. -/
theorem Lived.routeOverflow (h : c.Lived r) (gone : List (Entry K V)) :
    (c.routeOverflow r gone).Lived := by
  induction gone generalizing c r with
  | nil => exact h
  | cons entry rest ih =>
    obtain ⟨_ | key, value⟩ := entry
    · exact ih h
    · exact .andThen (ih (h.routeEntry key value))

/-! ## Requests -/

/-- To get a value looks its key up in the tiers. -/
theorem Lived.get (h : c.Lived r) (key : K) : (c.get r key).Lived := by
  unfold Cache.get
  split
  · exact .done (h.tally _) _
  · have hhard : (c.overHard r (·.get · (some key))).Lived :=
      h.overHard (.get (some key)) .value rfl
    -- Only that the tier has lived matters, not what it was asked for.
    generalize c.overHard r (·.get · (some key)) = found at hhard ⊢
    refine .andThen ?_
    split
    · exact .done (hhard.tally _) _
    · have hsoft : (Cache.overSoft _ _ (·.get · (some key))).Lived :=
        hhard.overSoft (.get (some key)) .value rfl
      refine .andThen ?_
      split
      · exact .done (hsoft.tally _) _
      · exact .done (hsoft.tally _) _

/-- A put takes the key from the soft tier and puts it into the hard one, which may overflow. -/
theorem Lived.put (h : c.Lived r) (key : K) (value : Option V) : (c.put r key value).Lived := by
  unfold Cache.put
  split
  · exact h.of_tiers rfl rfl
  · split
    · exact h
    · have hsoft : (c.overSoft r (·.remove · (some key))).Lived :=
        h.overSoft (.remove (some key)) .value rfl
      have hhard := hsoft.insertHard key value
      exact .andThen (.andThen (.andThen (.map _ ((hhard.announce _).routeOverflow _))))

/-- To put entries is to put each of them that is wanted. -/
theorem Lived.putAll (h : c.Lived r) (replace : Bool) (entries : List (K × V)) :
    (c.putAll r replace entries).Lived := by
  induction entries generalizing c r with
  | nil => exact h
  | cons entry rest ih =>
    unfold Cache.putAll
    split
    · exact ih h
    · exact ih (h.put entry.1 (some entry.2))

/-- An entry is taken from the tier in which it is. -/
theorem Lived.takeEntry (h : c.Lived r) (key : K) : (c.takeEntry r key).Lived := by
  unfold Cache.takeEntry
  have hhard : (c.overHard r (·.removeEntry · (some key))).Lived :=
    h.overHard (.removeKey (some key)) (fun old => .flag old.isSome) rfl
  generalize c.overHard r (·.removeEntry · (some key)) = taken at hhard ⊢
  refine .andThen ?_
  split
  · exact .done hhard _
  · exact hhard.overSoft (.removeKey (some key)) (fun old => .flag old.isSome) rfl

/-- A removal asks the hard tier and then the soft one. -/
theorem Lived.remove (h : c.Lived r) (key : K) : (c.remove r key).Lived := by
  cases found : c.pins.find key with
  | some old =>
    rw [Cache.remove, found]
    exact h.of_tiers rfl rfl
  | none =>
    rw [remove_eq found]
    exact .andThen (.map _ ((h.takeEntry key).announce _))

/-- The hard tier is cleared as a table is. -/
theorem Lived.clearHard (h : c.Lived r) : (c.clearHard r).Lived :=
  .andThen ((h.announce _).overHard .clear (fun _ => .nothing) rfl)

/-- The soft tier is cleared as a table is. -/
theorem Lived.clearSoft (h : c.Lived r) : (c.clearSoft r).Lived :=
  .andThen ((h.announce _).overSoft .clear (fun _ => .nothing) rfl)

/-- The soft tier is swept as a table is. -/
theorem Lived.removeExpired (h : c.Lived r) : (c.removeExpired r).Lived :=
  h.overSoft .removeExpired .count rfl

/-- To clear a cache sweeps the soft tier and clears both. -/
theorem Lived.clear (h : c.Lived r) : (c.clear r).Lived := by
  have hpins : (c.clearPins r).Lived := h.of_tiers rfl rfl
  rw [clear_eq]
  exact .andThen (.andThen (.andThen hpins.removeExpired.clearHard.clearSoft))

/-- A value is taken from the hard tier or from the soft one. -/
theorem Lived.takeValue (h : c.Lived r) (key : K) : (c.takeValue r key).Lived := by
  unfold Cache.takeValue
  have hhard : (c.overHard r (·.removeEntry · (some key))).Lived :=
    h.overHard (.removeKey (some key)) (fun old => .flag old.isSome) rfl
  generalize c.overHard r (·.removeEntry · (some key)) = taken at hhard ⊢
  refine .andThen ?_
  split
  · exact .done hhard _
  · exact .map _ (hhard.announce _)
  · exact hhard.overSoft (.remove (some key)) .value rfl

/-- To pin a key takes its value from the tiers. -/
theorem Lived.pin [Ordered K] (h : c.Lived r) (key : K) : (c.pin r key).Lived := by
  cases found : c.pins.find key with
  | some value =>
    rw [Cache.pin, found]
    exact h
  | none =>
    have htaken := h.takeValue key
    rw [pin_eq found]
    refine .andThen (.done ?_ _)
    exact htaken.of_tiers rfl rfl

/-- What is unpinned is put into a tier, which may overflow. -/
theorem Lived.unpin (h : c.Lived r) (key : K) : (c.unpin r key).Lived := by
  unfold Cache.unpin
  split
  · exact h
  · next value _ =>
    have hunpinned : ({ c with pins := c.pins.erase key } : Cache K V).Lived r :=
      h.of_tiers rfl rfl
    refine .map _ ?_
    cases value with
    | none => exact hunpinned
    | some value =>
      dsimp only
      split
      · exact hunpinned.routeOverflow _
      · exact .andThen ((hunpinned.insertHard key (some value)).routeOverflow _)

/-- A smaller hard tier overflows. -/
theorem Lived.setSize (h : c.Lived r) (size : Nat) : (c.setSize r size).Lived := by
  have hsized : ({ c with size } : Cache K V).Lived r := h.of_tiers rfl rfl
  have hbound : (({ c with size } : Cache K V).overHard r (·.setBound · (some size))).Lived :=
    hsized.overHard (.setBound (some size))
      (fun evicted => .items (evicted.map Table.entryItem)) rfl
  exact hbound.routeOverflow _

/-- The soft tier is given a bound as a table is. -/
theorem Lived.setSoftSize (h : c.Lived r) (softSize : Int) : (c.setSoftSize r softSize).Lived := by
  have hsized : ({ c with softSize := max softSize (-1) } : Cache K V).Lived r := h.of_tiers rfl rfl
  have hbound : (({ c with softSize := max softSize (-1) } : Cache K V).overSoft r
      (·.setBound · (softBound (max softSize (-1))))).Lived :=
    hsized.overSoft (.setBound _) (fun evicted => .items (evicted.map Table.entryItem)) rfl
  exact hbound

/-- To count the soft tier sweeps it. -/
theorem Lived.softLength (h : c.Lived r) : (c.overSoft r Table.length).Lived :=
  h.overSoft .length .count rfl

/-- To count a cache counts both tiers. -/
theorem Lived.length (h : c.Lived r) : (c.length r).Lived :=
  have hhard : (c.overHard r Table.length).Lived := h.overHard .length .count rfl
  hhard.softLength

/-- The self-check may count the soft tier. -/
theorem Lived.violation? (h : c.Lived r) : (c.violation? r).Lived := by
  have hbound : (c.softOverBound? r).Lived := by
    unfold softOverBound?
    split
    · exact h
    · exact h.softLength
  unfold Cache.violation?
  split
  · exact h
  · split
    · exact h
    · exact hbound

/-- Whatever a cache is asked for, its tiers live on. -/
theorem Lived.perform [Ordered K] [Literal K] [Literal V] (h : c.Lived r) (request : Request K V) :
    (c.perform r request).Lived := by
  cases request with
  | get key => exact h.get key
  | put key value => exact h.put key value
  | putAll entries replace => exact h.putAll replace entries
  | remove key => exact h.remove key
  | pin key => exact h.pin key
  | unpin key => exact h.unpin key
  | setSize size => exact h.setSize size
  | setSoftSize softSize => exact h.setSoftSize softSize
  | length | isEmpty => exact h.length
  | removeExpired => exact h.removeExpired
  | clear => exact h.clear
  | check => exact h.violation?
  | containsKey | containsValue | locate | pinnedKeys | keys | entries | values | size | softSize
  | byUse | metrics | snapshot | literal => exact h

/-- A new cache begins with new tiers. -/
theorem lived_create {shared : SharedFractions} {o : Options} {epoch : Nat}
    (made : create shared o epoch = .ok c) :
    (∃ σ, c.hard.Lived σ) ∧ ∃ σ, c.soft.Lived σ := by
  obtain ⟨loadFactor, cursor, order, rfl⟩ := create_eq made
  exact ⟨⟨_, .made ..⟩, _, .made ..⟩

end Cache

end SoftCache
