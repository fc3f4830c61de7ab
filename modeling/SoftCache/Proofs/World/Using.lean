import SoftCache.Proofs.Table.Twins
import SoftCache.Proofs.World.Following

/-!
# Using one table

Who uses a table asks it for something, begins walks over it, and asks those. What comes of a use is
known from the table and the walk alone (`Use.step`), so twins agree on it (`Use.agrees_step`). In a
world where the table is lively it comes to just that (`World.Hosts.enacts`), and another table is
left as it is (`World.Hosts.aside`).
-/

namespace SoftCache

variable {K V : Type}

/-! ## What comes of a use -/

/-- Something that is done with a table, or with a walk over it. -/
inductive Use (K V : Type) where
  /-- Asks the table for something. -/
  | ask (request : Table.Request K V)
  /-- Begins a walk over a view of the table. -/
  | start (view : View) (newName : String)
  /-- Begins a walk over the entries of the table from a bucket on that the cursor points at. -/
  | startAtRandom (newName : String)
  /-- Asks a walk for something. -/
  | goOn (walk : String) (request : Walk.Request)

/-- The request that a use is in a world where the table has the name. -/
def Use.request (name : String) : Use K V → World.Request K V
  | ask request => .table name request
  | start view newName => .walk name view newName
  | startAtRandom newName => .randomWalk name newName
  | goOn walk request => .onWalk walk request

/-- The walk that begins or goes on, if one does. -/
def Use.walked : Use K V → Option String
  | ask _ => none
  | start _ newName | startAtRandom newName => some newName
  | goOn walk _ => some walk

/-- Whether all walks that are asked for something have names of a kind. -/
def Use.Asks (own : String → Prop) : Use K V → Prop
  | goOn walk _ => own walk
  | _ => True

/-- A use is no pass. -/
theorem Use.request_ne_reclaimer (use : Use K V) (name : String) :
    ∀ asked passing, use.request name ≠ .reclaimer asked passing := by
  cases use <;> exact fun _ _ heq => by cases heq

/-- A use leaves all names to what has them. -/
theorem Use.spares_request (use : Use K V) (name other : String) :
    (use.request name).spares other := by
  cases use <;> trivial

section Steps

variable [DecidableEq K] [Hashed K]

/-- What comes of asking a walk over a table for something: the answer, and the walk afterwards. -/
def Walk.step (walk : Walk K V) (t : Table K V) (r : Reclaimer) :
    Walk.Request → Step (Table K V) (Notice K V) (Reply K V × Walk K V)
  | .next => .done t r (.items walk.next.1.toList, walk.next.2)
  | .rest => .done t r (.items walk.rest.1, walk.rest.2)
  | .remaining => .done t r (.count walk.remaining.length, walk)
  | .literal => .done t r (.text (some walk.literal), walk)
  | .remove => (walk.remove t r).1.map fun there => (.flag there, { walk with last := none })

variable [DecidableEq V]

/-- What comes of a use: the answer, and the walk afterwards. The walk is given as it is before. -/
def Use.step (t : Table K V) (r : Reclaimer) (before : Option (Walk K V)) :
    Use K V → Step (Table K V) (Notice K V) (Reply K V × Option (Walk K V))
  | ask request => (t.perform r request).map fun reply => (reply, none)
  | start view _ => .done t r (.count (t.entries r).length, some (.start view (t.entries r)))
  | startAtRandom _ =>
    (t.randomEntries r).map fun drawn => (.count drawn.length, some (.start .entries drawn))
  | goOn _ asking =>
    match before with
    | none => .done t r (.unknown, none)
    | some walk => (walk.step t r asking).map fun after => (after.1, some after.2)

/-- What is answered with a walk, as it would be if so much had been counted before. -/
def Reply.plusBeside {α : Type} (base : Table.Metrics) (answer : Reply K V × α) : Reply K V × α :=
  (answer.1.plus base, answer.2)

variable {base : Table.Metrics} {t t' : Table K V} {r r' : Reclaimer}

omit [DecidableEq V] in
/-- Twins agree on what a walk is asked for. -/
theorem Walk.agrees_step (h : Table.Twins base t r t' r') (walk : Walk K V)
    (asking : Walk.Request) :
    Step.Agrees base (walk.step t r asking)
      ((walk.step t' r' asking).map (Reply.plusBeside base)) := by
  cases asking with
  | next | rest | remaining | literal => exact h.done rfl
  | remove =>
    unfold step remove
    cases walk.last with
    | none => exact h.done rfl
    | some key =>
      exact (h.agrees_removeIf key fun _ => true).map fun removed =>
        (Reply.flag removed.isSome, { walk with last := none })

/-- Twins agree on every use. -/
theorem Use.agrees_step (h : Table.Twins base t r t' r') (sound : t.Sound) (sound' : t'.Sound)
    (before : Option (Walk K V)) (use : Use K V) :
    Step.Agrees base (use.step t r before)
      ((use.step t' r' before).map (Reply.plusBeside base)) := by
  cases use with
  | ask request => exact (h.agrees_perform sound sound' request).map fun reply => (reply, none)
  | start view newName =>
    refine h.done ?_
    rw [h.entries]
    rfl
  | startAtRandom newName =>
    exact h.agrees_randomEntries.map fun drawn =>
      (Reply.count drawn.length, some (Walk.start .entries drawn))
  | goOn name asking =>
    cases before with
    | none => exact h.done rfl
    | some walk => exact (walk.agrees_step h asking).map fun after => (after.1, some after.2)

/-- A use leaves a lively table. -/
theorem Use.lively_step (h : t.Lively r) (sound : t.Sound) (before : Option (Walk K V))
    (use : Use K V) : (use.step t r before).state.Lively (use.step t r before).reclaimer :=
  (use.agrees_step h.twins_self sound sound before).twins.first

end Steps

namespace World

variable {w : World K V} {own : String → Prop} {name other : String} {number number' : Nat}
  {placed placed' : PlacedTable K V}

/-! ## Walks by name -/

/-- The walk of a name. -/
def walkOf (w : World K V) (name : String) : Option (Walk K V) :=
  (w.walks.find name).map (·.walk)

/-- The walk that a use asks for something, if it asks one that is there. -/
def walkFor (w : World K V) : Use K V → Option (Walk K V)
  | .goOn walk _ => w.walkOf walk
  | _ => none

/-- The walks that there are when one has begun. -/
theorem find_addWalk (w : World K V) (newName walk : String) (number : Nat) (view : View)
    (entries : List (Entry K V)) :
    (w.addWalk newName number view entries).world.walks.find walk =
      if newName = walk then some ⟨.start view entries, number⟩ else w.walks.find walk := by
  obtain ⟨reclaimers, -, heq⟩ := World.collect_eq
    { w with walks := w.walks.set newName ⟨.start view entries, number⟩ }
  rw [addWalk, heq]
  exact Directory.find_set w.walks newName walk _

/-- The walks that there are when one has gone on. -/
theorem find_modify_walk {walk : String} {walked : PlacedWalk K V}
    (found : w.walks.find walk = some walked) (after : Walk K V) (other : String) :
    (w.walks.modify walk { walked with walk := after }).find other =
      if walk = other then some ⟨after, walked.table⟩ else w.walks.find other := by
  rw [Directory.find_modify]
  split
  · next hsame =>
    rw [← hsame, found]
    rfl
  · rfl

variable [Hashed K]

/-- What comes of asking a walk over a table for something: what the walk and the table make of it,
and nothing else. -/
structure GoesOn [DecidableEq K] (w : World K V) (walk : String) (walked : PlacedWalk K V)
    (placed : PlacedTable K V)
    (done : Step (Table K V) (SoftCache.Notice K V) (Reply K V × Walk K V))
    (outcome : Outcome K V) : Prop where
  /-- The answer is given. -/
  reply : outcome.reply = done.result.1
  /-- Who listens to the table hears what it announces. -/
  notices : outcome.notices =
    placed.listener.toList.flatMap fun listener => done.notices.map (.table listener)
  /-- Tables keep their names. -/
  tableNames : outcome.world.tableNames = w.tableNames
  /-- The walk is there as it is afterwards, and the others are as they were. -/
  walks : ∀ other, outcome.world.walks.find other =
    if walk = other then some ⟨done.result.2, walked.table⟩ else w.walks.find other
  /-- So is the table. -/
  found : outcome.world.tables.find walked.table = some { placed with table := done.state }
  /-- Other tables are as they were. -/
  others : ∀ other ≠ walked.table, outcome.world.tables.find other = w.tables.find other
  /-- The reclaimer of the table is as it is afterwards. -/
  reclaimer : outcome.world.reclaimer placed.reclaimer = done.reclaimer

/-- A walk and its table are all that a request to the walk works on. -/
theorem goesOn_overWalk [DecidableEq K] {walk : String} {walked : PlacedWalk K V}
    (there : w.walks.find walk = some walked) (found : w.tables.find walked.table = some placed)
    (index : placed.reclaimer < w.reclaimers.length) (asking : Walk.Request) :
    w.GoesOn walk walked placed
      (walked.walk.step placed.table (w.reclaimer placed.reclaimer) asking)
      (w.overWalk walk asking) := by
  have hsilent : [] = placed.listener.toList.flatMap fun listener =>
      ([] : List (SoftCache.Notice K V)).map (Notice.table listener) :=
    (List.flatMap_eq_nil_iff.mpr fun _ _ => List.map_nil).symm
  have hstill : ∀ other, w.walks.find other =
      if walk = other then some walked else w.walks.find other := by
    intro other
    split
    · next hsame => exact hsame ▸ there
    · rfl
  rw [overWalk, there]
  cases asking with
  | next | rest =>
    exact ⟨rfl, hsilent, rfl, find_modify_walk there _, found, fun _ _ => rfl, rfl⟩
  | remaining | literal =>
    exact ⟨rfl, hsilent, rfl, hstill, found, fun _ _ => rfl, rfl⟩
  | remove =>
    have hworks := works_overTable found index fun t r => (walked.walk.remove t r).1.map .flag
    refine ⟨hworks.reply, hworks.notices, hworks.tableNames, ?_, hworks.found, ?_,
      hworks.reclaimer⟩
    · dsimp only
      rw [hworks.walks]
      exact find_modify_walk there _
    · intro other hne
      simp only [overTable, found]
      exact (Directory.find_modify ..).trans (if_neg hne.symm)

/-! ## Lively tables in a world -/

/-- A lively table in a world, where walks with names of a kind go over no other. -/
structure Hosts (w : World K V) (own : String → Prop) (name : String) (number : Nat)
    (placed : PlacedTable K V) : Prop where
  /-- The world is sound. -/
  sound : w.Sound
  /-- The table has the name. -/
  named : w.tableNames.find name = some number
  /-- The table is there. -/
  found : w.tables.find number = some placed
  /-- The table is lively. -/
  lively : placed.table.Lively (w.reclaimer placed.reclaimer)
  /-- The walks go over the table. -/
  walks : ∀ walk, own walk → ∀ walked, w.walks.find walk = some walked → walked.table = number

/-- No walk has to be known of. -/
theorem Hosts.walkless (h : w.Hosts own name number placed) :
    w.Hosts (fun _ => False) name number placed :=
  ⟨h.sound, h.named, h.found, h.lively, fun _ hfalse => hfalse.elim⟩

/-- The reclaimer of the table is in the world. -/
theorem Hosts.index (h : w.Hosts own name number placed) :
    placed.reclaimer < w.reclaimers.length :=
  (h.sound.tables _ (Directory.mem_of_find h.found)).index

variable [DecidableEq K] [Ordered K] [Literal K] [DecidableEq V] [Literal V]

/-- A table of which no slot is touched stays lively while there is no pass. -/
theorem Sound.lively_perform (h : w.Sound) {request : Request K V}
    (hpass : ∀ name passing, request ≠ .reclaimer name passing)
    (found : w.tables.find number = some placed)
    (lively : placed.table.Lively (w.reclaimer placed.reclaimer))
    (found' : (w.perform request).world.tables.find number = some placed')
    (reclaimer : placed'.reclaimer = placed.reclaimer)
    (buckets : placed'.table.buckets = placed.table.buckets) :
    placed'.table.Lively ((w.perform request).world.reclaimer placed'.reclaimer) where
  issued := (h.perform request).issued_table found'
  budget := by
    have hindex := (h.tables _ (Directory.mem_of_find found)).index
    have hand := (h.advances request hpass).hands.handover placed.reclaimer hindex
    rw [reclaimer]
    exact hand.precedes.budget.trans lively.budget
  live s hs := by
    have hindex := (h.tables _ (Directory.mem_of_find found)).index
    have hand := (h.advances request hpass).hands.handover placed.reclaimer hindex
    have hquiet := hand.quiet (.inl lively.budget)
    rw [buckets] at hs
    rw [reclaimer, isStale_perform h hpass found hquiet found' reclaimer buckets hs]
    exact lively.live s hs

/-- A use that is carried out in a world as the table and the walk say. -/
structure Enacts (w : World K V) (own : String → Prop) (name : String) (number : Nat)
    (placed : PlacedTable K V) (use : Use K V)
    (step : Step (Table K V) (SoftCache.Notice K V) (Reply K V × Option (Walk K V))) : Prop where
  /-- The answer is given. -/
  reply : (w.perform (use.request name)).reply = step.result.1
  /-- Who listens hears what the table announces. -/
  notices : (w.perform (use.request name)).notices =
    placed.listener.toList.flatMap fun listener => step.notices.map (.table listener)
  /-- The table is there as it is afterwards. -/
  hosts : (w.perform (use.request name)).world.Hosts own name number
    { placed with table := step.state }
  /-- The walk is there as it is afterwards, and others are as they were. -/
  walkOf : ∀ walk, own walk → (w.perform (use.request name)).world.walkOf walk =
    if use.walked = some walk then step.result.2 else w.walkOf walk

namespace Hosts

variable {step : Step (Table K V) (SoftCache.Notice K V) (Reply K V × Option (Walk K V))}

/-- The table is asked for something. -/
theorem enacts_ask (h : w.Hosts own name number placed) (request : Table.Request K V)
    (before : Option (Walk K V)) :
    w.Enacts own name number placed (.ask request)
      ((Use.ask request).step placed.table (w.reclaimer placed.reclaimer) before) := by
  have hlively := (Use.ask request).lively_step h.lively
    (h.sound.tables _ (Directory.mem_of_find h.found)).table before
  have hsound := h.sound.perform (.table name request)
  have hworks := works_overTable h.found h.index fun t r => t.perform r request
  rw [← perform_table h.named] at hworks
  refine ⟨hworks.reply, hworks.notices, ⟨hsound, ?_, hworks.found, ?_, ?_⟩, fun walk _ => ?_⟩
  · exact (congrArg (·.find name) hworks.tableNames).trans h.named
  · exact hworks.reclaimer ▸ hlively
  · exact fun walk howned walked hwalked => h.walks walk howned walked (hworks.walks ▸ hwalked)
  · exact congrArg (fun walks => (walks.find walk).map (·.walk)) hworks.walks

/-- A walk over the table begins or goes on. -/
theorem enacts_of_walk (h : w.Hosts own name number placed) {use : Use K V} {outcome : Outcome K V}
    (performs : w.perform (use.request name) = outcome) {walk : String} {after : Walk K V}
    (walked : use.walked = some walk) (result : step.result = (outcome.reply, some after))
    (notices : outcome.notices =
      placed.listener.toList.flatMap fun listener => step.notices.map (.table listener))
    (named : outcome.world.tableNames.find name = some number)
    (found : outcome.world.tables.find number = some { placed with table := step.state })
    (lively : step.state.Lively (outcome.world.reclaimer placed.reclaimer))
    (walks : ∀ other, outcome.world.walks.find other =
      if walk = other then some ⟨after, number⟩ else w.walks.find other) :
    w.Enacts own name number placed use step := by
  have hsound := h.sound.perform (use.request name)
  subst performs
  constructor
  case reply => rw [result]
  case notices => exact notices
  case hosts =>
    refine ⟨hsound, named, found, lively, fun other howned walked' hwalked => ?_⟩
    rw [walks] at hwalked
    split at hwalked
    · cases hwalked
      rfl
    · exact h.walks other howned walked' hwalked
  case walkOf =>
    intro other _
    rw [World.walkOf, walks, walked, result]
    simp only [Option.some.injEq]
    split <;> rfl

/-- A walk over the table begins. The cursor may have moved before. -/
theorem enacts_addWalk (h : w.Hosts own name number placed) {use : Use K V} {moved : World K V}
    {newName : String} {view : View} {entries : List (Entry K V)}
    (performs : w.perform (use.request name) = moved.addWalk newName number view entries)
    (walked : use.walked = some newName)
    (result : step.result = (.count entries.length, some (.start view entries)))
    (silent : step.notices = []) (names : moved.tableNames = w.tableNames)
    (walks : moved.walks = w.walks)
    (found : moved.tables.find number = some { placed with table := step.state })
    (buckets : step.state.buckets = placed.table.buckets) :
    w.Enacts own name number placed use step := by
  have hnamed := h.named
  rw [← names] at hnamed
  obtain ⟨hnamed', hfound'⟩ :=
    (keeps_addWalk moved name newName number view entries).table number _ hnamed found
  refine h.enacts_of_walk performs walked result ?_ hnamed' hfound' ?_ fun other => ?_
  · rw [silent, List.flatMap_eq_nil_iff.mpr fun _ _ => List.map_nil]
    rfl
  · rw [← performs] at hfound' ⊢
    exact h.sound.lively_perform (use.request_ne_reclaimer name) h.found h.lively hfound' rfl
      buckets
  · rw [find_addWalk, walks]

/-- A walk is asked for something that is not there. -/
theorem enacts_missing (h : w.Hosts own name number placed) {walk : String}
    (missing : w.walks.find walk = none) (asking : Walk.Request) :
    w.Enacts own name number placed (.goOn walk asking)
      ((Use.goOn walk asking).step placed.table (w.reclaimer placed.reclaimer) none) := by
  have hperform : w.perform (.onWalk walk asking) = w.missing := by
    rw [World.perform, overWalk, missing]
  constructor <;> rw [Use.request, hperform]
  case reply => rfl
  case notices => exact (List.flatMap_eq_nil_iff.mpr fun _ _ => List.map_nil).symm
  case hosts => exact h
  case walkOf =>
    intro other _
    simp only [Use.walked, Option.some.injEq]
    split
    · next hsame =>
      rw [← hsame, World.walkOf, World.missing, missing]
      rfl
    · rfl

variable {walk : String} {walked : PlacedWalk K V}

/-- A walk over the table is asked for something. -/
theorem enacts_goOn (h : w.Hosts own name walked.table placed)
    (there : w.walks.find walk = some walked) (asking : Walk.Request) :
    w.Enacts own name walked.table placed (.goOn walk asking)
      ((Use.goOn walk asking).step placed.table (w.reclaimer placed.reclaimer)
        (some walked.walk)) := by
  have hlively := (Use.goOn walk asking).lively_step h.lively
    (h.sound.tables _ (Directory.mem_of_find h.found)).table (some walked.walk)
  have hgoes := goesOn_overWalk there h.found h.index asking
  have hperform : w.perform ((Use.goOn walk asking).request name) = w.overWalk walk asking := rfl
  refine h.enacts_of_walk hperform rfl ?_ hgoes.notices ?_ hgoes.found ?_ hgoes.walks
  · rw [hgoes.reply]
    rfl
  · exact (congrArg (·.find name) hgoes.tableNames).trans h.named
  · exact hgoes.reclaimer ▸ hlively

/-- A lively table is used in a world just as by itself. -/
theorem enacts (h : w.Hosts own name number placed) (use : Use K V) (asks : use.Asks own) :
    w.Enacts own name number placed use
      (use.step placed.table (w.reclaimer placed.reclaimer) (w.walkFor use)) := by
  cases use with
  | ask request => exact h.enacts_ask request _
  | start view newName =>
    refine h.enacts_addWalk ?_ rfl rfl rfl rfl rfl h.found rfl
    rw [Use.request, World.perform, beginWalk, h.named]
    dsimp only
    rw [h.found]
  | startAtRandom newName =>
    set drawn := placed.table.randomEntries (w.reclaimer placed.reclaimer) with hdrawn
    have hperform : w.perform (.randomWalk name newName) = addWalk
        { w with tables := w.tables.modify number { placed with table := drawn.state } }
        newName number .entries drawn.result := by
      rw [World.perform, beginRandomWalk, h.named]
      dsimp only
      rw [h.found]
    refine h.enacts_addWalk hperform rfl rfl rfl rfl rfl ?_ rfl
    refine (Directory.find_modify ..).trans ?_
    rw [if_pos rfl, h.found]
    rfl
  | goOn walk asking =>
    rw [walkFor, World.walkOf]
    cases hwalk : w.walks.find walk with
    | none => exact h.enacts_missing hwalk asking
    | some walked =>
      obtain rfl : walked.table = number := h.walks walk asks walked hwalk
      exact h.enacts_goOn hwalk asking

omit [DecidableEq K] [Ordered K] [Literal K] [DecidableEq V] [Literal V] in
/-- A use of one table asks nothing of another. -/
theorem unasked (h : w.Hosts own name number placed) {use : Use K V} (asks : use.Asks own)
    (hname : name ≠ other) (hnumber : number ≠ number')
    (named' : w.tableNames.find other = some number') :
    w.asks number' (use.request name) = none ∧ w.asked other (use.request name) = none := by
  cases use with
  | ask request => simp [Use.request, World.asks, asked, h.named, hname, hnumber]
  | start view newName => exact ⟨rfl, rfl⟩
  | startAtRandom newName => simp [Use.request, World.asks, asked, h.named, hnumber]
  | goOn walk asking =>
    cases asking with
    | remove =>
      cases hwalk : w.walks.find walk with
      | none => simp [Use.request, World.asks, asked, hwalk]
      | some walked =>
        -- The walk goes over the one table, and so not over the other.
        have hover := h.walks walk asks walked hwalk
        simp [Use.request, World.asks, asked, hwalk, hover, named', hnumber, hnumber.symm]
    | next | rest | remaining | literal => exact ⟨rfl, rfl⟩

/-- A use of one table leaves another as it is. -/
theorem aside (h : w.Hosts own name number placed) (named : w.Named) (hne : name ≠ other)
    (h' : w.Hosts (fun _ => False) other number' placed') {use : Use K V} (asks : use.Asks own) :
    (w.perform (use.request name)).world.Hosts (fun _ => False) other number' placed' := by
  have hnumber : number ≠ number' := by
    rintro rfl
    exact hne (named.apart name other number h.named h'.named)
  obtain ⟨hasks, hasked⟩ := h.unasked asks hne hnumber h'.named
  obtain ⟨hnamed, cursor, hfound⟩ :=
    keepsSlots_perform h'.sound named (use.spares_request name other) hasked number' placed'
      h'.named h'.found
  have hold := h'.sound.fresh number' (List.mem_map_of_mem (f := Prod.fst)
    (Directory.mem_of_find h'.found))
  -- What is there was there before, so the cursor has not moved either.
  have hsame := h'.found.symm.trans ((leaves_perform hold (.inr hasks)).find _ hfound)
  rw [← hsame] at hfound
  refine ⟨h'.sound.perform _, hnamed, hfound, ?_, fun _ hfalse => hfalse.elim⟩
  exact h'.sound.lively_perform (use.request_ne_reclaimer name) h'.found h'.lively hfound rfl rfl

end Hosts

end World

end SoftCache
