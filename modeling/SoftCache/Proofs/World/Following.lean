import SoftCache.Proofs.World.Refinement

/-!
# Following a table

Names come and go, but a table keeps its number as long as it is in the world. A request asks
something of the table of a number (`World.asks`), under one of its names or by a walk over it, or
leaves it just as it is (`World.leaves_perform`). So what has become of a table in a run is
what it was asked for, turn by turn, made of it (`World.Sound.follows_run`).
-/

namespace SoftCache.World

variable {K V : Type} {w w' w'' : World K V} {number : Nat}

/-! ## What leaves a table as it is -/

/-- The table of the number is as it was, if it is still there. -/
structure Leaves (w w' : World K V) (number : Nat) : Prop where
  /-- What is there was there before. -/
  find : ∀ placed, w'.tables.find number = some placed → w.tables.find number = some placed
  /-- Numbers are not given back. -/
  next_le : w.nextTable ≤ w'.nextTable

namespace Leaves

/-- Only the tables and their numbers matter. -/
theorem of_eq (tables : w'.tables = w.tables) (next : w'.nextTable = w.nextTable) :
    w.Leaves w' number := by
  refine ⟨fun placed found => ?_, next.ge⟩
  rwa [tables] at found

/-- What is left as it is twice is left as it is. -/
theorem trans (h : w.Leaves w' number) (h' : w'.Leaves w'' number) : w.Leaves w'' number :=
  ⟨fun placed found => h.find placed (h'.find placed found), h.next_le.trans h'.next_le⟩

/-- Another table is worked on. -/
theorem of_ne {other : Nat} {worked : PlacedTable K V}
    (tables : w'.tables = w.tables.modify other worked) (hne : other ≠ number)
    (next : w'.nextTable = w.nextTable) : w.Leaves w' number := by
  refine ⟨fun placed found => ?_, next.ge⟩
  rwa [tables, Directory.find_modify, if_neg hne] at found

end Leaves

/-- What is not collected is left as it is. -/
theorem leaves_collect (w : World K V) (number : Nat) : w.Leaves w.collect number := by
  obtain ⟨reclaimers, -, heq⟩ := w.collect_eq
  rw [heq]
  exact ⟨fun placed found => Directory.find_of_find_filter found, le_rfl⟩

/-- To remove a cache leaves the tables as they are. -/
theorem leaves_removeCache (w : World K V) (name : String) (number : Nat) :
    w.Leaves (w.removeCache name) number := by
  obtain ⟨reclaimers, -, heq⟩ := w.removeCache_eq name
  rw [heq]
  exact .of_eq rfl rfl

/-- To remove a name leaves the tables that are still there as they are. -/
theorem leaves_removeNamed (w : World K V) (name : String) (number : Nat) :
    w.Leaves (w.removeNamed name) number :=
  have herase : w.Leaves { w with tableNames := w.tableNames.erase name } number := .of_eq rfl rfl
  (herase.trans (leaves_collect _ number)).trans (leaves_removeCache _ name number)

/-- A table that is brought in has a number of its own. -/
theorem leaves_addTable (old : number < w.nextTable) (name : String) (placed : PlacedTable K V) :
    w.Leaves (w.addTable name placed) number := by
  have hput : w.Leaves (w.enterTable name placed) number := by
    refine ⟨fun other found => ?_, Nat.le_succ _⟩
    rwa [find_tables_enterTable, if_neg old.ne'] at found
  exact hput.trans ((leaves_collect _ number).trans (leaves_removeCache _ name number))

/-- To bring a cache in leaves the tables as they are. -/
theorem leaves_addCache (w : World K V) (name : String) (placed : PlacedCache K V) (number : Nat) :
    w.Leaves (w.addCache name placed) number :=
  (leaves_removeNamed w name number).trans (.of_eq rfl rfl)

/-- To begin a walk leaves the tables as they are. -/
theorem leaves_addWalk (w : World K V) (newName : String) (walked : Nat) (view : View)
    (entries : List (Entry K V)) (number : Nat) :
    w.Leaves (w.addWalk newName walked view entries).world number :=
  have hset : w.Leaves
      { w with walks := w.walks.set newName ⟨.start view entries, walked⟩ } number :=
    .of_eq rfl rfl
  hset.trans (leaves_collect _ number)

/-! ## What a request asks of a table -/

/-- What a request asks of the table of a number, if it does. A walk over the table may remove the
key that it came to last, and one that begins at random moves the cursor. -/
def asks (w : World K V) (number : Nat) : Request K V → Option (Table.Request K V)
  | .table name request => if w.tableNames.find name = some number then some request else none
  | .randomWalk name _ =>
    if w.tableNames.find name = some number then some .randomEntries else none
  | .onWalk walk .remove =>
    (w.walks.find walk).bind fun walked =>
      if walked.table = number then walked.walk.last.map .removeKey else none
  | _ => none

/-- Something that a table is asked for, with the table and its reclaimer at that moment. -/
structure Turn (K V : Type) where
  /-- The table when it is asked. -/
  table : Table K V
  /-- Its reclaimer when it is asked. -/
  reclaimer : Reclaimer
  /-- What is asked of it. -/
  request : Table.Request K V
  /-- What comes of it in the world. -/
  outcome : Outcome K V

variable [DecidableEq K] [Hashed K] [DecidableEq V]

/-- What the table makes of it. -/
def Turn.step (turn : Turn K V) : Step (Table K V) (SoftCache.Notice K V) (Reply K V) :=
  turn.table.perform turn.reclaimer turn.request

/-- A turn of a sound table that is answered and heard of as the table says. -/
structure Turn.Fits (turn : Turn K V) (listener : Option String) : Prop where
  /-- The table is sound. -/
  sound : turn.table.Sound
  /-- Its payloads have been issued. -/
  issued : turn.reclaimer.Issued turn.table.payloads
  /-- Who listens hears just what the table announces. -/
  notices : turn.outcome.notices =
    listener.toList.flatMap fun listener => turn.step.notices.map (.table listener)
  /-- The answer is that of the table, unless a walk begins. -/
  reply : turn.outcome.reply = turn.step.result ∨ turn.request = .randomEntries

/-- Turns that a table takes one after the other, from the first one to what it is in the end. -/
inductive Follows (listener : Option String) : Table K V → List (Turn K V) → Table K V → Prop
  /-- Nothing is asked any more. -/
  | still (t : Table K V) : Follows listener t [] t
  /-- Something is asked, and the table goes on as it is then. -/
  | turn {turn : Turn K V} {rest : List (Turn K V)} {t : Table K V} : turn.Fits listener →
    Follows listener turn.step.state rest t → Follows listener turn.table (turn :: rest) t

/-- Each turn of a table fits. -/
theorem Follows.fits {listener : Option String} {t t' : Table K V} {turns : List (Turn K V)}
    (h : Follows listener t turns t') : ∀ turn ∈ turns, turn.Fits listener := by
  induction h with
  | still t => exact List.forall_mem_nil _
  | turn hfits _ ih => exact List.forall_mem_cons.mpr ⟨hfits, ih⟩

variable {request : Request K V} {placed placed' : PlacedTable K V}

/-- Work on a table that does what is asked of it. -/
theorem fits_overTable (h : w.Sound) (found : w.tables.find number = some placed)
    {asking : Table.Request K V}
    (work : Table K V → Reclaimer → Step (Table K V) (SoftCache.Notice K V) (Reply K V))
    (same : work placed.table (w.reclaimer placed.reclaimer) =
      placed.table.perform (w.reclaimer placed.reclaimer) asking)
    {outcome : Outcome K V} (reply : outcome.reply = (w.overTable number work).reply)
    (notices : outcome.notices = (w.overTable number work).notices) :
    let turn : Turn K V := ⟨placed.table, w.reclaimer placed.reclaimer, asking, outcome⟩
    turn.Fits placed.listener ∧ (w.overTable number work).world.nextTable = w.nextTable ∧
      (w.overTable number work).world.tables.find number =
        some { placed with table := turn.step.state } := by
  have hentry := h.tables _ (Directory.mem_of_find found)
  have hworks := works_overTable found hentry.index work
  rw [same] at hworks
  exact ⟨⟨hentry.table, h.issued_table found, notices.trans hworks.notices,
    .inl (reply.trans hworks.reply)⟩, hworks.nextTable, hworks.found⟩

/-- A walk that begins at random moves the cursor of the table. -/
theorem fits_beginRandomWalk (h : w.Sound) {name : String} (newName : String)
    (hname : w.tableNames.find name = some number)
    (found : w.tables.find number = some placed) :
    let outcome := w.beginRandomWalk name newName
    let turn : Turn K V := ⟨placed.table, w.reclaimer placed.reclaimer, .randomEntries, outcome⟩
    turn.Fits placed.listener ∧ outcome.world.nextTable = w.nextTable ∧
      outcome.world.tables.find number = some { placed with table := turn.step.state } := by
  intro outcome turn
  have hentry := h.tables _ (Directory.mem_of_find found)
  set drawn : World K V :=
    { w with tables := w.tables.modify number { placed with table := turn.step.state } } with hdrawn
  have houtcome : outcome = drawn.addWalk newName number .entries
      (placed.table.randomEntries (w.reclaimer placed.reclaimer)).result := by
    show w.beginRandomWalk name newName = _
    rw [beginRandomWalk, hname]
    dsimp only
    rw [found]
    rfl
  have hnumber : drawn.tables.find number = some { placed with table := turn.step.state } := by
    rw [hdrawn]
    refine (Directory.find_modify ..).trans ?_
    rw [if_pos rfl, found]
    rfl
  -- The table has a name, so it is not let go with what the new walk replaces.
  have hkeeps := (keeps_addWalk drawn name newName number .entries
    (placed.table.randomEntries (w.reclaimer placed.reclaimer)).result).table number _ hname hnumber
  refine ⟨⟨hentry.table, h.issued_table found, ?_, .inr rfl⟩, ?_, ?_⟩
  · show outcome.notices = _
    have hsilent : turn.step.notices = [] := rfl
    rw [houtcome, hsilent, List.flatMap_eq_nil_iff.mpr fun _ _ => List.map_nil]
    rfl
  · obtain ⟨reclaimers, -, heq⟩ := World.collect_eq { drawn with
      walks := drawn.walks.set newName ⟨.start .entries
        (placed.table.randomEntries (w.reclaimer placed.reclaimer)).result, number⟩ }
    rw [houtcome, addWalk, heq]
  · rw [houtcome]
    exact hkeeps.2

variable [Ordered K] [Literal K] [Literal V]

/-- The turn of the table of a number, if the request asks something of it. -/
def turn? (w : World K V) (number : Nat) (request : Request K V) : Option (Turn K V) :=
  (w.tables.find number).bind fun placed => (w.asks number request).map fun asking =>
    ⟨placed.table, w.reclaimer placed.reclaimer, asking, w.perform request⟩

/-- The turns of the table of a number while requests are carried out. -/
def turns (w : World K V) (number : Nat) : List (Request K V) → List (Turn K V)
  | [] => []
  | request :: rest =>
    (w.turn? number request).toList ++ (w.perform request).world.turns number rest

/-! ## One request -/

/-- What comes of a request that asks nothing of a table leaves it as it is. -/
theorem leaves_of_effect {notices : List (Notice K V)} (effect : w.Effect request w' notices)
    (old : number < w.nextTable)
    (unasked : w.tables.find number = none ∨ w.asks number request = none) :
    w.Leaves w' number := by
  cases effect with
  | @newTable _ _ reclaimers =>
    refine Leaves.trans ?_ (leaves_addTable (w := { w with reclaimers }) old _ _)
    exact .of_eq rfl rfl
  | newCache =>
    refine Leaves.trans ?_ (leaves_addCache _ _ _ number)
    exact .of_eq rfl rfl
  | copy =>
    refine Leaves.trans ?_ (leaves_addTable (w := w.setReclaimer _ _) old _ _)
    exact .of_eq rfl rfl
  | drop => exact leaves_removeNamed w _ number
  | @table _ _ other _ _ hname found =>
    have hne : other ≠ number := by
      rintro rfl
      simp [asks, hname, found] at unasked
    exact .of_ne rfl hne rfl
  | walk => exact leaves_addWalk ..
  | @randomWalk _ _ other placed drawn hname found =>
    have hne : other ≠ number := by
      rintro rfl
      simp [asks, hname, found] at unasked
    have hdrawn : w.Leaves
        { w with tables := w.tables.modify other { placed with table := drawn.state } } number :=
      .of_ne rfl hne rfl
    exact hdrawn.trans (leaves_addWalk ..)
  | @remove _ walked placed _ hwalked found hdone =>
    by_cases hsame : walked.table = number
    · subst hsame hdone
      -- The walk has come to nothing, or has removed that already.
      have hlast : walked.walk.last = none := by
        simpa [asks, hwalked, found] using unasked
      refine ⟨fun other hother => ?_, le_rfl⟩
      simp only [Walk.remove, hlast] at hother
      have hother : (w.tables.modify walked.table placed).find walked.table = some other := hother
      rw [Directory.find_modify, if_pos rfl, found] at hother
      rw [found]
      exact hother
    · exact .of_ne rfl hsame rfl
  | nothing | newReclaimer | cache | recorder | reclaimer | goOn => exact .of_eq rfl rfl

/-- What is not asked of a table leaves it as it is. -/
theorem leaves_perform (old : number < w.nextTable)
    (unasked : w.tables.find number = none ∨ w.asks number request = none) :
    w.Leaves (w.perform request).world number :=
  leaves_of_effect (w.effect_perform request) old unasked

/-- What a request asks of a table comes to what the table makes of it. -/
theorem fits_perform (h : w.Sound) (found : w.tables.find number = some placed)
    {asking : Table.Request K V} (asked : w.asks number request = some asking) :
    let turn : Turn K V := ⟨placed.table, w.reclaimer placed.reclaimer, asking, w.perform request⟩
    turn.Fits placed.listener ∧ (w.perform request).world.nextTable = w.nextTable ∧
      (w.perform request).world.tables.find number =
        some { placed with table := turn.step.state } := by
  cases request with
  | table name asking' =>
    obtain ⟨hname, rfl⟩ : w.tableNames.find name = some number ∧ asking' = asking := by
      simpa [asks] using asked
    rw [perform_table hname]
    exact fits_overTable h found _ rfl rfl rfl
  | randomWalk name newName =>
    obtain ⟨hname, rfl⟩ : w.tableNames.find name = some number ∧ .randomEntries = asking := by
      simpa [asks] using asked
    exact fits_beginRandomWalk h newName hname found
  | onWalk walk asking' =>
    cases asking' with
    | remove =>
      -- The walk removes the key that it came to last, as if it were asked to under a name.
      obtain ⟨walked, hwalk, hremove⟩ := Option.bind_eq_some_iff.mp asked
      obtain ⟨rfl, key, hlast, rfl⟩ :
          walked.table = number ∧ ∃ key, walked.walk.last = some key ∧ .removeKey key = asking := by
        simpa using hremove
      rw [World.perform, overWalk, hwalk]
      exact fits_overTable h found (fun t r => (walked.walk.remove t r).1.map .flag)
        (by rw [Walk.remove, hlast]; rfl) rfl rfl
    | next | rest | remaining | literal => cases asked
  | _ => cases asked

/-! ## All requests -/

/-- The turns of a table lead from what it was to what it is, as long as it is in the world. -/
theorem follows_run (h : w.Sound) (old : number < w.nextTable) {requests : List (Request K V)}
    (found' : (w.run requests).tables.find number = some placed') :
    ∃ placed, w.tables.find number = some placed ∧ placed'.listener = placed.listener ∧
      Follows placed.listener placed.table (w.turns number requests) placed'.table := by
  -- By induction on the requests, each of which is a turn or leaves the table as it is.
  induction requests generalizing w with
  | nil => exact ⟨placed', found', rfl, .still _⟩
  | cons request rest ih =>
    by_cases hasked : w.tables.find number = none ∨ w.asks number request = none
    · have hleaves := leaves_perform old hasked
      obtain ⟨placed, found, hlistener, hfollows⟩ :=
        ih (h.perform request) (old.trans_le hleaves.next_le) found'
      have hturn : w.turn? number request = none := by
        rcases hasked with hnone | hnone <;> simp [turn?, hnone]
      refine ⟨placed, hleaves.find placed found, hlistener, ?_⟩
      rw [turns, hturn]
      exact hfollows
    · obtain ⟨⟨placed, found⟩, ⟨asking, hasking⟩⟩ :
          (∃ placed, w.tables.find number = some placed) ∧
            ∃ asking, w.asks number request = some asking := by
        rw [not_or, ← ne_eq, ← ne_eq, Option.ne_none_iff_exists', Option.ne_none_iff_exists']
          at hasked
        exact hasked
      obtain ⟨hfits, hnext, hfound⟩ := fits_perform h found hasking
      obtain ⟨placed₁, found₁, hlistener, hfollows⟩ :=
        ih (h.perform request) (old.trans_eq hnext.symm) found'
      cases hfound.symm.trans found₁
      refine ⟨placed, found, hlistener, ?_⟩
      rw [turns, turn?, found, hasking]
      exact .turn hfits hfollows

/-! ## Tables that are brought in -/

variable {name : String}

/-- Whether a request is to bring a table in under a name: a new one, or a copy. -/
def Request.bringsTable (name : String) : Request K V → Prop
  | .newTable other _ => other = name
  | .copy _ other => other = name
  | _ => False

/-- A table that is brought in has its name, and is a new one or the copy of another. -/
theorem cases_of_bringsTable (brings : request.bringsTable name)
    (made : (w.perform request).reply = .done) :
    ∃ number placed, (w.perform request).world.tableNames.find name = some number ∧
      (w.perform request).world.tables.find number = some placed ∧
      ((∃ making epoch, request = .newTable name making ∧
          Table.create w.shared making.options epoch = .ok placed.table) ∨
        ∃ original number₀ placed₀, request = .copy original name ∧
          w.tables.find number₀ = some placed₀ ∧
          placed.table = (placed₀.table.copy (w.reclaimer placed₀.reclaimer)).result) := by
  cases request with
  | newTable other making =>
    obtain rfl : other = name := brings
    obtain ⟨-, ⟨-, hreply⟩ | ⟨provided, index, table, -, hmade, heq⟩⟩ :=
      w.make_cases making (Table.create w.shared) fun w index table =>
        w.addTable other ⟨table, index, if making.listened then some other else none⟩
    · exact absurd made hreply
    · obtain ⟨hname, hfound⟩ := provided.found_addTable other
        ⟨table, index, if making.listened then some other else none⟩
      rw [World.perform, makeTable, heq]
      exact ⟨_, _, hname, hfound, .inl ⟨making, _, rfl, hmade⟩⟩
  | copy original other =>
    obtain rfl : other = name := brings
    rw [World.perform, copyTable] at made ⊢
    split at made
    · cases made
    · next placed found =>
      obtain ⟨number₀, -, hfound₀⟩ := Option.bind_eq_some_iff.mp found
      obtain ⟨hname, hfound⟩ := found_addTable
        (w.setReclaimer placed.reclaimer
          (placed.table.copy (w.reclaimer placed.reclaimer)).reclaimer) other
        { placed with table := (placed.table.copy (w.reclaimer placed.reclaimer)).result }
      exact ⟨_, _, hname, hfound, .inr ⟨original, number₀, placed, rfl, hfound₀, rfl⟩⟩
  | _ => cases brings

/-- A table that is brought in has its name and counts from zero, and a new one is as it was
created. -/
theorem exists_of_bringsTable (brings : request.bringsTable name)
    (made : (w.perform request).reply = .done) :
    ∃ number placed, (w.perform request).world.tableNames.find name = some number ∧
      (w.perform request).world.tables.find number = some placed ∧ placed.table.metrics = {} ∧
      ∀ making, request = .newTable name making →
        ∃ epoch, Table.create w.shared making.options epoch = .ok placed.table := by
  obtain ⟨number, placed, hname, hfound, ⟨making, epoch, rfl, hmade⟩ |
    ⟨original, number₀, placed₀, rfl, -, hcopy⟩⟩ := cases_of_bringsTable brings made
  · obtain ⟨loadFactor, cursor, hempty⟩ := Table.create_eq hmade
    refine ⟨number, placed, hname, hfound, ?_, ?_⟩
    · rw [hempty]
      rfl
    · rintro making' heq
      cases heq
      exact ⟨epoch, hmade⟩
  · refine ⟨number, placed, hname, hfound, ?_, fun making heq => ?_⟩
    · rw [hcopy]
      rfl
    · cases heq

end SoftCache.World
