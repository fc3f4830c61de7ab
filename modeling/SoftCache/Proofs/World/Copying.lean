import SoftCache.Proofs.World.Using

/-!
# Copies in the world

A copy of a lively table behaves like its original (`World.Reachable.copy_doubles`): whatever is
done with the one or with the other, the answers and the notices are the same, the two tables look
the same afterwards, and their counters have grown by the same. Meanwhile the other one is left as
it is.
-/

namespace SoftCache.World

variable {K V : Type} {base : Table.Metrics} {own : String → Prop} {w w' : World K V}
  {name name' : String} {number number' : Nat} {placed placed' : PlacedTable K V}

/-! ## What is the same -/

/-- What comes of a request, but for what had been counted before. -/
structure Outcome.Matches (base : Table.Metrics) (outcome outcome' : Outcome K V) : Prop where
  /-- The same is answered. -/
  reply : outcome.reply = outcome'.reply.plus base
  /-- The same is announced. -/
  notices : outcome.notices = outcome'.notices

/-- What two tables in two worlds have in common. -/
structure PlacedTable.Resembles (base : Table.Metrics) (placed : PlacedTable K V) (w : World K V)
    (placed' : PlacedTable K V) (w' : World K V) : Prop where
  /-- They have the same entries, in the same order. -/
  entries : placed.table.entries (w.reclaimer placed.reclaimer) =
    placed'.table.entries (w'.reclaimer placed'.reclaimer)
  /-- They have as many slots. -/
  count : placed.table.count = placed'.table.count
  /-- They have as many buckets. -/
  capacity : placed.table.capacity = placed'.table.capacity
  /-- Their cursors are at the same place. -/
  cursor : placed.table.cursor = placed'.table.cursor
  /-- They have the same bound. -/
  bound : placed.table.bound = placed'.table.bound
  /-- Their counters have grown by the same. -/
  metrics : placed.table.metrics = base.plus placed'.table.metrics

/-- The table of a number is as it was, and has the same entries. -/
def Untouched (w w' : World K V) (number : Nat) : Prop :=
  ∃ placed, w.tables.find number = some placed ∧ w'.tables.find number = some placed ∧
    placed.table.entries (w'.reclaimer placed.reclaimer) =
      placed.table.entries (w.reclaimer placed.reclaimer)

/-! ## Twins in two worlds -/

variable [Hashed K]

/-- Twins in two worlds, and the walks over them. -/
structure Paired (base : Table.Metrics) (own : String → Prop) (w : World K V) (name : String)
    (number : Nat) (placed : PlacedTable K V) (w' : World K V) (name' : String) (number' : Nat)
    (placed' : PlacedTable K V) : Prop where
  /-- The first table is in its world. -/
  first : w.Hosts own name number placed
  /-- The second table is in its world. -/
  second : w'.Hosts own name' number' placed'
  /-- The tables are alike. -/
  alike : placed.table.Alike base placed'.table
  /-- The same listener hears of both. -/
  listener : placed.listener = placed'.listener
  /-- The walks over them are the same. -/
  walkOf : ∀ walk, own walk → w.walkOf walk = w'.walkOf walk

namespace Paired

/-- A copy and its original that are paired are twins. -/
theorem twins (h : Paired base own w name number placed w' name' number' placed') :
    Table.Twins base placed.table (w.reclaimer placed.reclaimer) placed'.table
      (w'.reclaimer placed'.reclaimer) :=
  ⟨h.alike, h.first.lively, h.second.lively⟩

/-- A copy and its original that are paired resemble one another. -/
theorem resembles (h : Paired base own w name number placed w' name' number' placed') :
    placed.Resembles base w placed' w' where
  entries := h.twins.entries
  count := h.alike.count
  capacity := h.twins.capacity
  cursor := h.alike.cursor
  bound := h.alike.bound
  metrics := h.alike.metrics

variable [DecidableEq K] [Ordered K] [Literal K] [DecidableEq V] [Literal V]

/-- Twins are used alike, and are twins afterwards. -/
theorem perform (h : Paired base own w name number placed w' name' number' placed') {use : Use K V}
    (asks : use.Asks own) :
    (w.perform (use.request name)).Matches base (w'.perform (use.request name')) ∧
      ∃ t t', Paired base own
        (w.perform (use.request name)).world name number { placed with table := t }
        (w'.perform (use.request name')).world name' number' { placed' with table := t' } := by
  have hwalk : w.walkFor use = w'.walkFor use := by
    cases use with
    | goOn walk asking => exact h.walkOf walk asks
    | ask | start | startAtRandom => rfl
  have hfirst := h.first.enacts use asks
  have hsecond := h.second.enacts use asks
  have hsound := (h.first.sound.tables _ (Directory.mem_of_find h.first.found)).table
  have hsound' := (h.second.sound.tables _ (Directory.mem_of_find h.second.found)).table
  have hagrees := use.agrees_step h.twins hsound hsound' (w.walkFor use)
  rw [← hwalk] at hsecond
  have hresult : (use.step placed.table (w.reclaimer placed.reclaimer) (w.walkFor use)).result =
      Reply.plusBeside base (use.step placed'.table (w'.reclaimer placed'.reclaimer)
        (w.walkFor use)).result := hagrees.result
  refine ⟨⟨?_, ?_⟩, _, _, hfirst.hosts, hsecond.hosts, hagrees.twins.toAlike, h.listener,
    fun walk howned => ?_⟩
  · rw [hfirst.reply, hsecond.reply, hresult]
    rfl
  · have hnotices : (use.step placed.table (w.reclaimer placed.reclaimer) (w.walkFor use)).notices =
        (use.step placed'.table (w'.reclaimer placed'.reclaimer) (w.walkFor use)).notices :=
      hagrees.notices
    rw [hfirst.notices, hsecond.notices, h.listener, hnotices]
  · rw [hfirst.walkOf walk howned, hsecond.walkOf walk howned, hresult, h.walkOf walk howned]
    rfl

/-- Twins are used alike in a whole run. -/
theorem run (h : Paired base own w name number placed w' name' number' placed')
    {uses : List (Use K V)} (asks : ∀ use ∈ uses, use.Asks own) :
    List.Forall₂ (Outcome.Matches base) (w.outcomes (uses.map (·.request name)))
        (w'.outcomes (uses.map (·.request name'))) ∧
      ∃ t t', Paired base own
        (w.run (uses.map (·.request name))) name number { placed with table := t }
        (w'.run (uses.map (·.request name'))) name' number' { placed' with table := t' } := by
  induction uses generalizing w w' placed placed' with
  | nil => exact ⟨.nil, placed.table, placed'.table, h⟩
  | cons use rest ih =>
    obtain ⟨hmatches, t, t', hpaired⟩ := h.perform (asks use List.mem_cons_self)
    obtain ⟨hrest, hend⟩ := ih hpaired fun use huse => asks use (List.mem_cons_of_mem _ huse)
    exact ⟨.cons hmatches hrest, hend⟩

end Paired

variable [DecidableEq K] [Ordered K] [Literal K] [DecidableEq V] [Literal V]

/-- A run of uses of one table leaves another as it is. -/
theorem Hosts.untouched_run (h : w.Hosts own name number placed) (named : w.Named)
    (hne : name ≠ name') (h' : w.Hosts (fun _ => False) name' number' placed')
    {uses : List (Use K V)} (asks : ∀ use ∈ uses, use.Asks own) :
    w.Untouched (w.run (uses.map (·.request name))) number' := by
  suffices hhosts :
      (w.run (uses.map (·.request name))).Hosts (fun _ => False) name' number' placed' by
    refine ⟨placed', h'.found, hhosts.found, ?_⟩
    rw [h'.lively.entries, hhosts.lively.entries]
  induction uses generalizing w placed with
  | nil => exact h'
  | cons use rest ih =>
    have huse := asks use List.mem_cons_self
    exact ih (h.enacts use huse).hosts (named.perform _) (h.aside named hne h' huse)
      fun use hrest => asks use (List.mem_cons_of_mem _ hrest)

/-! ## Copies -/

omit [Hashed K] [DecidableEq K] [Ordered K] [Literal K] [DecidableEq V] [Literal V] in
/-- A table that is brought in changes no walk. -/
theorem walks_addTable (w : World K V) (name : String) (placed : PlacedTable K V) :
    (w.addTable name placed).walks = w.walks := by
  obtain ⟨collected, -, hcollect⟩ := (w.enterTable name placed).collect_eq
  obtain ⟨removed, -, hremove⟩ := (w.enterTable name placed).collect.removeCache_eq name
  rw [addTable_eq, hremove, hcollect]
  rfl

/-- A lively table and its copy are twins in the world in which the copy has been made. -/
theorem Hosts.paired_copy (h : w.Hosts own name number placed) {newName : String}
    (hne : newName ≠ name) (fresh : ∀ walk, own walk → w.walks.find walk = none) :
    let copied := (w.perform (.copy name newName)).world
    let copy := { placed with table := (placed.table.copy (w.reclaimer placed.reclaimer)).result }
    Paired placed.table.metrics own copied name number placed copied newName w.nextTable copy := by
  intro copied copy
  have hindex := (h.sound.tables _ (Directory.mem_of_find h.found)).index
  have hpass : ∀ asked passing, (.copy name newName : Request K V) ≠ .reclaimer asked passing :=
    fun _ _ heq => by cases heq
  have hsound : copied.Sound := h.sound.perform _
  have hcopied : copied = (w.setReclaimer placed.reclaimer
      (placed.table.copy (w.reclaimer placed.reclaimer)).reclaimer).addTable newName copy := by
    show (w.copyTable name newName).world = _
    rw [copyTable, h.named, Option.bind_some, h.found]
  have hwalks : copied.walks = w.walks := by
    rw [hcopied, walks_addTable]
    rfl
  have hfresh : ∀ {number walk}, own walk → ∀ walked, copied.walks.find walk = some walked →
      walked.table = number := by
    intro number walk howned walked hwalked
    rw [hwalks, fresh walk howned] at hwalked
    cases hwalked
  obtain ⟨hnamed, hfound⟩ := (keeps_addTable (w := w.setReclaimer placed.reclaimer
    (placed.table.copy (w.reclaimer placed.reclaimer)).reclaimer) h.sound.fresh hne copy).table
      number placed h.named h.found
  obtain ⟨hnamed', hfound'⟩ := found_addTable (w.setReclaimer placed.reclaimer
    (placed.table.copy (w.reclaimer placed.reclaimer)).reclaimer) newName copy
  rw [← hcopied] at hnamed hfound hnamed' hfound'
  -- No epoch has begun since the copy was made, and nothing of it was lost at first.
  have hand := (h.sound.advances _ hpass).hands.handover placed.reclaimer hindex
  have hmade := Table.handover_copy h.lively.issued placed.table
  have hepoch : copy.table.sweptEpoch = (copied.reclaimer placed.reclaimer).epoch :=
    (hmade.quiet (.inl h.lively.budget)).trans (hand.quiet (.inl h.lively.budget)).symm
  have hswept := (hsound.tables _ (Directory.mem_of_find hfound')).swept
  have hlively : copy.table.Lively (copied.reclaimer copy.reclaimer) := by
    refine ⟨hsound.issued_table hfound', hand.precedes.budget.trans h.lively.budget, fun s hs => ?_⟩
    exact Slot.isStale_eq_false_iff_live.mpr fun payload hp =>
      hswept.live hepoch payload (Table.mem_payloads hs hp)
  have htwins := h.lively.twins_copy (h.sound.tables _ (Directory.mem_of_find h.found)).table
  refine ⟨⟨hsound, hnamed, hfound, ?_, fun _ => hfresh⟩,
    ⟨hsound, hnamed', hfound', hlively, fun _ => hfresh⟩, htwins.toAlike, rfl, fun _ _ => rfl⟩
  exact h.sound.lively_perform hpass h.found h.lively hfound rfl rfl

/-- What comes of doing the same with a table or with its copy, once it has been made. -/
structure Doubles (base : Table.Metrics) (w : World K V) (name : String) (number : Nat)
    (newName : String) (number' : Nat) (uses : List (Use K V)) : Prop where
  /-- The same is answered and announced at each step. -/
  outcomes : List.Forall₂ (Outcome.Matches base) (w.outcomes (uses.map (·.request name)))
    (w.outcomes (uses.map (·.request newName)))
  /-- The tables look the same afterwards. -/
  resembles : ∃ placed placed',
    (w.run (uses.map (·.request name))).tables.find number = some placed ∧
      (w.run (uses.map (·.request newName))).tables.find number' = some placed' ∧
      placed.Resembles base (w.run (uses.map (·.request name)))
        placed' (w.run (uses.map (·.request newName)))
  /-- What is done with the table is nothing to its copy. -/
  copy : w.Untouched (w.run (uses.map (·.request name))) number'
  /-- What is done with the copy is nothing to the table. -/
  original : w.Untouched (w.run (uses.map (·.request newName))) number

/-- A copy of a table in which nothing is stale, under a reclaimer without a budget, behaves like
its original, and neither has to do with the other. -/
theorem Reachable.copy_doubles (h : w.Reachable) (named : w.tableNames.find name = some number)
    (found : w.tables.find number = some placed)
    (budget : (w.reclaimer placed.reclaimer).budget = none)
    (live : ∀ s ∈ placed.table.buckets.slots, s.isStale (w.reclaimer placed.reclaimer) = false)
    {newName : String} (hne : newName ≠ name) :
    let copied := (w.perform (.copy name newName)).world
    ∃ number' placed', copied.tableNames.find newName = some number' ∧
      copied.tables.find number' = some placed' ∧ placed'.table.metrics = {} ∧
      copied.tableNames.find name = some number ∧ copied.tables.find number = some placed ∧
      ∀ uses : List (Use K V),
        (∀ walk asking, .goOn walk asking ∈ uses → w.walks.find walk = none) →
        Doubles placed.table.metrics copied name number newName number' uses := by
  intro copied
  have hhosts : w.Hosts (fun walk => w.walks.find walk = none) name number placed :=
    ⟨h.sound, named, found, ⟨h.sound.issued_table found, budget, live⟩,
      fun walk hnone walked hwalked => nomatch hnone.symm.trans hwalked⟩
  have hpaired := hhosts.paired_copy hne fun _ hnone => hnone
  refine ⟨w.nextTable, _, hpaired.second.named, hpaired.second.found, rfl, hpaired.first.named,
    hpaired.first.found, fun uses fresh => ?_⟩
  -- The walks that are asked for something begin after the copy has been made.
  have hasks : ∀ use ∈ uses, use.Asks fun walk => w.walks.find walk = none := by
    intro use huse
    cases use with
    | goOn walk asking => exact fresh walk asking huse
    | ask | start | startAtRandom => trivial
  obtain ⟨houtcomes, t, t', hend⟩ := hpaired.run hasks
  have hnamed := (h.perform (.copy name newName)).named
  exact ⟨houtcomes, ⟨_, _, hend.first.found, hend.second.found, hend.resembles⟩,
    hpaired.first.untouched_run hnamed hne.symm hpaired.second.walkless hasks,
    hpaired.second.untouched_run hnamed hne hpaired.first.walkless hasks⟩

/-- A world with a table that holds its values reclaimably and has evicted an entry. -/
def doubled : World Clustered String :=
  run {}
    [.newTable "t"
        { options :=
            { valueStrength := .reclaimable, capacity := 2, bound := some 4, order := .recency }
          listened := true },
      .table "t" (.putAll (some [(⟨1⟩, "a"), (⟨5⟩, "b"), (⟨2⟩, "c"), (⟨6⟩, "d"), (⟨3⟩, "e")])),
      .table "t" (.get (some ⟨5⟩))]

/-- Uses under which entries are read, removed by a walk, put, evicted and cleared. -/
def doubledUses : List (Use Clustered String) :=
  [.ask (.get (some ⟨5⟩)), .start .entries "i", .goOn "i" .next, .goOn "i" .remove,
    .startAtRandom "j", .goOn "j" .rest, .ask (.put (some ⟨9⟩) (some "f")),
    .ask (.put (some ⟨13⟩) (some "g")), .ask (.setBound (some 3)), .ask .removeRandom,
    .ask .position, .ask .metrics, .ask .clear, .ask .length]

/-- The copy is used as the table is, and counts for itself. -/
theorem doubles_doubledUses :
    let copied := (doubled.perform (.copy "t" "u")).world
    (copied.outcomes (doubledUses.map (·.request "u"))).map (·.reply) =
        [.value (some "b"), .count 4, .items [.entry (some ⟨1⟩, some "a")], .flag true, .count 3,
          .items [.entry (some ⟨5⟩, some "b"), .entry (some ⟨2⟩, some "c"),
            .entry (some ⟨6⟩, some "d")],
          .value none, .value none, .items [.entry (some ⟨5⟩, some "b")],
          .item (some (.entry (some ⟨9⟩, some "f"))), .number 5,
          .tableMetrics { hits := 1, inserts := 2, removes := 1, evictions := 3 }, .nothing,
          .count 0] ∧
      ∃ number' base, copied.tableNames.find "u" = some number' ∧
        base = { hits := 1, inserts := 5, evictions := 1, resizes := 2 } ∧
        Doubles base copied "t" 0 "u" number' doubledUses := by
  intro copied
  have hreachable : doubled.Reachable := ⟨_, _, rfl⟩
  obtain ⟨placed, found⟩ : ∃ placed, doubled.tables.find 0 = some placed :=
    Option.isSome_iff_exists.mp (by decide +kernel)
  have hbudget : ∀ placed ∈ doubled.tables.find 0,
      (doubled.reclaimer placed.reclaimer).budget = none := by decide +kernel
  have hlive : ∀ placed ∈ doubled.tables.find 0, ∀ s ∈ placed.table.buckets.slots,
      s.isStale (doubled.reclaimer placed.reclaimer) = false := by decide +kernel
  have hmetrics : ∀ placed ∈ doubled.tables.find 0,
      placed.table.metrics = { hits := 1, inserts := 5, evictions := 1, resizes := 2 } := by
    decide +kernel
  have hwalks : doubled.walks = [] := by decide +kernel
  obtain ⟨number', -, hnamed', -, -, -, -, hdoubles⟩ := hreachable.copy_doubles (by decide +kernel)
    found (hbudget placed found) (hlive placed found) (show "u" ≠ "t" by decide)
  refine ⟨by decide +kernel, number', _, hnamed', hmetrics placed found,
    hdoubles doubledUses fun walk asking _ => ?_⟩
  rw [hwalks]
  rfl

end SoftCache.World
