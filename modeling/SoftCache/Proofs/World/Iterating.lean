import SoftCache.Proofs.World.Walking

/-!
# Walks go over what was live

A walk goes over the entries that were live when it began, in their order, whatever is done with
the table or by the reclaimer meanwhile (`World.Reachable.iterates`). Where it is and whether it has
an entry to remove is known to somebody who reads its answers (`World.sight`). A walk with which
nothing interferes can remove all the entries, one after the other.
-/

open scoped List

namespace SoftCache.World

variable {K V : Type} [DecidableEq K] [Hashed K] [Ordered K] [Literal K] [DecidableEq V] [Literal V]
  {w : World K V} {request : Request K V} {walk : String} {number : Nat} {view : View}
  {entries shown remaining : List (Entry K V)} {due : Bool}

/-! ## Many requests -/

/-- What is known of the walk of the name when requests have been answered one after the other. -/
def sight (w : World K V) (walk : String) (seen : Sight K V) : List (Request K V) → Sight K V
  | [] => seen
  | request :: rest =>
    (w.perform request).world.sight walk (seen.read walk request (w.perform request).reply) rest

/-- Whatever is done, what has been shown and what remains is all that there was. -/
theorem Going.run (going : w.Going walk number view shown remaining due) (sound : w.Sound)
    {requests : List (Request K V)} (spared : ∀ request ∈ requests, ¬request.beginsWalk walk) :
    let sight := w.sight walk ⟨shown.map view.item, due⟩ requests
    ∃ shown' remaining', shown' ++ remaining' = shown ++ remaining ∧
      sight.items = shown'.map view.item ∧
      (w.run requests).Going walk number view shown' remaining' sight.due := by
  -- By induction on the requests, each of which leaves the walk where it is known to be.
  induction requests generalizing w shown remaining due with
  | nil => exact ⟨shown, remaining, rfl, rfl, going⟩
  | cons request rest ih =>
    obtain ⟨shown₁, remaining₁, hall₁, hitems₁, going₁⟩ :=
      going.read sound (spared request List.mem_cons_self)
    obtain ⟨shown₂, remaining₂, hall₂, going₂⟩ := ih going₁ (sound.perform request)
      fun later hlater => spared later (List.mem_cons_of_mem _ hlater)
    rw [← hitems₁] at going₂
    exact ⟨shown₂, remaining₂, hall₂.trans hall₁, going₂⟩

/-- Requests to a walk for so many items, each of which is to be removed. -/
def clearing (walk : String) : Nat → List (Request K V)
  | 0 => []
  | n + 1 => .onWalk walk .next :: .onWalk walk .remove :: clearing walk n

/-- A walk shows the next entry and removes it, if that is live, and no other. -/
theorem Going.takes {entry : Entry K V} {rest : List (Entry K V)}
    (going : w.Going walk number view shown (entry :: rest) due) (h : w.Reachable)
    (there : entry ∈ w.live number) :
    let begun := (w.perform (.onWalk walk .next)).world
    let left := (begun.perform (.onWalk walk .remove)).world
    (w.perform (.onWalk walk .next)).reply = .items [view.item entry] ∧
      (begun.perform (.onWalk walk .remove)).reply = .flag true ∧
      left.live number = (w.live number).filter (fun other => other.1 ≠ entry.1) ∧
      left.Going walk number view (shown ++ [entry]) rest false := by
  intro begun left
  have hwalks := going.walks h
  have hnext : (w.perform (.onWalk walk .next)).reply = .items [view.item entry] := hwalks.next
  have hunmoved : begun.live number = w.live number := hwalks.reads .next (by simp)
  have hbegun : begun.Reachable := h.perform _
  have going₁ : begun.Going walk number view (shown ++ [entry]) rest true := by
    have hasked := (going.ask h.sound .next).2
    rwa [hnext, show (Sight.hear ⟨shown.map view.item, due⟩ .next
      (.items [view.item entry])).due = true from Bool.or_true due] at hasked
  obtain ⟨last, hlast, hremove, hlive⟩ := (going₁.walks hbegun).removes rfl
  obtain rfl : entry = last := by simpa using hlast
  rw [hunmoved] at hremove hlive
  have hthere : (w.live number).any (fun other => other.1 = entry.1) = true :=
    List.any_eq_true.mpr ⟨entry, there, by simp⟩
  rw [hthere] at hremove
  have going₂ := (going₁.ask hbegun.sound .remove).2
  have hshown : shown ++ [entry] ++ rest.take (reach rest .remove) = shown ++ [entry] :=
    List.append_nil _
  rw [hshown] at going₂
  exact ⟨hnext, hremove, hlive, going₂⟩

/-- A walk that has all live entries before it and nothing else removes them one after the other. -/
theorem Going.clears (going : w.Going walk number view shown remaining due) (h : w.Reachable)
    (same : w.live number ~ remaining) :
    let requests := clearing walk remaining.length
    (w.outcomes requests).map (·.reply) =
        remaining.flatMap (fun entry => [.items [view.item entry], .flag true]) ∧
      (w.run requests).live number = [] ∧
      ∃ due', (w.run requests).Going walk number view (shown ++ remaining) [] due' := by
  -- By induction on what remains, which is all that is live each time an entry has been removed.
  induction remaining generalizing w shown due with
  | nil =>
    rw [List.append_nil]
    exact ⟨rfl, same.eq_nil, due, going⟩
  | cons entry rest ih =>
    obtain ⟨hnext, hremove, hlive, hgoing⟩ :=
      going.takes h (same.mem_iff.mpr List.mem_cons_self)
    -- No other entry has the key.
    have hothers : ∀ other ∈ rest, other.1 ≠ entry.1 := by
      have hkeys := (same.map Prod.fst).nodup_iff.mp (h.sound.nodup_live number)
      rw [List.map_cons, List.nodup_cons] at hkeys
      exact fun other hother heq => hkeys.1 (heq ▸ List.mem_map_of_mem hother)
    have hleft : ((w.perform (.onWalk walk .next)).world.perform
        (.onWalk walk .remove)).world.live number ~ rest := by
      rw [hlive]
      refine (same.filter _).trans (.of_eq ?_)
      rw [List.filter_cons_of_neg (by simp), List.filter_eq_self.mpr]
      exact fun other hother => by simpa using hothers other hother
    obtain ⟨hreplies, hnone, due', hended⟩ := ih hgoing ((h.perform _).perform _) hleft
    rw [List.append_assoc] at hended
    refine ⟨?_, hnone, due', hended⟩
    rw [List.flatMap_cons, ← hreplies, ← hnext, ← hremove]
    rfl

/-! ## From the beginning -/

/-- A request that begins a walk over the table of a number, what the walk is to show, and the
entries that it is to go over: the live ones in the order of the table, or turned round to the
bucket that the cursor points at. -/
inductive Begins (w : World K V) (walk : String) (number : Nat) :
    Request K V → View → List (Entry K V) → Prop
  /-- A walk over a view of the table. -/
  | inOrder {name : String} {view : View} {placed : PlacedTable K V} :
    w.tableNames.find name = some number → w.tables.find number = some placed →
    Begins w walk number (.walk name view walk) view (w.live number)
  /-- A walk from where the cursor points. -/
  | turned {name : String} {placed : PlacedTable K V} :
    w.tableNames.find name = some number → w.tables.find number = some placed →
    Begins w walk number (.randomWalk name walk) .entries ((w.live number).rotate
      (placed.table.entriesBelow (w.reclaimer placed.reclaimer)
        (placed.table.cursor.target placed.table.capacity)).length)

/-- What it means that a request has begun a walk over entries of the table of a number. -/
structure Begun (w : World K V) (request : Request K V) (walk : String) (number : Nat) (view : View)
    (entries : List (Entry K V)) : Prop where
  /-- The answer is how many entries there are. -/
  count : (w.perform request).reply = .count entries.length
  /-- Nothing in the table is lost. -/
  kept : (w.perform request).world.live number = w.live number
  /-- Nothing has been shown yet. -/
  going : (w.perform request).world.Going walk number view [] entries false

/-- A walk is brought into the world. The cursor may have moved before. -/
theorem Sound.begun (h : w.Sound) {moved : World K V} {name : String} {placed : PlacedTable K V}
    {t : Table K V} (hpass : ∀ name passing, request ≠ .reclaimer name passing)
    (hnone : request.registers = false)
    (performs : w.perform request = moved.addWalk walk number view entries)
    (named : moved.tableNames.find name = some number) (found : w.tables.find number = some placed)
    (found' : moved.tables.find number = some { placed with table := t })
    (buckets : t.buckets = placed.table.buckets) : w.Begun request walk number view entries where
  count := congrArg Outcome.reply performs
  kept := by
    have hkept := (keeps_addWalk moved name walk number view entries).table number _ named found'
    rw [← performs] at hkept
    exact h.live_perform_of_buckets hpass hnone found hkept.2 rfl buckets
  going := by
    have hwalked : (moved.walks.set walk ⟨.start view entries, number⟩).find walk =
        some ⟨paused view [] entries false, number⟩ := (Directory.find_set ..).trans (if_pos rfl)
    obtain ⟨hkept, hthere⟩ := keepsWalk_collect
      { moved with walks := moved.walks.set walk ⟨.start view entries, number⟩ } walk _ hwalked
      (Option.isSome_iff_exists.mpr ⟨_, found'⟩)
    rw [performs]
    exact ⟨hkept, hthere, fun heq => absurd heq Bool.false_ne_true⟩

omit [DecidableEq K] [Hashed K] [Ordered K] [Literal K] [DecidableEq V] [Literal V] in
/-- The entries that a walk is to go over are those that are live. -/
theorem Begins.perm (begins : w.Begins walk number request view entries) :
    entries ~ w.live number := by
  cases begins with
  | inOrder => exact .rfl
  | turned => exact List.rotate_perm _ _

/-- A request that begins a walk has begun it when it is answered. -/
theorem Begins.begun (begins : w.Begins walk number request view entries) (h : w.Sound) :
    w.Begun request walk number view entries := by
  cases begins with
  | @inOrder name view placed named found =>
    have hperform : w.perform (.walk name view walk) =
        w.addWalk walk number view (w.live number) := by
      rw [World.perform, beginWalk, named, live_eq found]
      dsimp only
      rw [found]
    exact h.begun (fun _ _ heq => by cases heq) rfl hperform named found found rfl
  | @turned name placed named found =>
    set r := w.reclaimer placed.reclaimer
    set drawn := placed.table.randomEntries r
    have hturns : placed.table.Turns r drawn :=
      Table.turns_randomEntries (h.tables _ (Directory.mem_of_find found)).table.capacity_pos
    set moved : World K V :=
      { w with tables := w.tables.modify number { placed with table := drawn.state } }
    have hmoved : moved.tables.find number = some { placed with table := drawn.state } := by
      refine (Directory.find_modify ..).trans ?_
      rw [if_pos rfl, found]
      rfl
    have hperform : w.perform (.randomWalk name walk) =
        moved.addWalk walk number .entries drawn.result := by
      rw [World.perform, beginRandomWalk, named]
      dsimp only
      rw [found]
    rw [live_eq found, ← hturns.turned]
    exact h.begun (fun _ _ heq => by cases heq) rfl hperform named found hmoved rfl

/-- A walk has begun that goes over entries of the table of a number, whatever is done meanwhile. -/
structure Iterates (w : World K V) (request : Request K V) (walk : String) (number : Nat)
    (view : View) (entries : List (Entry K V)) : Prop where
  /-- The answer is how many entries there are. -/
  count : (w.perform request).reply = .count entries.length
  /-- They are those that are live. -/
  all : entries ~ w.live number
  /-- None of these is lost when the walk begins. -/
  kept : (w.perform request).world.live number = w.live number
  /-- Whatever is done as long as no other walk begins under the name, the walk shows the entries
  one after the other, and removes just what it has shown last. -/
  goes : ∀ requests, (∀ later ∈ requests, ¬later.beginsWalk walk) →
    let begun := (w.perform request).world
    let sight := begun.sight walk {} requests
    ∃ shown remaining, shown ++ remaining = entries ∧ sight.items = shown.map view.item ∧
      (begun.run requests).Walks walk number view shown remaining sight.due
  /-- If nothing else is done, it can remove all entries, one after the other, until there is none
  to be shown and none live. -/
  clears :
    let begun := (w.perform request).world
    let requests := clearing walk entries.length
    (begun.outcomes requests).map (·.reply) =
        entries.flatMap (fun entry => [.items [view.item entry], .flag true]) ∧
      (begun.run requests).live number = [] ∧
      ((begun.run requests).perform (.onWalk walk .next)).reply = .items []

/-- Requests lead from a reachable world to a reachable one. -/
theorem Reachable.run (h : w.Reachable) (requests : List (Request K V)) :
    (w.run requests).Reachable := by
  obtain ⟨shared, first, rfl⟩ := h
  exact ⟨shared, first ++ requests, run_append ..⟩

/-- A walk that begins in a reachable world goes over the entries that are live then. -/
theorem Reachable.iterates (h : w.Reachable)
    (begins : w.Begins walk number request view entries) :
    w.Iterates request walk number view entries := by
  have hbegins := begins.begun h.sound
  have hbegun := h.perform request
  constructor
  case count => exact hbegins.count
  case all => exact begins.perm
  case kept => exact hbegins.kept
  case goes =>
    intro requests spared begun sight
    obtain ⟨shown, remaining, hsplit, hitems, hgoes⟩ :=
      hbegins.going.run hbegun.sound spared
    exact ⟨shown, remaining, hsplit, hitems, hgoes.walks (hbegun.run requests)⟩
  case clears =>
    obtain ⟨hreplies, hnone, due, hended⟩ :=
      hbegins.going.clears hbegun (hbegins.kept ▸ begins.perm.symm)
    exact ⟨hreplies, hnone, (hended.walks (hbegun.run _)).next⟩

/-- A world with a table that has a null key and holds its values reclaimably. -/
def roamed : World UInt64 String :=
  run {}
    [.newReclaimer "r" none,
      .newTable "t"
        { options := { capacity := 2, valueStrength := .reclaimable }, reclaimer := some "r" },
      .table "t" (.put (some 1) (some "a")), .table "t" (.put none (some "b")),
      .table "t" (.put (some 2) (some "c"))]

/-- Requests to a walk over that table, which meanwhile has to grow, loses its name and then a
value. -/
def roaming : List (Request UInt64 String) :=
  [.onWalk "w" .next, .table "t" (.put (some 3) (some "d")), .onWalk "w" .remove,
    .onWalk "w" .remove, .onWalk "w" .next, .drop "t", .reclaimer "r" (.clear 1),
    .onWalk "w" .remove, .onWalk "w" .next, .onWalk "w" .remove, .onWalk "w" .next]

/-- The walk shows the three keys that were there when it began. It removes the first one, not
twice, not the second one, which has lost its value, and the third one. The key that was put
meanwhile is left. -/
theorem roamed_iterates :
    roamed.live 0 = [(none, some "b"), (some 1, some "a"), (some 2, some "c")] ∧
      ((roamed.perform (.walk "t" .keys "w")).world.outcomes roaming).map (·.reply) =
        [.items [.key none], .value none, .flag true, .flag false, .items [.key (some 1)],
          .flag true, .count 1, .flag false, .items [.key (some 2)], .flag true, .items []] ∧
      ((roamed.perform (.walk "t" .keys "w")).world.run roaming).live 0 = [(some 3, some "d")] ∧
      roamed.Iterates (.walk "t" .keys "w") "w" 0 .keys (roamed.live 0) := by
  have hreachable : roamed.Reachable := ⟨_, _, rfl⟩
  have hsome : (roamed.tables.find 0).isSome = true := by decide +kernel
  obtain ⟨placed, found⟩ := Option.isSome_iff_exists.mp hsome
  have hnamed : roamed.tableNames.find "t" = some 0 := by decide +kernel
  exact ⟨by decide +kernel, by decide +kernel, by decide +kernel,
    hreachable.iterates (.inOrder hnamed found)⟩

end SoftCache.World
