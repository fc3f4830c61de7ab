import SoftCache.Proofs.Table.Nulls
import SoftCache.Proofs.Table.Refinement
import SoftCache.Proofs.World.Consistency
import SoftCache.Proofs.World.Frames

/-!
# Null in all worlds

In all reachable worlds the slots of tables are full, and a walk has come upon no null where its
table is reclaimable (`World.Reachable.full`). So null is never shown where it is refused, and it is
refused just there, in which case nothing at all has changed (`World.Reachable.without_nulls`).
-/

open scoped List

namespace SoftCache

variable {K V : Type}

/-- Whether an item shows a null key. -/
def Item.HasNullKey : Item K V → Prop
  | .key shown => shown = none
  | .entry shown => shown.1 = none
  | .value _ => False

/-- What a view shows of an entry has a null key only if the entry has. -/
theorem View.eq_none_of_hasNullKey {view : View} {entry : Entry K V}
    (h : (view.item entry).HasNullKey) : entry.1 = none := by
  cases view with
  | keys => exact h
  | values => cases h
  | entries => exact h

namespace World

variable {w w' : World K V} {name : String} {number : Nat} {placed : PlacedTable K V}

/-- A world in which null is nowhere held reclaimably. -/
structure Full (w : World K V) : Prop where
  /-- The slots of tables are full. -/
  tables : ∀ entry ∈ w.tables, entry.2.table.Full
  /-- A walk goes over a table that is there, and shows nothing that this would refuse. -/
  walks : ∀ entry ∈ w.walks, ∃ placed, w.tables.find entry.2.table = some placed ∧
    ∀ shown ∈ entry.2.walk.remaining, placed.table.refusal shown.1 shown.2 = none

namespace Full

/-- Only tables and walks matter. -/
theorem of_eq (h : w.Full) (tables : w'.tables = w.tables) (walks : w'.walks = w.walks) :
    w'.Full := by
  constructor
  · rw [tables]
    exact h.tables
  · rw [tables, walks]
    exact h.walks

/-- A table that a walk goes over is not let go. -/
theorem collect (h : w.Full) : w.collect.Full := by
  obtain ⟨reclaimers, -, heq⟩ := w.collect_eq
  rw [heq]
  refine ⟨fun entry hentry => h.tables entry (List.mem_filter.mp hentry).1, fun entry hentry => ?_⟩
  obtain ⟨placed, found, hshown⟩ := h.walks entry hentry
  refine ⟨placed, (Directory.find_filter ?_ w.tables).trans found, hshown⟩
  rw [List.contains_iff_mem]
  exact List.mem_append_right _ (List.mem_map_of_mem (f := fun walk => walk.2.table) hentry)

/-- To remove a cache leaves the tables and the walks full. -/
theorem removeCache (h : w.Full) (name : String) : (w.removeCache name).Full := by
  obtain ⟨reclaimers, -, heq⟩ := w.removeCache_eq name
  rw [heq]
  exact h.of_eq rfl rfl

/-- To remove a name leaves the tables and the walks full. -/
theorem removeNamed (h : w.Full) (name : String) : (w.removeNamed name).Full := by
  have herased : Full { w with tableNames := w.tableNames.erase name } := h.of_eq rfl rfl
  exact herased.collect.removeCache name

/-- A table that is brought in is not one that a walk goes over. -/
theorem addTable (h : w.Full) (fresh : ∀ number ∈ w.tables.map Prod.fst, number < w.nextTable)
    (full : placed.table.Full) (name : String) : (w.addTable name placed).Full := by
  have hput : (w.enterTable name placed).Full := by
    refine ⟨fun entry hentry => ?_, fun entry hentry => ?_⟩
    · rcases Directory.mem_of_mem_set hentry with rfl | hold
      · exact full
      · exact h.tables entry hold
    · obtain ⟨walked, found, hshown⟩ := h.walks entry hentry
      have hold := fresh _ (List.mem_map_of_mem (f := Prod.fst) (Directory.mem_of_find found))
      exact ⟨walked, by rwa [find_tables_enterTable, if_neg hold.ne'], hshown⟩
  exact hput.collect.removeCache name

/-- To bring a cache in leaves the tables and the walks full. -/
theorem addCache (h : w.Full) (name : String) (placed : PlacedCache K V) :
    (w.addCache name placed).Full :=
  (h.removeNamed name).of_eq rfl rfl

/-- A table is worked on that keeps its strengths and stays full. -/
theorem setTable (h : w.Full) (found : w.tables.find number = some placed) {t : Table K V}
    (full : t.Full) (config : t.config = placed.table.config)
    (tables : w'.tables = w.tables.modify number { placed with table := t })
    (walks : w'.walks = w.walks) : w'.Full := by
  constructor
  · intro entry hentry
    rw [tables] at hentry
    rcases Directory.mem_of_mem_modify hentry with rfl | hold
    · exact full
    · exact h.tables entry hold
  · intro entry hentry
    rw [walks] at hentry
    obtain ⟨walked, hwalked, hshown⟩ := h.walks entry hentry
    rw [tables, Directory.find_modify, hwalked]
    split
    · next hsame =>
      -- The walk goes over this table, which refuses what it did before.
      rw [← hsame, found] at hwalked
      cases hwalked
      exact ⟨_, rfl, fun shown hmem => (Table.refusal_congr config _ _).trans (hshown shown hmem)⟩
    · exact ⟨walked, rfl, hshown⟩

/-- A walk begins that shows nothing that its table would refuse. -/
theorem addWalk (h : w.Full) (newName : String) (found : w.tables.find number = some placed)
    (view : View) {entries : List (Entry K V)}
    (admitted : ∀ shown ∈ entries, placed.table.refusal shown.1 shown.2 = none) :
    (w.addWalk newName number view entries).world.Full := by
  have hset : Full { w with walks := w.walks.set newName ⟨.start view entries, number⟩ } := by
    refine ⟨h.tables, fun entry hentry => ?_⟩
    rcases Directory.mem_of_mem_set hentry with rfl | hold
    · exact ⟨placed, found, admitted⟩
    · exact h.walks entry hold
  exact hset.collect

/-- A walk goes on in the same table, and has nothing more to show. -/
theorem setWalk (h : w.Full) {walked : PlacedWalk K V} (found : w.walks.find name = some walked)
    {walk : Walk K V} (within : walk.remaining ⊆ walked.walk.remaining) :
    Full { w with walks := w.walks.modify name { walked with walk } } := by
  refine ⟨h.tables, fun entry hentry => ?_⟩
  rcases Directory.mem_of_mem_modify hentry with rfl | hold
  · obtain ⟨placed, hplaced, hshown⟩ := h.walks _ (Directory.mem_of_find found)
    exact ⟨placed, hplaced, fun shown hmem => hshown shown (within hmem)⟩
  · exact h.walks entry hold

section Keys

variable [DecidableEq K] [Hashed K]

/-- A removal by a walk leaves a table full. -/
theorem full_remove (walk : Walk K V) {t : Table K V} {r : Reclaimer} (full : t.Full)
    (issued : r.Issued t.payloads) :
    (walk.remove t r).1.state.Full ∧ (walk.remove t r).1.state.config = t.config := by
  unfold Walk.remove
  split
  · exact ⟨full, rfl⟩
  · next key _ =>
    obtain ⟨_, _, haccounts, -⟩ := Table.accounts_removeIf issued key fun _ => true
    exact ⟨haccounts.full full (List.forall_mem_nil _), haccounts.config⟩

variable [Ordered K] [Literal K] [DecidableEq V] [Literal V]

/-- Whatever comes of a request, null is not held reclaimably. -/
theorem of_effect (h : w.Full) (sound : w.Sound) {request : Request K V}
    {notices : List (Notice K V)} (effect : w.Effect request w' notices) : w'.Full := by
  cases effect with
  | nothing => exact h
  | newTable hprovide hmade =>
    -- A table that was just made has no slots.
    obtain ⟨loadFactor, cursor, rfl⟩ := Table.create_eq hmade
    refine addTable ?_ (sound.provide hprovide).1.sound.fresh ?_ _
    · exact h.of_eq rfl rfl
    · rw [Table.Full, Table.empty, Buckets.slots_empty]
      exact List.forall_mem_nil _
  | newCache =>
    refine addCache ?_ _ _
    exact h.of_eq rfl rfl
  | copy _ found =>
    have hfull := h.tables _ (Directory.mem_of_find found)
    refine addTable ?_ ?_ ?_ _
    · exact h.of_eq rfl rfl
    · exact sound.fresh
    · exact hfull.copy (sound.issued_table found).toOrderly
  | drop => exact h.removeNamed _
  | @table _ asking _ _ _ _ found hdone =>
    subst hdone
    have htable := (sound.tables _ (Directory.mem_of_find found)).table
    have hissued := sound.issued_table found
    have hfull := (h.tables _ (Directory.mem_of_find found)).perform htable hissued asking
    exact h.setTable found hfull (Table.config_perform htable hissued asking) rfl rfl
  | walk _ found =>
    have hfull := h.tables _ (Directory.mem_of_find found)
    exact h.addWalk _ found _ fun shown => hfull.refusal_of_mem_entries
  | @randomWalk _ newName number placed _ _ found hdrawn =>
    subst hdrawn
    have hfull := h.tables _ (Directory.mem_of_find found)
    -- The walk goes over the table whose cursor has just moved.
    set moved : PlacedTable K V := { placed with
      table := (placed.table.randomEntries (w.reclaimer placed.reclaimer)).state }
    have hmoved : moved.table.Full := hfull
    have hset : Full { w with tables := w.tables.modify number moved } :=
      h.setTable found hmoved rfl rfl rfl
    have hfound : (w.tables.modify number moved).find number = some moved := by
      rw [Directory.find_modify, if_pos rfl, found]
      rfl
    exact hset.addWalk newName hfound .entries fun shown hmem =>
      hfull.refusal_of_mem_entries (Table.mem_randomEntries_iff.mp hmem)
  | goOn found within => exact h.setWalk found within
  | @remove _ walked _ _ hwalked found hdone =>
    have hfull := h.tables _ (Directory.mem_of_find found)
    obtain ⟨hremoved, hconfig⟩ := full_remove walked.walk hfull (sound.issued_table found)
    rw [hdone] at hremoved hconfig
    refine setWalk (w := World.setReclaimer { w with tables := _ } _ _) ?_ hwalked
      (List.Subset.refl _)
    exact h.setTable found hremoved hconfig rfl rfl
  | newReclaimer | cache | recorder | reclaimer => exact h.of_eq rfl rfl

end Keys

end Full

variable [DecidableEq K] [Hashed K] [Ordered K] [Literal K] [DecidableEq V] [Literal V]

/-- In no reachable world is null held reclaimably. -/
theorem Reachable.full (h : w.Reachable) : w.Full := by
  suffices both : w.Sound ∧ w.Full from both.2
  exact h.induction (motive := fun w => w.Sound ∧ w.Full)
    (fun shared => ⟨sound_empty shared, List.forall_mem_nil _, List.forall_mem_nil _⟩)
    fun w request hw =>
      ⟨hw.1.perform request, hw.2.of_effect hw.1 (w.effect_perform request)⟩

/-- Neither a table nor a tier of a cache has null on a side that it holds reclaimably. -/
theorem Reachable.full_has (h : w.Reachable) {t : Table K V} {r : Reclaimer}
    (there : w.Has t r) : t.Full := by
  -- The tiers of a cache hold keys strongly, so that none of theirs has a payload.
  have hstrong {s : Slot K V} (suits : s.key.Suits .strong) : s.key.payloads = [] :=
    List.length_eq_zero_iff.mp (Holder.length_payloads suits nofun)
  cases there with
  | table hentry => exact h.full.tables _ hentry
  | hard hentry =>
    have hcache := (h.sound.caches _ hentry).cache
    obtain ⟨hkey, hvalue⟩ := hcache.hardStrengths
    intro s hs
    have hsuits := (hcache.hard.suited s hs).1
    rw [hkey] at hsuits
    refine ⟨by simp [hkey], by simp [hvalue], ?_⟩
    rw [hstrong hsuits]
    exact List.forall_mem_nil _
  | soft hentry =>
    have hcache := (h.sound.caches _ hentry).cache
    intro s hs
    have hsuits := (hcache.soft.suited s hs).1
    rw [hcache.softStrengths.1] at hsuits
    refine ⟨by simp [hcache.softStrengths.1], fun _ => hcache.full _ (List.mem_map_of_mem hs), ?_⟩
    rw [hstrong hsuits]
    exact List.forall_mem_nil _

/-! ## What is said of tables under their names -/

omit [DecidableEq K] [Hashed K] [Ordered K] [Literal K] [DecidableEq V] [Literal V] in
variable (w name) in
/-- The table of a name. -/
def tableOf : Option (PlacedTable K V) :=
  (w.tableNames.find name).bind fun number => w.tables.find number

/-- What a table is asked for under its name is what it is asked for. -/
theorem reply_tableOf (found : w.tableOf name = some placed) (request : Table.Request K V) :
    (w.perform (.table name request)).reply =
      (placed.table.perform (w.reclaimer placed.reclaimer) request).result := by
  obtain ⟨number, hname, hplaced⟩ := Option.bind_eq_some_iff.mp found
  rw [perform_table hname, overTable, hplaced]

/-- An entry that is refused changes nothing, and nobody hears of it. -/
theorem Sound.perform_put_refused (h : w.Sound) (found : w.tableOf name = some placed)
    {key : Option K} {value : Option V} {error : TableError}
    (refused : placed.table.refusal key value = some error) :
    w.perform (.table name (.put key value)) = { reply := .refused error.report, world := w } := by
  obtain ⟨number, hname, hplaced⟩ := Option.bind_eq_some_iff.mp found
  have hdone : placed.table.perform (w.reclaimer placed.reclaimer) (.put key value) =
      .done placed.table (w.reclaimer placed.reclaimer) (.refused error.report) := by
    rw [Table.perform, Table.put, refused]
    rfl
  have hsame : w.tables.modify number placed = w.tables :=
    Directory.modify_of_find h.numbered hplaced
  rw [perform_table hname, overTable, hplaced]
  dsimp only
  rw [hdone]
  dsimp only [Step.done]
  rw [hsame, setReclaimer_of_eq rfl, List.flatMap_eq_nil_iff.mpr fun _ _ => List.map_nil]

/-! ## The law of null -/

/-- What is said of a world in which null does not reach a side that is held reclaimably. -/
structure WithoutNulls (w : World K V) : Prop where
  /-- No slot of a table, or of a tier of a cache, has null on a side that is held reclaimably. -/
  slots : ∀ t r, w.Has t r → ∀ s ∈ t.buckets.slots,
    (t.config.keyStrength = .reclaimable → s.key ≠ .null) ∧
      (t.config.valueStrength = .reclaimable → s.value ≠ .null)
  /-- Neither the entries of a table nor those from a random place on show a null key, if keys are
  held reclaimably. -/
  listed : ∀ name placed, w.tableOf name = some placed →
    placed.table.config.keyStrength = .reclaimable → ∀ request, request = .entries ∨
      request = .randomEntries → ∃ items, (w.perform (.table name request)).reply = .items items ∧
        ∀ item ∈ items, ¬item.HasNullKey
  /-- Nor does a walk, whatever has become of the table since it began. -/
  walked : ∀ name walked, w.walks.find name = some walked →
    ∃ placed, w.tables.find walked.table = some placed ∧
      (placed.table.config.keyStrength = .reclaimable → ∀ request, request = .next ∨
        request = .rest → ∃ items, (w.perform (.onWalk name request)).reply = .items items ∧
          ∀ item ∈ items, ¬item.HasNullKey)
  /-- A table that holds values reclaimably is never said to have a null value. -/
  valued : ∀ name placed, w.tableOf name = some placed →
    placed.table.config.valueStrength = .reclaimable →
      (w.perform (.table name (.containsValue none))).reply = .flag false
  /-- Only null on a side that is held reclaimably is refused, a key before a value, and then
  nothing has changed and nothing is announced. -/
  refused : ∀ name placed, w.tableOf name = some placed → ∀ key value,
    let outcome := w.perform (.table name (.put key value))
    let nullKey := key = none ∧ placed.table.config.keyStrength = .reclaimable
    let nullValue := value = none ∧ placed.table.config.valueStrength = .reclaimable
    (nullKey → outcome = { reply := .refused TableError.nullKey.report, world := w }) ∧
      (¬nullKey → nullValue →
        outcome = { reply := .refused TableError.nullValue.report, world := w }) ∧
      (¬nullKey → ¬nullValue → ∃ previous, outcome.reply = .value previous)

/-- In no reachable world does null reach a side that is held reclaimably. -/
theorem Reachable.without_nulls (h : w.Reachable) : w.WithoutNulls where
  slots t r there s hs := by
    have hslot := h.full_has there s hs
    refine ⟨fun hside hnull => hslot.key hside ?_, fun hside hnull => hslot.value hside ?_⟩
    · rw [hnull]
      rfl
    · rw [hnull]
      rfl
  listed name placed found hside request hrequest := by
    obtain ⟨number, -, hplaced⟩ := Option.bind_eq_some_iff.mp found
    have hfull := h.full.tables _ (Directory.mem_of_find hplaced)
    have hkeys : ∀ entry ∈ placed.table.entries (w.reclaimer placed.reclaimer), entry.1 ≠ none :=
      fun entry hentry =>
        (Table.refusal_eq_none_iff.mp (hfull.refusal_of_mem_entries hentry)).1 hside
    rw [reply_tableOf found]
    rcases hrequest with rfl | rfl
    · refine ⟨_, rfl, fun item hitem => ?_⟩
      obtain ⟨entry, hentry, rfl⟩ := List.mem_map.mp hitem
      exact hkeys entry hentry
    · refine ⟨_, rfl, fun item hitem => ?_⟩
      obtain ⟨entry, hentry, rfl⟩ := List.mem_map.mp hitem
      exact hkeys entry (Table.mem_randomEntries_iff.mp hentry)
  walked name walked found := by
    obtain ⟨placed, hplaced, hshown⟩ := h.full.walks _ (Directory.mem_of_find found)
    refine ⟨placed, hplaced, fun hside request hrequest => ?_⟩
    have hkeys : ∀ item ∈ walked.walk.remaining.map walked.walk.view.item, ¬item.HasNullKey := by
      intro item hitem hnull
      obtain ⟨entry, hentry, rfl⟩ := List.mem_map.mp hitem
      exact (Table.refusal_eq_none_iff.mp (hshown entry hentry)).1 hside
        (View.eq_none_of_hasNullKey hnull)
    rw [World.perform, overWalk, found]
    rcases hrequest with rfl | rfl
    · refine ⟨_, rfl, fun item hitem => hkeys item ?_⟩
      unfold Walk.next at hitem
      split at hitem
      · cases hitem
      · next entry rest hremaining =>
        rw [List.mem_singleton.mp hitem, hremaining]
        exact List.mem_map_of_mem List.mem_cons_self
    · exact ⟨_, rfl, hkeys⟩
  valued name placed found hside := by
    obtain ⟨number, -, hplaced⟩ := Option.bind_eq_some_iff.mp found
    have hfull := h.full.tables _ (Directory.mem_of_find hplaced)
    rw [reply_tableOf found]
    refine congrArg Reply.flag (Bool.eq_false_iff.mpr fun hcontains => ?_)
    obtain ⟨key, hentry⟩ := Table.containsValue_iff.mp hcontains
    exact (Table.refusal_eq_none_iff.mp (hfull.refusal_of_mem_entries hentry)).2 hside rfl
  refused name placed found key value := by
    have hrefusal : placed.table.refusal key value =
        if key = none ∧ placed.table.config.keyStrength = .reclaimable then some .nullKey
        else if value = none ∧ placed.table.config.valueStrength = .reclaimable then
          some .nullValue
        else none := by
      unfold Table.refusal Table.excludes
      cases placed.table.config.keyStrength <;> cases placed.table.config.valueStrength <;>
        cases key <;> cases value <;> rfl
    refine ⟨fun hkey => ?_, fun hkey hvalue => ?_, fun hkey hvalue => ?_⟩
    · rw [if_pos hkey] at hrefusal
      exact h.sound.perform_put_refused found hrefusal
    · rw [if_neg hkey, if_pos hvalue] at hrefusal
      exact h.sound.perform_put_refused found hrefusal
    · rw [if_neg hkey, if_neg hvalue] at hrefusal
      refine ⟨((placed.table.insert (w.reclaimer placed.reclaimer) key value).result.previous).join,
        ?_⟩
      rw [reply_tableOf found, Table.perform, Table.put, hrefusal]
      rfl

/-- A world with a table that holds both sides reclaimably, a copy of it and a copy of the copy,
under a budget that the copies exceed, and a walk over the second copy. -/
def recopied : World UInt64 String :=
  run {}
    [.newReclaimer "r" (some 6),
      .newTable "t"
        { options := { keyStrength := .reclaimable, valueStrength := .reclaimable }
          reclaimer := some "r" },
      .table "t" (.put (some 1) (some "a")),
      .table "t" (.put (some 2) (some "b")),
      .copy "t" "u",
      .copy "u" "v",
      .walk "v" .keys "i"]

/-- The first copy has cleared a key of the original just before it came to its value, and none of
them has null. -/
theorem recopied_without_nulls :
    recopied.tables.map (fun entry => (entry.2.table.count,
      (entry.2.table.entries (recopied.reclaimer entry.2.reclaimer)).length)) =
        [(2, 0), (2, 1), (2, 2)] ∧
      (recopied.perform (.onWalk "i" .rest)).reply = .items [.key (some 2), .key (some 1)] ∧
      (recopied.perform (.table "v" (.put none none))).reply =
        .refused TableError.nullKey.report ∧
      recopied.WithoutNulls :=
  ⟨by decide +kernel, by decide +kernel, by decide +kernel, Reachable.without_nulls ⟨_, _, rfl⟩⟩

end World

end SoftCache
