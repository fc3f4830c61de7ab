import SoftCache.Proofs.Cache.Upkeep
import SoftCache.Proofs.Table.Copying
import SoftCache.Proofs.World.Custody
import SoftCache.Proofs.World.Effects

/-!
# Sound worlds

A world is sound if its tables are sound, its caches are tiered, and every reclaimer has issued the
payloads that it has in custody. Every request leads from a sound world to a sound one
(`World.Sound.perform`), so all reachable worlds are sound (`World.Reachable.sound`).
-/

open scoped List

namespace SoftCache.World

variable {K V : Type} [Hashed K] {w w' : World K V}

/-- A table that is in order in a world. -/
structure PlacedTable.Sound (p : PlacedTable K V) (w : World K V) : Prop where
  /-- The table is sound. -/
  table : p.table.Sound
  /-- Its reclaimer is there. -/
  index : p.reclaimer < w.reclaimers.length
  /-- Nothing has been lost since the last sweep, unless an epoch began since. -/
  swept : p.table.Swept (w.reclaimer p.reclaimer)

/-- A cache that is in order in a world, where it has a name. -/
structure PlacedCache.Sound (p : PlacedCache K V) (w : World K V) (name : String) : Prop where
  /-- The cache is tiered. -/
  cache : p.cache.Tiered []
  /-- Its reclaimer is there. -/
  index : p.reclaimer < w.reclaimers.length
  /-- Nothing has been lost since the last sweep of the soft tier, unless an epoch began since. -/
  swept : p.cache.soft.Swept (w.reclaimer p.reclaimer)
  /-- Who listens does so under the name of the cache. -/
  heard : ∀ listener ∈ p.listener, listener = name

/-- A world that is in order. -/
structure Sound (w : World K V) : Prop where
  /-- No two tables have the same number. -/
  numbered : (w.tables.map Prod.fst).Nodup
  /-- Tables are numbered in order. -/
  fresh : ∀ number ∈ w.tables.map Prod.fst, number < w.nextTable
  /-- No two caches have the same name. -/
  distinct : (w.caches.map Prod.fst).Nodup
  /-- What has a name as a reclaimer is there. -/
  named : ∀ entry ∈ w.reclaimerNames, entry.2 < w.reclaimers.length
  /-- The tables are in order. -/
  tables : ∀ entry ∈ w.tables, entry.2.Sound w
  /-- The caches are in order. -/
  caches : ∀ entry ∈ w.caches, entry.2.Sound w entry.1
  /-- Every reclaimer has issued what it has in custody. -/
  issued : w.Issued
  /-- Nothing is live that is not in custody. -/
  held : ∀ number < w.reclaimers.length, ∀ payload ∈ (w.reclaimer number).live,
    payload ∈ w.custody number

/-- An empty world is sound. -/
theorem sound_empty (shared : SharedFractions) : Sound ({ shared } : World K V) where
  numbered := List.nodup_nil
  fresh _ h := nomatch h
  distinct := List.nodup_nil
  named _ h := nomatch h
  tables _ h := nomatch h
  caches _ h := nomatch h
  issued _ h := nomatch h
  held _ h := nomatch h

/-- A sound world that another comes to without a pass. -/
structure Advances (w w' : World K V) : Prop where
  /-- The world is sound. -/
  sound : w'.Sound
  /-- What is in custody is handed over. -/
  hands : w.Hands w'

/-- A world that advances twice advances. -/
theorem Advances.trans {w'' : World K V} (h : w.Advances w') (h' : w'.Advances w'') :
    w.Advances w'' :=
  ⟨h'.sound, h.hands.trans h'.hands⟩

namespace Sound

/-- Nothing happens. -/
theorem still (h : w.Sound) : w.Advances w :=
  ⟨h, hands_refl h.issued⟩

/-- Names of tables and walks do not matter. -/
theorem rename (h : w.Sound) (tableNames : Directory String Nat)
    (walks : Directory String (PlacedWalk K V)) : w.Advances { w with tableNames, walks } where
  sound := by
    refine ⟨h.numbered, h.fresh, h.distinct, h.named, fun entry hentry => ?_,
      fun entry hentry => ?_, h.issued, h.held⟩
    · have htable := h.tables entry hentry
      exact ⟨htable.table, htable.index, htable.swept⟩
    · have hcache := h.caches entry hentry
      exact ⟨hcache.cache, hcache.index, hcache.swept, hcache.heard⟩
  hands := ⟨le_rfl, h.still.hands.handover⟩

/-- The payloads of a table have been issued. -/
theorem issued_table (h : w.Sound) {number : Nat} {placed : PlacedTable K V}
    (found : w.tables.find number = some placed) :
    (w.reclaimer placed.reclaimer).Issued placed.table.payloads := by
  have hperm := Directory.flatMap_perm_erase h.numbered found (tableShare placed.reclaimer)
  have hindex := (h.tables _ (Directory.mem_of_find found)).index
  have hissued := ((h.issued placed.reclaimer hindex).left.perm hperm).left
  rwa [tableShare, share_self] at hissued

/-- The payloads of a cache have been issued. -/
theorem issued_cache (h : w.Sound) {name : String} {placed : PlacedCache K V}
    (found : w.caches.find name = some placed) :
    (w.reclaimer placed.reclaimer).Issued placed.cache.payloads := by
  have hperm := Directory.flatMap_perm_erase h.distinct found (cacheShare placed.reclaimer)
  have hindex := (h.caches _ (Directory.mem_of_find found)).index
  have hissued := ((h.issued placed.reclaimer hindex).right.perm hperm).left
  rwa [cacheShare, share_self] at hissued

/-- A table that stays as it is stays in order. -/
theorem keep_table (h : w.Sound) (hands : w.Hands w')
    (length : w'.reclaimers.length = w.reclaimers.length) {entry : Nat × PlacedTable K V}
    (hold : entry ∈ w.tables) (hnew : entry ∈ w'.tables) : entry.2.Sound w' where
  table := (h.tables entry hold).table
  index := by
    rw [length]
    exact (h.tables entry hold).index
  swept := by
    have hand := hands.handover entry.2.reclaimer (h.tables entry hold).index
    exact (h.tables entry hold).swept.handover hand (fun _ hp => mem_custody_of_table hnew hp)
      (fun _ hp _ => hp) rfl

/-- A cache that stays as it is stays in order. -/
theorem keep_cache (h : w.Sound) (hands : w.Hands w')
    (length : w'.reclaimers.length = w.reclaimers.length) {entry : String × PlacedCache K V}
    (hold : entry ∈ w.caches) (hnew : entry ∈ w'.caches) : entry.2.Sound w' entry.1 where
  cache := (h.caches entry hold).cache
  index := by
    rw [length]
    exact (h.caches entry hold).index
  swept := by
    have hand := hands.handover entry.2.reclaimer (h.caches entry hold).index
    refine (h.caches entry hold).swept.handover hand (fun _ hp => ?_) (fun _ hp _ => hp) rfl
    exact mem_custody_of_cache hnew (List.mem_append_right _ hp)
  heard := (h.caches entry hold).heard

/-- A world that takes over the custody of a sound one is sound if what is new in it is in order. -/
theorem handed (h : w.Sound) (hands : w.Hands w')
    (length : w'.reclaimers.length = w.reclaimers.length)
    (names : w'.reclaimerNames = w.reclaimerNames) (numbered : (w'.tables.map Prod.fst).Nodup)
    (fresh : ∀ number ∈ w'.tables.map Prod.fst, number < w'.nextTable)
    (distinct : (w'.caches.map Prod.fst).Nodup)
    (tables : ∀ entry ∈ w'.tables, entry ∈ w.tables ∨ entry.2.Sound w')
    (caches : ∀ entry ∈ w'.caches, entry ∈ w.caches ∨ entry.2.Sound w' entry.1) :
    w.Advances w' := by
  refine ⟨?_, hands⟩
  constructor
  case numbered => exact numbered
  case fresh => exact fresh
  case distinct => exact distinct
  case named =>
    rw [names, length]
    exact h.named
  case tables =>
    intro entry hentry
    -- What is not new is in order as before.
    rcases tables entry hentry with hold | hnew
    · exact h.keep_table hands length hold hentry
    · exact hnew
  case caches =>
    intro entry hentry
    rcases caches entry hentry with hold | hnew
    · exact h.keep_cache hands length hold hentry
    · exact hnew
  case issued =>
    intro number hindex
    exact (hands.handover number (hindex.trans_eq length)).issued
  case held =>
    intro number hindex payload hlive
    -- Nothing was live that was not in custody, so nothing can have been in somebody else's.
    rcases (hands.handover number (hindex.trans_eq length)).kept payload hlive with hp | hother
    · exact hp
    · exact absurd (h.held number (hindex.trans_eq length) payload hother.1) hother.2

/-! ## Work on what is there -/

/-- What a table hands over, its world hands over. -/
theorem hands_table (h : w.Sound) {number : Nat} {placed : PlacedTable K V}
    (found : w.tables.find number = some placed) {t : Table K V} {r : Reclaimer}
    (hand : Handover (w.reclaimer placed.reclaimer) r placed.table.payloads t.payloads) :
    w.Hands ({ w with tables := w.tables.modify number { placed with table := t } }.setReclaimer
      placed.reclaimer r) := by
  -- Nothing else in the world holds payloads of the table.
  refine hands_of_share h.issued (h.tables _ (Directory.mem_of_find found)).index
    (fun q => (w.tables.erase number).flatMap (tableShare q) ++ w.caches.flatMap (cacheShare q)) rfl
    (fun q => ?_) (fun q => ?_) hand
  · rw [← List.append_assoc]
    exact (Directory.flatMap_perm_erase h.numbered found (tableShare q)).append_right _
  · rw [← List.append_assoc]
    exact (Directory.flatMap_modify_perm h.numbered found _ (tableShare q)).append_right _

/-- A table is worked on. -/
theorem setTable (h : w.Sound) {number : Nat} {placed : PlacedTable K V}
    (found : w.tables.find number = some placed) {t : Table K V} {r : Reclaimer}
    (hand : Handover (w.reclaimer placed.reclaimer) r placed.table.payloads t.payloads)
    (sound : t.Sound) (swept : placed.table.Swept (w.reclaimer placed.reclaimer) → t.Swept r) :
    w.Advances ({ w with tables := w.tables.modify number { placed with table := t } }.setReclaimer
      placed.reclaimer r) := by
  have hplaced := h.tables _ (Directory.mem_of_find found)
  have hkeys := Directory.keys_modify w.tables number { placed with table := t }
  refine h.handed (h.hands_table found hand) (List.length_set ..) rfl (hkeys ▸ h.numbered)
    (hkeys ▸ h.fresh) h.distinct (fun entry hentry => ?_) fun entry hentry => .inl hentry
  rcases Directory.mem_of_mem_modify hentry with rfl | hold
  · refine .inr ⟨sound, hplaced.index.trans_eq (List.length_set ..).symm, ?_⟩
    dsimp only
    rw [reclaimer_setReclaimer_self (by exact hplaced.index)]
    exact swept hplaced.swept
  · exact .inl hold

/-- What a cache hands over, its world hands over. -/
theorem hands_cache (h : w.Sound) {name : String} {placed after : PlacedCache K V}
    (found : w.caches.find name = some placed) {r : Reclaimer}
    (same : after.reclaimer = placed.reclaimer)
    (hand : Handover (w.reclaimer placed.reclaimer) r placed.cache.payloads after.cache.payloads) :
    w.Hands ({ w with caches := w.caches.modify name after }.setReclaimer placed.reclaimer r) := by
  refine hands_of_share h.issued (h.caches _ (Directory.mem_of_find found)).index
    (fun q => w.tables.flatMap (tableShare q) ++ (w.caches.erase name).flatMap (cacheShare q)) rfl
    (fun q => ?_) (fun q => ?_) hand
  · refine ((Directory.flatMap_perm_erase h.distinct found (cacheShare q)).append_left _).trans ?_
    rw [← List.append_assoc, ← List.append_assoc]
    exact List.perm_append_comm.append_right _
  · refine ((Directory.flatMap_modify_perm h.distinct found after (cacheShare q)).append_left
      _).trans ?_
    rw [← List.append_assoc, ← List.append_assoc, cacheShare, same]
    exact List.perm_append_comm.append_right _

/-- A cache is worked on. -/
theorem setCache (h : w.Sound) {name : String} {placed : PlacedCache K V}
    (found : w.caches.find name = some placed) (after : PlacedCache K V) {r : Reclaimer}
    (same : after.reclaimer = placed.reclaimer) (heard : after.listener = placed.listener)
    (hand : Handover (w.reclaimer placed.reclaimer) r placed.cache.payloads after.cache.payloads)
    (tiered : after.cache.Tiered [])
    (swept : placed.cache.soft.Swept (w.reclaimer placed.reclaimer) → after.cache.soft.Swept r) :
    w.Advances
      ({ w with caches := w.caches.modify name after }.setReclaimer placed.reclaimer r) := by
  have hplaced := h.caches _ (Directory.mem_of_find found)
  have hkeys := Directory.keys_modify w.caches name after
  refine h.handed (h.hands_cache found same hand) (List.length_set ..) rfl h.numbered h.fresh
    (hkeys ▸ h.distinct) (fun entry hentry => .inl hentry) fun entry hentry => ?_
  rcases Directory.mem_of_mem_modify hentry with rfl | hold
  · refine .inr ⟨tiered, ?_, ?_, ?_⟩
    · rw [same]
      exact hplaced.index.trans_eq (List.length_set ..).symm
    · dsimp only
      rw [same, reclaimer_setReclaimer_self (by exact hplaced.index)]
      exact swept hplaced.swept
    · rw [heard]
      exact hplaced.heard
  · exact .inl hold

/-- A reclaimer makes a pass or is compacted: what tables and caches hold stays with them. -/
theorem setReclaimer (h : w.Sound) {number : Nat} (index : number < w.reclaimers.length)
    {r : Reclaimer} (issued : r.Issued (w.custody number))
    (swept : ∀ t : Table K V, t.Swept (w.reclaimer number) → t.Swept r)
    (live : ∀ payload ∈ r.live, payload ∈ (w.reclaimer number).live) :
    (w.setReclaimer number r).Sound := by
  have hlength : (w.setReclaimer number r).reclaimers.length = w.reclaimers.length :=
    List.length_set ..
  -- What was swept stays so, under this reclaimer and under the others.
  have hswept : ∀ (t : Table K V) owner, t.Swept (w.reclaimer owner) →
      t.Swept ((w.setReclaimer number r).reclaimer owner) := by
    intro t owner ht
    by_cases howner : number = owner
    · subst howner
      rw [reclaimer_setReclaimer_self index]
      exact swept t ht
    · rwa [reclaimer_setReclaimer_of_ne howner]
  refine ⟨h.numbered, h.fresh, h.distinct, ?_, fun entry hentry => ?_, fun entry hentry => ?_,
    fun other hother => ?_, fun other hother => ?_⟩
  · rw [hlength]
    exact h.named
  · have htable := h.tables entry hentry
    exact ⟨htable.table, htable.index.trans_eq hlength.symm, hswept _ _ htable.swept⟩
  · have hcache := h.caches entry hentry
    exact ⟨hcache.cache, hcache.index.trans_eq hlength.symm, hswept _ _ hcache.swept, hcache.heard⟩
  · by_cases hsame : number = other
    · rw [← hsame, reclaimer_setReclaimer_self index]
      exact issued
    · rw [reclaimer_setReclaimer_of_ne hsame]
      exact h.issued other (hother.trans_eq hlength)
  · by_cases hsame : number = other
    · rw [← hsame, reclaimer_setReclaimer_self index]
      exact fun payload hp => h.held number index payload (live payload hp)
    · rw [reclaimer_setReclaimer_of_ne hsame]
      exact h.held other (hother.trans_eq hlength)

/-- A pass of a reclaimer. -/
theorem pass (h : w.Sound) {number : Nat} (index : number < w.reclaimers.length) (limit : Nat) :
    (w.setReclaimer number ((w.reclaimer number).clear limit)).Sound :=
  h.setReclaimer index ((h.issued number index).clear limit) (fun _ ht => ht.clear limit)
    fun _ hp => Reclaimer.mem_live_of_clear hp

/-- A reclaimer is compacted. -/
theorem compact (h : w.Sound) {number : Nat} (index : number < w.reclaimers.length) :
    (w.setReclaimer number (w.reclaimer number).compact).Sound :=
  h.setReclaimer index (h.issued number index).compact (fun _ ht => ⟨ht.epoch_le, ht.live⟩)
    fun _ hp => hp

/-! ## Letting go -/

/-- What nothing refers to is let go. -/
theorem collect (h : w.Sound) : w.Advances w.collect := by
  have hands := hands_collect h.issued fun entry hentry => (h.tables entry hentry).index
  obtain ⟨reclaimers, hlength, heq⟩ := w.collect_eq
  rw [heq] at hands ⊢
  have hsub : w.leftTables.Sublist w.tables := List.filter_sublist
  exact h.handed hands hlength rfl ((hsub.map _).nodup h.numbered)
    (fun number hnumber => h.fresh number ((hsub.map _).subset hnumber)) h.distinct
    (fun entry hentry => .inl (hsub.subset hentry)) fun entry hentry => .inl hentry

/-- A cache is let go. -/
theorem removeCache (h : w.Sound) (name : String) : w.Advances (w.removeCache name) := by
  have hands := hands_removeCache h.issued (fun entry hentry => (h.caches entry hentry).index)
    h.distinct name
  obtain ⟨reclaimers, hlength, heq⟩ := w.removeCache_eq name
  rw [heq] at hands ⊢
  have hsub : (w.caches.erase name).Sublist w.caches := List.filter_sublist
  exact h.handed hands hlength rfl h.numbered h.fresh ((hsub.map _).nodup h.distinct)
    (fun entry hentry => .inl hentry) fun entry hentry => .inl (hsub.subset hentry)

/-- What has a name is let go. -/
theorem removeNamed (h : w.Sound) (name : String) : w.Advances (w.removeNamed name) := by
  have hrename := h.rename (w.tableNames.erase name) w.walks
  have hcollect := hrename.sound.collect
  exact (hrename.trans hcollect).trans (hcollect.sound.removeCache name)

/-! ## Bringing in -/

/-- Who has no number yet has nothing in custody. -/
theorem custody_eq_nil (h : w.Sound) {number : Nat} (hlength : w.reclaimers.length ≤ number) :
    w.custody number = [] := by
  rw [custody, List.append_eq_nil_iff, List.flatMap_eq_nil_iff, List.flatMap_eq_nil_iff]
  constructor
  · intro entry hentry
    have := (h.tables entry hentry).index
    exact if_neg (by omega)
  · intro entry hentry
    have := (h.caches entry hentry).index
    exact if_neg (by omega)

/-- A reclaimer is brought in, perhaps with a name. -/
theorem addReclaimer (h : w.Sound) (budget : Option Nat) {names : Directory String Nat}
    (named : ∀ entry ∈ names, entry.2 ≤ w.reclaimers.length) :
    w.Advances { w.addReclaimer (.ofBudget budget) with reclaimerNames := names } := by
  have hlength : (w.addReclaimer (.ofBudget budget)).reclaimers.length =
      w.reclaimers.length + 1 := by simp [World.addReclaimer]
  have hsame : ∀ number < w.reclaimers.length,
      (w.addReclaimer (.ofBudget budget)).reclaimer number = w.reclaimer number :=
    fun number there => reclaimer_of_append rfl there
  have hhands : w.Hands (w.addReclaimer (.ofBudget budget)) := by
    refine ⟨by omega, fun number hnumber => ?_⟩
    rw [hsame number hnumber]
    exact .refl (h.issued number hnumber)
  refine ⟨?_, hhands.length_le, hhands.handover⟩
  constructor
  case numbered => exact h.numbered
  case fresh => exact h.fresh
  case distinct => exact h.distinct
  case named =>
    exact fun entry hentry => (Nat.lt_succ_of_le (named entry hentry)).trans_eq hlength.symm
  case tables =>
    intro entry hentry
    have hentry := h.tables entry hentry
    refine ⟨hentry.table, hlength ▸ hentry.index.trans (Nat.lt_succ_self _), ?_⟩
    show entry.2.table.Swept ((w.addReclaimer _).reclaimer _)
    rw [hsame _ hentry.index]
    exact hentry.swept
  case caches =>
    intro entry hentry
    have hentry := h.caches entry hentry
    refine ⟨hentry.cache, hlength ▸ hentry.index.trans (Nat.lt_succ_self _), ?_, hentry.heard⟩
    show entry.2.cache.soft.Swept ((w.addReclaimer _).reclaimer _)
    rw [hsame _ hentry.index]
    exact hentry.swept
  -- The reclaimers that there were have what they had, and the new one holds nothing yet.
  case issued =>
    intro number hnumber
    rcases lt_or_eq_of_addReclaimer hnumber with hold | rfl
    · exact (hhands.handover number hold).issued
    · have hnil : w.custody w.reclaimers.length = [] := h.custody_eq_nil le_rfl
      show ((w.addReclaimer (.ofBudget budget)).reclaimer _).Issued (w.custody _)
      rw [hnil, reclaimer_addReclaimer]
      exact ⟨Reclaimer.orderly_ofBudget budget, List.nodup_nil, fun _ hp =>
        absurd hp List.not_mem_nil⟩
  case held =>
    intro number hnumber
    show ∀ payload ∈ ((w.addReclaimer _).reclaimer _).live, payload ∈ w.custody _
    rcases lt_or_eq_of_addReclaimer hnumber with hold | rfl
    · rw [hsame number hold]
      exact h.held number hold
    · rw [reclaimer_addReclaimer]
      exact List.forall_mem_nil _

/-- A table is brought in, whose payloads were registered just before. -/
theorem addTable (h : w.Sound) (placed : PlacedTable K V)
    (index : placed.reclaimer < w.reclaimers.length) {r : Reclaimer}
    (hand : Handover (w.reclaimer placed.reclaimer) r [] placed.table.payloads)
    (sound : placed.table.Sound)
    (swept : placed.table.Swept r) (name : String) :
    w.Advances ((w.setReclaimer placed.reclaimer r).addTable name placed) := by
  -- The number of the table is new, so it comes last.
  have habsent : w.nextTable ∉ w.tables.map Prod.fst := fun hmem =>
    absurd (h.fresh _ hmem) (Nat.lt_irrefl _)
  have hset : (w.setReclaimer placed.reclaimer r).tables.set
      (w.setReclaimer placed.reclaimer r).nextTable placed = w.tables ++ [(w.nextTable, placed)] :=
    Directory.set_of_absent habsent placed
  have hput : w.Advances ((w.setReclaimer placed.reclaimer r).enterTable name placed) := by
    rw [enterTable, hset]
    refine h.handed ?_ (List.length_set ..) rfl ?_ ?_ h.distinct ?_ fun entry hentry => .inl hentry
    · -- The new table brings payloads into custody, and what others hold is not touched.
      refine hands_of_share h.issued index w.custody rfl (fun q => ?_) (fun q => ?_) hand
      · rw [share, ite_self, List.nil_append]
      · rw [custody, List.flatMap_append, List.flatMap_singleton, tableShare, custody,
          ← List.append_assoc]
        exact List.perm_append_comm.append_right _
    · rw [List.map_append]
      exact h.numbered.append (List.nodup_singleton _) (List.disjoint_singleton.mpr habsent)
    · intro number hnumber
      rw [List.map_append, List.mem_append] at hnumber
      rcases hnumber with hold | hnew
      · exact (h.fresh number hold).trans (Nat.lt_succ_self _)
      · rw [List.mem_singleton.mp hnew]
        exact Nat.lt_succ_self _
    · intro entry hentry
      rcases List.mem_append.mp hentry with hold | hnew
      · exact .inl hold
      · rw [List.mem_singleton.mp hnew]
        refine .inr ⟨sound, index.trans_eq (List.length_set ..).symm, ?_⟩
        show placed.table.Swept ((w.setReclaimer placed.reclaimer r).reclaimer placed.reclaimer)
        rw [reclaimer_setReclaimer_self index]
        exact swept
  have hcollect := hput.sound.collect
  exact (hput.trans hcollect).trans (hcollect.sound.removeCache name)

/-- A new cache is brought in. -/
theorem addCache (h : w.Sound) {placed : PlacedCache K V}
    (index : placed.reclaimer < w.reclaimers.length) (tiered : placed.cache.Tiered [])
    (hempty : placed.cache.payloads = [])
    (epoch_le : placed.cache.soft.sweptEpoch ≤ (w.reclaimer placed.reclaimer).epoch) {name : String}
    (heard : ∀ listener ∈ placed.listener, listener = name) :
    w.Advances (w.addCache name placed) := by
  have hremove := h.removeNamed name
  have hleft := hremove.sound
  obtain ⟨reclaimers, hlength, heq⟩ := w.removeNamed_eq name
  -- The name has been given up, so the cache comes last.
  have habsent : name ∉ (w.removeNamed name).caches.map Prod.fst := by
    rw [heq]
    exact Directory.not_mem_erase w.caches name
  have hindex : placed.reclaimer < (w.removeNamed name).reclaimers.length := by
    rw [heq]
    exact index.trans_eq hlength.symm
  rw [World.addCache, Directory.set_of_absent habsent]
  refine hremove.trans (hleft.handed ⟨le_rfl, fun number hnumber => ?_⟩ rfl rfl hleft.numbered
    hleft.fresh ?_ (fun entry hentry => .inl hentry) fun entry hentry => ?_)
  · refine (Handover.refl (hleft.issued number hnumber)).perm .rfl (.of_eq ?_)
    rw [custody, custody, List.flatMap_append, List.flatMap_singleton, cacheShare, hempty, share,
      ite_self, List.append_nil]
  · rw [List.map_append]
    exact hleft.distinct.append (List.nodup_singleton _) (List.disjoint_singleton.mpr habsent)
  · rcases List.mem_append.mp hentry with hold | hnew
    · exact .inl hold
    · rw [List.mem_singleton.mp hnew]
      refine .inr ⟨tiered, hindex, ⟨?_, fun _ payload hp => ?_⟩, heard⟩
      · exact epoch_le.trans (hremove.hands.handover placed.reclaimer index).precedes.epoch_le
      · have hnone : payload ∈ placed.cache.payloads := List.mem_append_right _ hp
        rw [hempty] at hnone
        cases hnone

/-! ## Making -/

/-- The reclaimer of a name is there. -/
theorem index_of_reclaimerOf (h : w.Sound) {name : String} {number : Nat}
    (found : w.reclaimerOf name = some number) : number < w.reclaimers.length := by
  rw [reclaimerOf, Option.orElse_eq_orElse, Option.orElse_eq_or, Option.orElse_eq_or,
    Option.or_eq_some_iff, Option.or_eq_some_iff] at found
  rcases found with hname | ⟨-, htable | ⟨-, hcache⟩⟩
  · exact h.named _ (Directory.mem_of_find hname)
  · obtain ⟨table, -, hfound⟩ := Option.bind_eq_some_iff.mp htable
    obtain ⟨placed, hplaced, rfl⟩ := Option.map_eq_some_iff.mp hfound
    exact (h.tables _ (Directory.mem_of_find hplaced)).index
  · obtain ⟨placed, hplaced, rfl⟩ := Option.map_eq_some_iff.mp hcache
    exact (h.caches _ (Directory.mem_of_find hplaced)).index

/-- The reclaimer that is provided is there. -/
theorem provide (h : w.Sound) {name : Option String} {provided : World K V} {number : Nat}
    (hprovide : w.provide name = some (provided, number)) :
    w.Advances provided ∧ number < provided.reclaimers.length := by
  cases name with
  | none =>
    cases hprovide
    refine ⟨h.addReclaimer none fun entry hentry => (h.named entry hentry).le, ?_⟩
    rw [World.addReclaimer, List.length_append]
    exact Nat.lt_succ_self _
  | some name =>
    obtain ⟨number', hfound, heq⟩ := Option.map_eq_some_iff.mp hprovide
    cases heq
    exact ⟨h.still, h.index_of_reclaimerOf hfound⟩

/-- A table that was just made is brought in. -/
theorem placeTable (h : w.Sound) {number : Nat} (index : number < w.reclaimers.length)
    {options : Table.Options} {table : Table K V}
    (hmade : Table.create w.shared options (w.reclaimer number).epoch = .ok table) (name : String)
    (listener : Option String) : w.Advances (w.addTable name ⟨table, number, listener⟩) := by
  obtain ⟨hsound, hpayloads, hswept⟩ := Table.sound_create hmade
  have hand : Handover (w.reclaimer number) (w.reclaimer number) [] table.payloads := by
    rw [hpayloads]
    exact .refl (h.issued number index).none
  have hneeds : table.Swept (w.reclaimer number) := by
    refine ⟨hswept.le, fun _ payload hp => ?_⟩
    rw [hpayloads] at hp
    cases hp
  have hadded := h.addTable ⟨table, number, listener⟩ index hand hsound hneeds name
  rwa [setReclaimer_of_eq rfl] at hadded

/-- A cache that was just made is brought in, perhaps with somebody who listens. -/
theorem placeCache (h : w.Sound) {number : Nat} (index : number < w.reclaimers.length)
    {options : Cache.Options} {cache : Cache K V}
    (hmade : Cache.create w.shared options (w.reclaimer number).epoch = .ok cache) (name : String)
    (listened : Bool) :
    w.Advances (w.addCache name ⟨cache, number, if listened then some name else none, .empty⟩) := by
  obtain ⟨htiered, -, hpayloads⟩ := Cache.tiered_create hmade
  refine h.addCache index htiered hpayloads (Cache.sweptEpoch_create hmade).le
    fun listener hlistener => ?_
  dsimp only at hlistener
  split at hlistener
  · exact (Option.some.inj hlistener).symm
  · cases hlistener

/-! ## Requests -/

/-- A removal by a walk minds the table. -/
theorem minds_remove [DecidableEq K] (walk : Walk K V) {t : Table K V} {r : Reclaimer} (h : t.Sound)
    (issued : r.Issued t.payloads) : (walk.remove t r).1.Minds t r := by
  unfold Walk.remove
  split
  · exact (Step.Upholds.done h issued false).minds
  · exact ((Table.upholds_removeIf h issued _ _).map _).minds

/-- To begin a walk advances a sound world. -/
theorem addWalk (h : w.Sound) (newName : String) (number : Nat) (view : View)
    (entries : List (Entry K V)) : w.Advances (w.addWalk newName number view entries).world := by
  have hrename := h.rename w.tableNames (w.walks.set newName ⟨.start view entries, number⟩)
  exact hrename.trans hrename.sound.collect

/-- Whatever is asked of a reclaimer, a pass included, leaves a world sound. -/
theorem overReclaimer (h : w.Sound) (name : String) (request : Reclaimer.Request) :
    (w.overReclaimer name request).world.Sound := by
  unfold World.overReclaimer
  split
  · exact h
  · next number found =>
    have hindex := h.index_of_reclaimerOf found
    cases request with
    | clear limit => exact h.pass hindex limit
    | clearAll => exact h.pass hindex _
    | tracked => exact h.compact hindex
    | epoch => exact h
    | budget => exact h
    | literal => exact h

variable [DecidableEq K] [Ordered K] [Literal K] [DecidableEq V] [Literal V]

/-- All effects but passes lead from a sound world to a sound one and hand over what is in
custody. -/
theorem advances_of_effect (h : w.Sound) {request : Request K V} {notices : List (Notice K V)}
    (effect : w.Effect request w' notices)
    (hpass : ∀ name passing, request ≠ .reclaimer name passing) : w.Advances w' := by
  cases effect with
  | nothing => exact h.still
  | newReclaimer =>
    refine h.addReclaimer _ fun entry hentry => ?_
    rcases Directory.mem_of_mem_set hentry with rfl | hold
    · exact le_rfl
    · exact (h.named entry hold).le
  | newTable hprovide hmade =>
    obtain ⟨hprovided, hindex⟩ := h.provide hprovide
    exact hprovided.trans (hprovided.sound.placeTable hindex hmade _ _)
  | newCache hprovide hmade =>
    obtain ⟨hprovided, hindex⟩ := h.provide hprovide
    exact hprovided.trans (hprovided.sound.placeCache hindex hmade _ _)
  | @copy _ newName _ placed _ found =>
    -- A copy of a table is sound, and its payloads are its own.
    have hentry := h.tables _ (Directory.mem_of_find found)
    have hissued := h.issued_table found
    exact h.addTable
      { placed with table := (placed.table.copy (w.reclaimer placed.reclaimer)).result }
      hentry.index
      (Table.handover_copy hissued.none _) (hentry.table.copy _) (Table.swept_copy hissued) newName
  | drop => exact h.removeNamed _
  | @table _ asking _ _ _ _ found hdone =>
    subst hdone
    have hminds := Table.minds_perform (h.tables _ (Directory.mem_of_find found)).table
      (h.issued_table found) asking
    exact h.setTable found hminds.handover hminds.sound hminds.swept
  | @cache _ asking _ _ _ found hdone =>
    subst hdone
    have hattends := Cache.attends_perform (h.caches _ (Directory.mem_of_find found)).cache
      (h.issued_cache found) asking
    exact h.setCache found _ rfl rfl hattends.handover hattends.tiered hattends.swept
  | @recorder _ placed found =>
    have hset := h.setCache found { placed with recorder := .empty } rfl rfl
      (.refl (h.issued_cache found)) (h.caches _ (Directory.mem_of_find found)).cache
      fun hswept => hswept
    rw [setReclaimer_of_eq] at hset
    · exact hset
    · rfl
  | reclaimer => exact absurd rfl (hpass _ _)
  | walk => exact h.addWalk ..
  | randomWalk _ found hdrawn =>
    subst hdrawn
    have hentry := h.tables _ (Directory.mem_of_find found)
    have hupholds := Table.upholds_randomEntries hentry.table (h.issued_table found)
    have hset := h.setTable found hupholds.handover hupholds.sound hupholds.swept
    rw [setReclaimer_of_eq] at hset
    · exact hset.trans (hset.sound.addWalk ..)
    · rfl
  | goOn => exact h.rename w.tableNames _
  | @remove _ walked _ _ _ found hdone =>
    subst hdone
    have hminds := minds_remove walked.walk (h.tables _ (Directory.mem_of_find found)).table
      (h.issued_table found)
    have hset := h.setTable found hminds.handover hminds.sound hminds.swept
    exact hset.trans (hset.sound.rename _ _)

/-- All requests but those to a reclaimer hand over what is in custody. -/
theorem advances (h : w.Sound) (request : Request K V)
    (hpass : ∀ name passing, request ≠ .reclaimer name passing) :
    w.Advances (w.perform request).world :=
  h.advances_of_effect (w.effect_perform request) hpass

/-- Every request leads from a sound world to a sound one. -/
theorem perform (h : w.Sound) (request : Request K V) : (w.perform request).world.Sound := by
  by_cases hpass : ∀ name passing, request ≠ .reclaimer name passing
  · exact (h.advances request hpass).sound
  · push Not at hpass
    obtain ⟨name, passing, rfl⟩ := hpass
    exact h.overReclaimer name passing

/-- Requests lead from a sound world to a sound one. -/
theorem run (h : w.Sound) (requests : List (Request K V)) : (w.run requests).Sound := by
  induction requests generalizing w with
  | nil => exact h
  | cons request rest ih => exact ih (h.perform request)

end Sound

/-- All reachable worlds are sound. -/
theorem Reachable.sound [DecidableEq K] [Ordered K] [Literal K] [DecidableEq V] [Literal V]
    (h : w.Reachable) : w.Sound :=
  h.induction sound_empty fun _ request hw => hw.perform request

end SoftCache.World
