import SoftCache.Proofs.World.Frames

/-!
# What holds everywhere in a world

What holds of every table and of every cache that can be made, and of what becomes of them whatever
they are asked for, holds of all tables and caches of every world that can be reached
(`World.Reachable.everywhere`). Names, walks and reclaimers do not matter for it.
-/

namespace SoftCache.World

variable {K V : Type} {P : Table K V → Prop} {Q : Cache K V → Prop} {w w' : World K V}

/-- Something holds of all tables, and something of all caches. -/
structure Everywhere (P : Table K V → Prop) (Q : Cache K V → Prop) (w : World K V) : Prop where
  /-- It holds of the tables. -/
  tables : ∀ entry ∈ w.tables, P entry.2.table
  /-- It holds of the caches. -/
  caches : ∀ entry ∈ w.caches, Q entry.2.cache

namespace Everywhere

/-- It holds of the tables and caches of an empty world, of which there are none. -/
theorem empty (shared : SharedFractions) : Everywhere P Q ({ shared } : World K V) :=
  ⟨List.forall_mem_nil _, List.forall_mem_nil _⟩

/-- It holds of no more tables and caches. -/
theorem of_subset (h : w.Everywhere P Q) (tables : w'.tables ⊆ w.tables)
    (caches : w'.caches ⊆ w.caches) : w'.Everywhere P Q where
  tables entry hentry := h.tables entry (tables hentry)
  caches entry hentry := h.caches entry (caches hentry)

/-- Only the tables and the caches matter. -/
theorem of_eq (h : w.Everywhere P Q) (tables : w'.tables = w.tables)
    (caches : w'.caches = w.caches) :
    w'.Everywhere P Q :=
  h.of_subset (tables ▸ List.Subset.refl _) (caches ▸ List.Subset.refl _)

/-- What holds everywhere holds of what is left when the rest is collected. -/
theorem collect (h : w.Everywhere P Q) : w.collect.Everywhere P Q := by
  obtain ⟨reclaimers, -, heq⟩ := w.collect_eq
  rw [heq]
  exact h.of_subset (List.filter_subset_self _) (List.Subset.refl _)

/-- What holds everywhere holds when a cache is removed. -/
theorem removeCache (h : w.Everywhere P Q) (name : String) :
    (w.removeCache name).Everywhere P Q := by
  obtain ⟨reclaimers, -, heq⟩ := w.removeCache_eq name
  rw [heq]
  exact h.of_subset (List.Subset.refl _) (List.filter_subset_self _)

/-- What holds everywhere holds when a name is removed. -/
theorem removeNamed (h : w.Everywhere P Q) (name : String) :
    (w.removeNamed name).Everywhere P Q := by
  have herased : Everywhere P Q { w with tableNames := w.tableNames.erase name } := h.of_eq rfl rfl
  exact herased.collect.removeCache name

/-- What holds of a table that is brought in holds everywhere then. -/
theorem addTable (h : w.Everywhere P Q) {placed : PlacedTable K V} (holds : P placed.table)
    (name : String) : (w.addTable name placed).Everywhere P Q := by
  have hput : (w.enterTable name placed).Everywhere P Q := by
    refine ⟨fun entry hentry => ?_, h.caches⟩
    rcases Directory.mem_of_mem_set hentry with rfl | hold
    · exact holds
    · exact h.tables entry hold
  exact hput.collect.removeCache name

/-- What holds of a cache that is brought in holds everywhere then. -/
theorem addCache (h : w.Everywhere P Q) {placed : PlacedCache K V} (holds : Q placed.cache)
    (name : String) : (w.addCache name placed).Everywhere P Q := by
  have hleft := h.removeNamed name
  refine ⟨hleft.tables, fun entry hentry => ?_⟩
  rcases Directory.mem_of_mem_set hentry with rfl | hold
  · exact holds
  · exact hleft.caches entry hold

/-- A table is worked on, and it holds of that afterwards. -/
theorem setTable (h : w.Everywhere P Q) {placed : PlacedTable K V} (holds : P placed.table)
    {number : Nat} (tables : w'.tables = w.tables.modify number placed)
    (caches : w'.caches = w.caches) : w'.Everywhere P Q := by
  refine ⟨fun entry hentry => ?_, caches ▸ h.caches⟩
  rw [tables] at hentry
  rcases Directory.mem_of_mem_modify hentry with rfl | hold
  · exact holds
  · exact h.tables entry hold

/-- A cache is worked on, and it holds of that afterwards. -/
theorem setCache (h : w.Everywhere P Q) {placed : PlacedCache K V} (holds : Q placed.cache)
    {name : String} (tables : w'.tables = w.tables)
    (caches : w'.caches = w.caches.modify name placed) : w'.Everywhere P Q := by
  refine ⟨tables ▸ h.tables, fun entry hentry => ?_⟩
  rw [caches] at hentry
  rcases Directory.mem_of_mem_modify hentry with rfl | hold
  · exact holds
  · exact h.caches entry hold

/-- A walk is neither a table nor a cache. -/
theorem addWalk (h : w.Everywhere P Q) (newName : String) (number : Nat) (view : View)
    (entries : List (Entry K V)) : (w.addWalk newName number view entries).world.Everywhere P Q :=
  collect (h.of_eq rfl rfl)

end Everywhere

/-! ## Requests -/

variable [DecidableEq K] [Hashed K] [Ordered K] [Literal K] [DecidableEq V] [Literal V]

/-- What holds of all tables and caches that can be made, and goes on to hold of them whatever they
are asked for. -/
structure Persists (P : Table K V → Prop) (Q : Cache K V → Prop) : Prop where
  /-- It holds of new tables. -/
  created : ∀ shared options epoch t, Table.create shared options epoch = .ok t → P t
  /-- It holds of copies. -/
  copied : ∀ t r, t.Sound → r.Issued t.payloads → P t → P (t.copy r).result
  /-- It goes on to hold of a table that is asked for something. -/
  asked : ∀ t r request, t.Sound → r.Issued t.payloads → P t → P (t.perform r request).state
  /-- It holds of new caches. -/
  made : ∀ shared options epoch c, Cache.create shared options epoch = .ok c → Q c
  /-- It goes on to hold of a cache that is asked for something. -/
  served : ∀ c r request, c.Tiered [] → r.Issued c.payloads → Q c → Q (c.perform r request).state

namespace Everywhere

/-- A table that is asked for something. -/
theorem asked (h : w.Everywhere P Q) (sound : w.Sound) (persists : Persists P Q) {number : Nat}
    {placed : PlacedTable K V} (found : w.tables.find number = some placed)
    (request : Table.Request K V) :
    P (placed.table.perform (w.reclaimer placed.reclaimer) request).state :=
  persists.asked _ _ request (sound.tables _ (Directory.mem_of_find found)).table
    (sound.issued_table found) (h.tables _ (Directory.mem_of_find found))

/-- What persists goes on to hold everywhere, whatever comes of a request. -/
theorem of_effect (h : w.Everywhere P Q) (sound : w.Sound) (persists : Persists P Q)
    {request : Request K V} {notices : List (Notice K V)} (effect : w.Effect request w' notices) :
    w'.Everywhere P Q := by
  cases effect with
  | nothing => exact h
  | newTable _ hmade =>
    refine addTable ?_ (persists.created _ _ _ _ hmade) _
    exact h.of_eq rfl rfl
  | newCache _ hmade =>
    refine addCache ?_ (persists.made _ _ _ _ hmade) _
    exact h.of_eq rfl rfl
  | copy _ found =>
    have hcopy := persists.copied _ _ (sound.tables _ (Directory.mem_of_find found)).table
      (sound.issued_table found) (h.tables _ (Directory.mem_of_find found))
    refine addTable ?_ hcopy _
    exact h.of_eq rfl rfl
  | drop => exact h.removeNamed _
  | table _ found hdone =>
    subst hdone
    exact h.setTable (h.asked sound persists found _) rfl rfl
  | cache found hdone =>
    subst hdone
    have hcache := (sound.caches _ (Directory.mem_of_find found)).cache
    exact h.setCache (persists.served _ _ _ hcache (sound.issued_cache found)
      (h.caches _ (Directory.mem_of_find found))) rfl rfl
  | @recorder _ placed found =>
    have hkept : Q ({ placed with recorder := .empty } : PlacedCache K V).cache :=
      h.caches _ (Directory.mem_of_find found)
    exact h.setCache hkept rfl rfl
  | walk => exact h.addWalk ..
  | randomWalk _ found hdrawn =>
    subst hdrawn
    refine addWalk ?_ _ _ _ _
    exact h.setTable (h.asked sound persists found .randomEntries) rfl rfl
  | remove _ found hdone =>
    subst hdone
    refine h.setTable ?_ rfl rfl
    -- A walk that has come to nothing removes nothing.
    unfold Walk.remove
    split
    · exact h.tables _ (Directory.mem_of_find found)
    · next key _ => exact h.asked sound persists found (.removeKey key)
  | newReclaimer | reclaimer | goOn => exact h.of_eq rfl rfl

end Everywhere

/-- What persists holds everywhere in all reachable worlds. -/
theorem Reachable.everywhere (h : w.Reachable) (persists : Persists P Q) : w.Everywhere P Q := by
  suffices hboth : w.Sound ∧ w.Everywhere P Q from hboth.2
  exact h.induction (motive := fun w => w.Sound ∧ w.Everywhere P Q)
    (fun shared => ⟨sound_empty shared, .empty shared⟩) fun w request hw =>
      ⟨hw.1.perform request, hw.2.of_effect hw.1 persists (w.effect_perform request)⟩

end SoftCache.World
