import SoftCache.Proofs.World.Frames

/-!
# Names of tables

Every table is brought in under a number of its own, so no two names ever lead to the same table
(`World.Reachable.named`), and what is asked of one table under its name is not asked of another.
-/

namespace SoftCache.World

variable {K V : Type} {w w' : World K V}

/-- Names of tables that lead to different tables. -/
structure Named (w : World K V) : Prop where
  /-- A table that has a name has been numbered. -/
  below : ∀ name number, w.tableNames.find name = some number → number < w.nextTable
  /-- No two names lead to the same table. -/
  apart : ∀ name other number, w.tableNames.find name = some number →
    w.tableNames.find other = some number → name = other

namespace Named

/-- Only names and numbers matter. -/
theorem of_eq (h : w.Named) (names : w'.tableNames = w.tableNames)
    (next : w'.nextTable = w.nextTable) : w'.Named := by
  constructor
  · rw [names, next]
    exact h.below
  · rw [names]
    exact h.apart

/-- To collect what nobody can reach changes no name. -/
theorem collect (h : w.Named) : w.collect.Named := by
  obtain ⟨reclaimers, -, heq⟩ := w.collect_eq
  rw [heq]
  exact h.of_eq rfl rfl

/-- To remove a cache changes no name of a table. -/
theorem removeCache (h : w.Named) (name : String) : (w.removeCache name).Named := by
  obtain ⟨reclaimers, -, heq⟩ := w.removeCache_eq name
  rw [heq]
  exact h.of_eq rfl rfl

/-- A name is given up. -/
theorem removeNamed (h : w.Named) (name : String) : (w.removeNamed name).Named := by
  have hfind : ∀ other number, (w.tableNames.erase name).find other = some number →
      w.tableNames.find other = some number := by
    intro other number hnumber
    rw [Directory.find_erase] at hnumber
    split at hnumber
    · cases hnumber
    · exact hnumber
  have herased : Named { w with tableNames := w.tableNames.erase name } :=
    ⟨fun other number hother => h.below other number (hfind other number hother),
      fun one other number hone hother =>
        h.apart one other number (hfind one number hone) (hfind other number hother)⟩
  exact herased.collect.removeCache name

/-- A table is brought in with a number that no other has. -/
theorem addTable (h : w.Named) (name : String) (placed : PlacedTable K V) :
    (w.addTable name placed).Named := by
  have hput : (w.enterTable name placed).Named := by
    constructor
    · intro other number hnumber
      rw [find_tableNames_enterTable] at hnumber
      split at hnumber
      · cases hnumber
        exact Nat.lt_succ_self _
      · exact (h.below other number hnumber).trans (Nat.lt_succ_self _)
    · intro one other number hone hother
      rw [find_tableNames_enterTable] at hone hother
      -- The new number was not used before.
      split at hone <;> split at hother
      · next hfirst hsecond => exact hfirst.symm.trans hsecond
      · cases hone
        exact absurd (h.below other _ hother) (Nat.lt_irrefl _)
      · cases hother
        exact absurd (h.below one _ hone) (Nat.lt_irrefl _)
      · exact h.apart one other number hone hother
  exact hput.collect.removeCache name

/-- To bring a cache in changes no name of a table. -/
theorem addCache (h : w.Named) (name : String) (placed : PlacedCache K V) :
    (w.addCache name placed).Named :=
  (h.removeNamed name).of_eq rfl rfl

/-- To begin a walk changes no name. -/
theorem addWalk (h : w.Named) (newName : String) (number : Nat) (view : View)
    (entries : List (Entry K V)) : (w.addWalk newName number view entries).world.Named := by
  have hwalk : Named { w with walks := w.walks.set newName ⟨.start view entries, number⟩ } :=
    h.of_eq rfl rfl
  exact hwalk.collect

variable [DecidableEq K] [Hashed K] [Ordered K] [Literal K] [DecidableEq V] [Literal V]

/-- Whatever comes of a request, the names of tables stay apart. -/
theorem of_effect (h : w.Named) {request : Request K V} {notices : List (Notice K V)}
    (effect : w.Effect request w' notices) : w'.Named := by
  cases effect with
  | nothing => exact h
  | newTable | copy =>
    refine addTable ?_ _ _
    exact h.of_eq rfl rfl
  | newCache =>
    refine addCache ?_ _ _
    exact h.of_eq rfl rfl
  | drop => exact h.removeNamed _
  | walk => exact h.addWalk ..
  | randomWalk =>
    refine addWalk ?_ _ _ _ _
    exact h.of_eq rfl rfl
  | newReclaimer | table | cache | recorder | reclaimer | goOn | remove => exact h.of_eq rfl rfl

/-- Whatever is asked, no two names lead to the same table. -/
theorem perform (h : w.Named) (request : Request K V) : (w.perform request).world.Named :=
  h.of_effect (w.effect_perform request)

end Named

/-- In all reachable worlds the names of tables lead to different tables. -/
theorem Reachable.named [DecidableEq K] [Hashed K] [Ordered K] [Literal K] [DecidableEq V]
    [Literal V] (h : w.Reachable) : w.Named :=
  h.induction (fun _ => ⟨fun _ _ hnone => absurd hnone.symm (Option.some_ne_none _),
    fun _ _ _ hnone => absurd hnone.symm (Option.some_ne_none _)⟩)
    fun _ request hw => hw.perform request

end SoftCache.World
