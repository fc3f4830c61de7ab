import SoftCache.Proofs.Table.Cloning
import SoftCache.Proofs.World.Nulls
import SoftCache.Proofs.World.Sweeping

/-!
# Copying a table in a world

In a reachable world a copy of a table has the live entries of its original, bucket by bucket and in
order, and the original keeps them, as long as the budget has room for the payloads of the copy.
Registering them clears the oldest payloads otherwise, those of the original before they are copied
or afterwards (`World.halved_not_cloned`). What a copy is in any case, and when it is as one
expects, is `World.Reachable.cloning`.
-/

namespace SoftCache.World

variable {K V : Type} [DecidableEq K] [Hashed K] [Ordered K] [Literal K] [DecidableEq V]
  [Literal V] {w : World K V}

/-- A copy has some of the live entries that its original had before, among them all that it still
has, and the original loses those that hold one of the oldest payloads. Both have all that there was
just if no live entry holds one of the payloads that are too many if those of all live entries are
registered once more. -/
theorem Reachable.cloning (h : w.Reachable) {t : Table K V} {r : Reclaimer}
    (there : w.Has t r) :
    t.Cloning r ∧
      (t.Cloned r ↔ ∀ s ∈ t.buckets.slots, s.isStale r = false → ∀ payload ∈ s.payloads,
        payload ∉ r.doomed (t.config.weight * (t.entries r).length)) :=
  ⟨(h.sound.has there).copying (h.sound.issued_has there) (h.full_has there),
    (h.sound.has there).cloned_iff (h.sound.issued_has there) (h.full_has there)⟩

/-- A table with two values under a budget. -/
def paired (budget : Nat) : World UInt64 String :=
  run {}
    [.newReclaimer "r" (some budget),
      .newTable "t" { options := { valueStrength := .reclaimable }, reclaimer := some "r" },
      .table "t" (.put (some 1) (some "a")),
      .table "t" (.put (some 2) (some "b"))]

/-- A budget of four has room for a copy, and one of three has not: the table loses an entry. -/
theorem paired_cloning :
    (∃ placed, (paired 4).tables.find 0 = some placed ∧
      placed.table.Cloning ((paired 4).reclaimer placed.reclaimer) ∧
      placed.table.Cloned ((paired 4).reclaimer placed.reclaimer)) ∧
    ∃ placed, (paired 3).tables.find 0 = some placed ∧
      placed.table.Cloning ((paired 3).reclaimer placed.reclaimer) ∧
      ¬placed.table.Cloned ((paired 3).reclaimer placed.reclaimer) := by
  constructor
  · obtain ⟨placed, hfound⟩ : ∃ placed, (paired 4).tables.find 0 = some placed :=
      Option.isSome_iff_exists.mp (by decide +kernel)
    have hspared : ∀ placed ∈ (paired 4).tables.find 0, ∀ s ∈ placed.table.buckets.slots,
        s.isStale ((paired 4).reclaimer placed.reclaimer) = false → ∀ payload ∈ s.payloads,
          payload ∉ ((paired 4).reclaimer placed.reclaimer).doomed (placed.table.config.weight *
            (placed.table.entries ((paired 4).reclaimer placed.reclaimer)).length) := by
      decide +kernel
    have hreachable : (paired 4).Reachable := ⟨_, _, rfl⟩
    obtain ⟨hcloning, hiff⟩ := hreachable.cloning (.table (Directory.mem_of_find hfound))
    exact ⟨placed, hfound, hcloning, hiff.mpr (hspared placed hfound)⟩
  · obtain ⟨placed, hfound⟩ : ∃ placed, (paired 3).tables.find 0 = some placed :=
      Option.isSome_iff_exists.mp (by decide +kernel)
    have hdoomed : ∀ placed ∈ (paired 3).tables.find 0, ¬∀ s ∈ placed.table.buckets.slots,
        s.isStale ((paired 3).reclaimer placed.reclaimer) = false → ∀ payload ∈ s.payloads,
          payload ∉ ((paired 3).reclaimer placed.reclaimer).doomed (placed.table.config.weight *
            (placed.table.entries ((paired 3).reclaimer placed.reclaimer)).length) := by
      decide +kernel
    have hreachable : (paired 3).Reachable := ⟨_, _, rfl⟩
    obtain ⟨hcloning, hiff⟩ := hreachable.cloning (.table (Directory.mem_of_find hfound))
    exact ⟨placed, hfound, hcloning, fun hcloned => hdoomed placed hfound (hiff.mp hcloned)⟩

/-- Under a budget that is spent the copy of one value clears the other before that is copied, so
that neither the copy nor the table has it. -/
theorem halved_not_cloned :
    ((paired 2).outcomes [.table "t" .entries, .copy "t" "u", .table "u" .entries,
        .table "t" .entries]).map (·.reply) =
      [.items [.entry (some 2, some "b"), .entry (some 1, some "a")], .done,
        .items [.entry (some 2, some "b")], .items [.entry (some 2, some "b")]] ∧
      ∃ placed, (paired 2).tables.find 0 = some placed ∧
        ¬placed.table.Cloned ((paired 2).reclaimer placed.reclaimer) := by
  obtain ⟨placed, hfound⟩ : ∃ placed, (paired 2).tables.find 0 = some placed :=
    Option.isSome_iff_exists.mp (by decide +kernel)
  have hmissing : ∀ placed ∈ (paired 2).tables.find 0,
      let r := (paired 2).reclaimer placed.reclaimer
      let made := placed.table.copy r
      made.result.bucketEntries made.reclaimer ≠ placed.table.bucketEntries r := by
    decide +kernel
  exact ⟨by decide +kernel, placed, hfound, fun hcloned => hmissing placed hfound hcloned.copied⟩

end SoftCache.World
