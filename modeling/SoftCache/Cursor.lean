import SoftCache.Error
import SoftCache.Number.Rounding

/-!
# The eviction cursor

Where an eviction starts to look is drawn from an array of fractions that is read round and round.
A draw of the fraction `p` over a capacity `c` points at the bucket `p * c`, rounded down, where the
product is computed in the format of 64 bits that a fraction is given in.
-/

namespace SoftCache

/-- Fractions that are read in turn, and the one that is next. -/
structure Cursor where
  /-- The fractions, each in `[0, 1)`. -/
  fractions : List Binary
  /-- The position of the next fraction. -/
  position : Nat
deriving DecidableEq

/-- The bucket that a fraction of the capacity points at: always one of the `capacity` buckets. -/
def Binary.target (fraction : Binary) (capacity : Nat) : Nat :=
  match fraction with
  | .finite false significand exponent =>
    min (Arithmetic.double.product significand exponent capacity) (capacity - 1)
  | _ => 0

/-- A fraction of some buckets points at one of them. -/
theorem Binary.target_lt (fraction : Binary) {capacity : Nat} (h : 0 < capacity) :
    fraction.target capacity < capacity := by
  unfold target
  split
  · exact Nat.lt_of_le_of_lt (Nat.min_le_right _ _) (by omega)
  · exact h

namespace Cursor

/-- A cursor at the start of the fractions given, if there are any and all of them are in
`[0, 1)`. -/
def ofFractions (fractions : List Binary) : Except ConfigError Cursor :=
  if fractions.isEmpty then .error .noFractions
  else
    match fractions.find? fun fraction => !fraction.isFraction with
    | some bad => .error (.notFraction bad)
    | none => .ok ⟨fractions, 0⟩

/-- The fractions that make a cursor are those in `[0, 1)`, if there are any at all. -/
theorem ofFractions_eq_ok_iff {fractions : List Binary} {c : Cursor} :
    ofFractions fractions = .ok c ↔
      fractions ≠ [] ∧ (∀ fraction ∈ fractions, fraction.isFraction = true) ∧
        c = ⟨fractions, 0⟩ := by
  unfold ofFractions
  split
  · next none => simp_all
  · next some =>
    split
    · next bad found =>
      have outside : bad ∈ fractions ∧ bad.isFraction = false :=
        ⟨List.mem_of_find?_eq_some found, by simpa using List.find?_some found⟩
      simp only [reduceCtorEq, false_iff, not_and]
      intro _ inside
      simp [inside bad outside.1] at outside
    · next all =>
      constructor
      · intro made
        cases made
        refine ⟨by simpa using some, fun fraction member => ?_, rfl⟩
        simpa using List.find?_eq_none.mp all fraction member
      · rintro ⟨-, -, rfl⟩
        rfl

/-- The number of fractions that cursors share which are given none. -/
def sharedCount : Nat := 1000

end Cursor

/-- The fractions that are used where none are given. They are drawn at random once and for all, so
nothing is known of them but how many there are and where they lie. -/
structure SharedFractions where
  /-- The fractions. -/
  fractions : List Binary
  /-- There are as many as are drawn. -/
  length_eq : fractions.length = Cursor.sharedCount
  /-- All of them are in `[0, 1)`. -/
  inside : ∀ fraction ∈ fractions, fraction.isFraction = true

/-- Evenly spread multiples of `2 ^ -10`, in an order that jumps: what is shared where nothing has
been drawn. -/
def SharedFractions.spread : SharedFractions where
  fractions := (List.range Cursor.sharedCount).map fun i =>
    .finite false (i * 389 % Cursor.sharedCount) (-10)
  length_eq := by rw [List.length_map, List.length_range]
  inside := by
    intro fraction h
    obtain ⟨i, -, rfl⟩ := List.mem_map.mp h
    have hless : i * 389 % Cursor.sharedCount < Cursor.sharedCount := Nat.mod_lt _ (by decide)
    simp only [Binary.isFraction, Bool.or_eq_true, Bool.not_false, Bool.true_and, decide_eq_true_eq]
    right
    exact Nat.lt_of_lt_of_le (Nat.mul_lt_mul_of_pos_right hless (twoPow_pos _)) (by decide)

namespace Cursor

/-- A cursor over the shared fractions. -/
def shared (s : SharedFractions := .spread) : Cursor :=
  ⟨s.fractions, 0⟩

/-- A cursor over the fractions given, or else over the shared ones. -/
def ofFractions? (s : SharedFractions) : Option (List Binary) → Except ConfigError Cursor
  | none => .ok (shared s)
  | some fractions => ofFractions fractions

/-- The bucket that the next fraction points at. -/
def target (c : Cursor) (capacity : Nat) : Nat :=
  (c.fractions[c.position]?.getD .nan).target capacity

/-- The cursor after one draw. -/
def advance (c : Cursor) : Cursor :=
  { c with position := (c.position + 1) % c.fractions.length }

/-- A cursor over fractions points at one of them after every draw. -/
theorem position_advance_lt {c : Cursor} (h : c.fractions ≠ []) :
    c.advance.position < c.advance.fractions.length :=
  Nat.mod_lt _ (List.length_pos_iff.mpr h)

/-- The target is one of the buckets. -/
theorem target_lt (c : Cursor) {capacity : Nat} (h : 0 < capacity) :
    c.target capacity < capacity :=
  Binary.target_lt _ h

/-- The next `n` targets over one capacity, and the cursor after them. -/
def draw (c : Cursor) (capacity : Nat) : Nat → List Nat × Cursor
  | 0 => ([], c)
  | n + 1 =>
    let (rest, last) := c.advance.draw capacity n
    (c.target capacity :: rest, last)

/-- The cursor in a diagnostic text. -/
def literal (c : Cursor) : String :=
  let fractions := c.fractions.map (Layout.diagnostic.write .double)
  record "EvictionCursor"
    ["fractions: [" ++ ", ".intercalate fractions ++ "]", field "position" c.position]

end Cursor

end SoftCache
