import Mathlib.Data.Nat.Sqrt
import Mathlib.Tactic.Linarith
import Mathlib.Tactic.NormNum
import Mathlib.Tactic.Ring

/-! Digital circles: the points of an octant that a running error selects, and which of them are off the circle. -/

namespace Machine

/-- A point of an octant whose error is not positive yet, and would be one column further out.

The error counts the row twice beyond what a circle of this radius asks for. -/
def CirclePoint (r x y : Nat) : Prop :=
  y ≤ x ∧ x ^ 2 + y ^ 2 + 2 * y ≤ r ^ 2 ∧ r ^ 2 < (x + 1) ^ 2 + y ^ 2 + 2 * y

instance (r x y : Nat) : Decidable (CirclePoint r x y) := inferInstanceAs (Decidable (_ ∧ _ ∧ _))

/-- A point within one step of the circle. -/
def NearCircle (r x y : Nat) : Prop := (r - 1) ^ 2 ≤ x ^ 2 + y ^ 2 ∧ x ^ 2 + y ^ 2 ≤ (r + 1) ^ 2

instance (r x y : Nat) : Decidable (NearCircle r x y) := inferInstanceAs (Decidable (_ ∧ _))

/-- The small radii whose points are all near the circle. -/
def nearRadii : List Nat := [1, 2, 3, 5, 6, 8, 13]

/-- The small radii have points near the circle only. -/
theorem near_of_nearRadii {r x y : Nat} (small : r ∈ nearRadii) (point : CirclePoint r x y) : NearCircle r x y := by
  -- The largest of them is 13, and so are its coordinates at most.
  have every : ∀ r ∈ nearRadii, ∀ x ∈ List.range 14, ∀ y ∈ List.range 14, CirclePoint r x y → NearCircle r x y := by
    decide +kernel
  have few : r ≤ 13 := by
    have most : ∀ r ∈ nearRadii, r ≤ 13 := by decide
    exact most r small
  obtain ⟨steep, inside, -⟩ := id point
  have column : x ≤ r := by
    by_contra far
    have := Nat.pow_lt_pow_left (Nat.lt_of_not_le far) (show 2 ≠ 0 by decide)
    omega
  exact every r small x (List.mem_range.mpr (by omega)) y (List.mem_range.mpr (by omega)) point

/-- The point in the first row of a column, counted from the outermost one inwards. -/
def columnStart (r column : Nat) : Nat × Nat :=
  (r - column, Nat.sqrt (2 * (column - 1) * r - (column - 1) ^ 2 + 1))

/-- A row has one point only. -/
theorem CirclePoint.unique {r x z y : Nat} (one : CirclePoint r x y) (two : CirclePoint r z y) : x = z := by
  obtain ⟨-, below, above⟩ := one
  obtain ⟨-, lower, upper⟩ := two
  -- A point further out would be past the error of the first one.
  have order : ∀ {a b : Nat}, a ^ 2 + y ^ 2 + 2 * y ≤ r ^ 2 → r ^ 2 < (b + 1) ^ 2 + y ^ 2 + 2 * y → a ≤ b := by
    intro a b inside outside
    have squares : a ^ 2 < (b + 1) ^ 2 := by omega
    exact Nat.lt_succ_iff.mp (lt_of_pow_lt_pow_left₀ 2 (Nat.zero_le _) squares)
  exact Nat.le_antisymm (order below upper) (order lower above)

/-- Unless the second column starts at a square, its first point is too far inside. -/
theorem second_column_far {r y : Nat} (large : 4 ≤ r) (root : 2 * r < (y + 1) ^ 2) (short : y ^ 2 + 4 ≤ 2 * r) :
    CirclePoint r (r - 2) y ∧ ¬ NearCircle r (r - 2) y := by
  -- The second column is two steps inside the outermost one.
  obtain ⟨x, rfl⟩ : ∃ x, r = x + 2 := ⟨r - 2, by omega⟩
  rw [Nat.add_sub_cancel]
  have steep : y ≤ x := by nlinarith
  refine ⟨⟨steep, ?_, ?_⟩, ?_⟩
  · nlinarith
  · nlinarith
  · -- Its first point would have to be one row higher to be near.
    rintro ⟨near, -⟩
    rw [show x + 2 - 1 = x + 1 from rfl] at near
    nlinarith

/-- The first point of some column near the outermost one is too far inside. -/
def ColumnFar (r : Nat) : Prop :=
  ∃ column ∈ List.range 7, CirclePoint r (columnStart r column).1 (columnStart r column).2 ∧
    ¬ NearCircle r (columnStart r column).1 (columnStart r column).2

instance (r : Nat) : Decidable (ColumnFar r) := inferInstanceAs (Decidable (∃ column ∈ List.range 7, _))

/-- Where the second column starts at a square or right behind one, a later column is too far inside, but for the
small radii. -/
theorem later_column_far {y i r : Nat} (root : y < 182) (few : i < 4) (twice : 2 * r = y ^ 2 + i) (large : 4 ≤ r)
    (bound : r < 2 ^ 14) (other : r ∉ nearRadii) : ColumnFar r := by
  -- Twice a radius below 2^14 has a root below 182, so the cases are few enough to be tried.
  have every : ∀ y ∈ List.range 182, ∀ i ∈ List.range 4, (y ^ 2 + i) / 2 ∈ nearRadii ∨ (y ^ 2 + i) / 2 < 4 ∨
      2 ^ 14 ≤ (y ^ 2 + i) / 2 ∨ ColumnFar ((y ^ 2 + i) / 2) := by
    decide +kernel
  obtain rfl : (y ^ 2 + i) / 2 = r := by omega
  rcases every y (List.mem_range.mpr root) i (List.mem_range.mpr few) with near | small | past | far
  · exact absurd near other
  · omega
  · omega
  · exact far

/-- Of every radius up to 2^14 that is not one of the small ones, some point is too far inside. -/
theorem exists_far {r : Nat} (large : 4 ≤ r) (bound : r < 2 ^ 14) (other : r ∉ nearRadii) :
    ∃ x y, CirclePoint r x y ∧ ¬ NearCircle r x y := by
  have below := Nat.sqrt_le' (2 * r)
  have above := Nat.lt_succ_sqrt' (2 * r)
  -- The second column decides by how far its first row is from a square.
  by_cases short : Nat.sqrt (2 * r) ^ 2 + 4 ≤ 2 * r
  · exact ⟨_, _, second_column_far large above short⟩
  · -- Such a radius is given by a small root and what is left.
    have root : Nat.sqrt (2 * r) < 182 := by
      by_contra far
      have := Nat.pow_le_pow_left (Nat.le_of_not_lt far) 2
      omega
    obtain ⟨column, -, point⟩ := @later_column_far _ (2 * r - Nat.sqrt (2 * r) ^ 2) _ root (by omega) (by omega)
      large bound other
    exact ⟨_, _, point⟩

end Machine
