import Mathlib.Logic.Function.Iterate
import Mathlib.Tactic.Ring
import Mathlib.Tactic.Linarith

/-! Digital straight lines: points that follow the line from the origin to a point, one step at a time. -/

namespace Machine

/-- How far a point is off the line to (dx, dy), as a cross product. -/
def lineError (dx dy : Nat) (point : Nat × Nat) : Int := dx * point.2 - dy * point.1

/-- The next point, with a step in each direction that the error asks for. -/
def lineNext (dx dy : Nat) (point : Nat × Nat) : Nat × Nat :=
  let twice : Int := 2 * (dx - dy + lineError dx dy point)
  (point.1 + if -(dy : Int) < twice then 1 else 0, point.2 + if twice < dx then 1 else 0)

/-- The point after a number of steps. -/
def linePoint (dx dy k : Nat) : Nat × Nat := (lineNext dx dy)^[k] (0, 0)

/-- What holds of a point of the line after a number of steps: the longer direction has taken every step, and
the other one is off by half a step at most. -/
structure FollowsLine (dx dy k : Nat) (point : Nat × Nat) : Prop where
  flat : dy ≤ dx → point.1 = k
  steep : dx ≤ dy → point.2 = k
  low : -(max dx dy : Nat) ≤ 2 * lineError dx dy point
  high : 2 * lineError dx dy point ≤ (max dx dy : Nat)

/-- The points of the line, one after another. -/
theorem linePoint_succ (dx dy k : Nat) : linePoint dx dy (k + 1) = lineNext dx dy (linePoint dx dy k) :=
  Function.iterate_succ_apply' _ _ _

/-- A step changes the error by what its directions cost. -/
theorem lineError_add (dx dy x y i j : Nat) :
    lineError dx dy (x + i, y + j) = lineError dx dy (x, y) + dx * j - dy * i := by
  simp only [lineError]
  push_cast
  ring

/-- On the diagonal there is no error. -/
theorem lineError_diagonal (d k : Nat) : lineError d d (k, k) = 0 := by
  rw [lineError, Int.sub_self]

/-- A step from a point that follows the line before its end leads to one. -/
theorem FollowsLine.next {dx dy k : Nat} {point : Nat × Nat} (follows : FollowsLine dx dy k point)
    (inside : k < max dx dy) : FollowsLine dx dy (k + 1) (lineNext dx dy point) := by
  obtain ⟨x, y⟩ := point
  obtain ⟨flat, steep, low, high⟩ := follows
  dsimp only at flat steep
  rw [lineNext]
  dsimp only
  -- The directions compare in three ways, and each says which steps are taken for sure.
  rcases Nat.lt_trichotomy dx dy with tall | rfl | wide
  · -- The step up is taken, and the error decides about the one to the side.
    have up : 2 * (dx - dy + lineError dx dy (x, y)) < (dx : Int) := by omega
    obtain rfl := steep (by omega)
    rw [if_pos up]
    by_cases aside : -(dy : Int) < 2 * (dx - dy + lineError dx dy (x, y))
    · rw [if_pos aside]
      refine ⟨fun other => by omega, fun _ => rfl, ?_, ?_⟩
      · rw [lineError_add]
        omega
      · rw [lineError_add]
        omega
    · rw [if_neg aside]
      refine ⟨fun other => by omega, fun _ => rfl, ?_, ?_⟩
      · rw [lineError_add]
        omega
      · rw [lineError_add]
        omega
  · -- Both steps are taken along the diagonal.
    obtain rfl := flat (Nat.le_refl _)
    obtain rfl := steep (Nat.le_refl _)
    rw [lineError_diagonal] at low high ⊢
    rw [if_pos (by omega), if_pos (by omega)]
    refine ⟨fun _ => rfl, fun _ => rfl, ?_, ?_⟩
    · rw [lineError_diagonal]
      omega
    · rw [lineError_diagonal]
      omega
  · -- The step to the side is taken, and the error decides about the one up.
    have aside : -(dy : Int) < 2 * (dx - dy + lineError dx dy (x, y)) := by omega
    obtain rfl := flat (by omega)
    rw [if_pos aside]
    by_cases up : 2 * (dx - dy + lineError dx dy (x, y)) < (dx : Int)
    · rw [if_pos up]
      refine ⟨fun _ => rfl, fun other => by omega, ?_, ?_⟩
      · rw [lineError_add]
        omega
      · rw [lineError_add]
        omega
    · rw [if_neg up]
      refine ⟨fun _ => rfl, fun other => by omega, ?_, ?_⟩
      · rw [lineError_add]
        omega
      · rw [lineError_add]
        omega

/-- Every point up to the end follows the line. -/
theorem linePoint_follows {dx dy k : Nat} (inside : k ≤ max dx dy) : FollowsLine dx dy k (linePoint dx dy k) := by
  -- Step after step from the origin.
  induction k with
  | zero =>
    refine ⟨fun _ => rfl, fun _ => rfl, ?_, ?_⟩
    · simp [linePoint, lineError]
    · simp [linePoint, lineError]
  | succ k ih =>
    rw [linePoint_succ]
    exact (ih (by omega)).next inside

/-- A point that follows the line lies between its ends. -/
theorem FollowsLine.box {dx dy k : Nat} {point : Nat × Nat} (follows : FollowsLine dx dy k point)
    (inside : k ≤ max dx dy) : point.1 ≤ dx ∧ point.2 ≤ dy := by
  obtain ⟨x, y⟩ := point
  obtain ⟨flat, steep, low, high⟩ := follows
  dsimp only at flat steep ⊢
  simp only [lineError] at low high
  -- A point past the end of the shorter direction would be off by more than half a step.
  rcases Nat.le_total dy dx with wide | tall
  · -- The first direction has taken all its steps, and the second one is the one that could run over.
    obtain rfl := flat wide
    rw [Nat.max_eq_left wide] at inside high
    refine ⟨inside, ?_⟩
    by_contra past
    have beyond : (dx : Int) * (dy + 1) ≤ dx * y := by
      exact_mod_cast Nat.mul_le_mul_left dx (Nat.lt_of_not_le past)
    have limit : (dy : Int) * x ≤ dy * dx := by exact_mod_cast Nat.mul_le_mul_left dy inside
    have empty : dx = 0 := by nlinarith
    omega
  · -- The other way round.
    obtain rfl := steep tall
    rw [Nat.max_eq_right tall] at inside low
    refine ⟨?_, inside⟩
    by_contra past
    have beyond : (dy : Int) * (dx + 1) ≤ dy * x := by
      exact_mod_cast Nat.mul_le_mul_left dy (Nat.lt_of_not_le past)
    have limit : (dx : Int) * y ≤ dx * dy := by exact_mod_cast Nat.mul_le_mul_left dx inside
    have empty : dy = 0 := by nlinarith
    omega

/-- The points before the last one are not the end of the line. -/
theorem linePoint_ne_end {dx dy k : Nat} (inside : k < max dx dy) : linePoint dx dy k ≠ (dx, dy) := by
  intro same
  have follows := linePoint_follows (Nat.le_of_lt inside)
  rw [same] at follows
  -- The longer direction has not taken all of its steps.
  rcases Nat.le_total dy dx with wide | tall
  · have := follows.flat wide
    dsimp only at this
    omega
  · have := follows.steep tall
    dsimp only at this
    omega

/-- The last point is the end of the line. -/
theorem linePoint_end (dx dy : Nat) : linePoint dx dy (max dx dy) = (dx, dy) := by
  have follows := @linePoint_follows dx dy _ (Nat.le_refl _)
  obtain ⟨left, right⟩ := follows.box (Nat.le_refl _)
  generalize linePoint dx dy (max dx dy) = point at *
  obtain ⟨x, y⟩ := point
  obtain ⟨flat, steep, low, high⟩ := follows
  dsimp only at flat steep left right
  simp only [lineError] at low high
  -- At the end of the longer direction, less than a whole step is missing in the other one.
  rcases Nat.le_total dy dx with wide | tall
  · rw [Nat.max_eq_left wide] at flat low
    obtain rfl := flat wide
    have same : y = dy := by
      by_contra differs
      have short : (x : Int) * (y + 1) ≤ x * dy := by
        exact_mod_cast Nat.mul_le_mul_left x (show y + 1 ≤ dy by omega)
      have empty : x = 0 := by nlinarith
      omega
    rw [same]
  · rw [Nat.max_eq_right tall] at steep high
    obtain rfl := steep tall
    have same : x = dx := by
      by_contra differs
      have short : (y : Int) * (x + 1) ≤ y * dx := by
        exact_mod_cast Nat.mul_le_mul_left y (show x + 1 ≤ dx by omega)
      have empty : y = 0 := by nlinarith
      omega
    rw [same]

/-- A step changes each direction by one at most. -/
theorem lineNext_near (dx dy : Nat) (point : Nat × Nat) :
    (point.1 ≤ (lineNext dx dy point).1 ∧ (lineNext dx dy point).1 ≤ point.1 + 1) ∧
      point.2 ≤ (lineNext dx dy point).2 ∧ (lineNext dx dy point).2 ≤ point.2 + 1 := by
  rw [lineNext]
  dsimp only
  -- Each direction is left or goes on by one.
  constructor
  · split <;> omega
  · split <;> omega

end Machine
