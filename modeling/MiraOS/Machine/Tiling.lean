import Mathlib.Algebra.BigOperators.Group.List.Basic
import Mathlib.Algebra.GroupWithZero.Nat
import Mathlib.Data.List.Basic

/-! Pieces of memory that tile an interval without a gap. -/

namespace Machine

section

variable {α : Type} {start length : α → Nat}

/-- The pieces follow each other without a gap from the first address to the last. -/
def Tiles (start length : α → Nat) : Nat → List α → Nat → Prop
  | low, [], high => low = high
  | low, piece :: rest, high => start piece = low ∧ Tiles start length (low + length piece) rest high

/-- A tiling of two parts meets at one address. -/
theorem tiles_append {low high : Nat} {left right : List α} :
    Tiles start length low (left ++ right) high ↔
      ∃ middle, Tiles start length low left middle ∧ Tiles start length middle right high := by
  -- The two parts meet where the pieces of the left one end.
  induction left generalizing low with
  | nil => simp [Tiles]
  | cons piece rest ih =>
    simp only [List.cons_append, Tiles, ih]
    constructor
    · rintro ⟨first, middle, before, after⟩
      exact ⟨middle, ⟨first, before⟩, after⟩
    · rintro ⟨middle, ⟨first, before⟩, after⟩
      exact ⟨first, middle, before, after⟩

/-- The end of a tiling is its start plus all lengths. -/
theorem Tiles.sum_eq {low high : Nat} {pieces : List α} (tiles : Tiles start length low pieces high) :
    low + (pieces.map length).sum = high := by
  -- Each piece starts where the one before ends.
  induction pieces generalizing low with
  | nil => simpa [Tiles] using tiles
  | cons piece rest ih =>
    have tail := ih tiles.2
    simp only [List.map_cons, List.sum_cons]
    omega

/-- The end of a tiling is not before its start. -/
theorem Tiles.le {low high : Nat} {pieces : List α} (tiles : Tiles start length low pieces high) :
    low ≤ high := by
  have := tiles.sum_eq
  omega

/-- Every piece lies inside the tiled interval. -/
theorem Tiles.inside {low high : Nat} {pieces : List α} (tiles : Tiles start length low pieces high)
    {piece : α} (member : piece ∈ pieces) :
    low ≤ start piece ∧ start piece + length piece ≤ high := by
  -- The pieces before a piece end at its start, and those behind it start at its end.
  obtain ⟨before, after, rfl⟩ := List.append_of_mem member
  obtain ⟨middle, left, first, right⟩ := tiles_append.mp tiles
  have := left.le
  have := right.le
  omega

/-- Each piece ends before every later one starts. -/
theorem Tiles.pairwise {low high : Nat} {pieces : List α} (tiles : Tiles start length low pieces high) :
    pieces.Pairwise (fun one two => start one + length one ≤ start two) := by
  -- Everything behind a piece is tiled from its end on.
  induction pieces generalizing low with
  | nil => exact .nil
  | cons piece rest ih =>
    refine .cons (fun other member => ?_) (ih tiles.2)
    have := tiles.2.inside member
    have := tiles.1
    omega

/-- Two different places of a tiling hold disjoint pieces. -/
theorem Tiles.disjoint {low high : Nat} {pieces : List α} (tiles : Tiles start length low pieces high)
    {one two : α} (left : one ∈ pieces) (right : two ∈ pieces) (differ : one ≠ two) :
    start one + length one ≤ start two ∨ start two + length two ≤ start one := by
  -- One of the two pieces stands before the other in the list.
  obtain ⟨before, after, rfl⟩ := List.append_of_mem left
  have ordered := tiles.pairwise
  rw [List.pairwise_append, List.pairwise_cons] at ordered
  obtain ⟨_, ⟨later, _⟩, earlier⟩ := ordered
  rcases List.mem_append.mp right with member | member
  · exact .inr (earlier two member one List.mem_cons_self)
  · rcases List.mem_cons.mp member with same | member
    · exact absurd same.symm differ
    · exact .inl (later two member)

end

end Machine
