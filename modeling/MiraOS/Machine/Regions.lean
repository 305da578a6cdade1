import Mathlib.Data.List.Pairwise
import Mathlib.Data.Set.BooleanAlgebra
import Mathlib.Order.CompletePartialOrder

/-! Trees of regions that lie inside each other, and the innermost one around a point. -/

namespace Machine

/-- A tree with any number of children. -/
inductive RoseTree (α : Type) where
  | node (value : α) (children : List (RoseTree α))

section

variable {α : Type}

/-- The value of the root. -/
def RoseTree.value : RoseTree α → α
  | .node value _ => value

/-- The children of the root. -/
def RoseTree.children : RoseTree α → List (RoseTree α)
  | .node _ children => children

/-- A part of a tree, a number of levels below the root. -/
inductive PartAt : RoseTree α → Nat → RoseTree α → Prop where
  | here {tree : RoseTree α} : PartAt tree 0 tree
  | under {value : α} {children : List (RoseTree α)} {child part : RoseTree α} {depth : Nat} (among : child ∈ children)
      (below : PartAt child depth part) : PartAt (.node value children) (depth + 1) part

/-- A part below the root is a smaller tree. -/
theorem PartAt.smaller {tree part : RoseTree α} {depth : Nat} (below : PartAt tree depth part) :
    sizeOf part + depth ≤ sizeOf tree := by
  -- Every step down goes to a smaller tree.
  induction below with
  | here => exact Nat.le_refl _
  | under among _ ih =>
    have child := List.sizeOf_lt_of_mem among
    rw [RoseTree.node.sizeOf_spec]
    omega

variable {P : Type} (region : α → Set P)

/-- The regions of children lie inside the one of their parent and apart from each other. -/
inductive Nested : RoseTree α → Prop where
  | node {value : α} {children : List (RoseTree α)}
      (inside : ∀ child ∈ children, region child.value ⊆ region value)
      (apart : children.Pairwise fun one two => Disjoint (region one.value) (region two.value))
      (each : ∀ child ∈ children, Nested child) : Nested (.node value children)

/-- The part whose region contains a point and that lies furthest below the root. -/
structure Deepest (point : P) (tree : RoseTree α) (depth : Nat) (part : RoseTree α) : Prop where
  below : PartAt tree depth part
  inside : point ∈ region part.value
  deepest : ∀ level other, PartAt tree level other → point ∈ region other.value → level ≤ depth

variable {region} {point : P} {tree part child : RoseTree α} {depth : Nat}

/-- The parts of nested regions are nested, and lie inside the root. -/
theorem Nested.within (nested : Nested region tree) (below : PartAt tree depth part) :
    Nested region part ∧ region part.value ⊆ region tree.value := by
  -- Every step down stays nested, and its region lies inside the one above.
  induction below with
  | here => exact ⟨nested, subset_rfl⟩
  | under among _ ih =>
    obtain ⟨inside, -, each⟩ := nested
    obtain ⟨part, within⟩ := ih (each _ among)
    exact ⟨part, within.trans (inside _ among)⟩

/-- The children of nested regions lie inside the root. -/
theorem Nested.child_within (nested : Nested region tree) (among : child ∈ tree.children) :
    region child.value ⊆ region tree.value := by
  obtain ⟨inside, -, -⟩ := nested
  exact inside child among

/-- They lie apart from each other. -/
theorem Nested.apart (nested : Nested region tree) :
    tree.children.Pairwise fun one two => Disjoint (region one.value) (region two.value) := by
  obtain ⟨-, apart, -⟩ := nested
  exact apart

/-- One child at most contains a point. -/
theorem Nested.child_unique (nested : Nested region tree) {other : RoseTree α} (one : child ∈ tree.children)
    (two : other ∈ tree.children) (inside : point ∈ region child.value) (also : point ∈ region other.value) :
    child = other := by
  -- Two different children lie apart.
  by_contra differs
  have : Std.Symm fun one two : RoseTree α => Disjoint (region one.value) (region two.value) :=
    ⟨fun _ _ disjoint => disjoint.symm⟩
  exact Set.disjoint_left.mp (nested.apart.forall one two differs) inside also

/-- The innermost region around a point is the root's only if no child contains the point. -/
theorem Deepest.no_child (innermost : Deepest region point tree 0 part) :
    part = tree ∧ ∀ child ∈ tree.children, point ∉ region child.value := by
  obtain ⟨below, inside, deepest⟩ := innermost
  -- No level below the root is the root itself.
  cases below
  refine ⟨rfl, fun child among also => ?_⟩
  obtain ⟨value, children⟩ := tree
  exact absurd (deepest 1 child (.under among .here) also) (by decide)

/-- Otherwise it lies in the child that contains the point. -/
theorem Deepest.inChild (nested : Nested region tree) (innermost : Deepest region point tree (depth + 1) part) :
    ∃ child ∈ tree.children, point ∈ region child.value ∧ PartAt child depth part := by
  obtain ⟨below, inside, -⟩ := innermost
  -- The innermost part lies below a child, whose region then has the point.
  cases below with
  | under among below =>
    obtain ⟨-, -, each⟩ := nested
    exact ⟨_, among, ((each _ among).within below).2 inside, below⟩

end

end Machine
