import Mathlib.Data.List.Basic
import MiraOS.Machine.Signed

/-! Operations applied one after another from left to right: exactly, and in 32-bit words with the divisions
that the processor refuses. -/

namespace Machine

/-- The four operations. -/
inductive ArithOp where
  | add | sub | mul | div
  deriving DecidableEq, Repr

/-- The exact result; a quotient is cut towards zero. -/
def ArithOp.exact : ArithOp → Int → Int → Int
  | .add, left, right => left + right
  | .sub, left, right => left - right
  | .mul, left, right => left * right
  | .div, left, right => left.tdiv right

/-- The division that the processor refuses: by zero, or with a quotient past the range. -/
def DivisionFaults (left right : Int) : Prop := right = 0 ∨ (left = -2 ^ 31 ∧ right = -1)

instance (left right : Int) : Decidable (DivisionFaults left right) := inferInstanceAs (Decidable (_ ∨ _))

/-- An operation that the processor refuses. -/
def ArithOp.Faults (op : ArithOp) (left right : Int) : Prop := op = .div ∧ DivisionFaults left right

instance (op : ArithOp) (left right : Int) : Decidable (op.Faults left right) :=
  inferInstanceAs (Decidable (_ ∧ _))

/-- The result in a 32-bit word, if there is one. -/
def ArithOp.word (op : ArithOp) (left right : Int) : Option Int :=
  if op.Faults left right then none else some (wrap32 (op.exact left right))

/-- Operations with their right operands. -/
abbrev Operations : Type := List (ArithOp × Int)

/-- The exact value of operations, from left to right. -/
def exactRun (start : Int) (ops : Operations) : Int :=
  ops.foldl (fun value step => step.1.exact value step.2) start

/-- The value of operations in 32-bit words, whether or not the processor refuses one. -/
def wordValue (start : Int) (ops : Operations) : Int :=
  ops.foldl (fun value step => wrap32 (step.1.exact value step.2)) start

/-- The run of operations in 32-bit words, which ends at the first one that the processor refuses. -/
def wordRun (start : Int) : Operations → Option Int
  | [] => some start
  | step :: rest =>
    match step.1.word start step.2 with
    | none => none
    | some value => wordRun value rest

/-- No operation is refused, each in the value of those in front of it. -/
def FaultFree (start : Int) (ops : Operations) : Prop :=
  ∀ before right after, ops = before ++ (.div, right) :: after → ¬ DivisionFaults (wordValue start before) right

/-- All values on the way are in the range of 32 bits. -/
def InRange (start : Int) (ops : Operations) : Prop :=
  ∀ before, before <+: ops → Signed32 (exactRun start before)

/-- A first operation and those behind it, where none is refused. -/
theorem faultFree_cons {start : Int} {step : ArithOp × Int} {rest : Operations} :
    FaultFree start (step :: rest) ↔
      ¬ step.1.Faults start step.2 ∧ FaultFree (wrap32 (step.1.exact start step.2)) rest := by
  constructor
  · intro free
    refine ⟨fun ⟨division, faults⟩ => ?_, fun before right after split => ?_⟩
    · -- The first operation has nothing in front of it.
      obtain ⟨op, right⟩ := step
      cases division
      exact free [] right rest rfl faults
    · exact free (step :: before) right after (by rw [split]; rfl)
  · rintro ⟨first, others⟩ before right after split
    -- The first operation is refused, or one of those behind it.
    cases before with
    | nil =>
      obtain ⟨rfl, rfl⟩ := List.cons.inj split
      exact fun faults => first ⟨rfl, faults⟩
    | cons front middle =>
      obtain ⟨rfl, behind⟩ := List.cons.inj split
      exact others middle right after behind

/-- A run has a result exactly when no operation is refused, and it is then the value of all of them. -/
theorem wordRun_eq_some {start value : Int} {ops : Operations} :
    wordRun start ops = some value ↔ FaultFree start ops ∧ wordValue start ops = value := by
  -- The value in front of the rest is the wrapped result of the first operation.
  induction ops generalizing start with
  | nil =>
    have free : FaultFree start [] := by
      intro before right after split
      cases before <;> cases split
    simp [wordRun, wordValue, free]
  | cons step rest ih =>
    rw [wordRun, ArithOp.word, faultFree_cons]
    -- A first operation that is refused leaves no result.
    by_cases faults : step.1.Faults start step.2
    · simp [faults]
    · simp only [faults, if_false, ih, not_false_eq_true, true_and]
      rfl

end Machine
