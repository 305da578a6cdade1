import Mathlib.Data.List.Basic
import Mathlib.Logic.Function.Basic

/-! Checksums that are folded step by step, and sequences that differ in one place. -/

namespace Machine

/-- Two sequences of the same length differ in one place, and nowhere else. -/
structure DiffersAt {α : Type} (one two : List α) (i : Nat) : Prop where
  length : two.length = one.length
  inside : i < one.length
  here : two[i]? ≠ one[i]?
  others : ∀ j, j ≠ i → two[j]? = one[j]?

/-- A step that loses neither the state nor the byte. -/
structure Mixes {σ α : Type} (step : σ → α → σ) : Prop where
  state : ∀ byte, Function.Injective fun state => step state byte
  byte : ∀ state, Function.Injective (step state)

section

variable {σ α : Type} {step : σ → α → σ} {one two : List α} {i : Nat}

/-- Sequences that differ in one place agree in front of it and behind it. -/
theorem DiffersAt.split (differs : DiffersAt one two i) : ∃ front back first second,
    one = front ++ first :: back ∧ two = front ++ second :: back ∧ first ≠ second := by
  -- The two elements at that place come between the same parts.
  have inside : i < one.length := differs.inside
  have other : i < two.length := differs.length ▸ differs.inside
  have front : two.take i = one.take i := by
    apply List.ext_getElem?
    intro j
    by_cases low : j < i
    · rw [List.getElem?_take_of_lt low, List.getElem?_take_of_lt low]
      exact differs.others j (by omega)
    · rw [List.getElem?_take_eq_none (by omega), List.getElem?_take_eq_none (by omega)]
  have back : two.drop (i + 1) = one.drop (i + 1) := by
    apply List.ext_getElem?
    intro j
    rw [List.getElem?_drop, List.getElem?_drop]
    exact differs.others _ (by omega)
  refine ⟨one.take i, one.drop (i + 1), one[i], two[i], ?_, ?_, fun same => ?_⟩
  · rw [← List.drop_eq_getElem_cons inside, List.take_append_drop]
  · rw [← front, ← back, ← List.drop_eq_getElem_cons other, List.take_append_drop]
  · apply differs.here
    rw [List.getElem?_eq_getElem other, List.getElem?_eq_getElem inside, same]

/-- Another element in one place makes a difference there. -/
theorem differsAt_set {element : α} (inside : i < one.length) (differ : one[i]? ≠ some element) :
    DiffersAt one (one.set i element) i := by
  -- The changed place differs, and every other place is the same.
  refine ⟨List.length_set, inside, ?_, fun j apart => ?_⟩
  · rw [List.getElem?_set_self inside]
    exact differ.symm
  · exact List.getElem?_set_ne (Ne.symm apart)

/-- A fold of such steps loses nothing of the state that it starts from. -/
theorem Mixes.foldl_injective (mixes : Mixes step) (bytes : List α) :
    Function.Injective fun state => bytes.foldl step state := by
  -- Induction on the bytes: each step maps different states to different states.
  induction bytes with
  | nil => exact fun _ _ same => same
  | cons byte bytes ih =>
    intro first second same
    exact mixes.state byte (ih same)

/-- A fold of such steps tells sequences apart that differ in one place. -/
theorem Mixes.foldl_differs (mixes : Mixes step) (start : σ) (differs : DiffersAt one two i) :
    one.foldl step start ≠ two.foldl step start := by
  -- The steps in front are the same, and those behind keep the difference.
  obtain ⟨front, back, first, second, rfl, rfl, differ⟩ := differs.split
  rw [List.foldl_append, List.foldl_append, List.foldl_cons, List.foldl_cons]
  intro same
  apply differ
  exact mixes.byte _ (mixes.foldl_injective back same)

end

end Machine
