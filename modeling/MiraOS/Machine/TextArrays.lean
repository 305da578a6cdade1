import MiraOS.Machine.Blocks
import Mathlib.Data.List.TakeWhile

/-! Texts in arrays of characters: the characters up to the first zero. -/

namespace Machine

/-- An array holds a text: its characters, the zero that ends it, and anything behind. -/
structure TextIn (array text : List UInt8) : Prop where
  solid : 0 ∉ text
  stored : ∃ rest, array = text ++ 0 :: rest

section

variable {array text front : List UInt8}

/-- The characters up to the first zero, and a zero behind all of them. -/
theorem textIn_literal (text : List UInt8) : TextIn (text ++ [0]) (text.takeWhile (· ≠ 0)) where
  solid among := by simpa using List.mem_takeWhile_imp among
  stored := by
    -- The text ends at its first zero, which may be the one that was put behind it.
    induction text with
    | nil => exact ⟨[], rfl⟩
    | cons c rest ih =>
      by_cases zero : c = 0
      · rw [zero]
        exact ⟨rest ++ [0], by simp⟩
      · obtain ⟨behind, same⟩ := ih
        rw [List.takeWhile_cons_of_pos (by simpa using zero), List.cons_append, same]
        exact ⟨behind, rfl⟩

/-- A text without a zero is all of it. -/
theorem textIn_solid (solid : 0 ∉ text) : TextIn (text ++ [0]) text := ⟨solid, [], rfl⟩

/-- The characters of an array, up to the one that ends the text. -/
theorem TextIn.getElem? (holds : TextIn array text) {i : Nat} (inside : i ≤ text.length) :
    array[i]? = some (text.getD i 0) := by
  obtain ⟨rest, rfl⟩ := holds.stored
  -- A byte of the text, or the terminator behind it.
  rcases Nat.lt_or_eq_of_le inside with less | rfl
  · rw [List.getElem?_append_left less, List.getD_eq_getElem?_getD, List.getElem?_eq_getElem less, Option.getD_some]
  · simp

/-- A text that is stored behind another one, with a zero, continues it. -/
theorem TextIn.overlay (frontSolid : 0 ∉ front) (begins : array.take front.length = front) (solid : 0 ∉ text) :
    TextIn (overlay array front.length (text ++ [0])) (front ++ text) where
  solid among := (List.mem_append.mp among).elim frontSolid solid
  stored := by
    -- Behind the new text stands what was behind it before.
    refine ⟨array.drop (front.length + (text ++ [0]).length), ?_⟩
    rw [Machine.overlay, begins]
    simp

/-- The text of an array stands at its front. -/
theorem TextIn.begins (holds : TextIn array text) : array.take text.length = text := by
  obtain ⟨rest, rfl⟩ := holds.stored
  exact List.take_left

end

end Machine
