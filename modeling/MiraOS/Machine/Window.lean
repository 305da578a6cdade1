import Mathlib.Data.List.Basic

/-! The last items of a list that grows at its end, and those that have left the window. -/

namespace Machine

section

variable {α : Type} (size : Nat) (items : List α)

/-- The last items, at most a number of them. -/
def lastItems : List α := items.drop (items.length - size)

/-- The items in front of the last ones. -/
def leftItems : List α := items.take (items.length - size)

/-- The window is as long as the list, or as its size. -/
theorem lastItems_length : (lastItems size items).length = min items.length size := by
  rw [lastItems, List.length_drop]
  omega

/-- While there is room a new item joins the window, and nothing leaves it. -/
theorem window_room (item : α) (room : items.length < size) :
    lastItems size (items ++ [item]) = lastItems size items ++ [item] ∧
      leftItems size (items ++ [item]) = leftItems size items := by
  -- Nothing has been taken off yet, and nothing is now.
  have before : items.length - size = 0 := by omega
  have after : (items ++ [item]).length - size = 0 := by
    rw [List.length_append, List.length_singleton]
    omega
  rw [lastItems, leftItems, lastItems, leftItems, before, after]
  simp

/-- A new item behind a full window takes the place of the first one, which leaves it. -/
theorem window_full (item : α) (full : size ≤ items.length) (positive : 0 < size) :
    lastItems size (items ++ [item]) = (lastItems size items).tail ++ [item] ∧
      leftItems size (items ++ [item]) = leftItems size items ++ (lastItems size items).head?.toList := by
  -- The cut moves on by one item.
  have moved : (items ++ [item]).length - size = items.length - size + 1 := by
    rw [List.length_append, List.length_singleton]
    omega
  have inside : items.length - size < items.length := by omega
  constructor
  · rw [lastItems, lastItems, moved, List.tail_drop, List.drop_append_of_le_length (by omega)]
  · rw [leftItems, leftItems, lastItems, moved, List.head?_drop, List.take_append_of_le_length (by omega),
      List.take_add_one]

/-- An item of the window, counted from the start of the list. -/
theorem lastItems_getElem? (i : Nat) :
    (lastItems size items)[i]? = items[items.length - min items.length size + i]? := by
  rw [lastItems, List.getElem?_drop]
  congr 1
  omega

end

end Machine
