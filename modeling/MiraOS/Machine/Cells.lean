import MiraOS.Machine.Blocks
import MiraOS.Machine.Slots

/-! Blocks of bytes read as arrays of cells of one size. -/

namespace Machine

/-- The bytes of a cell. -/
def cell (size : Nat) (block : List UInt8) (index : Nat) : List UInt8 :=
  (block.drop (index * size)).take size

section

variable {size : Nat} {block : List UInt8} {index : Nat}

/-- A cell ends where the next one starts, and later cells lie behind it. -/
theorem cell_end_le {other : Nat} (before : index < other) (size : Nat) : index * size + size ≤ other * size := by
  calc
    index * size + size = (index + 1) * size := (Nat.succ_mul index size).symm
    _ ≤ other * size := Nat.mul_le_mul_right size before

/-- A cell inside the block has its full size. -/
theorem cell_length (inside : index * size + size ≤ block.length) : (cell size block index).length = size := by
  rw [cell, List.length_take, List.length_drop]
  omega

/-- The bytes of a cell one by one. -/
theorem cell_getElem? (size : Nat) (block : List UInt8) (index j : Nat) :
    (cell size block index)[j]? = if j < size then block[index * size + j]? else none := by
  rw [cell, List.getElem?_take]
  -- A byte past the size belongs to the next cell.
  split_ifs
  · rw [List.getElem?_drop]
  · rfl

/-- Laying bytes over a cell stores them in it and leaves the other cells. -/
theorem cell_overlay {bytes : List UInt8} (full : bytes.length = size)
    (inside : index * size + size ≤ block.length) :
    cell size (overlay block (index * size) bytes) = Function.update (cell size block) index bytes := by
  funext other
  apply List.ext_getElem?
  intro j
  -- A byte of the block is a new one exactly inside of the bytes that were laid.
  have laid := fun position => @overlay_getElem? block (index * size) bytes (by omega) position
  by_cases here : other = index
  · rw [here, Function.update_self, cell_getElem?, laid]
    by_cases short : j < size
    · rw [if_pos short, if_pos (by omega), Nat.add_sub_cancel_left]
    · rw [if_neg short, List.getElem?_eq_none (by omega)]
  · rw [Function.update_of_ne here, cell_getElem?, cell_getElem?]
    by_cases short : j < size
    · -- A byte of another cell is in front of the bytes or behind them.
      have apart : ¬ (index * size ≤ other * size + j ∧ other * size + j < index * size + bytes.length) := by
        rcases Nat.lt_or_gt_of_ne here with before | behind
        · have := cell_end_le before size
          omega
        · have := cell_end_le behind size
          omega
      rw [if_pos short, if_pos short, laid, if_neg apart]
    · rw [if_neg short, if_neg short]

/-- The cells at the start of a block do not depend on what is behind them. -/
theorem cell_append (inside : index * size + size ≤ block.length) (more : List UInt8) :
    cell size (block ++ more) index = cell size block index := by
  apply List.ext_getElem?
  intro j
  rw [cell_getElem?, cell_getElem?]
  split_ifs with short
  · -- A byte of the cell is a byte of the block.
    rw [List.getElem?_append_left (by omega)]
  · rfl

/-- The bytes in front of a position have the cells that end before it. -/
theorem cell_take {count : Nat} (before : index < count) :
    cell size (block.take (count * size)) index = cell size block index := by
  -- A cell in front ends where those in front do at the latest.
  have ends := cell_end_le before size
  apply List.ext_getElem?
  intro j
  rw [cell_getElem?, cell_getElem?]
  split_ifs with short
  · rw [List.getElem?_take_of_lt (by omega)]
  · rfl

end

end Machine
