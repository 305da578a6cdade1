import MiraOS.Lib.Strings

/-! Copies of lib/common/mem.c between runs of bytes that overlap. -/

namespace MiraOS

open Machine

/-- The loop from high to low addresses, with the number of bytes that are left. -/
def memmoveDown (dest src : Nat) : Nat → Memory → Memory
  | 0, mem => mem
  | i + 1, mem => memmoveDown dest src i (Function.update mem (dest + i) (mem (src + i)))

/-- Copy bytes in the direction in which none is overwritten before it is read. -/
def memmove (mem : Memory) (dest src count : Nat) : Memory :=
  if dest < src then
    (List.range count).foldl (fun mem i => Function.update mem (dest + i) (mem (src + i))) mem
  else if src < dest then memmoveDown dest src count mem
  -- A run is not copied onto itself.
  else mem

/-- Memory after a copy that reads all bytes before it writes the first one. -/
def copiedAtOnce (mem : Memory) (dest src count : Nat) : Memory := fun byte =>
  if dest ≤ byte ∧ byte < dest + count then mem (src + (byte - dest)) else mem byte

/-- The run that is copied to, and everything else, after a copy at once. -/
theorem copiedAtOnce_apply (mem : Memory) (dest src count : Nat) :
    (∀ i < count, copiedAtOnce mem dest src count (dest + i) = mem (src + i)) ∧
      ∀ byte, byte < dest ∨ dest + count ≤ byte → copiedAtOnce mem dest src count byte = mem byte := by
  constructor
  · -- The target bytes are those of the source.
    intro i inside
    rw [copiedAtOnce, if_pos (by omega), Nat.add_sub_cancel_left]
  · -- A byte outside the target is not written.
    intro byte outside
    rw [copiedAtOnce, if_neg (by omega)]

/-- Copying upwards from the last byte on is copying at once. -/
theorem memmoveDown_eq {dest src : Nat} (up : src < dest) (count : Nat) (mem : Memory) :
    memmoveDown dest src count mem = copiedAtOnce mem dest src count := by
  funext byte
  -- Each turn writes above the bytes that are still to be read.
  induction count generalizing mem with
  | zero => rw [memmoveDown, copiedAtOnce, if_neg (by omega)]
  | succ i ih =>
    rw [memmoveDown, ih, copiedAtOnce, copiedAtOnce]
    by_cases before : dest ≤ byte ∧ byte < dest + i
    · rw [if_pos before, if_pos (by omega), Function.update_of_ne (by omega)]
    · rw [if_neg before]
      by_cases last : byte = dest + i
      · rw [last, Function.update_self, if_pos (by omega), Nat.add_sub_cancel_left]
      · rw [Function.update_of_ne last, if_neg (by omega)]

/-- Copying downwards from the first byte on is copying at once. -/
theorem memcpy_eq {dest src : Nat} (down : dest ≤ src) (count : Nat) (mem : Memory) :
    memcpy mem dest src count = copiedAtOnce mem dest src count :=
  funext (memcpy_down mem down count)

/-- A run copied at once onto itself is as it was. -/
theorem copiedAtOnce_self (mem : Memory) (dest count : Nat) : copiedAtOnce mem dest dest count = mem := by
  funext byte
  rw [copiedAtOnce]
  -- Copying a range onto itself writes what was there.
  split_ifs with inside
  · rw [Nat.add_sub_cancel' inside.1]
  · rfl

/-- Whatever the overlap is, moving is copying at once. -/
theorem memmove_eq (mem : Memory) (dest src count : Nat) :
    memmove mem dest src count = copiedAtOnce mem dest src count := by
  rw [memmove]
  -- From low to high where the destination lies below, from high to low where it lies above.
  split_ifs with down up
  · exact memcpy_eq (Nat.le_of_lt down) count mem
  · exact memmoveDown_eq up count mem
  · -- A part that is moved to itself stays.
    obtain rfl : dest = src := by omega
    exact (copiedAtOnce_self mem dest count).symm

/--
A move leaves the bytes of the source, as they were, in the destination, and changes no other byte.

So does the plain copy when the destination is not behind the source.
-/
theorem memmove_moves (mem : Memory) (dest src count : Nat) :
    ((∀ i < count, memmove mem dest src count (dest + i) = mem (src + i)) ∧
        ∀ byte, byte < dest ∨ dest + count ≤ byte → memmove mem dest src count byte = mem byte) ∧
      (dest ≤ src → memcpy mem dest src count = memmove mem dest src count) := by
  constructor
  · -- Both directions of the loop give the copy made at once.
    rw [memmove_eq]
    exact copiedAtOnce_apply mem dest src count
  · -- Going up is safe when the target lies below the source, which is all that `memcpy` does.
    intro down
    rw [memcpy_eq down, memmove_eq]

/-- Numbered bytes are moved up by one, and copied down by one, over what is still to be read. -/
theorem numbered_bytes_moved :
    (memmove UInt8.ofNat 17 16 3 19 = 18 ∧ memmove UInt8.ofNat 17 16 3 16 = 16) ∧
      memcpy UInt8.ofNat 16 17 3 = memmove UInt8.ofNat 16 17 3 :=
  ⟨⟨(memmove_moves UInt8.ofNat 17 16 3).1.1 2 (by decide), (memmove_moves UInt8.ofNat 17 16 3).1.2 16 (by decide)⟩,
    (memmove_moves UInt8.ofNat 16 17 3).2 (by decide)⟩

end MiraOS
