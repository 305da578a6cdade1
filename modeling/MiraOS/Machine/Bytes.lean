import Mathlib.Tactic.Ring
import Mathlib.Data.Nat.Basic

/-! Byte-addressed memory and the little-endian words stored in it. -/

namespace Machine

/-- The contents of a byte-addressed memory. -/
abbrev Memory := Nat → UInt8

/-- The little-endian number held by a run of bytes. -/
def readLE (mem : Memory) (address : Nat) : Nat → Nat
  -- The first byte is the least significant one.
  | 0 => 0
  | width + 1 => (mem address).toNat + 256 * readLE mem (address + 1) width

/-- Store a number as a little-endian run of bytes, dropping what does not fit. -/
def writeLE (mem : Memory) (address width value : Nat) : Memory := fun at_ =>
  if address ≤ at_ ∧ at_ < address + width then UInt8.ofNat (value / 256 ^ (at_ - address))
  else mem at_

/-- A byte outside the written run keeps its value. -/
theorem writeLE_outside {mem : Memory} {address width value at_ : Nat}
    (outside : at_ < address ∨ address + width ≤ at_) :
    writeLE mem address width value at_ = mem at_ := by
  unfold writeLE
  rw [if_neg (by omega)]

/-- A read depends only on the bytes it covers. -/
theorem readLE_congr {mem other : Memory} {address width : Nat}
    (same : ∀ at_, address ≤ at_ → at_ < address + width → mem at_ = other at_) :
    readLE mem address width = readLE other address width := by
  -- The read moves along as the width shrinks, so the position stays quantified over.
  induction width generalizing address with
  | zero => rfl
  | succ width ih =>
    rw [readLE, readLE, same address (by omega) (by omega),
      ih (fun at_ low high => same at_ (by omega) (by omega))]

/-- A read of some bytes stays below the range of that many bytes. -/
theorem readLE_lt (mem : Memory) (address width : Nat) :
    readLE mem address width < 256 ^ width := by
  -- The low byte and the rest fill one byte and the remaining width.
  induction width generalizing address with
  | zero => simp [readLE]
  | succ width ih =>
    have byte : (mem address).toNat < 256 := (mem address).toNat_lt
    have rest := ih (address + 1)
    rw [readLE, Nat.pow_succ]
    omega

/-- A write leaves every read of a disjoint run unchanged. -/
theorem readLE_writeLE_apart {mem : Memory} {address width value other size : Nat}
    (apart : other + size ≤ address ∨ address + width ≤ other) :
    readLE (writeLE mem address width value) other size = readLE mem other size := by
  apply readLE_congr
  -- No byte of the one field lies in the other.
  intro at_ low high
  exact writeLE_outside (by omega)

/-- Writing a number one byte at a time, lowest byte first. -/
private theorem writeLE_succ (mem : Memory) (address width value : Nat) :
    writeLE mem address (width + 1) value =
      writeLE (writeLE mem address 1 value) (address + 1) width (value / 256) := by
  -- The bytes are compared one by one: the first, those behind it, those outside.
  funext at_
  unfold writeLE
  by_cases first : at_ = address
  · subst first
    simp
  · by_cases later : address + 1 ≤ at_ ∧ at_ < address + 1 + width
    · -- Past the first byte, the exponent and the value both move along by one byte.
      have shift : at_ - address = (at_ - (address + 1)) + 1 := by omega
      rw [if_pos (by omega), if_pos later, shift, Nat.pow_succ, Nat.div_div_eq_div_mul,
        Nat.mul_comm]
    · rw [if_neg (by omega), if_neg later, if_neg (by omega)]

/-- A number read back where it was written is the number, cut to the width. -/
theorem readLE_writeLE_same (mem : Memory) (address width value : Nat) :
    readLE (writeLE mem address width value) address width = value % 256 ^ width := by
  induction width generalizing mem address value with
  | zero => simp [readLE, Nat.mod_one]
  | succ width ih =>
    -- The low byte sits in front, and the rest of the read is the same claim one byte along.
    have low : (writeLE mem address (width + 1) value address).toNat = value % 256 := by
      simp [writeLE]
    have high : readLE (writeLE mem address (width + 1) value) (address + 1) width =
        value / 256 % 256 ^ width := by
      rw [writeLE_succ]
      exact ih _ _ _
    rw [readLE, low, high, Nat.pow_succ, Nat.mul_comm (256 ^ width) 256, Nat.mod_mul]

/-- The 64-bit word at an address. -/
def read64 (mem : Memory) (address : Nat) : Nat := readLE mem address 8

/-- The 32-bit word at an address. -/
def read32 (mem : Memory) (address : Nat) : Nat := readLE mem address 4

/-- Store a 64-bit word. -/
def write64 (mem : Memory) (address value : Nat) : Memory := writeLE mem address 8 value

/-- Store a 32-bit word. -/
def write32 (mem : Memory) (address value : Nat) : Memory := writeLE mem address 4 value

/-- A 64-bit word is below its range. -/
theorem read64_lt (mem : Memory) (address : Nat) : read64 mem address < 2 ^ 64 := by
  simpa [read64] using readLE_lt mem address 8

/-- A 32-bit word is below its range. -/
theorem read32_lt (mem : Memory) (address : Nat) : read32 mem address < 2 ^ 32 := by
  simpa [read32] using readLE_lt mem address 4

/-- A 64-bit word that fits reads back as itself. -/
theorem read64_write64 {mem : Memory} {address value : Nat} (fits : value < 2 ^ 64) :
    read64 (write64 mem address value) address = value := by
  rw [read64, write64, readLE_writeLE_same]
  exact Nat.mod_eq_of_lt (by simpa using fits)

/-- A 32-bit word that fits reads back as itself. -/
theorem read32_write32 {mem : Memory} {address value : Nat} (fits : value < 2 ^ 32) :
    read32 (write32 mem address value) address = value := by
  rw [read32, write32, readLE_writeLE_same]
  exact Nat.mod_eq_of_lt (by simpa using fits)

end Machine
