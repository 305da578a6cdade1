import Mathlib.Data.Nat.Bitwise
import Mathlib.Data.Finset.Card
import Mathlib.Order.Interval.Finset.Nat

/-! A bitmap packed eight flags to a byte behaves as an independent set of flags. -/

namespace Machine

/-- The bytes of a packed bitmap. -/
abbrev Bitmap := Nat → UInt8

namespace Bitmap

/-- The byte with only the flag of one entry set. -/
def flag (entry : Nat) : UInt8 := UInt8.ofNat (1 <<< (entry % 8))

/-- Set the flag of one entry. -/
def set (map : Bitmap) (entry : Nat) : Bitmap := fun i =>
  if i = entry / 8 then map i ||| flag entry else map i

/-- Clear the flag of one entry. -/
def clear (map : Bitmap) (entry : Nat) : Bitmap := fun i =>
  if i = entry / 8 then map i &&& ~~~(flag entry) else map i

/-- Whether the flag of one entry is set. -/
def test (map : Bitmap) (entry : Nat) : Bool := map (entry / 8) &&& flag entry != 0

/-- A flag byte has exactly its own bit. -/
private theorem flag_testBit (entry i : Nat) :
    (flag entry).toNat.testBit i = decide (i = entry % 8) := by
  -- The flag of an entry is a power of two below 256.
  have small : 2 ^ (entry % 8) < 2 ^ 8 := Nat.pow_lt_pow_right (by omega) (by omega)
  rw [flag, UInt8.toNat_ofNat', Nat.shiftLeft_eq, Nat.one_mul, Nat.mod_eq_of_lt (by simpa using small),
    Nat.testBit_two_pow]
  simp [eq_comm]

/-- Testing an entry reads the bit of its position in its byte. -/
theorem test_eq (map : Bitmap) (entry : Nat) :
    map.test entry = (map (entry / 8)).toNat.testBit (entry % 8) := by
  -- Masking with one bit leaves zero or that bit.
  have masked : (map (entry / 8) &&& flag entry).toNat =
      ((map (entry / 8)).toNat.testBit (entry % 8)).toNat * 2 ^ (entry % 8) := by
    have small : 2 ^ (entry % 8) < 2 ^ 8 := Nat.pow_lt_pow_right (by omega) (by omega)
    rw [UInt8.toNat_and, flag, UInt8.toNat_ofNat', Nat.shiftLeft_eq, Nat.one_mul,
      Nat.mod_eq_of_lt (by simpa using small), Nat.and_two_pow]
  have positive : 0 < 2 ^ (entry % 8) := Nat.two_pow_pos _
  cases bit : (map (entry / 8)).toNat.testBit (entry % 8) with
  | false =>
    have zero : map (entry / 8) &&& flag entry = 0 :=
      UInt8.toNat_inj.mp (by simpa [bit] using masked)
    simp [test, zero]
  | true =>
    have nonzero : map (entry / 8) &&& flag entry ≠ 0 := by
      intro zero
      rw [zero, bit] at masked
      simp only [UInt8.toNat_zero, Bool.toNat_true, Nat.one_mul] at masked
      omega
    simp [test, nonzero]

/-- Two entries of one byte differ exactly in their positions. -/
private theorem position_eq {entry other : Nat} (byte : other / 8 = entry / 8) :
    other % 8 = entry % 8 ↔ other = entry := by
  omega

/-- Setting an entry sets its flag and no other. -/
theorem test_set (map : Bitmap) (entry other : Nat) :
    (map.set entry).test other = (decide (other = entry) || map.test other) := by
  -- The entries of another byte are untouched, and in the same byte only one position is.
  rw [test_eq, test_eq, set]
  by_cases byte : other / 8 = entry / 8
  · rw [if_pos byte, UInt8.toNat_or, Nat.testBit_or, flag_testBit, Bool.or_comm]
    simp only [position_eq byte]
  · have differ : other ≠ entry := by rintro rfl; exact byte rfl
    simp [if_neg byte, differ]

/-- Clearing an entry clears its flag and no other. -/
theorem test_clear (map : Bitmap) (entry other : Nat) :
    (map.clear entry).test other = (!decide (other = entry) && map.test other) := by
  rw [test_eq, test_eq, clear]
  by_cases byte : other / 8 = entry / 8
  · -- A complement within one byte flips each of its eight positions.
    have flipped : (~~~(flag entry)).toNat.testBit (other % 8) = !decide (other % 8 = entry % 8) := by
      have inside : other % 8 < 8 := Nat.mod_lt _ (by decide)
      rw [UInt8.toNat_not, show UInt8.size - 1 - (flag entry).toNat =
        2 ^ 8 - ((flag entry).toNat + 1) by simp [UInt8.size],
        Nat.testBit_two_pow_sub_succ (flag entry).toNat_lt, flag_testBit]
      simp [inside]
    rw [if_pos byte, UInt8.toNat_and, Nat.testBit_and, flipped, Bool.and_comm]
    simp only [position_eq byte]
  · have differ : other ≠ entry := by rintro rfl; exact byte rfl
    simp [if_neg byte, differ]

/-- A bitmap is determined by its flags. -/
theorem ext_test {map other : Bitmap} (same : ∀ entry, map.test entry = other.test entry) : map = other := by
  -- Byte by byte, the eight positions of a byte are the flags of its eight entries.
  funext i
  apply UInt8.toNat_inj.mp
  apply Nat.eq_of_testBit_eq
  intro position
  by_cases inside : position < 8
  · have flags := same (8 * i + position)
    have byte : (8 * i + position) / 8 = i := by omega
    have place : (8 * i + position) % 8 = position := by omega
    rwa [test_eq, test_eq, byte, place] at flags
  · have high : 2 ^ 8 ≤ 2 ^ position := Nat.pow_le_pow_right (by decide) (by omega)
    rw [Nat.testBit_lt_two_pow (Nat.lt_of_lt_of_le (map i).toNat_lt high),
      Nat.testBit_lt_two_pow (Nat.lt_of_lt_of_le (other i).toNat_lt high)]

/-- The entries below a bound whose flag is clear. -/
def clearSet (map : Bitmap) (bound : Nat) : Finset Nat :=
  (Finset.range bound).filter fun entry => map.test entry = false

/-- Membership among the clear entries. -/
@[simp] theorem mem_clearSet {map : Bitmap} {bound entry : Nat} :
    entry ∈ map.clearSet bound ↔ entry < bound ∧ map.test entry = false := by
  simp [clearSet]

/-- Setting a clear entry removes one from the clear entries. -/
theorem card_clearSet_set {map : Bitmap} {bound entry : Nat} (within : entry < bound)
    (free : map.test entry = false) :
    ((map.set entry).clearSet bound).card + 1 = (map.clearSet bound).card := by
  -- The entry is erased from the clear ones, where it was before.
  have erased : (map.set entry).clearSet bound = (map.clearSet bound).erase entry := by
    ext other
    simp only [mem_clearSet, test_set, Finset.mem_erase, Bool.or_eq_false_iff, decide_eq_false_iff_not]
    tauto
  rw [erased]
  exact Finset.card_erase_add_one (mem_clearSet.mpr ⟨within, free⟩)

/-- Clearing a set entry adds one to the clear entries. -/
theorem card_clearSet_clear {map : Bitmap} {bound entry : Nat} (within : entry < bound)
    (used : map.test entry = true) :
    ((map.clear entry).clearSet bound).card = (map.clearSet bound).card + 1 := by
  -- The entry is inserted into the clear ones, where it was not before.
  have inserted : (map.clear entry).clearSet bound = insert entry (map.clearSet bound) := by
    ext other
    simp only [mem_clearSet, test_clear, Finset.mem_insert, Bool.and_eq_false_iff,
      Bool.not_eq_false', decide_eq_true_eq]
    constructor
    · rintro ⟨below, same | clear⟩
      · exact .inl same
      · exact .inr ⟨below, clear⟩
    · rintro (rfl | ⟨below, clear⟩)
      · exact ⟨within, .inl rfl⟩
      · exact ⟨below, .inr clear⟩
  rw [inserted]
  exact Finset.card_insert_of_notMem (by simp [used])

end Bitmap

end Machine
