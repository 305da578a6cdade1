import MiraOS.Machine.Words

/-! Signed numbers in machine words: displacements passed as 64-bit words, and 32-bit arithmetic. -/

namespace Machine

/-- The 64-bit word that a signed number is passed as. -/
def wordOf (displacement : Int) : Nat := (displacement % 2 ^ 64).toNat

/-- A number that fits a signed 64-bit word. -/
def Signed64 (displacement : Int) : Prop := -2 ^ 63 ≤ displacement ∧ displacement < 2 ^ 63

/-- The signed 32-bit number that a computation leaves, which wraps around. -/
def wrap32 (value : Int) : Int := value.bmod (2 ^ 32)

/-- A number that fits a signed 32-bit word. -/
def Signed32 (value : Int) : Prop := -2 ^ 31 ≤ value ∧ value < 2 ^ 31

instance (value : Int) : Decidable (Signed32 value) := inferInstanceAs (Decidable (_ ∧ _))

/-- A displacement that is not negative is its own word. -/
theorem wordOf_of_nonneg {displacement : Int} (fits : Signed64 displacement) (positive : 0 ≤ displacement) :
    wordOf displacement = displacement.toNat := by
  obtain ⟨-, high⟩ := fits
  -- A displacement that is not negative is its own word.
  rw [wordOf, Int.emod_eq_of_lt positive (by omega)]

/-- A negative displacement is a word of the upper half. -/
theorem wordOf_of_neg {displacement : Int} (fits : Signed64 displacement) (negative : displacement < 0) :
    wordOf displacement = (displacement + 2 ^ 64).toNat := by
  obtain ⟨low, -⟩ := fits
  -- A negative displacement is represented by adding 2⁶⁴.
  have wrapped : displacement % 2 ^ 64 = displacement + 2 ^ 64 := by omega
  rw [wordOf, wrapped]

/--
A wrapped sum is compared with a limit once for both ends of the range.

A sum below zero wraps to the upper half of the words, which no limit of the lower half reaches.
-/
theorem add64_wordOf_le {base limit : Nat} {displacement : Int} (inside : base ≤ limit)
    (small : limit < 2 ^ 63) (fits : Signed64 displacement) :
    add64 base (wordOf displacement) ≤ limit ↔
      0 ≤ (base : Int) + displacement ∧ (base : Int) + displacement ≤ limit := by
  obtain ⟨low, high⟩ := id fits
  -- A displacement that is negative is passed as its complement, and the sum wraps back.
  by_cases negative : displacement < 0
  · rw [wordOf_of_neg fits negative, add64]
    omega
  · rw [wordOf_of_nonneg fits (by omega), add64]
    omega

/-- A wrapped sum in the range is the exact one. -/
theorem add64_wordOf_eq {base limit : Nat} {displacement : Int} (inside : base ≤ limit)
    (small : limit < 2 ^ 63) (fits : Signed64 displacement)
    (range : 0 ≤ (base : Int) + displacement ∧ (base : Int) + displacement ≤ limit) :
    add64 base (wordOf displacement) = ((base : Int) + displacement).toNat := by
  obtain ⟨low, high⟩ := id fits
  -- In either case the wrapped sum is the true one, as that lies below the limit.
  by_cases negative : displacement < 0
  · rw [wordOf_of_neg fits negative, add64]
    omega
  · rw [wordOf_of_nonneg fits (by omega), add64]
    omega

/-- Arithmetic that stays in range does not wrap. -/
theorem wrap32_of_fits {value : Int} (fits : Signed32 value) : wrap32 value = value := by
  obtain ⟨low, high⟩ := fits
  rw [wrap32, Int.bmod_def]
  -- The balanced remainder of a number in range is the number.
  split <;> omega

/-- What is left of a computation fits the word. -/
theorem wrap32_fits (value : Int) : Signed32 (wrap32 value) := by
  unfold wrap32 Signed32
  rw [Int.bmod_def]
  -- The balanced remainder of 2³² lies in the range of 32 bits.
  split <;> omega

/-- A number may be wrapped before more digits are put behind it. -/
theorem wrap32_mul_add (value factor more : Int) :
    wrap32 (wrap32 value * factor + more) = wrap32 (value * factor + more) := by
  unfold wrap32
  rw [← Int.bmod_add_bmod, Int.bmod_mul_bmod, Int.bmod_add_bmod]

end Machine
