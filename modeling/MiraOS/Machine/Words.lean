import Mathlib.Data.Nat.Bitwise

/-! Arithmetic of 64-bit machine words kept as natural numbers. -/

namespace Machine

/-- Addition of 64-bit words, which wraps around. -/
def add64 (left right : Nat) : Nat := (left + right) % 2 ^ 64

/-- Subtraction of 64-bit words, which wraps around. -/
def sub64 (left right : Nat) : Nat := (left + (2 ^ 64 - right % 2 ^ 64)) % 2 ^ 64

/-- The word whose low bits are clear and whose other bits are set. -/
def highMask (bits : Nat) : Nat := 2 ^ 64 - 2 ^ bits

/-- Addition that stays in range does not wrap. -/
theorem add64_of_lt {left right : Nat} (fits : left + right < 2 ^ 64) :
    add64 left right = left + right := Nat.mod_eq_of_lt fits

/-- Subtraction of a smaller word does not wrap. -/
theorem sub64_of_le {left right : Nat} (ordered : right ≤ left) (fits : left < 2 ^ 64) :
    sub64 left right = left - right := by
  unfold sub64
  rw [Nat.mod_eq_of_lt (show right < 2 ^ 64 by omega)]
  omega

/-- The mask of the high bits, read bit by bit. -/
theorem testBit_highMask {bits : Nat} (small : bits ≤ 64) (i : Nat) :
    (highMask bits).testBit i = (decide (bits ≤ i) && decide (i < 64)) := by
  -- The mask is a run of ones moved up past the clear bits.
  have shifted : highMask bits = (2 ^ (64 - bits) - 1) <<< bits := by
    rw [highMask, Nat.shiftLeft_eq, Nat.sub_mul, Nat.one_mul, ← Nat.pow_add]
    congr 2
    omega
  rw [shifted, Nat.testBit_shiftLeft, Nat.testBit_two_pow_sub_one]
  by_cases low : bits ≤ i
  · simp only [ge_iff_le, low, decide_true, Bool.true_and, decide_eq_decide]
    omega
  · simp [low]

/-- Masking a word keeps exactly its multiple of the cleared power of two. -/
theorem and_highMask {bits word : Nat} (small : bits ≤ 64) (fits : word < 2 ^ 64) :
    word &&& highMask bits = word / 2 ^ bits * 2 ^ bits := by
  -- Both sides are compared bit by bit: below the mask, inside it and past the word.
  apply Nat.eq_of_testBit_eq
  intro i
  rw [Nat.testBit_and, testBit_highMask small, ← Nat.shiftRight_eq_div_pow, ← Nat.shiftLeft_eq,
    Nat.testBit_shiftLeft, Nat.testBit_shiftRight]
  by_cases low : bits ≤ i
  · have place : bits + (i - bits) = i := by omega
    by_cases high : i < 64
    · simp [low, high, place]
    · -- Past the width of the word, both sides are clear.
      have clear : word.testBit i = false :=
        Nat.testBit_lt_two_pow (Nat.lt_of_lt_of_le fits (Nat.pow_le_pow_right (by omega) (by omega)))
      simp [clear, place]
  · simp [low]

/-- Bits below an aligned word are added by setting them. -/
theorem or_low_of_aligned {bits word low : Nat} (aligned : word % 2 ^ bits = 0)
    (small : low < 2 ^ bits) : word ||| low = word + low := by
  -- An aligned word has no bit below, so setting the low bits carries nothing.
  have whole : word = 2 ^ bits * (word / 2 ^ bits) := by
    have := Nat.div_add_mod word (2 ^ bits)
    omega
  rw [whole]
  exact (Nat.two_pow_add_eq_or_of_lt small _).symm

/-- Testing the lowest bit of a word asks whether it is odd. -/
theorem and_one_ne_zero (word : Nat) : word &&& 1 ≠ 0 ↔ word % 2 = 1 := by
  rw [Nat.and_one_is_mod]
  omega

end Machine
