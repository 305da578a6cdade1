import MiraOS.Machine.Blocks
import MiraOS.Ui.ShellBuiltins

/-! The buffers in which ui/shell.c and kernel/safemode.c write numbers, and what the numbers are read back as. -/

namespace MiraOS

open Machine

/-- Store a character at the next place of a buffer of a size. -/
def pushChar (size : Nat) (tmp : List UInt8) (c : UInt8) : Except Halt (List UInt8) :=
  if tmp.length < size then .ok (tmp ++ [c]) else .error .outOfBounds

/-- The loop that stores the digits of a number in a buffer of a size, the lowest first. -/
def digitsInto (size : Nat) : Nat → Nat → List UInt8 → Except Halt (List UInt8)
  | 0, value, tmp => if 0 < value then .error .outOfFuel else .ok tmp
  | fuel + 1, value, tmp =>
    if 0 < value then do
      let tmp ← pushChar size tmp (UInt8.ofNat (48 + value % 10))
      digitsInto size fuel (value / 10) tmp
    else .ok tmp

/-- The loop that takes the first characters of a buffer in the reverse order. -/
def takeBack (tmp : List UInt8) : Nat → List UInt8 → Except Halt (List UInt8)
  | 0, buf => .ok buf
  | i + 1, buf => do
    let c ← loadByte tmp i
    takeBack tmp i (buf ++ [c])

/-- The text of a number that is not negative, by way of a buffer of a size. -/
def uintToText (size value : Nat) : Except Halt (List UInt8) :=
  if value = 0 then .ok (asciiBytes "0")
  else do
    -- Every turn makes the number smaller, so there are fewer turns than its value.
    let tmp ← digitsInto size value value []
    takeBack tmp tmp.length []

/-- The text of a number of 64 bits in the shell. -/
def uint64ToText (value : UInt64) : Except Halt (List UInt8) := uintToText 20 value.toNat

/-- The text of a number of 64 bits in safe mode. -/
def smUintToStr (v : UInt64) : Except Halt (List UInt8) := uintToText 20 v.toNat

/-- The text of a signed number in the shell. -/
def intToText (value : Int) : Except Halt (List UInt8) :=
  if value = 0 then .ok (asciiBytes "0")
  else do
    -- The smallest number is its own opposite, and so no digit is stored for it.
    let magnitude := if value < 0 then wrap32 (-value) else value
    let tmp ← digitsInto 12 magnitude.toNat magnitude.toNat []
    -- The sign has a place of the buffer too.
    let tmp ← if value < 0 then pushChar 12 tmp '-'.toUInt8 else .ok tmp
    takeBack tmp tmp.length []

/-- The characters of the digits of a number, the lowest first. -/
def lowDigits (value : Nat) : List UInt8 := (Nat.digits 10 value).map fun digit => UInt8.ofNat (48 + digit)

/-- A number below a power of ten has at most as many digits. -/
theorem lowDigits_length_le {value count : Nat} (small : value < 10 ^ count) : (lowDigits value).length ≤ count := by
  -- Every digit is one character.
  rw [lowDigits, List.length_map]
  exact (Nat.digits_length_le_iff (by decide) value).mpr small

/-- The digits of a number, the highest first, are those of the decimal text. -/
theorem lowDigits_reverse {value : Nat} (nonzero : value ≠ 0) : (lowDigits value).reverse = decimalDigits value := by
  rw [decimalDigits, if_neg nonzero, lowDigits]

/-- The loop stores all digits of a number that they have room for. -/
theorem digitsInto_eq {size fuel value : Nat} {tmp : List UInt8} (enough : value ≤ fuel)
    (room : tmp.length + (lowDigits value).length ≤ size) :
    digitsInto size fuel value tmp = .ok (tmp ++ lowDigits value) := by
  -- A turn takes the lowest digit off, and the others have the room that is left.
  induction fuel generalizing value tmp with
  | zero =>
    obtain rfl : value = 0 := by omega
    simp [digitsInto, lowDigits]
  | succ fuel ih =>
    rw [digitsInto]
    by_cases positive : 0 < value
    · -- The lowest digit is stored behind those in front of it.
      have digits : lowDigits value = UInt8.ofNat (48 + value % 10) :: lowDigits (value / 10) := by
        rw [lowDigits, Nat.digits_def' (by decide) positive, List.map_cons, lowDigits]
      rw [digits, List.length_cons] at room
      have stored : pushChar size tmp (UInt8.ofNat (48 + value % 10)) =
          .ok (tmp ++ [UInt8.ofNat (48 + value % 10)]) := if_pos (by omega)
      rw [if_pos positive, stored, ok_bind, digits, ih (by omega)]
      · rw [List.append_assoc, List.singleton_append]
      · rw [List.length_append, List.length_singleton]
        omega
    · obtain rfl : value = 0 := by omega
      simp [lowDigits]

/-- The second loop turns the characters around. -/
theorem takeBack_eq {tmp buf : List UInt8} {count : Nat} (inside : count ≤ tmp.length) :
    takeBack tmp count buf = .ok (buf ++ (tmp.take count).reverse) := by
  induction count generalizing buf with
  -- Nothing is left to take.
  | zero => simp [takeBack]
  | succ count ih =>
    -- The last of the characters comes first.
    have here : count < tmp.length := by omega
    rw [takeBack, loadByte_inside here, ok_bind, ih (by omega), List.take_succ_eq_append_getElem here,
      List.reverse_append, List.reverse_singleton, List.append_assoc]

/-- All of a buffer turned around. -/
theorem takeBack_all (tmp : List UInt8) : takeBack tmp tmp.length [] = .ok tmp.reverse := by
  rw [takeBack_eq (Nat.le_refl _), List.take_length, List.nil_append]

/-- The text of a number whose digits the buffer has room for. -/
theorem uintToText_eq {size value : Nat} (small : value < 10 ^ size) :
    uintToText size value = .ok (decimalDigits value) := by
  rw [uintToText]
  -- Zero is written without the buffer.
  by_cases zero : value = 0
  · rw [if_pos zero, decimalDigits, if_pos zero]
  · have room := lowDigits_length_le small
    rw [if_neg zero, digitsInto_eq (Nat.le_refl _) (by rw [List.length_nil]; omega), ok_bind, List.nil_append,
      takeBack_all, lowDigits_reverse zero]

/-- The text of a signed number, whatever it is, is written inside of the buffer. -/
theorem intToText_eq {value : Int} (fits : Signed32 value) : intToText value = .ok (intToStr value) := by
  obtain ⟨low, high⟩ := fits
  rw [intToText, intToStr]
  by_cases zero : value = 0
  · rw [if_pos zero, if_pos zero]
  rw [if_neg zero, if_neg zero]
  -- A magnitude has ten digits at most, so there is room for the sign as well.
  generalize magnitudeIs : (if value < 0 then wrap32 (-value) else value) = magnitude
  have small : magnitude.toNat < 10 ^ 10 := by
    obtain ⟨-, bound⟩ := wrap32_fits (-value)
    rw [← magnitudeIs]
    split <;> omega
  have room := lowDigits_length_le small
  have stored : digitsInto 12 magnitude.toNat magnitude.toNat [] = .ok (lowDigits magnitude.toNat) := by
    rw [digitsInto_eq (Nat.le_refl _) (by rw [List.length_nil]; omega), List.nil_append]
  -- The digits of the model without a buffer are the same.
  have same : storeDigits 10 magnitude.toNat [] = lowDigits magnitude.toNat := by
    rw [storeDigits_eq 10 _ [] small, List.nil_append, lowDigits]
  dsimp only
  rw [stored, ok_bind, same]
  -- The sign is the last character that is stored, and the first of the text.
  by_cases negative : value < 0
  · have signed : pushChar 12 (lowDigits magnitude.toNat) '-'.toUInt8 =
        .ok (lowDigits magnitude.toNat ++ ['-'.toUInt8]) := if_pos (by omega)
    rw [if_pos negative, if_pos negative, signed, ok_bind, takeBack_all]
  · rw [if_neg negative, if_neg negative, ok_bind, takeBack_all]

/-- The decimal text of a number in range is read back as the number. -/
theorem atoiSimple_decimalText {value : Int} (fits : Signed32 value) : atoiSimple (decimalText value) = value := by
  obtain ⟨low, high⟩ := fits
  have digits := decimalDigits_isDigit value.natAbs
  have written := decimalDigits_ne_nil value.natAbs
  have back := decimalValue_digits value.natAbs
  rw [decimalText]
  by_cases negative : value < 0
  · -- Behind the sign is the magnitude, whose opposite is the number.
    have read := digitLoop_digits digits [] (by simp) 0
    rw [List.append_nil] at read
    -- No blank stands in front of the sign.
    have kept : ('-'.toUInt8 :: decimalDigits value.natAbs).dropWhile isNumberBlank =
        '-'.toUInt8 :: decimalDigits value.natAbs := List.dropWhile_cons_of_neg (by decide)
    rw [if_pos negative, atoiSimple, kept]
    dsimp only
    have start : wrap32 ((0 : Nat) : Int) = 0 := by decide
    rw [if_pos rfl, ← start, read]
    rw [decimalValue] at back
    rw [back, ← Int.add_zero (wrap32 _ * -1), wrap32_mul_add]
    rw [wrap32_of_fits ⟨by omega, by omega⟩]
    omega
  · -- Without a sign the digits are read as they are.
    have read := atoiSimple_digits digits written [] (by simp)
    rw [List.append_nil] at read
    rw [if_neg negative, read, back, wrap32_of_fits ⟨by omega, by omega⟩]
    omega

/-- Text and number: the buffer is never left, and the text of a number is read back as the number exactly when it
is not the smallest one. -/
theorem int_round_trip_iff {value : Int} (fits : Signed32 value) :
    (∃ text, intToText value = .ok text ∧ atoiSimple text = value) ↔ value ≠ -2 ^ 31 := by
  rw [intToText_eq fits]
  constructor
  · rintro ⟨text, written, same⟩ rfl
    -- The text of the smallest number is its sign, which is read as zero.
    cases written
    rw [intToStr_least] at same
    revert same
    decide
  · -- Every other number has its decimal text.
    intro other
    exact ⟨_, rfl, by rw [intToStr_eq fits other, atoiSimple_decimalText fits]⟩

/-- A negative number and its text. -/
theorem minus_forty_two_round_trip : ∃ text, intToText (-42) = .ok text ∧ atoiSimple text = -42 :=
  (int_round_trip_iff (by decide)).mpr (by decide)

/-- The text of the smallest number is its sign alone, which is read back as zero. -/
theorem least_number_lost :
    ¬ ∀ value, Signed32 value → ∃ text, intToText value = .ok text ∧ atoiSimple text = value := by
  intro claim
  obtain ⟨text, written, same⟩ := claim (-2 ^ 31) (by decide)
  -- −2³¹ has no positive counterpart in 32 bits, so its text is a sign without digits.
  rw [intToText_eq (by decide), intToStr_least] at written
  cases written
  revert same
  decide

/-- A canonical decimal numeral of a number: digits that stand for it, without a zero in front of others. -/
structure CanonicalDecimal (text : List UInt8) (value : Nat) : Prop where
  digits : ∀ c ∈ text, isDigit c = true
  stands : decimalValue text = value
  written : text ≠ []
  leading : text.head? = some '0'.toUInt8 → text = ['0'.toUInt8]

/-- The decimal digits of a number are a canonical numeral of it. -/
theorem decimalDigits_canonical (value : Nat) : CanonicalDecimal (decimalDigits value) value := by
  refine ⟨decimalDigits_isDigit value, decimalValue_digits value, decimalDigits_ne_nil value, ?_⟩
  intro zeroFirst
  by_cases zero : value = 0
  · rw [decimalDigits, if_pos zero]
    decide
  · -- The highest digit of a number that is not zero is not zero.
    have some : Nat.digits 10 value ≠ [] := Nat.digits_ne_nil_iff_ne_zero.mpr zero
    have last := Nat.getLast_digit_ne_zero 10 zero
    have small := Nat.digits_lt_base (by decide) (List.getLast_mem some)
    rw [← lowDigits_reverse zero, List.head?_reverse, lowDigits, List.getLast?_map, List.getLast?_eq_some_getLast some,
      Option.map_some, Option.some.injEq] at zeroFirst
    -- The character of a digit is that of zero for zero only.
    have code := congrArg UInt8.toNat zeroFirst
    rw [UInt8.toNat_ofNat', show ('0'.toUInt8).toNat = 48 from rfl] at code
    omega

/--
The two functions for numbers of 64 bits write the same text.

It is the canonical decimal numeral, and its digits never leave the buffer of twenty bytes.
-/
theorem uint64_text_canonical (value : UInt64) :
    ∃ text, uint64ToText value = .ok text ∧ smUintToStr value = .ok text ∧ CanonicalDecimal text value.toNat ∧
      text.length ≤ 20 := by
  -- Numbers of 64 bits are below 10^20, so twenty places are enough.
  have small : value.toNat < 10 ^ 20 := Nat.lt_trans value.toNat_lt (by decide)
  have written := uintToText_eq small
  refine ⟨decimalDigits value.toNat, written, written, decimalDigits_canonical _, ?_⟩
  by_cases zero : value.toNat = 0
  · rw [zero]
    decide
  · rw [← lowDigits_reverse zero, List.length_reverse]
    exact lowDigits_length_le small

/-- The largest number fills the buffer. -/
example : uint64ToText 18446744073709551615 = .ok (asciiBytes "18446744073709551615") := by decide +kernel

/-- What the builtins show of a number is that text. -/
theorem uint64ToText_eq (value : UInt64) : uint64ToText value = .ok (uint64ToStr value.toNat) := by
  -- A number of 64 bits has at most twenty digits.
  have small : value.toNat < 10 ^ 20 := Nat.lt_trans value.toNat_lt (by decide)
  rw [uint64ToText, uintToText_eq small, uint64ToStr, decimalDigits]
  split_ifs with zero
  · rfl
  · rw [storeDigits_eq 20 _ [] small, List.nil_append]

end MiraOS
