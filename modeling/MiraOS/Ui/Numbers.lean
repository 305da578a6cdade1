import Mathlib.Data.Nat.Digits.Lemmas
import MiraOS.Machine.Signed
import MiraOS.Ui.Tokenizer

/-! Numbers as texts in ui/shell.c: what is read from a text, and the text of a number. -/

namespace MiraOS

open Machine

/-- A character that is skipped in front of a number. -/
def isNumberBlank (c : UInt8) : Bool := c == ' '.toUInt8 || c == 9

/-- The loop over the digits of a number, in 32-bit arithmetic. -/
def digitLoop : List UInt8 → Int → Int
  | [], result => result
  | c :: rest, result =>
    if isDigit c then digitLoop rest (wrap32 (result * 10 + (c.toNat - 48))) else result

/-- The number at the front of a text, which is zero where there is none. -/
def atoiSimple (str : List UInt8) : Int :=
  match str.dropWhile isNumberBlank with
  | [] => 0
  | c :: rest =>
    if c = '-'.toUInt8 then wrap32 (digitLoop rest 0 * -1)
    else if c = '+'.toUInt8 then digitLoop rest 0
    else digitLoop (c :: rest) 0

/-- The loop that stores the digits of a number, the lowest first. -/
def storeDigits : Nat → Nat → List UInt8 → List UInt8
  -- A number of 32 bits has at most ten digits, so the loop ends by itself.
  | 0, _, tmp => tmp
  | turns + 1, value, tmp =>
    if 0 < value then storeDigits turns (value / 10) (tmp ++ [UInt8.ofNat (48 + value % 10)]) else tmp

/-- The text of a number. -/
def intToStr (value : Int) : List UInt8 :=
  if value = 0 then asciiBytes "0"
  else
    -- The smallest number has no opposite and stays negative, so none of its digits is stored.
    let magnitude := if value < 0 then wrap32 (-value) else value
    let tmp := storeDigits 10 magnitude.toNat []
    let tmp := if value < 0 then tmp ++ ['-'.toUInt8] else tmp
    tmp.reverse

/-- The number that digits stand for. -/
def decimalValue (digits : List UInt8) : Nat := digits.foldl (fun value c => value * 10 + (c.toNat - 48)) 0

/-- The decimal digits of a number, the highest first; zero has one digit. -/
def decimalDigits (value : Nat) : List UInt8 :=
  if value = 0 then asciiBytes "0" else ((Nat.digits 10 value).map fun digit => UInt8.ofNat (48 + digit)).reverse

/-- The decimal text of a number. -/
def decimalText (value : Int) : List UInt8 :=
  if value < 0 then '-'.toUInt8 :: decimalDigits value.natAbs else decimalDigits value.natAbs

/-- The value of a digit. -/
theorem isDigit_value {c : UInt8} (digit : isDigit c = true) : 48 ≤ c.toNat ∧ c.toNat ≤ 57 := by
  simp only [isDigit, Bool.and_eq_true, decide_eq_true_eq] at digit
  exact ⟨UInt8.le_iff_toNat_le.mp digit.1, UInt8.le_iff_toNat_le.mp digit.2⟩

/-- The loop over digits gives their number in 32-bit arithmetic, and stops behind them. -/
theorem digitLoop_digits {digits : List UInt8} (all : ∀ c ∈ digits, isDigit c = true) (rest : List UInt8)
    (stops : ∀ c ∈ rest.head?, isDigit c = false) (start : Nat) :
    digitLoop (digits ++ rest) (wrap32 start) =
      wrap32 (digits.foldl (fun value c => value * 10 + (c.toNat - 48)) start : Nat) := by
  -- The number so far stands for all digits in front.
  induction digits generalizing start with
  | nil =>
    cases rest with
    | nil => rfl
    | cons c others =>
      have other := stops c rfl
      rw [List.nil_append, digitLoop, if_neg (by simp [other])]
      rfl
  | cons c others ih =>
    have digit := all c List.mem_cons_self
    obtain ⟨low, high⟩ := isDigit_value digit
    -- One digit more is appended to the number as it is, and wrapped with it.
    have turned : wrap32 (wrap32 start * 10 + (c.toNat - 48)) =
        wrap32 ((start * 10 + (c.toNat - 48) : Nat) : Int) := by
      rw [wrap32_mul_add]
      congr 1
      omega
    rw [List.cons_append, digitLoop, if_pos digit, turned, List.foldl_cons]
    exact ih (fun other among => all other (List.mem_cons_of_mem c among)) _

/-- The number at the front of a text that starts with digits. -/
theorem atoiSimple_digits {digits : List UInt8} (all : ∀ c ∈ digits, isDigit c = true) (some : digits ≠ [])
    (rest : List UInt8) (stops : ∀ c ∈ rest.head?, isDigit c = false) :
    atoiSimple (digits ++ rest) = wrap32 (decimalValue digits) := by
  cases digits with
  | nil => exact absurd rfl some
  | cons c others =>
    -- A digit is neither a blank nor a sign.
    obtain ⟨low, high⟩ := isDigit_value (all c List.mem_cons_self)
    have apart : ∀ other : UInt8, other.toNat < 48 → c ≠ other := by
      rintro other below rfl
      omega
    have kept : ((c :: others) ++ rest).dropWhile isNumberBlank = c :: (others ++ rest) := by
      rw [List.cons_append, List.dropWhile_cons_of_neg]
      simp [isNumberBlank, apart ' '.toUInt8 (by decide), apart 9 (by decide)]
    rw [atoiSimple, kept]
    dsimp only
    rw [if_neg (apart '-'.toUInt8 (by decide)), if_neg (apart '+'.toUInt8 (by decide))]
    exact digitLoop_digits all rest stops 0

/-- The loop stores the digits of a number that has at most as many as there are turns. -/
theorem storeDigits_eq (turns value : Nat) (tmp : List UInt8) (fits : value < 10 ^ turns) :
    storeDigits turns value tmp = tmp ++ (Nat.digits 10 value).map fun digit => UInt8.ofNat (48 + digit) := by
  induction turns generalizing value tmp with
  | zero =>
    have zero : value = 0 := by omega
    simp [storeDigits, zero]
  | succ turns ih =>
    rw [storeDigits]
    by_cases positive : 0 < value
    · -- A turn takes the lowest digit off.
      have less : value / 10 < 10 ^ turns := by
        rw [Nat.pow_succ] at fits
        omega
      rw [if_pos positive, ih _ _ less, Nat.digits_def' (by decide) positive, List.map_cons, List.append_assoc]
      rfl
    · have zero : value = 0 := by omega
      simp [zero]

/-- The text of a number is its decimal text, but for the smallest number. -/
theorem intToStr_eq {value : Int} (fits : Signed32 value) (least : value ≠ -2 ^ 31) :
    intToStr value = decimalText value := by
  obtain ⟨low, high⟩ := fits
  -- Ten turns are enough for every magnitude.
  have digits : ∀ magnitude : Nat, magnitude ≠ 0 → magnitude < 2 ^ 31 →
      (storeDigits 10 magnitude []).reverse = decimalDigits magnitude := by
    intro magnitude nonzero small
    rw [storeDigits_eq 10 magnitude [] (by omega), List.nil_append, decimalDigits, if_neg nonzero]
  rw [intToStr, decimalText]
  by_cases zero : value = 0
  · rw [if_pos zero, zero]
    rfl
  rw [if_neg zero]
  by_cases negative : value < 0
  · -- The opposite of a negative number is in range.
    have opposite : wrap32 (-value) = -value := wrap32_of_fits ⟨by omega, by omega⟩
    have same : (-value).toNat = value.natAbs := by omega
    simp only [if_pos negative, opposite, same, List.reverse_append, List.reverse_singleton,
      List.singleton_append]
    rw [digits _ (by omega) (by omega)]
  · have same : value.toNat = value.natAbs := by omega
    simp only [if_neg negative, same]
    exact digits _ (by omega) (by omega)

/-- The text of the smallest number is its sign alone. -/
theorem intToStr_least : intToStr (-2 ^ 31) = ['-'.toUInt8] := by
  decide +kernel

/-- A number has a digit. -/
theorem decimalDigits_ne_nil (value : Nat) : decimalDigits value ≠ [] := by
  rw [decimalDigits]
  -- Zero has a digit of its own, any other number those of its expansion.
  split_ifs with zero
  · decide
  · simpa [Nat.digits_ne_nil_iff_ne_zero] using zero

/-- Digits are apart from the sign. -/
theorem decimalDigits_isDigit (value : Nat) : ∀ c ∈ decimalDigits value, isDigit c = true := by
  intro c among
  rw [decimalDigits] at among
  -- Zero is written as the single digit 0; other numbers by their digits below ten.
  split_ifs at among with zero
  · obtain rfl : c = '0'.toUInt8 := List.mem_singleton.mp among
    decide
  · simp only [List.mem_reverse, List.mem_map] at among
    obtain ⟨digit, inside, rfl⟩ := among
    have small := Nat.digits_lt_base (by decide) inside
    interval_cases digit <;> decide

/-- Digits give back their number. -/
theorem decimalValue_digits (value : Nat) : decimalValue (decimalDigits value) = value := by
  rw [decimalDigits]
  split_ifs with zero
  · rw [zero]
    rfl
  · -- The lowest digit comes last, so the number is built up as from its list of digits.
    have general : ∀ digits : List Nat, (∀ digit ∈ digits, digit < 10) →
        decimalValue (digits.map fun digit => UInt8.ofNat (48 + digit)).reverse = Nat.ofDigits 10 digits := by
      intro digits small
      induction digits with
      | nil => rfl
      | cons digit others ih =>
        have less := small digit List.mem_cons_self
        have rest := ih fun other among => small other (List.mem_cons_of_mem _ among)
        have code : (UInt8.ofNat (48 + digit)).toNat = 48 + digit := by
          rw [UInt8.toNat_ofNat']
          omega
        rw [decimalValue] at rest
        rw [List.map_cons, List.reverse_cons, decimalValue, List.foldl_append, rest, Nat.ofDigits_cons]
        simp only [List.foldl_cons, List.foldl_nil, code]
        omega
    rw [general _ fun digit among => Nat.digits_lt_base (by decide) among, Nat.ofDigits_digits]

/-- Different numbers have different texts. -/
theorem decimalText_inj {one two : Int} (same : decimalText one = decimalText two) : one = two := by
  -- A text of digits does not start with a sign.
  have unsigned : ∀ value : Nat, ∀ text, decimalDigits value ≠ '-'.toUInt8 :: text := by
    intro value text signed
    have digit := decimalDigits_isDigit value '-'.toUInt8 (by rw [signed]; exact List.mem_cons_self)
    revert digit
    decide
  have number : ∀ left right : Nat, decimalDigits left = decimalDigits right → left = right := by
    intro left right equal
    rw [← decimalValue_digits left, equal, decimalValue_digits]
  rw [decimalText, decimalText] at same
  -- Both signs agree, and then the digits do.
  by_cases negative : one < 0
  · by_cases below : two < 0
    · rw [if_pos negative, if_pos below] at same
      have digits := number _ _ (List.cons.inj same).2
      omega
    · rw [if_pos negative, if_neg below] at same
      exact absurd same.symm (unsigned _ _)
  · by_cases below : two < 0
    · rw [if_neg negative, if_pos below] at same
      exact absurd same (unsigned _ _)
    · rw [if_neg negative, if_neg below] at same
      have digits := number _ _ same
      omega

/-- A decimal text is not the text of the smallest number, which has no digit. -/
theorem decimalText_ne_sign (value : Int) : decimalText value ≠ ['-'.toUInt8] := by
  rw [decimalText]
  split_ifs with negative
  · -- A sign is followed by at least one digit.
    intro same
    exact decimalDigits_ne_nil _ (List.cons.inj same).2
  · intro same
    -- Without a sign the first character is a digit, and '-' is none.
    have digit := decimalDigits_isDigit value.natAbs '-'.toUInt8 (by rw [same]; exact List.mem_cons_self)
    revert digit
    decide

end MiraOS
