import Mathlib.Data.Nat.Digits.Defs
import Mathlib.Tactic.Ring

/-! Numbers as little-endian sequences of bytes, the fields of a packed record. -/

namespace Machine

/-- The number that a sequence of bytes stands for, the lowest byte first. -/
def leValue (bytes : List UInt8) : Nat := Nat.ofDigits 256 (bytes.map UInt8.toNat)

/-- The lowest bytes of a number, as many as asked for. -/
def leBytes : Nat → Nat → List UInt8
  | 0, _ => []
  | width + 1, value => UInt8.ofNat value :: leBytes width (value / 256)

/-- The bytes of a field of a record, at its place. -/
def fieldOf (bytes : List UInt8) (place width : Nat) : List UInt8 := (bytes.drop place).take width

section

variable {bytes : List UInt8} {place width value : Nat}

@[simp] theorem leValue_nil : leValue [] = 0 := rfl

theorem leValue_cons (byte : UInt8) (bytes : List UInt8) :
    leValue (byte :: bytes) = byte.toNat + 256 * leValue bytes := by
  rw [leValue, List.map_cons, Nat.ofDigits_cons, leValue]

@[simp] theorem leBytes_length (width value : Nat) : (leBytes width value).length = width := by
  -- Induction on the width: each step is one byte.
  induction width generalizing value with
  | zero => rfl
  | succ width ih => rw [leBytes, List.length_cons, ih]

/-- A number read back from its lowest bytes is cut to them. -/
theorem leValue_leBytes (width value : Nat) : leValue (leBytes width value) = value % 256 ^ width := by
  induction width generalizing value with
  | zero => simp [leBytes, Nat.mod_one]
  | succ width ih =>
    -- The first byte is the remainder, and the others are those of the quotient.
    have low : (UInt8.ofNat value).toNat = value % 256 := by simp
    rw [leBytes, leValue_cons, ih, low, Nat.pow_succ, Nat.mul_comm (256 ^ width) 256, Nat.mod_mul]

/-- The bytes of the number that bytes stand for are those bytes. -/
theorem leBytes_leValue (bytes : List UInt8) : leBytes bytes.length (leValue bytes) = bytes := by
  induction bytes with
  | nil => rfl
  | cons byte bytes ih =>
    -- The lowest byte is the remainder, and the others are the quotient.
    have small : byte.toNat < 256 := byte.toNat_lt
    have rest : (byte.toNat + 256 * leValue bytes) / 256 = leValue bytes := by omega
    have first : UInt8.ofNat (byte.toNat + 256 * leValue bytes) = byte := by
      apply UInt8.toNat_inj.mp
      rw [UInt8.toNat_ofNat']
      omega
    rw [leValue_cons, List.length_cons, leBytes, rest, ih, first]

/-- Bytes stand for a number below the range of that many bytes. -/
theorem leValue_lt (bytes : List UInt8) : leValue bytes < 256 ^ bytes.length := by
  -- One more byte makes the bound 256 times as large.
  induction bytes with
  | nil => simp
  | cons byte bytes ih =>
    have small : byte.toNat < 256 := byte.toNat_lt
    rw [leValue_cons, List.length_cons, Nat.pow_succ]
    omega

/-- Sequences of the same length stand for different numbers, unless they are the same. -/
theorem leValue_inj {others : List UInt8} (length : bytes.length = others.length)
    (same : leValue bytes = leValue others) : bytes = others := by
  rw [← leBytes_leValue bytes, ← leBytes_leValue others, length, same]

/-- A field inside the record is as wide as asked for. -/
theorem fieldOf_length (inside : place + width ≤ bytes.length) : (fieldOf bytes place width).length = width := by
  rw [fieldOf, List.length_take, List.length_drop]
  omega

/-- A field stands for a number of its width, also where the record ends inside of it. -/
theorem leValue_fieldOf_lt (bytes : List UInt8) (place width : Nat) :
    leValue (fieldOf bytes place width) < 256 ^ width := by
  have short : (fieldOf bytes place width).length ≤ width := by
    rw [fieldOf, List.length_take]
    omega
  -- A number of fewer bytes is below a smaller power of 256.
  calc leValue (fieldOf bytes place width) < 256 ^ (fieldOf bytes place width).length := leValue_lt _
    _ ≤ 256 ^ width := Nat.pow_le_pow_right (by omega) short

/-- Writing down a field that was read gives its bytes back. -/
theorem leBytes_fieldOf (inside : place + width ≤ bytes.length) :
    leBytes width (leValue (fieldOf bytes place width)) = fieldOf bytes place width := by
  have back := leBytes_leValue (fieldOf bytes place width)
  rwa [fieldOf_length inside] at back

/-- The bytes of a field, one by one. -/
theorem fieldOf_getElem? {j : Nat} (inside : j < width) :
    (fieldOf bytes place width)[j]? = bytes[place + j]? := by
  rw [fieldOf, List.getElem?_take_of_lt inside, List.getElem?_drop]

/-- A field is the same where its bytes are. -/
theorem fieldOf_congr {others : List UInt8}
    (same : ∀ j, place ≤ j → j < place + width → bytes[j]? = others[j]?) :
    fieldOf bytes place width = fieldOf others place width := by
  -- Inside, each byte is the same one; behind, there is none in either.
  apply List.ext_getElem?
  intro j
  by_cases inside : j < width
  · rw [fieldOf_getElem? inside, fieldOf_getElem? inside]
    exact same _ (by omega) (by omega)
  · rw [fieldOf, fieldOf, List.getElem?_take_eq_none (by omega), List.getElem?_take_eq_none (by omega)]

/-- A field of a part of a record is a field of the record. -/
theorem fieldOf_fieldOf {start count : Nat} (inside : place + width ≤ count) :
    fieldOf (fieldOf bytes start count) place width = fieldOf bytes (start + place) width := by
  apply List.ext_getElem?
  intro j
  -- A byte of the field, or a place behind it.
  by_cases small : j < width
  · rw [fieldOf_getElem? small, fieldOf_getElem? (by omega), fieldOf_getElem? small, Nat.add_assoc]
  · rw [fieldOf, List.getElem?_take_eq_none (by omega), fieldOf, List.getElem?_take_eq_none (by omega)]

/-- A field of the first part of a record is a field of the record. -/
theorem fieldOf_append {rest : List UInt8} (inside : place + width ≤ bytes.length) :
    fieldOf (bytes ++ rest) place width = fieldOf bytes place width := by
  apply fieldOf_congr
  -- The field lies within the front.
  intro j low high
  exact List.getElem?_append_left (by omega)

/-- A field follows the bytes in front of it. -/
theorem take_append_fieldOf (bytes : List UInt8) (place width : Nat) :
    bytes.take place ++ fieldOf bytes place width = bytes.take (place + width) := List.take_add.symm

end

end Machine
