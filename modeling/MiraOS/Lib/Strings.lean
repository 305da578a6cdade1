import MiraOS.Machine.Text

/-! Texts and copies of lib/common/ds.c, lib/common/string.c and lib/common/mem.c. -/

namespace MiraOS

open Machine

/-- A character as the number the comparison of texts subtracts; the type of characters is signed. -/
def charValue (c : UInt8) : Int := c.toInt8.toInt

/-- Compare a text in memory with another one. -/
def dsStrcmp (mem : Memory) (a : Nat) : List UInt8 → Int
  -- The other text has ended, or the first one has, or the characters differ.
  | [] => charValue (mem a) - charValue 0
  | c :: rest =>
    if mem a = 0 then charValue (mem a) - charValue c
    else if mem a ≠ c then charValue (mem a) - charValue c
    else dsStrcmp mem (a + 1) rest

/-- Copy a text into memory, with its end. -/
def dsStrcpy (mem : Memory) (dst : Nat) : List UInt8 → Memory
  | [] => Function.update mem dst 0
  | c :: rest => dsStrcpy (Function.update mem dst c) (dst + 1) rest

/-- Copy bytes from low to high addresses; the two runs may overlap. -/
def memcpy (mem : Memory) (dest src count : Nat) : Memory :=
  (List.range count).foldl (fun mem i => Function.update mem (dest + i) (mem (src + i))) mem

/-- Where a character stands first in a text, whose end counts as the zero character. -/
def strchr (str : List UInt8) (c : UInt8) : Option Nat :=
  match str.findIdx? (· = c) with
  | some position => some position
  | none => if c = 0 then some str.length else none

/-- Different characters have a difference. -/
theorem charValue_sub_eq_zero {one two : UInt8} : charValue one - charValue two = 0 ↔ one = two := by
  constructor
  · intro same
    -- Reading a byte with a sign loses nothing of it.
    have signed : one.toInt8 = two.toInt8 := Int8.toInt_inj.mp (Int.sub_eq_zero.mp same)
    simpa using congrArg Int8.toUInt8 signed
  · rintro rfl
    exact Int.sub_self _

/-- A text compares equal to another one exactly when they have the same characters. -/
theorem dsStrcmp_eq_zero {mem : Memory} {a : Nat} {text other : List UInt8}
    (holds : TextAt mem a text) (solid : 0 ∉ other) : dsStrcmp mem a other = 0 ↔ text = other := by
  -- The comparison walks along both texts while they agree.
  induction other generalizing a text with
  | nil =>
    rw [dsStrcmp, charValue_sub_eq_zero]
    cases text with
    | nil => simpa using holds.ended
    | cons c rest =>
      obtain ⟨first, real⟩ := holds.head
      simp [first, real]
  | cons c rest ih =>
    have real : c ≠ 0 := fun zero => solid (by rw [zero]; exact List.mem_cons_self)
    rw [dsStrcmp]
    cases text with
    | nil =>
      have ended : mem a = 0 := holds.ended
      rw [if_pos ended, ended, charValue_sub_eq_zero]
      simp [real.symm]
    | cons d others =>
      obtain ⟨first, solidFirst⟩ := holds.head
      rw [first, if_neg solidFirst]
      -- Equal characters leave the rest to be compared, and others have a difference.
      by_cases same : d = c
      · have later := ih holds.tail (fun among => solid (List.mem_cons_of_mem c among))
        rw [if_neg (by simpa using same), later]
        simp [same]
      · rw [if_pos same, charValue_sub_eq_zero]
        simp [same]

/-- A byte outside the copied text keeps its value. -/
theorem dsStrcpy_outside {mem : Memory} {dst address : Nat} (text : List UInt8)
    (outside : address < dst ∨ dst + text.length < address) :
    dsStrcpy mem dst text address = mem address := by
  -- Each character goes to its own place, and the zero behind the last one.
  induction text generalizing mem dst with
  | nil =>
    rw [dsStrcpy, Function.update_of_ne]
    rw [List.length_nil] at outside
    omega
  | cons c rest ih =>
    rw [List.length_cons] at outside
    rw [dsStrcpy, ih (by omega), Function.update_of_ne (by omega)]

/-- A copied text is where it was copied to. -/
theorem dsStrcpy_textAt (mem : Memory) (dst : Nat) {text : List UInt8} (solid : 0 ∉ text) :
    TextAt (dsStrcpy mem dst text) dst text := by
  induction text generalizing mem dst with
  | nil => exact TextAt.nil (by rw [dsStrcpy, Function.update_self])
  | cons c rest ih =>
    -- The first character is stored before the others, which leave it.
    have later := ih (Function.update mem dst c) (dst + 1)
      (fun among => solid (List.mem_cons_of_mem c among))
    have first : dsStrcpy (Function.update mem dst c) (dst + 1) rest dst = c := by
      rw [dsStrcpy_outside rest (by omega), Function.update_self]
    refine ⟨fun {i byte} found => ?_, solid, ?_⟩
    · cases i with
      | zero =>
        obtain rfl : c = byte := by simpa using found
        exact first
      | succ i =>
        rw [Nat.add_comm i 1, ← Nat.add_assoc]
        exact later.stored (by simpa using found)
    · rw [List.length_cons, Nat.add_comm rest.length 1, ← Nat.add_assoc]
      exact later.ended

/-- A copy to lower addresses moves the bytes as they were, even where the runs overlap. -/
theorem memcpy_down (mem : Memory) {dest src : Nat} (down : dest ≤ src) (count address : Nat) :
    memcpy mem dest src count address =
      if dest ≤ address ∧ address < dest + count then mem (src + (address - dest))
      else mem address := by
  -- Each turn reads at or above the bytes written so far.
  induction count generalizing address with
  | zero => rw [if_neg (by omega)]; rfl
  | succ count ih =>
    have turn : memcpy mem dest src (count + 1) =
        Function.update (memcpy mem dest src count) (dest + count)
          (memcpy mem dest src count (src + count)) := by
      rw [memcpy, List.range_succ, List.foldl_append]
      rfl
    have read : memcpy mem dest src count (src + count) = mem (src + count) := by
      rw [ih, if_neg (by omega)]
    rw [turn, read]
    -- The address is that of the last byte, one before it, or outside.
    by_cases last : address = dest + count
    · rw [last, Function.update_self, if_pos (by omega), Nat.add_sub_cancel_left]
    · rw [Function.update_of_ne last, ih]
      by_cases inside : dest ≤ address ∧ address < dest + count
      · rw [if_pos inside, if_pos (by omega)]
      · rw [if_neg inside, if_neg (by omega)]

end MiraOS
