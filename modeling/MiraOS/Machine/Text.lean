import MiraOS.Machine.Bytes
import Mathlib.Data.List.Basic
import Mathlib.Logic.Function.Basic

/-! Texts in memory that end with a zero byte. -/

namespace Machine

/-- The characters of a string literal as bytes. -/
def asciiBytes (text : String) : List UInt8 := text.toList.map fun c => c.toNat.toUInt8

/-- The bytes of a text in memory, followed by the zero byte that ends it. -/
structure TextAt (mem : Memory) (start : Nat) (text : List UInt8) : Prop where
  stored : ∀ {i byte}, text[i]? = some byte → mem (start + i) = byte
  -- A zero byte inside would end the text early.
  solid : 0 ∉ text
  ended : mem (start + text.length) = 0

/-- The bytes from a position up to the first zero byte, within a limit. -/
def readText (mem : Memory) (start : Nat) : Nat → List UInt8
  | 0 => []
  | limit + 1 => if mem start = 0 then [] else mem start :: readText mem (start + 1) limit

/-- Copy a number of bytes from the front of one array to the front of another. -/
def copyFront (count : Nat) (source target : Memory) : Memory :=
  (List.range count).foldl (fun target i => Function.update target i (source i)) target

/-- The bytes after a copy. -/
theorem copyFront_apply (count : Nat) (source target : Memory) (i : Nat) :
    copyFront count source target i = if i < count then source i else target i := by
  -- The last turn stores one byte, and the turns before it are the same loop.
  induction count with
  | zero => rfl
  | succ count ih =>
    rw [copyFront, List.range_succ, List.foldl_append]
    change Function.update (copyFront count source target) count (source count) i = _
    by_cases last : i = count
    · rw [last, Function.update_self, if_pos (Nat.lt_succ_self count)]
    · rw [Function.update_of_ne last, ih]
      by_cases inside : i < count
      · rw [if_pos inside, if_pos (by omega)]
      · rw [if_neg inside, if_neg (by omega)]

section

variable {mem : Memory} {start : Nat} {text : List UInt8}

/-- The empty text is a zero byte. -/
theorem TextAt.nil (ended : mem start = 0) : TextAt mem start [] :=
  ⟨fun found => by simp at found, by simp, ended⟩

/-- A text depends on its own bytes and its end only. -/
theorem TextAt.congr {other : Memory} (holds : TextAt mem start text)
    (same : ∀ i, i ≤ text.length → other (start + i) = mem (start + i)) :
    TextAt other start text := by
  refine ⟨fun {i byte} found => ?_, holds.solid, ?_⟩
  · -- The places of the text and of its terminator are the ones that agree.
    have inside := (List.getElem?_eq_some_iff.mp found).1
    rw [same i (by omega), holds.stored found]
  · rw [same _ (Nat.le_refl _), holds.ended]

/-- One more byte at the end of a text, which ends one place further on. -/
theorem TextAt.push {byte : UInt8} (holds : TextAt mem start text) (solid : byte ≠ 0) :
    TextAt (Function.update (Function.update mem (start + text.length) byte)
      (start + (text.length + 1)) 0) start (text ++ [byte]) := by
  -- The new byte takes the place of the old end, and the end moves one place on.
  refine ⟨fun {i other} found => ?_, ?_, ?_⟩
  · have inside : i < (text ++ [byte]).length := (List.getElem?_eq_some_iff.mp found).1
    rw [List.length_append, List.length_singleton] at inside
    rw [Function.update_of_ne (by omega)]
    by_cases last : i = text.length
    · rw [last, Function.update_self]
      rw [last, List.getElem?_append_right (Nat.le_refl _)] at found
      simpa using found
    · rw [List.getElem?_append_left (by omega)] at found
      rw [Function.update_of_ne (by omega), holds.stored found]
  · intro among
    rcases List.mem_append.mp among with before | here
    · exact holds.solid before
    · exact solid (List.mem_singleton.mp here).symm
  · rw [List.length_append, List.length_singleton, Function.update_self]

/-- Cutting a text short by one byte. -/
theorem TextAt.pop (holds : TextAt mem start text) (some : text ≠ []) :
    TextAt (Function.update mem (start + (text.length - 1)) 0) start text.dropLast := by
  -- The last byte becomes the new end.
  have positive : 0 < text.length := List.length_pos_iff.mpr some
  refine ⟨fun {i other} found => ?_, ?_, ?_⟩
  · have inside := (List.getElem?_eq_some_iff.mp found).1
    rw [List.length_dropLast] at inside
    rw [Function.update_of_ne (by omega)]
    rw [List.getElem?_dropLast, if_pos inside] at found
    exact holds.stored found
  · exact fun among => holds.solid (List.dropLast_subset text among)
  · rw [List.length_dropLast, Function.update_self]

/-- A text without its first byte. -/
theorem TextAt.tail {byte : UInt8} {rest : List UInt8} (holds : TextAt mem start (byte :: rest)) :
    TextAt mem (start + 1) rest := by
  refine ⟨fun {i other} found => ?_, fun among => holds.solid (List.mem_cons_of_mem _ among), ?_⟩
  · -- The rest starts one byte on.
    rw [Nat.add_assoc, Nat.add_comm 1 i]
    exact holds.stored (by simpa using found)
  · rw [Nat.add_assoc, Nat.add_comm 1]
    exact holds.ended

/-- The first byte of a text that is not empty is not zero. -/
theorem TextAt.head {byte : UInt8} {rest : List UInt8} (holds : TextAt mem start (byte :: rest)) :
    mem start = byte ∧ byte ≠ 0 := by
  refine ⟨@TextAt.stored _ _ _ holds 0 byte rfl, fun zero => holds.solid ?_⟩
  rw [zero]
  exact List.mem_cons_self

/-- Up to its end a text has a zero byte at its end only. -/
theorem TextAt.zero_iff {i : Nat} (holds : TextAt mem start text) (within : i ≤ text.length) :
    mem (start + i) = 0 ↔ i = text.length := by
  constructor
  · intro zero
    by_contra other
    -- Any byte in front of the end belongs to the text.
    have inside : i < text.length := by omega
    have stored := holds.stored (List.getElem?_eq_getElem inside)
    refine holds.solid ?_
    rw [← zero, stored]
    exact List.getElem_mem inside
  · rintro rfl
    exact holds.ended

/-- Reading gives the text back when the limit allows. -/
theorem TextAt.read {limit : Nat} (holds : TextAt mem start text) (room : text.length < limit) :
    readText mem start limit = text := by
  -- Each byte that is not zero is taken, and the text goes on one place later.
  induction text generalizing start limit with
  | nil =>
    obtain ⟨limit, rfl⟩ : ∃ less, limit = less + 1 := ⟨limit - 1, by simp at room; omega⟩
    have ended : mem start = 0 := holds.ended
    rw [readText, if_pos ended]
  | cons byte rest ih =>
    rw [List.length_cons] at room
    obtain ⟨limit, rfl⟩ : ∃ less, limit = less + 1 := ⟨limit - 1, by omega⟩
    obtain ⟨first, solid⟩ := holds.head
    rw [readText, first, if_neg solid, ih holds.tail (by omega)]

end

end Machine
