import MiraOS.Lib.Strings
import MiraOS.Machine.Records

/-! Arrays of records that start with a name, as the variables and the aliases of ui/shell.c. -/

namespace MiraOS

open Machine

/-- The loop over the records up to the first one of a name. -/
def recordNamed (size : Nat) (mem : Memory) (count : Nat) (name : List UInt8) : Option Nat :=
  (List.range count).find? fun i => dsStrcmp mem (i * size) name = 0

/-- Take a record out by moving those behind it down by one place. -/
def recordRemove (size : Nat) (mem : Memory) (count j : Nat) : Memory :=
  if j < count - 1 then memcpy mem (j * size) ((j + 1) * size) ((count - j - 1) * size) else mem

/-- A name that a record has room for. -/
def NameFits (name : List UInt8) : Prop := 0 ∉ name ∧ name.length < 64

/-- A value that a record has room for. -/
def ValueFits (value : List UInt8) : Prop := 0 ∉ value ∧ value.length < 256

/-- The loop finds the first record of the name. -/
theorem recordNamed_eq {α : Type} {size : Nat} {shape : Memory → α → Prop} {mem : Memory}
    {items : List α} {nameOf : α → List UInt8} (holds : RecordsHold size shape mem items)
    (named : ∀ {bytes item}, shape bytes item → TextAt bytes 0 (nameOf item)) {name : List UInt8}
    (solid : 0 ∉ name) :
    recordNamed size mem items.length name = items.findIdx? (nameOf · = name) := by
  -- The comparison succeeds at a record exactly when its name is the one looked for.
  have compares : ∀ i item, items[i]? = some item →
      (dsStrcmp mem (i * size) name = 0 ↔ nameOf item = name) := by
    intro i item found
    exact dsStrcmp_eq_zero (textAt_record.mp (named (holds.held found))) solid
  rw [recordNamed]
  -- The two searches run over the same places, one by position and one by item.
  cases result : items.findIdx? (nameOf · = name) with
  | none =>
    rw [List.findIdx?_eq_none_iff] at result
    rw [List.find?_eq_none]
    intro i inside
    have bound := List.mem_range.mp inside
    have found : items[i]? = some items[i] := List.getElem?_eq_getElem bound
    have other := result items[i] (List.getElem_mem bound)
    simpa [compares i _ found] using other
  | some j =>
    -- The comparison fails at every place before and succeeds here.
    obtain ⟨bound, here, before⟩ := List.findIdx?_eq_some_iff_getElem.mp result
    rw [List.find?_range_eq_some]
    refine ⟨?_, List.mem_range.mpr bound, ?_⟩
    · simpa [compares j _ (List.getElem?_eq_getElem bound)] using here
    · intro i earlier
      have inside : i < items.length := by omega
      have other := before i earlier
      simpa [compares i _ (List.getElem?_eq_getElem inside)] using other

/-- Moving the records down leaves those before the removed one and moves the others by one. -/
theorem recordRemove_moved {size : Nat} (mem : Memory) {count j : Nat} (inside : j < count)
    {place : Nat} (short : place < count - 1) {offset : Nat} (within : offset < size) :
    record size (recordRemove size mem count j) place offset =
      record size mem (if place < j then place else place + 1) offset := by
  unfold recordRemove record
  by_cases last : j < count - 1
  swap
  · -- Nothing lies behind the last record.
    rw [if_neg last, if_pos (by omega)]
  rw [if_pos last, memcpy_down mem (Nat.mul_le_mul_right size (Nat.le_succ j))]
  by_cases before : place < j
  · -- A record before the removed one ends where that one starts, or earlier.
    have apart : (place + 1) * size ≤ j * size := Nat.mul_le_mul_right size before
    rw [Nat.succ_mul] at apart
    rw [if_pos before, if_neg (by omega)]
  · -- A record behind it lies in the block that is moved, and comes from one record later.
    have low : j * size ≤ place * size := Nat.mul_le_mul_right size (by omega)
    have high : (place + 1) * size ≤ j * size + (count - j - 1) * size := by
      rw [← Nat.add_mul]
      exact Nat.mul_le_mul_right size (by omega)
    rw [Nat.succ_mul] at high
    rw [if_neg before, if_pos (by omega), Nat.succ_mul, Nat.succ_mul]
    congr 1
    omega

end MiraOS
