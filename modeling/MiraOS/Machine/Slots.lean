import Mathlib.Data.List.Basic
import Mathlib.Logic.Function.Basic

/-! Arrays whose first slots are in use, and the loops that move items by one slot. -/

namespace Machine

section

variable {α : Type}

/-- The items in the first slots of an array. -/
def slots (array : Nat → α) (count : Nat) : List α := (List.range count).map array

/-- The loop that copies items from the next slot, from low to high slots. -/
def shiftDown (array : Nat → α) (index : Nat) : Nat → Nat → α
  | 0 => array
  | turns + 1 => shiftDown (Function.update array index (array (index + 1))) (index + 1) turns

/-- The loop that copies items from the slot before, from a slot down to the second one. -/
def shiftUp (array : Nat → α) : Nat → Nat → α
  | 0 => array
  | index + 1 => shiftUp (Function.update array (index + 1) (array index)) index

/-- The last slot below a bound that passes a test, looked for from high to low slots. -/
def lastSlot (test : Nat → Bool) : Nat → Option Nat
  | 0 => none
  | i + 1 => if test i then some i else lastSlot test i

/-- The items after a move down. -/
theorem shiftDown_apply (array : Nat → α) (index turns i : Nat) :
    shiftDown array index turns i = if index ≤ i ∧ i < index + turns then array (i + 1) else array i := by
  -- The slot of the first turn is not read again, since the later turns read above it.
  induction turns generalizing array index with
  | zero =>
    rw [shiftDown, if_neg (by omega)]
  | succ turns ih =>
    rw [shiftDown, ih]
    by_cases here : i = index
    · rw [if_neg (by omega), if_pos (by omega), here, Function.update_self]
    · by_cases later : index + 1 ≤ i ∧ i < index + 1 + turns
      · rw [if_pos later, if_pos (by omega), Function.update_of_ne (by omega)]
      · rw [if_neg later, if_neg (by omega), Function.update_of_ne here]

/-- The items after a move up. -/
theorem shiftUp_apply (array : Nat → α) (index i : Nat) :
    shiftUp array index i = if 0 < i ∧ i ≤ index then array (i - 1) else array i := by
  -- The slot of the first turn is the highest, and the later turns read below it.
  induction index generalizing array with
  | zero =>
    rw [shiftUp, if_neg (by omega)]
  | succ index ih =>
    rw [shiftUp, ih]
    by_cases here : i = index + 1
    · rw [if_neg (by omega), if_pos (by omega), here, Function.update_self, Nat.add_sub_cancel]
    · by_cases lower : 0 < i ∧ i ≤ index
      · rw [if_pos lower, if_pos (by omega), Function.update_of_ne (by omega)]
      · rw [if_neg lower, if_neg (by omega), Function.update_of_ne here]

/-- The slot that is found passes the test and no later one does. -/
theorem lastSlot_eq_some {test : Nat → Bool} {count i : Nat} :
    lastSlot test count = some i ↔ i < count ∧ test i ∧ ∀ k, i < k → k < count → ¬ test k := by
  induction count with
  | zero => simp [lastSlot]
  | succ count ih =>
    rw [lastSlot]
    by_cases passes : test count
    · -- The highest slot passes, so every other answer has a later slot that does.
      rw [if_pos passes]
      constructor
      · intro same
        obtain rfl := Option.some.inj same
        exact ⟨Nat.lt_succ_self _, passes, fun k later inside => by omega⟩
      · rintro ⟨inside, -, last⟩
        have top : ¬ i < count := fun lower => last count lower (Nat.lt_succ_self _) passes
        rw [show count = i by omega]
    · -- The highest slot fails, so the answer is that of the slots below.
      rw [if_neg passes, ih]
      constructor
      · rintro ⟨inside, here, last⟩
        refine ⟨by omega, here, fun k later inside => ?_⟩
        rcases Nat.lt_succ_iff_lt_or_eq.mp inside with lower | rfl
        · exact last k later lower
        · exact passes
      · rintro ⟨inside, here, last⟩
        have lower : i ≠ count := fun same => passes (same ▸ here)
        exact ⟨by omega, here, fun k later inside => last k later (by omega)⟩

/-- The last of the slots that pass a test in rising order. -/
theorem getLast?_filter_range (test : Nat → Bool) (count : Nat) :
    ((List.range count).filter test).getLast? = lastSlot test count := by
  induction count with
  | zero => rfl
  | succ count ih =>
    rw [List.range_succ, List.filter_append, lastSlot]
    -- The highest slot comes last if it passes, and does not count otherwise.
    by_cases passes : test count
    · rw [if_pos passes, List.filter_cons_of_pos passes, List.filter_nil, List.getLast?_concat]
    · rw [if_neg passes, List.filter_cons_of_neg passes, List.filter_nil, List.append_nil, ih]

@[simp] theorem slots_length (array : Nat → α) (count : Nat) : (slots array count).length = count := by
  simp [slots]

/-- The items one by one. -/
theorem slots_getElem? (array : Nat → α) (count i : Nat) :
    (slots array count)[i]? = if i < count then some (array i) else none := by
  rw [slots, List.getElem?_map]
  -- The slots are those below the count.
  by_cases inside : i < count
  · rw [if_pos inside, List.getElem?_range inside, Option.map_some]
  · rw [if_neg inside, List.getElem?_eq_none (by simpa using inside), Option.map_none]

/-- An item of the array is in one of the slots in use. -/
theorem mem_slots {array : Nat → α} {count : Nat} {item : α} :
    item ∈ slots array count ↔ ∃ i, i < count ∧ array i = item := by
  simp [slots]

/-- Arrays that agree on the slots in use have the same items. -/
theorem slots_congr {array other : Nat → α} {count : Nat} (same : ∀ i, i < count → other i = array i) :
    slots other count = slots array count :=
  List.map_congr_left fun i inside => same i (List.mem_range.mp inside)

/-- Storing an item that agrees in a field with the one before leaves the field in every slot. -/
theorem update_field {β : Type} {field : α → β} {array : Nat → α} {index : Nat} {item : α}
    (same : field item = field (array index)) (i : Nat) :
    field (Function.update array index item i) = field (array i) := by
  -- The written item has the same field as the one it replaces.
  by_cases here : i = index
  · rw [here, Function.update_self, same]
  · rw [Function.update_of_ne here]

/-- Storing an item in a slot in use. -/
theorem slots_update (array : Nat → α) (count index : Nat) (item : α) :
    slots (Function.update array index item) count = (slots array count).set index item := by
  -- Slot by slot: the one that was written, and the others.
  apply List.ext_getElem?
  intro i
  rw [List.getElem?_set, slots_getElem?, slots_getElem?, slots_length]
  by_cases here : index = i
  · rw [if_pos here, here, Function.update_self]
  · rw [if_neg here, Function.update_of_ne (Ne.symm here)]

/-- Storing an item in the first free slot. -/
theorem slots_push (array : Nat → α) (count : Nat) (item : α) :
    slots (Function.update array count item) (count + 1) = slots array count ++ [item] := by
  have front : slots (Function.update array count item) count = slots array count :=
    slots_congr fun i inside => Function.update_of_ne (by omega) _ _
  rw [slots, List.range_succ, List.map_append, ← slots, front, List.map_singleton, Function.update_self]

/-- Moving the items behind a slot down takes its item out. -/
theorem slots_shiftDown (array : Nat → α) {count index : Nat} (inside : index < count) :
    slots (shiftDown array index (count - 1 - index)) (count - 1) = (slots array count).eraseIdx index := by
  apply List.ext_getElem?
  intro i
  rw [slots_getElem?, List.getElem?_eraseIdx, slots_getElem?, slots_getElem?, shiftDown_apply]
  -- In front of the slot nothing moves, behind it everything does.
  by_cases before : i < index
  · have stays : ¬ (index ≤ i ∧ i < index + (count - 1 - index)) := by omega
    have short : i < count - 1 := by omega
    have used : i < count := by omega
    rw [if_neg stays, if_pos short, if_pos before, if_pos used]
  · rw [if_neg before]
    by_cases short : i < count - 1
    · have moves : index ≤ i ∧ i < index + (count - 1 - index) := by omega
      have used : i + 1 < count := by omega
      rw [if_pos moves, if_pos short, if_pos used]
    · have unused : ¬ i + 1 < count := by omega
      rw [if_neg short, if_neg unused]

end

end Machine
