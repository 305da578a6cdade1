import Mathlib.Data.List.Basic
import Mathlib.Logic.Function.Basic

/-! First-in first-out queues in a ring of slots, one of which stays free. -/

namespace Machine

/-- The items between the two positions of a ring, oldest first. -/
structure RingHolds {α : Type} (size : Nat) (slots : Nat → α) (head tail : Nat) (items : List α) :
    Prop where
  -- One slot stays free, so that equal positions mean an empty ring.
  tailInside : tail < size
  room : items.length < size
  headPlace : head = (tail + items.length) % size
  stored : ∀ {i item}, items[i]? = some item → slots ((tail + i) % size) = item

/-- A position less than one turn past the end of the ring. -/
theorem wrap_eq {size position : Nat} (near : position < 2 * size) :
    position % size = if position < size then position else position - size := by
  -- At most one turn around the ring is taken off.
  split
  · exact Nat.mod_eq_of_lt (by assumption)
  · rw [Nat.mod_eq_sub_mod (by omega), Nat.mod_eq_of_lt (by omega)]

section

variable {α : Type} {size head tail : Nat} {slots : Nat → α} {items : List α}

/-- A ring whose two positions agree holds nothing. -/
theorem RingHolds.empty_iff (holds : RingHolds size slots head tail items) :
    head = tail ↔ items = [] := by
  -- Fewer items than slots never make a full turn, so the positions meet only without items.
  have first := holds.tailInside
  have room := holds.room
  rw [holds.headPlace, wrap_eq (by omega), ← List.length_eq_zero_iff]
  split <;> omega

/-- Storing one more item while two slots are free. -/
theorem RingHolds.push (holds : RingHolds size slots head tail items) (item : α)
    (room : items.length + 1 < size) :
    (head + 1) % size ≠ tail ∧
      RingHolds size (Function.update slots head item) ((head + 1) % size) tail (items ++ [item]) := by
  -- The head moves on by one slot, and the slot it leaves holds the new item.
  have first := holds.tailInside
  have place := holds.headPlace
  rw [wrap_eq (by omega)] at place
  have next : (head + 1) % size = (tail + (items.length + 1)) % size := by
    rw [holds.headPlace, Nat.mod_add_mod, Nat.add_assoc]
  refine ⟨?_, first, by simpa using room, by simpa using next, ?_⟩
  · rw [next, wrap_eq (by omega)]
    split <;> omega
  · intro i other found
    have inside : i < items.length + 1 := by
      have := (List.getElem?_eq_some_iff.mp found).1
      simpa using this
    by_cases last : i = items.length
    · -- The new item is stored at the old head.
      rw [last, ← holds.headPlace, Function.update_self]
      rw [last, List.getElem?_append_right (Nat.le_refl _)] at found
      simpa using found
    · rw [List.getElem?_append_left (by omega)] at found
      -- The older items lie less than one turn behind the head.
      have apart : (tail + i) % size ≠ head := by
        rw [wrap_eq (by omega)]
        split at place <;> split <;> omega
      rw [Function.update_of_ne apart]
      exact holds.stored found

/-- A ring with one free slot takes nothing more: the head is right behind the tail. -/
theorem RingHolds.full (holds : RingHolds size slots head tail items)
    (filled : items.length + 1 = size) : (head + 1) % size = tail := by
  -- One step past the last item is one whole turn past the first.
  have first := holds.tailInside
  rw [holds.headPlace, Nat.mod_add_mod, Nat.add_assoc, filled, Nat.add_mod_right,
    Nat.mod_eq_of_lt first]

/-- Taking the oldest item. -/
theorem RingHolds.pop {item : α} {rest : List α}
    (holds : RingHolds size slots head tail (item :: rest)) :
    slots tail = item ∧ RingHolds size slots head ((tail + 1) % size) rest := by
  -- The tail moves on by one slot, so every remaining item is one place nearer to it.
  have first := holds.tailInside
  have room := holds.room
  simp only [List.length_cons] at room
  have oldest : slots ((tail + 0) % size) = item := holds.stored rfl
  rw [Nat.add_zero, Nat.mod_eq_of_lt first] at oldest
  refine ⟨oldest, Nat.mod_lt _ (by omega), by omega, ?_, fun {i other} found => ?_⟩
  · rw [holds.headPlace, List.length_cons, Nat.mod_add_mod]
    congr 1
    omega
  · have later : slots ((tail + (i + 1)) % size) = other := holds.stored (by simpa using found)
    rw [Nat.mod_add_mod]
    rwa [Nat.add_assoc, Nat.add_comm 1 i]

end

end Machine
