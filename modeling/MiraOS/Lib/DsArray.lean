import Mathlib.Algebra.GroupWithZero.Nat
import MiraOS.Machine.Cells

/-! The growing arrays of lib/common/ds.c, and the sequences that they stand for. -/

namespace MiraOS

open Machine

/-- A product of two sizes, which are words of 64 bits. -/
def sizeMul (a b : Nat) : Nat := a * b % 2 ^ 64

/-- Store the bytes of an element in an array of elements of one size. -/
def storeElement (size index : Nat) (elem data : List UInt8) : Except Halt (List UInt8) :=
  storeLoop (loadByte elem) (sizeMul index size) size 0 data

/-- Move the elements behind an index down by one place, each byte by byte. -/
def moveElements (size : Nat) : Nat → Nat → List UInt8 → Except Halt (List UInt8)
  | _, 0, data => .ok data
  | i, turns + 1, data => do
    let data ← moveLoop (sizeMul i size) (sizeMul (i + 1) size) size 0 data
    moveElements size (i + 1) turns data

/-- An array that grows. -/
structure DsArray where
  data : List UInt8
  elemSize : Nat
  count : Nat
  capacity : Nat

/-- Make an array in the memory that is given for it and for its elements. -/
def dsArrayCreate (elemSize initialCapacity : Nat) (arr : Bool) (data : Option (Nat → UInt8)) : Option DsArray :=
  if arr then
    match data with
    | some bytes => some ⟨slots bytes (sizeMul elemSize initialCapacity), elemSize, 0, initialCapacity⟩
    | none => none
  else none

/-- The end of a push, once there is room. -/
def pushElement (arr : DsArray) (elem : List UInt8) : Except Halt DsArray := do
  let data ← storeElement arr.elemSize arr.count elem arr.data
  return { arr with data := data, count := arr.count + 1 }

/-- Push the element at a pointer, with the memory that is given if the array has to grow. -/
def dsArrayPush (arr : DsArray) (elem : Option (List UInt8)) (kmalloc : Option (Nat → UInt8)) :
    Except Halt DsArray :=
  match elem with
  -- A push without a pointer, or without memory to grow, does nothing.
  | none => .ok arr
  | some elem =>
    if arr.capacity ≤ arr.count then
      -- The room is doubled and what is there is copied byte by byte.
      let newCap := sizeMul arr.capacity 2
      match kmalloc with
      | none => .ok arr
      | some bytes => do
        let newData := slots bytes (sizeMul arr.elemSize newCap)
        let newData ← storeLoop (loadByte arr.data) 0 (sizeMul arr.count arr.elemSize) 0 newData
        pushElement { arr with data := newData, capacity := newCap } elem
    else pushElement arr elem

/-- Where the bytes of an element start. -/
def dsArrayGet (arr : DsArray) (index : Nat) : Option Nat :=
  if arr.count ≤ index then none else some (sizeMul index arr.elemSize)

/-- Take an element out. -/
def dsArrayRemove (arr : DsArray) (index : Nat) : Except Halt DsArray :=
  -- An index out of range is ignored.
  if arr.count ≤ index then .ok arr
  else do
    let data ← moveElements arr.elemSize index (arr.count - 1 - index) arr.data
    return { arr with data := data, count := arr.count - 1 }

/-- The number of elements. -/
def dsArrayCount (arr : DsArray) : Nat := arr.count

/-- A use of an array. -/
inductive DsArrayUse where
  | push (elem : Option (List UInt8)) (kmalloc : Option (Nat → UInt8))
  | get (index : Nat)
  | remove (index : Nat)
  | count

/-- The array after a use. -/
def dsArrayStep (arr : DsArray) : DsArrayUse → Except Halt DsArray
  | .push elem kmalloc => dsArrayPush arr elem kmalloc
  | .get _ => .ok arr
  | .remove index => dsArrayRemove arr index
  | .count => .ok arr

/-- The array after uses one after another. -/
def dsArrayRun (arr : DsArray) (uses : List DsArrayUse) : Except Halt DsArray := uses.foldlM dsArrayStep arr

/-- What an array is for: a sequence of elements, and for how many there is room. -/
structure Elements where
  items : List (List UInt8)
  capacity : Nat

/-- The sequence after a use: a push appends unless the array is full and gets no memory. -/
def elementsStep (elements : Elements) : DsArrayUse → Elements
  | .push (some elem) kmalloc =>
    if elements.items.length < elements.capacity then { elements with items := elements.items ++ [elem] }
    else if kmalloc.isSome then ⟨elements.items ++ [elem], elements.capacity * 2⟩
    else elements
  | .push none _ => elements
  | .get _ => elements
  | .remove index => { elements with items := elements.items.eraseIdx index }
  | .count => elements

/-- The sequence after uses one after another. -/
def elementsRun (elements : Elements) (uses : List DsArrayUse) : Elements := uses.foldl elementsStep elements

/-- The array stands for the sequence. -/
structure DsArray.Represents (arr : DsArray) (elements : Elements) : Prop where
  items : elements.items = slots (cell arr.elemSize arr.data) arr.count
  capacity : elements.capacity = arr.capacity
  positive : 1 ≤ arr.capacity
  bounded : arr.count ≤ arr.capacity
  room : arr.data.length = arr.elemSize * arr.capacity

/-- An element that has its size is stored in its cell. -/
theorem storeElement_fits {size index : Nat} {elem data : List UInt8} (full : elem.length = size)
    (inside : index * size + size ≤ data.length) (small : data.length < 2 ^ 64) :
    storeElement size index elem data = .ok (overlay data (index * size) elem) := by
  -- The cell is inside of a block that is not too long, so the product is not wrapped.
  have exact : sizeMul index size = index * size := Nat.mod_eq_of_lt (by omega)
  have stored := @storeLoop_loadByte data (index * size) size elem (by omega) (by omega)
  rw [storeElement, exact, stored, List.take_of_length_le (by omega)]

/-- An element that does not fit stops the code at the end of the array. -/
theorem storeElement_outside {size index : Nat} {elem data : List UInt8} (full : elem.length = size)
    (start : index * size ≤ data.length) (outside : data.length < index * size + size)
    (small : data.length < 2 ^ 64) :
    storeElement size index elem data = .error .outOfBounds := by
  have exact : sizeMul index size = index * size := Nat.mod_eq_of_lt (by omega)
  -- The bytes of the element are there, so only the block can end too early.
  rw [storeElement, exact]
  exact storeLoop_outside (by omega) (by omega) (loadByte_getD (by omega))

/-- Moving elements down takes the cell of the index out of the cells up to the last one moved. -/
theorem moveElements_fits {size i turns : Nat} {data : List UInt8}
    (inside : (i + turns) * size + size ≤ data.length) (small : data.length < 2 ^ 64) :
    ∃ moved, moveElements size i turns data = .ok moved ∧ moved.length = data.length ∧
      cell size moved = shiftDown (cell size data) i turns := by
  -- Each turn stores the next cell in its own, like a turn of the loop over the cells.
  induction turns generalizing i data with
  | zero => exact ⟨data, rfl, rfl, rfl⟩
  | succ turns ih =>
    have next : i + 1 ≤ i + (turns + 1) := by omega
    have there : (i + 1) * size + size ≤ data.length := by
      have := Nat.mul_le_mul_right size next
      omega
    have here : i * size + size ≤ (i + 1) * size := cell_end_le (Nat.lt_succ_self i) size
    have one : sizeMul i size = i * size := Nat.mod_eq_of_lt (by omega)
    have two : sizeMul (i + 1) size = (i + 1) * size := Nat.mod_eq_of_lt (by omega)
    have moved := @moveLoop_fits data 0 size (i * size) ((i + 1) * size) (by omega) (by omega)
    have full : (cell size data (i + 1)).length = size := cell_length there
    -- The turn changes one cell only.
    have cells : cell size (overlay data (i * size) (cell size data (i + 1))) =
        Function.update (cell size data) i (cell size data (i + 1)) := cell_overlay full (by omega)
    have length : (overlay data (i * size) (cell size data (i + 1))).length = data.length := by
      rw [overlay_length (by omega), full]
      omega
    obtain ⟨final, run, same, shifted⟩ := @ih (i + 1) (overlay data (i * size) (cell size data (i + 1)))
      (by rw [length, show i + 1 + turns = i + (turns + 1) by omega]; exact inside) (by omega)
    refine ⟨final, ?_, by omega, ?_⟩
    · rw [moveElements, one, two, moved]
      exact run
    · rw [shifted, cells, shiftDown]

section

variable {arr : DsArray} {elements : Elements}

/-- A push into an array with room appends the element. -/
theorem pushElement_represents (holds : arr.Represents elements) (free : arr.count < arr.capacity)
    (small : arr.elemSize * arr.capacity < 2 ^ 63) {elem : List UInt8} (full : elem.length = arr.elemSize) :
    ∃ after, pushElement arr elem = .ok after ∧ after.elemSize = arr.elemSize ∧
      after.Represents { elements with items := elements.items ++ [elem] } := by
  have room := holds.room
  -- With room the next cell is inside of the block.
  have inside : arr.count * arr.elemSize + arr.elemSize ≤ arr.data.length := by
    rw [room, Nat.mul_comm arr.elemSize]
    exact cell_end_le free arr.elemSize
  have stored := storeElement_fits full inside (by omega)
  refine ⟨_, bind_eq_ok.mpr ⟨_, stored, rfl⟩, rfl, ?_, holds.capacity, holds.positive, free, ?_⟩
  · -- The new cell comes behind those in use.
    rw [holds.items]
    dsimp only
    rw [cell_overlay full inside, slots_push]
  · dsimp only
    rw [overlay_length (by omega), full]
    omega

/-- The copy into a larger block keeps the elements and makes room. -/
theorem grow_represents (holds : arr.Represents elements) (large : 1 ≤ arr.elemSize)
    (small : arr.elemSize * (arr.capacity * 2) < 2 ^ 63) (bytes : Nat → UInt8) :
    ∃ data, storeLoop (loadByte arr.data) 0 (sizeMul arr.count arr.elemSize) 0
        (slots bytes (sizeMul arr.elemSize (sizeMul arr.capacity 2))) = .ok data ∧
      { arr with data := data, capacity := sizeMul arr.capacity 2 : DsArray }.Represents
        { elements with capacity := elements.capacity * 2 } := by
  have room := holds.room
  have used : arr.count * arr.elemSize ≤ arr.elemSize * arr.capacity := by
    rw [Nat.mul_comm]
    exact Nat.mul_le_mul_left _ holds.bounded
  have twice : arr.elemSize * (arr.capacity * 2) = arr.elemSize * arr.capacity * 2 := by
    rw [Nat.mul_assoc]
  have few : arr.capacity * 2 ≤ arr.elemSize * (arr.capacity * 2) := Nat.le_mul_of_pos_left _ large
  -- No product of the sizes leaves the words.
  have cap : sizeMul arr.capacity 2 = arr.capacity * 2 := Nat.mod_eq_of_lt (by omega)
  have size : sizeMul arr.elemSize (arr.capacity * 2) = arr.elemSize * (arr.capacity * 2) :=
    Nat.mod_eq_of_lt (by omega)
  have length : sizeMul arr.count arr.elemSize = arr.count * arr.elemSize := Nat.mod_eq_of_lt (by omega)
  -- All bytes in use are copied to the start of the new block.
  have copied := @storeLoop_loadByte (slots bytes (arr.elemSize * (arr.capacity * 2))) 0
    (arr.count * arr.elemSize) arr.data (by omega) (by rw [slots_length]; omega)
  rw [cap, size, length]
  have positive := holds.positive
  have bounded := holds.bounded
  refine ⟨_, copied, ?_, ?_, ?_, ?_, ?_⟩
  · -- The bytes that are copied hold all the elements.
    rw [holds.items]
    refine (slots_congr fun i inside => ?_).symm
    have ends := cell_end_le inside arr.elemSize
    dsimp only
    rw [overlay, List.take_zero, List.nil_append, cell_append, cell_take inside]
    rw [List.length_take]
    omega
  · dsimp only
    rw [holds.capacity]
  · dsimp only
    omega
  · dsimp only
    omega
  · dsimp only
    rw [overlay_length (Nat.zero_le _), slots_length, List.length_take]
    omega

/-- Every use takes an array to one that stands for the sequence after the use. -/
theorem dsArrayStep_represents (holds : arr.Represents elements) (large : 1 ≤ arr.elemSize) {use : DsArrayUse}
    (sized : ∀ elem kmalloc, use = .push (some elem) kmalloc → elem.length = arr.elemSize)
    (small : arr.elemSize * (elementsStep elements use).capacity < 2 ^ 63) :
    ∃ after, dsArrayStep arr use = .ok after ∧ after.elemSize = arr.elemSize ∧
      after.Represents (elementsStep elements use) := by
  have length : elements.items.length = arr.count := by rw [holds.items, slots_length]
  have capacity := holds.capacity
  have bounded := holds.bounded
  -- Reading leaves the array; a push and a removal change it.
  cases use with
  | push elem kmalloc =>
    cases elem with
    | none => exact ⟨arr, rfl, rfl, holds⟩
    | some elem =>
      have full := sized elem kmalloc rfl
      rw [elementsStep, length] at small ⊢
      rw [dsArrayStep, dsArrayPush]
      dsimp only
      -- The array has room, or it has to grow for the element.
      by_cases free : arr.count < elements.capacity
      · rw [if_pos free] at small ⊢
        rw [if_neg (by omega)]
        exact pushElement_represents holds (by omega) (by rwa [← holds.capacity]) full
      · rw [if_neg free] at small ⊢
        rw [if_pos (by omega)]
        cases kmalloc with
        | none => exact ⟨arr, rfl, rfl, holds⟩
        | some bytes =>
          -- The array grows first, and then there is room.
          have twice : arr.elemSize * (arr.capacity * 2) < 2 ^ 63 := by
            rw [← holds.capacity]
            exact small
          obtain ⟨data, copied, grown⟩ := grow_represents holds large twice bytes
          have cap : elements.capacity * 2 = sizeMul arr.capacity 2 := grown.capacity
          have positive := holds.positive
          have more : arr.count < sizeMul arr.capacity 2 := by omega
          have fits : arr.elemSize * sizeMul arr.capacity 2 < 2 ^ 63 := by
            rw [← cap]
            exact small
          obtain ⟨after, pushed, same, stands⟩ := pushElement_represents grown more fits full
          exact ⟨after, bind_eq_ok.mpr ⟨data, copied, pushed⟩, same, stands⟩
  -- Reading an element changes nothing.
  | get index => exact ⟨arr, rfl, rfl, holds⟩
  | remove index =>
    rw [dsArrayStep, dsArrayRemove, elementsStep]
    -- An index past the end removes nothing.
    by_cases outside : arr.count ≤ index
    · rw [if_pos outside, List.eraseIdx_of_length_le (by omega)]
      exact ⟨arr, rfl, rfl, holds⟩
    · rw [if_neg outside]
      have room := holds.room
      have last : index + (arr.count - 1 - index) < arr.capacity := by omega
      have inside := cell_end_le last arr.elemSize
      rw [Nat.mul_comm arr.capacity, ← room] at inside
      have before : arr.elemSize * arr.capacity < 2 ^ 63 := by
        rw [← holds.capacity]
        exact small
      -- Moving the cells behind the index down is taking its element out.
      obtain ⟨moved, run, same, shifted⟩ := moveElements_fits inside (by omega)
      refine ⟨_, bind_eq_ok.mpr ⟨moved, run, rfl⟩, rfl, ?_, holds.capacity, holds.positive, ?_, ?_⟩
      · dsimp only
        rw [shifted, slots_shiftDown _ (by omega), holds.items]
      · dsimp only
        omega
      · exact same.trans room
  | count => exact ⟨arr, rfl, rfl, holds⟩

/-- The room of the sequence never gets less. -/
theorem elementsStep_capacity_le (elements : Elements) (use : DsArrayUse) :
    elements.capacity ≤ (elementsStep elements use).capacity := by
  -- Only a push grows the capacity, and that by doubling.
  rw [elementsStep.eq_def]
  split
  · split_ifs
    · exact Nat.le_refl _
    · exact Nat.le_mul_of_pos_right _ (by decide)
    · exact Nat.le_refl _
  all_goals exact Nat.le_refl _

theorem elementsRun_capacity_le (elements : Elements) (uses : List DsArrayUse) :
    elements.capacity ≤ (elementsRun elements uses).capacity := by
  -- Each use keeps or doubles the room.
  induction uses generalizing elements with
  | nil => exact Nat.le_refl _
  | cons use rest ih => exact Nat.le_trans (elementsStep_capacity_le elements use) (ih _)

/-- A history of uses takes an array to one that stands for the sequence at its end. -/
theorem dsArrayRun_represents (holds : arr.Represents elements) (large : 1 ≤ arr.elemSize)
    (uses : List DsArrayUse)
    (sized : ∀ elem kmalloc, .push (some elem) kmalloc ∈ uses → elem.length = arr.elemSize)
    (small : arr.elemSize * (elementsRun elements uses).capacity < 2 ^ 63) :
    ∃ after, dsArrayRun arr uses = .ok after ∧ after.elemSize = arr.elemSize ∧
      after.Represents (elementsRun elements uses) := by
  -- The array and the sequence change along the uses.
  induction uses generalizing arr elements with
  | nil => exact ⟨arr, rfl, rfl, holds⟩
  | cons use rest ih =>
    -- The room after the first use is at most that at the end.
    have later := Nat.mul_le_mul_left arr.elemSize
      (elementsRun_capacity_le (elementsStep elements use) rest)
    have now : arr.elemSize * (elementsStep elements use).capacity < 2 ^ 63 := Nat.lt_of_le_of_lt later small
    obtain ⟨next, stepped, same, stands⟩ := dsArrayStep_represents holds large
      (fun elem kmalloc first => sized elem kmalloc (by rw [first]; exact List.mem_cons_self)) now
    obtain ⟨after, ran, size, final⟩ := ih stands (by omega)
      (fun elem kmalloc among => by rw [same]; exact sized elem kmalloc (List.mem_cons_of_mem _ among))
      (by rw [same]; exact small)
    refine ⟨after, ?_, size.trans same, final⟩
    rw [dsArrayRun, List.foldlM_cons, stepped, ok_bind]
    exact ran

/-- The bytes where an element starts are those of the sequence at its index. -/
theorem dsArrayGet_represents (holds : arr.Represents elements)
    (small : arr.elemSize * elements.capacity < 2 ^ 63) (index : Nat) :
    (dsArrayGet arr index).map (fun start => (arr.data.drop start).take arr.elemSize) =
      elements.items[index]? := by
  have capacity := holds.capacity
  have bounded := holds.bounded
  rw [dsArrayGet, holds.items, slots_getElem?]
  -- A cell in use is inside of the block, so its start is not wrapped.
  by_cases inside : index < arr.count
  · have ends := cell_end_le inside arr.elemSize
    have used := Nat.mul_le_mul_left arr.elemSize bounded
    rw [Nat.mul_comm arr.count] at ends
    rw [capacity] at small
    have exact : sizeMul index arr.elemSize = index * arr.elemSize := Nat.mod_eq_of_lt (by omega)
    rw [if_neg (by omega), if_pos inside, Option.map_some, exact, cell]
  · rw [if_pos (by omega), if_neg inside, Option.map_none]

end

end MiraOS
