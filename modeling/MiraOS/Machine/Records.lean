import MiraOS.Machine.Text

/-! Arrays of records of one size, laid out one after another in memory. -/

namespace Machine

/-- The bytes of one record of an array. -/
def record (size : Nat) (mem : Memory) (index : Nat) : Memory := fun offset => mem (index * size + offset)

/-- A text inside a record is a text of the memory. -/
theorem textAt_record {size : Nat} {mem : Memory} {index offset : Nat} {text : List UInt8} :
    TextAt (record size mem index) offset text ↔ TextAt mem (index * size + offset) text := by
  -- The place inside the record is a sum with its start.
  constructor
  · intro holds
    refine ⟨fun {i byte} found => ?_, holds.solid, ?_⟩
    · rw [Nat.add_assoc]
      exact holds.stored found
    · rw [Nat.add_assoc]
      exact holds.ended
  · intro holds
    refine ⟨fun {i byte} found => ?_, holds.solid, ?_⟩
    · rw [record, ← Nat.add_assoc]
      exact holds.stored found
    · rw [record, ← Nat.add_assoc]
      exact holds.ended

/-- The records of an array stand for the items of a list, where the shape says what the bytes of a
record stand for. -/
structure RecordsHold {α : Type} (size : Nat) (shape : Memory → α → Prop) (mem : Memory)
    (items : List α) : Prop where
  held : ∀ {index item}, items[index]? = some item → shape (record size mem index) item

/-- What a record stands for is settled by its own bytes. -/
def Shape.Local {α : Type} (size : Nat) (shape : Memory → α → Prop) : Prop :=
  ∀ {one two : Memory} {item}, (∀ offset, offset < size → two offset = one offset) →
    shape one item → shape two item

/-- A place of one record is no place of another. -/
theorem record_apart {size index other offset : Nat} (inside : offset < size)
    (apart : index ≠ other) :
    index * size + offset < other * size ∨ other * size + size ≤ index * size + offset := by
  -- The records between the two are whole, so a place of one is a size away from the other.
  rcases Nat.lt_or_gt_of_ne apart with below | above
  · left
    have next : (index + 1) * size ≤ other * size := Nat.mul_le_mul_right size below
    rw [Nat.succ_mul] at next
    omega
  · right
    have next : (other + 1) * size ≤ index * size := Nat.mul_le_mul_right size above
    rw [Nat.succ_mul] at next
    omega

section

variable {α : Type} {size : Nat} {shape : Memory → α → Prop} {mem other : Memory} {items : List α}

/-- An array without records stands for no items. -/
theorem RecordsHold.nil : RecordsHold size shape mem [] := ⟨fun found => by simp at found⟩

/-- Writing inside one record changes one item. -/
theorem RecordsHold.set (holds : RecordsHold size shape mem items) (near : Shape.Local size shape)
    {index : Nat} {item : α}
    (frame : ∀ address, address < index * size ∨ index * size + size ≤ address →
      other address = mem address)
    (written : shape (record size other index) item) :
    RecordsHold size shape other (items.set index item) := by
  refine ⟨fun {place found} here => ?_⟩
  by_cases same : place = index
  · -- The written record stands for the new item.
    subst same
    rw [List.getElem?_set_self'] at here
    cases old : items[place]? with
    | none => simp [old] at here
    | some former =>
      obtain rfl : item = found := by simpa [old] using here
      exact written
  · -- Any other record keeps its bytes, and with them its item.
    rw [List.getElem?_set_ne (Ne.symm same)] at here
    exact near (fun offset inside => frame _ (record_apart inside same)) (holds.held here)

/-- Writing inside the record behind the last one adds an item. -/
theorem RecordsHold.push (holds : RecordsHold size shape mem items) (near : Shape.Local size shape)
    {item : α}
    (frame : ∀ address, address < items.length * size ∨ items.length * size + size ≤ address →
      other address = mem address)
    (written : shape (record size other items.length) item) :
    RecordsHold size shape other (items ++ [item]) := by
  refine ⟨fun {place found} here => ?_⟩
  -- Only the place behind the last item has new bytes.
  by_cases last : place = items.length
  · subst last
    obtain rfl : item = found := by simpa using here
    exact written
  · have inside : place < items.length := by
      have := (List.getElem?_eq_some_iff.mp here).1
      rw [List.length_append, List.length_singleton] at this
      omega
    rw [List.getElem?_append_left inside] at here
    exact near (fun offset within => frame _ (record_apart within last)) (holds.held here)

/-- Moving the records behind one of them down by one place takes its item out. -/
theorem RecordsHold.erase (holds : RecordsHold size shape mem items) (near : Shape.Local size shape)
    {index : Nat}
    (moved : ∀ place, place < items.length - 1 → ∀ offset, offset < size →
      record size other place offset =
        record size mem (if place < index then place else place + 1) offset)
    (inside : index < items.length) : RecordsHold size shape other (items.eraseIdx index) := by
  refine ⟨fun {place found} here => ?_⟩
  have short : place < items.length - 1 := by
    have := (List.getElem?_eq_some_iff.mp here).1
    rwa [List.length_eraseIdx_of_lt inside] at this
  rw [List.getElem?_eraseIdx] at here
  -- The item at a place comes from the same place or from the next one, as its bytes do.
  refine near (moved place short) (holds.held ?_)
  split at here
  · rwa [if_pos (by assumption)]
  · rwa [if_neg (by assumption)]

end

end Machine
