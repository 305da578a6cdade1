import Mathlib.Data.List.Induction
import MiraOS.Machine.Bytes

/-! Structures in memory whose fields lie one behind the other, and tables of them. -/

namespace Machine

/-- Store fields one behind the other, each with its width and its value. -/
def storeFields : Memory → Nat → List (Nat × Nat) → Memory
  | mem, _, [] => mem
  | mem, address, (width, value) :: rest => storeFields (writeLE mem address width value) (address + width) rest

/-- The fields from an address on, of these widths. -/
def loadFields (mem : Memory) : Nat → List Nat → List Nat
  | _, [] => []
  | address, width :: rest => readLE mem address width :: loadFields mem (address + width) rest

/-- Store the entries of a table one after another, each at its place. -/
def storeTable (mem : Memory) (table size : Nat) (entry : Nat → List (Nat × Nat)) (indices : List Nat) : Memory :=
  indices.foldl (fun mem i => storeFields mem (table + size * i) (entry i)) mem

section

variable {mem other : Memory} {address : Nat} {fields : List (Nat × Nat)}

/-- The bytes of a structure. -/
def fieldsSize (fields : List (Nat × Nat)) : Nat := (fields.map Prod.fst).sum

/-- Bytes outside a structure are not touched. -/
theorem storeFields_outside {at_ : Nat} (outside : at_ < address ∨ address + fieldsSize fields ≤ at_) :
    storeFields mem address fields at_ = mem at_ := by
  -- Each field lies inside the structure, the first one at its start and the others behind it.
  induction fields generalizing mem address with
  | nil => rfl
  | cons field rest ih =>
    obtain ⟨width, value⟩ := field
    have size : fieldsSize ((width, value) :: rest) = width + fieldsSize rest := List.sum_cons
    rw [size] at outside
    rw [storeFields, ih (by omega), writeLE_outside (by omega)]

/-- Fields depend on their bytes only. -/
theorem loadFields_congr {widths : List Nat}
    (same : ∀ at_, address ≤ at_ → at_ < address + widths.sum → other at_ = mem at_) :
    loadFields other address widths = loadFields mem address widths := by
  -- The first field reads its own bytes, and the rest those behind them.
  induction widths generalizing address with
  | nil => rfl
  | cons width rest ih =>
    rw [List.sum_cons] at same
    rw [loadFields, loadFields, readLE_congr fun at_ low high => same at_ low (by omega),
      ih fun at_ low high => same at_ (by omega) (by omega)]

@[simp] theorem loadFields_length (mem : Memory) (address : Nat) (widths : List Nat) :
    (loadFields mem address widths).length = widths.length := by
  -- Induction on the widths: each of them is one field.
  induction widths generalizing address with
  | nil => rfl
  | cons width rest ih => rw [loadFields, List.length_cons, List.length_cons, ih]

/-- Fields in front of others. -/
theorem loadFields_append (mem : Memory) (address : Nat) (front back : List Nat) :
    loadFields mem address (front ++ back) =
      loadFields mem address front ++ loadFields mem (address + front.sum) back := by
  -- Induction on the front: its widths are how far the rest lies on.
  induction front generalizing address with
  | nil => rfl
  | cons width rest ih =>
    rw [List.cons_append, loadFields, loadFields, ih, List.sum_cons, Nat.add_assoc, List.cons_append]

/-- Fields that were stored are read back, each cut to its width. -/
theorem loadFields_storeFields (mem : Memory) (address : Nat) (fields : List (Nat × Nat)) :
    loadFields (storeFields mem address fields) address (fields.map Prod.fst) =
      fields.map fun field => field.2 % 256 ^ field.1 := by
  induction fields generalizing mem address with
  | nil => rfl
  | cons field rest ih =>
    obtain ⟨width, value⟩ := field
    -- The fields behind the first one do not reach back to it.
    have first : readLE (storeFields (writeLE mem address width value) (address + width) rest) address width =
        value % 256 ^ width := by
      rw [← readLE_writeLE_same mem address width value]
      exact readLE_congr fun at_ low high => storeFields_outside (Or.inl high)
    rw [List.map_cons, List.map_cons, loadFields, storeFields, first, ih]

section

variable {table size : Nat} {entry : Nat → List (Nat × Nat)}

/-- Entries leave the bytes outside their table as they are. -/
theorem storeTable_outside (sizes : ∀ i, fieldsSize (entry i) = size) {count at_ : Nat} {indices : List Nat}
    (inside : ∀ i ∈ indices, i < count) (outside : at_ < table ∨ table + size * count ≤ at_) :
    storeTable mem table size entry indices at_ = mem at_ := by
  rw [storeTable]
  -- Entry by entry: each lies inside the table, so that none reaches the place.
  induction indices generalizing mem with
  | nil => rfl
  | cons i rest ih =>
    have here := inside i List.mem_cons_self
    have reach : size * i + size ≤ size * count := by
      rw [← Nat.mul_succ]
      exact Nat.mul_le_mul_left size here
    rw [List.foldl_cons, ih fun other among => inside other (List.mem_cons_of_mem i among), storeFields_outside]
    rw [sizes i]
    omega

/-- An entry that is stored later leaves the others as they are. -/
theorem loadFields_storeFields_apart (mem : Memory) {i j : Nat} {widths : List Nat} (sum : widths.sum = size)
    (sizes : fieldsSize fields = size) (differ : j ≠ i) :
    loadFields (storeFields mem (table + size * i) fields) (table + size * j) widths =
      loadFields mem (table + size * j) widths := by
  refine loadFields_congr fun at_ low high => storeFields_outside ?_
  rw [sum] at high
  rw [sizes]
  -- One of the two entries lies behind the other.
  rcases Nat.lt_or_gt_of_ne differ with before | behind
  · have reach : size * j + size ≤ size * i := by
      rw [← Nat.mul_succ]
      exact Nat.mul_le_mul_left size before
    omega
  · have reach : size * i + size ≤ size * j := by
      rw [← Nat.mul_succ]
      exact Nat.mul_le_mul_left size behind
    omega

/-- After a table was stored, its entries are read back, and the others are those from before. -/
theorem loadFields_storeTable {widths : List Nat} (same : ∀ i, (entry i).map Prod.fst = widths)
    (sum : widths.sum = size) (mem : Memory) (indices : List Nat) (j : Nat) :
    loadFields (storeTable mem table size entry indices) (table + size * j) widths =
      if j ∈ indices then (entry j).map fun field => field.2 % 256 ^ field.1
      else loadFields mem (table + size * j) widths := by
  have sizes : ∀ i, fieldsSize (entry i) = size := fun i => by rw [fieldsSize, same i, sum]
  rw [storeTable]
  -- An entry is the one that was stored last for its index.
  induction indices using List.reverseRecOn with
  | nil => simp
  | append_singleton front last ih =>
    rw [List.foldl_append, List.foldl_cons, List.foldl_nil]
    by_cases here : j = last
    · rw [← here, if_pos (by simp), ← same j, loadFields_storeFields]
    · rw [loadFields_storeFields_apart _ sum (sizes last) here, ih]
      simp [here]

end

end

end Machine
