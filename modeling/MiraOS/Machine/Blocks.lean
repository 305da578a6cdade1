import Mathlib.Data.List.Basic
import MiraOS.Machine.Run

/-! Blocks of bytes, and the loops that copy into them and out of them byte by byte. -/

namespace Machine

/-- The byte of a block at an index. -/
def loadByte (block : List UInt8) (i : Nat) : Except Halt UInt8 :=
  match block[i]? with
  | some byte => .ok byte
  | none => .error .outOfBounds

/-- Store a byte of a block at an index. -/
def storeByte (block : List UInt8) (i : Nat) (byte : UInt8) : Except Halt (List UInt8) :=
  if i < block.length then .ok (block.set i byte) else .error .outOfBounds

/-- Copy a number of bytes into a block, from an offset in it on. -/
def storeLoop (source : Nat → Except Halt UInt8) (offset : Nat) :
    Nat → Nat → List UInt8 → Except Halt (List UInt8)
  | 0, _, target => .ok target
  | count + 1, i, target => do
    let byte ← source i
    let target ← storeByte target (offset + i) byte
    storeLoop source offset count (i + 1) target

/-- Copy a number of bytes out of a block, from an offset in it on. -/
def readLoop (block : List UInt8) (offset : Nat) : Nat → Nat → Except Halt (List UInt8)
  | 0, _ => .ok []
  | count + 1, i => do
    let byte ← loadByte block (offset + i)
    let rest ← readLoop block offset count (i + 1)
    return byte :: rest

/-- Copy a number of bytes from one offset of a block to another, from low to high indices. -/
def moveLoop (dst src : Nat) : Nat → Nat → List UInt8 → Except Halt (List UInt8)
  | 0, _, block => .ok block
  | count + 1, i, block => do
    let byte ← loadByte block (src + i)
    let block ← storeByte block (dst + i) byte
    moveLoop dst src count (i + 1) block

/-- A sequence with other bytes laid over it at an offset, longer than before where they reach past its
end. -/
def overlay (file : List UInt8) (offset : Nat) (bytes : List UInt8) : List UInt8 :=
  file.take offset ++ bytes ++ file.drop (offset + bytes.length)

section

variable {file block : List UInt8} {offset i count : Nat}

@[simp] theorem overlay_nil (file : List UInt8) (offset : Nat) : overlay file offset [] = file := by
  simp [overlay]

/-- Bytes laid over a sequence never make it shorter. -/
theorem overlay_length (inside : offset ≤ file.length) (bytes : List UInt8) :
    (overlay file offset bytes).length = max file.length (offset + bytes.length) := by
  simp only [overlay, List.length_append, List.length_take, List.length_drop]
  omega

/-- The bytes of a sequence with others laid over a part of it, one by one. -/
theorem overlay_getElem? {bytes : List UInt8} (inside : offset + bytes.length ≤ file.length) (j : Nat) :
    (overlay file offset bytes)[j]? =
      if offset ≤ j ∧ j < offset + bytes.length then bytes[j - offset]? else file[j]? := by
  -- The index is in front of the bytes, in them or behind them.
  have front : (file.take offset).length = offset := by
    rw [List.length_take]
    omega
  rw [overlay, List.append_assoc]
  by_cases low : j < offset
  · rw [if_neg (by omega), List.getElem?_append_left (by omega), List.getElem?_take_of_lt low]
  · rw [List.getElem?_append_right (by omega), front]
    by_cases high : j < offset + bytes.length
    · rw [if_pos (by omega), List.getElem?_append_left (by omega)]
    · rw [if_neg (by omega), List.getElem?_append_right (by omega), List.getElem?_drop]
      congr 1
      omega

/-- Bytes that reach past the end leave nothing behind them. -/
theorem overlay_past {bytes : List UInt8} (past : file.length ≤ offset + bytes.length) :
    overlay file offset bytes = file.take offset ++ bytes := by
  rw [overlay, List.drop_eq_nil_of_le past, List.append_nil]

/-- Laying bytes over a sequence one by one. -/
theorem overlay_cons (inside : offset < file.length) (byte : UInt8) (bytes : List UInt8) :
    overlay (file.set offset byte) (offset + 1) bytes = overlay file offset (byte :: bytes) := by
  -- The byte that is set ends the front part, and the part behind starts after it anyway.
  have front : (file.set offset byte).take (offset + 1) = file.take offset ++ [byte] := by
    have still : offset < (file.set offset byte).length := by rwa [List.length_set]
    rw [List.take_succ_eq_append_getElem still, List.getElem_set_self, List.take_set_of_le (Nat.le_refl _)]
  have back : (file.set offset byte).drop (offset + 1 + bytes.length) =
      file.drop (offset + (byte :: bytes).length) := by
    have index : offset + 1 + bytes.length = offset + (byte :: bytes).length := by
      rw [List.length_cons]
      omega
    rw [index, List.drop_set_of_lt]
    rw [List.length_cons]
    omega
  rw [overlay, front, back, overlay]
  simp

/-- Bytes laid over zeros from the start on. -/
theorem overlay_zeros (bytes : List UInt8) (size : Nat) :
    overlay (List.replicate size 0) 0 bytes = bytes ++ List.replicate (size - bytes.length) 0 := by
  simp [overlay]

/-- The bytes of a block, one by one. -/
theorem map_getD_range (block : List UInt8) :
    (List.range block.length).map (fun i => block.getD i 0) = block := by
  -- Both lists have the same length and agree at every index.
  apply List.ext_getElem
  · simp
  · intro i _ inside
    simp [inside]

/-- A copy that fits lays the bytes over the block. -/
theorem storeLoop_fits {source : Nat → Except Halt UInt8} {bytes : Nat → UInt8}
    (fits : offset + i + count ≤ block.length)
    (loaded : ∀ j, i ≤ j → j < i + count → source j = .ok (bytes j)) :
    storeLoop source offset count i block =
      .ok (overlay block (offset + i) ((List.range' i count).map bytes)) := by
  -- Each turn stores one byte, and the rest is laid over what it leaves.
  induction count generalizing i block with
  | zero => simp [storeLoop]
  | succ count ih =>
    have inside : offset + i < block.length := by omega
    have stored : storeByte block (offset + i) (bytes i) = .ok (block.set (offset + i) (bytes i)) :=
      if_pos inside
    have rest : storeLoop source offset count (i + 1) (block.set (offset + i) (bytes i)) =
        .ok (overlay (block.set (offset + i) (bytes i)) (offset + (i + 1))
          ((List.range' (i + 1) count).map bytes)) := by
      apply ih
      · rw [List.length_set]
        omega
      · intro j low high
        exact loaded j (by omega) (by omega)
    rw [List.range'_succ, List.map_cons, ← overlay_cons inside]
    exact bind_eq_ok.mpr ⟨_, loaded i (Nat.le_refl i) (by omega), bind_eq_ok.mpr ⟨_, stored, rest⟩⟩

/-- A copy that does not fit stops at the end of the block. -/
theorem storeLoop_outside {source : Nat → Except Halt UInt8} {bytes : Nat → UInt8}
    (start : offset + i ≤ block.length) (long : block.length < offset + i + count)
    (loaded : ∀ j, i ≤ j → j < i + count → source j = .ok (bytes j)) :
    storeLoop source offset count i block = .error .outOfBounds := by
  -- The turn that passes the end of the block is the one that stops.
  induction count generalizing i block with
  | zero => omega
  | succ count ih =>
    rw [storeLoop, loaded i (Nat.le_refl i) (by omega), ok_bind]
    by_cases inside : offset + i < block.length
    · have stored : storeByte block (offset + i) (bytes i) = .ok (block.set (offset + i) (bytes i)) :=
        if_pos inside
      rw [stored, ok_bind]
      apply ih
      · rw [List.length_set]
        omega
      · rw [List.length_set]
        omega
      · intro j low high
        exact loaded j (by omega) (by omega)
    · have stopped : storeByte block (offset + i) (bytes i) = .error .outOfBounds := if_neg inside
      rw [stopped]
      rfl

/-- A byte inside a block is loaded. -/
theorem loadByte_inside (inside : i < block.length) : loadByte block i = .ok block[i] := by
  rw [loadByte, List.getElem?_eq_getElem inside]

/-- A byte outside a block is not. -/
theorem loadByte_outside (outside : block.length ≤ i) : loadByte block i = .error .outOfBounds := by
  rw [loadByte, List.getElem?_eq_none outside]

/-- The bytes at the start of a block can be loaded. -/
theorem loadByte_getD (enough : count ≤ block.length) :
    ∀ j, 0 ≤ j → j < 0 + count → loadByte block j = .ok (block.getD j 0) := by
  intro j _ short
  -- The byte lies inside the block.
  have there : j < block.length := by omega
  rw [loadByte_inside there]
  simp [there]

/-- A copy from the start of another block lays its bytes over the block. -/
theorem storeLoop_loadByte {source : List UInt8} (enough : count ≤ source.length)
    (fits : offset + count ≤ block.length) :
    storeLoop (loadByte source) offset count 0 block = .ok (overlay block offset (source.take count)) := by
  -- A source that is long enough has each byte that is asked for.
  have bytes : (List.range' 0 count).map (source.getD · 0) = source.take count := by
    have short : (source.take count).length = count := by
      rw [List.length_take]
      omega
    rw [← map_getD_range (source.take count), short, ← List.range_eq_range']
    refine List.map_congr_left fun j inside => ?_
    have below := List.mem_range.mp inside
    rw [List.getD_eq_getElem?_getD, List.getD_eq_getElem?_getD, List.getElem?_take_of_lt below]
  rw [storeLoop_fits (by omega) (loadByte_getD enough), bytes, Nat.add_zero]

/-- Bytes that are there are read in order. -/
theorem readLoop_fits (fits : offset + i + count ≤ block.length) :
    readLoop block offset count i = .ok ((block.drop (offset + i)).take count) := by
  -- Each turn takes the first of the bytes that are left.
  induction count generalizing i with
  | zero => rfl
  | succ count ih =>
    have inside : offset + i < block.length := by omega
    rw [List.drop_eq_getElem_cons inside, List.take_succ_cons]
    refine bind_eq_ok.mpr ⟨_, loadByte_inside inside, bind_eq_ok.mpr ⟨_, @ih (i + 1) (by omega), rfl⟩⟩

/-- Reading past the end of a block stops. -/
theorem readLoop_outside (start : offset + i ≤ block.length)
    (long : block.length < offset + i + count) :
    readLoop block offset count i = .error .outOfBounds := by
  -- The turns before the end of the block load a byte, the one behind it stops.
  induction count generalizing i with
  | zero => omega
  | succ count ih =>
    show (do
      let byte ← loadByte block (offset + i)
      let rest ← readLoop block offset count (i + 1)
      return byte :: rest) = _
    by_cases inside : offset + i < block.length
    · rw [loadByte_inside inside, @ih (i + 1) (by omega) (by omega)]
      rfl
    · rw [loadByte_outside (by omega)]
      rfl

/-- A copy to lower indices lays the bytes as they were over the block. -/
theorem moveLoop_fits {dst src : Nat} (lower : dst ≤ src) (fits : src + i + count ≤ block.length) :
    moveLoop dst src count i block = .ok (overlay block (dst + i) ((block.drop (src + i)).take count)) := by
  -- A byte is read before the loop stores over it, since it stores behind where it reads.
  induction count generalizing i block with
  | zero => simp [moveLoop]
  | succ count ih =>
    have inside : src + i < block.length := by omega
    have target : dst + i < block.length := by omega
    have stored : storeByte block (dst + i) block[src + i] = .ok (block.set (dst + i) block[src + i]) :=
      if_pos target
    have unread : (block.set (dst + i) block[src + i]).drop (src + (i + 1)) = block.drop (src + (i + 1)) :=
      List.drop_set_of_lt (by omega)
    have rest := @ih (block.set (dst + i) block[src + i]) (i + 1) (by rw [List.length_set]; omega)
    rw [unread] at rest
    rw [List.drop_eq_getElem_cons inside, List.take_succ_cons, ← overlay_cons target]
    exact bind_eq_ok.mpr ⟨_, loadByte_inside inside, bind_eq_ok.mpr ⟨_, stored, rest⟩⟩

/-- Storing a byte keeps the length of a block. -/
theorem storeByte_length {byte : UInt8} {after : List UInt8} (stored : storeByte block i byte = .ok after) :
    after.length = block.length := by
  rw [storeByte] at stored
  -- A store that succeeds writes one byte in place.
  split_ifs at stored
  rw [← Except.ok.inj stored, List.length_set]

/-- So does a copy into it. -/
theorem storeLoop_length {source : Nat → Except Halt UInt8} {after : List UInt8}
    (stored : storeLoop source offset count i block = .ok after) : after.length = block.length := by
  -- Storing a byte keeps the length.
  induction count generalizing i block with
  | zero => rw [← Except.ok.inj stored]
  | succ count ih =>
    obtain ⟨byte, -, rest⟩ := bind_eq_ok.mp stored
    obtain ⟨next, one, others⟩ := bind_eq_ok.mp rest
    rw [ih others, storeByte_length one]

/-- So does a copy inside it. -/
theorem moveLoop_length {dst src : Nat} {after : List UInt8}
    (moved : moveLoop dst src count i block = .ok after) : after.length = block.length := by
  -- Moving a byte keeps the length.
  induction count generalizing i block with
  | zero => rw [← Except.ok.inj moved]
  | succ count ih =>
    obtain ⟨byte, -, rest⟩ := bind_eq_ok.mp moved
    obtain ⟨next, one, others⟩ := bind_eq_ok.mp rest
    rw [ih others, storeByte_length one]

end

end Machine
