import MiraOS.Drivers.Framebuffer
import MiraOS.Lib.MemoryMoves
import MiraOS.Machine.Packed
import MiraOS.Machine.Words

/-! Moves inside the buffers of drivers/framebuffer.c: they are those in memory, and scroll the screen. -/

namespace MiraOS

open Machine

section

variable {dst src count : Nat} {block : List UInt8}

/-- A copy to higher indices lays the bytes as they were over the block. -/
theorem moveDownLoop_fits (higher : src < dst) (fits : dst + count ≤ block.length) :
    moveDownLoop dst src count block = .ok (overlay block dst (fieldOf block src count)) := by
  -- The byte that is stored lies behind all those that are still to be read.
  induction count generalizing block with
  | zero => simp [moveDownLoop, fieldOf]
  | succ count ih =>
    have inside : src + count < block.length := by omega
    have target : dst + count < block.length := by omega
    have stored : storeByte block (dst + count) block[src + count] =
        .ok (block.set (dst + count) block[src + count]) := if_pos target
    have rest := @ih (block.set (dst + count) block[src + count]) (by rw [List.length_set]; omega)
    have still : (fieldOf (block.set (dst + count) block[src + count]) src count).length = count :=
      fieldOf_length (by rw [List.length_set]; omega)
    have longer : (fieldOf block src (count + 1)).length = count + 1 := fieldOf_length (by omega)
    -- The last byte is copied first, and the rest is the shorter copy.
    refine bind_eq_ok.mpr ⟨_, loadByte_inside inside, bind_eq_ok.mpr ⟨_, stored, rest.trans (congrArg _ ?_)⟩⟩
    apply List.ext_getElem?
    intro j
    rw [overlay_getElem? (by rw [still, List.length_set]; omega), overlay_getElem? (by rw [longer]; omega), still,
      longer]
    -- A byte of the shorter copy, the last byte of this one, or a byte outside.
    by_cases before : dst ≤ j ∧ j < dst + count
    · rw [if_pos before, if_pos (by omega), fieldOf_getElem? (by omega), fieldOf_getElem? (by omega),
        List.getElem?_set_ne (by omega)]
    · rw [if_neg before]
      by_cases last : j = dst + count
      · rw [last, if_pos (by omega), fieldOf_getElem? (by omega), List.getElem?_set_self target, Nat.add_sub_cancel_left,
          List.getElem?_eq_getElem inside]
      · rw [if_neg (by omega), List.getElem?_set_ne (Ne.symm last)]

/-- A move inside a block lays the bytes as they were over it, whatever the overlap is. -/
theorem memmoveBlock_fits (target : dst + count ≤ block.length) (source : src + count ≤ block.length) :
    memmoveBlock dst src count block = .ok (overlay block dst (fieldOf block src count)) := by
  rw [memmoveBlock]
  split_ifs with down up
  · exact moveLoop_fits (Nat.le_of_lt down) source
  · exact moveDownLoop_fits up target
  · -- A part that is laid over itself changes nothing.
    obtain rfl : dst = src := by omega
    refine congrArg _ (List.ext_getElem? fun j => ?_)
    have short : (fieldOf block dst count).length = count := fieldOf_length target
    rw [overlay_getElem? (by rw [short]; omega), short]
    split_ifs with inside
    · rw [fieldOf_getElem? (by omega), Nat.add_sub_cancel' inside.1]
    · rfl

/-- A block lies in memory from an address on. -/
def BlockAt (mem : Memory) (start : Nat) (block : List UInt8) : Prop :=
  ∀ i byte, block[i]? = some byte → mem (start + i) = byte

/-- Moving inside a block that lies in memory is moving in memory. -/
theorem memmoveBlock_refines {mem : Memory} {start : Nat} (lies : BlockAt mem start block)
    (target : dst + count ≤ block.length) (source : src + count ≤ block.length) :
    ∃ after, memmoveBlock dst src count block = .ok after ∧ after.length = block.length ∧
      BlockAt (memmove mem (start + dst) (start + src) count) start after := by
  have short : (fieldOf block src count).length = count := fieldOf_length source
  refine ⟨_, memmoveBlock_fits target source, ?_, fun i byte found => ?_⟩
  · rw [overlay_length (by omega), short]
    omega
  · rw [overlay_getElem? (by rw [short]; omega), short] at found
    -- The byte that was copied lies where the source has it in memory.
    rw [memmove_eq, copiedAtOnce]
    split_ifs at found with inside
    · rw [fieldOf_getElem? (by omega)] at found
      have byte := lies _ _ found
      rw [if_pos (by omega), ← byte]
      congr 1
      omega
    · -- Outside of the destination nothing was written on either side.
      rw [if_neg (by omega)]
      exact lies _ _ found

end

/-- The bytes of some rows of the screen. -/
def rowBytes (fb : FramebufferInfo) (lines : UInt32) : Nat := lines.toNat * fb.pitch.toNat

/--
Scrolling moves the screen up and clears the rows at its end, as long as there are as many rows.

More rows than the screen has make the number of bytes that stay wrap, and the move leaves the buffer.
-/
theorem fbScroll_eq {fb : FramebufferInfo} {lines : UInt32} {block : List UInt8} (ready : fbReady fb = true)
    (some : lines ≠ 0) (size : block.length = totalBytes fb) :
    fbScroll fb lines block =
      if rowBytes fb lines ≤ totalBytes fb then
        .ok (block.drop (rowBytes fb lines) ++ List.replicate (rowBytes fb lines) 0)
      else .error .outOfBounds := by
  have total : totalBytes fb < 2 ^ 32 := (fb.height * fb.pitch).toNat_lt
  have amount : rowBytes fb lines < 2 ^ 32 * 2 ^ 32 := Nat.mul_lt_mul'' lines.toNat_lt fb.pitch.toNat_lt
  rw [fbScroll, if_neg (by simp [ready, some])]
  show (memmoveBlock 0 (rowBytes fb lines) (sub64 (totalBytes fb) (rowBytes fb lines)) block >>= fun block =>
    memsetBlock (sub64 (totalBytes fb) (rowBytes fb lines)) 0 (rowBytes fb lines) block) = _
  split_ifs with fits
  · -- What stays is moved to the start, and the place behind it is as long as what left.
    rw [sub64_of_le fits (by omega)]
    have front : fieldOf block (rowBytes fb lines) (totalBytes fb - rowBytes fb lines) =
        block.drop (rowBytes fb lines) := by
      rw [fieldOf, List.take_of_length_le (by rw [List.length_drop]; omega)]
    have kept : (block.drop (rowBytes fb lines)).length = totalBytes fb - rowBytes fb lines := by
      rw [List.length_drop, size]
    have whole : (overlay block 0 (block.drop (rowBytes fb lines))).length = totalBytes fb := by
      rw [overlay_length (Nat.zero_le _), kept]
      omega
    rw [memmoveBlock_fits (by omega) (by omega), front, ok_bind, memsetBlock,
      @storeLoop_fits _ _ _ _ _ (fun _ => 0) (by rw [whole]; omega) fun _ _ _ => rfl]
    have zeros : (List.range' 0 (rowBytes fb lines)).map (fun _ => (0 : UInt8)) =
        List.replicate (rowBytes fb lines) 0 := by
      rw [List.map_const', List.length_range']
    rw [zeros, overlay_past (by rw [whole, List.length_replicate]; omega), Nat.add_zero, ← kept]
    rw [overlay, List.take_zero, List.nil_append, List.take_left' rfl]
  · -- The first byte to be moved lies outside of the buffer.
    have down : 0 < rowBytes fb lines := by omega
    obtain ⟨more, wrapped⟩ : ∃ more, sub64 (totalBytes fb) (rowBytes fb lines) = more + 1 :=
      ⟨sub64 (totalBytes fb) (rowBytes fb lines) - 1, by rw [sub64]; omega⟩
    rw [memmoveBlock, if_pos down, wrapped, moveLoop, loadByte_outside (by omega)]
    rfl

end MiraOS
