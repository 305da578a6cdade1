import Mathlib.Data.List.Find
import MiraOS.Fs.VfsGrowth
import MiraOS.Machine.FileStore

/-! What reading and writing do to the bytes of a file, and the store of files that a state stands for. -/

namespace MiraOS

open Machine

/-- The bytes of the files in the tree, and the descriptors in use. -/
def Vfs.store (vfs : Vfs) : FileStore Nat where
  bytes node := if node ∈ vfs.linked then vfs.content node else []
  handles fd :=
    if fd < vfsMaxOpen ∧ (vfs.openTable fd).used = true then
      some ⟨(vfs.openTable fd).node, (vfs.openTable fd).offset⟩
    else none

/-- A small word is itself as a signed number. -/
theorem toInt64_of_lt {word : Nat} (small : word < 2 ^ 63) : toInt64 word = word := by
  have whole : word % 2 ^ 64 = word := Nat.mod_eq_of_lt (by omega)
  rw [toInt64, whole, if_pos small]

/-- A signed number is below the middle of the words. -/
theorem toInt64_lt (word : Nat) : toInt64 word < 2 ^ 63 := by
  -- The upper half of the words is moved below zero.
  unfold toInt64
  by_cases small : word % 2 ^ 64 < 2 ^ 63
  · rw [if_pos small]
    exact_mod_cast small
  · rw [if_neg small]
    omega

/-- A signed number is at most the word. -/
theorem toInt64_toNat_le (word : Nat) : (toInt64 word).toNat ≤ word := by
  -- A negative value has no part among the natural numbers.
  unfold toInt64
  by_cases small : word % 2 ^ 64 < 2 ^ 63
  · rw [if_pos small]
    omega
  · rw [if_neg small]
    omega

section

variable {vfs next : Vfs} {fd : Int} {file : OpenFile}

/-- A descriptor in use is an entry of the table. -/
theorem file?_eq_some (found : vfs.file? fd = some file) :
    ∃ i : Nat, fd = i ∧ i < vfsMaxOpen ∧ vfs.openTable i = file ∧ (vfs.openTable i).used = true := by
  -- The three tests of the code, failed, bound the number and say that the entry is used.
  unfold Vfs.file? at found
  by_cases missing : fd < 0 ∨ (vfsMaxOpen : Int) ≤ fd ∨ (vfs.openTable fd.toNat).used = false
  · rw [if_pos missing] at found
    cases found
  · rw [if_neg missing] at found
    simp only [not_or, Bool.not_eq_false] at missing
    obtain ⟨low, high, used⟩ := missing
    refine ⟨fd.toNat, by omega, by omega, Option.some.inj found, used⟩

/-- A descriptor in use stands for a file of the tree and a place inside of it. -/
theorem VfsHolds.descriptor (holds : VfsHolds vfs) (found : vfs.file? fd = some file) :
    ∃ i : Nat, fd = i ∧ i < vfsMaxOpen ∧ vfs.openTable i = file ∧ (vfs.openTable i).used = true ∧
      (vfs.openTable i).node ∈ vfs.linked ∧
      (vfs.openTable i).offset ≤ (vfs.nodes (vfs.openTable i).node).size ∧
      (vfs.content (vfs.openTable i).node).length = (vfs.nodes (vfs.openTable i).node).size := by
  -- An open descriptor leads to a node of the tree, whose size is a word.
  obtain ⟨i, isFd, inTable, same, used⟩ := file?_eq_some found
  obtain ⟨inTree, place⟩ := holds.files i inTable used
  exact ⟨i, isFd, inTable, same, used, inTree, place, holds.size _ inTree⟩

/-- The store knows the descriptors in use. -/
theorem store_handle (vfs : Vfs) (fd : Int) : vfs.store.handle? vfsMaxOpen fd =
    (vfs.file? fd).map fun file => ⟨file.node, file.offset⟩ := by
  -- The tests of the code and those of the store are the same, in another order.
  unfold FileStore.handle? Vfs.file? Vfs.store
  by_cases outside : fd < 0 ∨ (vfsMaxOpen : Int) ≤ fd
  · have missing : fd < 0 ∨ (vfsMaxOpen : Int) ≤ fd ∨ (vfs.openTable fd.toNat).used = false := by
      rcases outside with low | high
      · exact .inl low
      · exact .inr (.inl high)
    rw [if_pos outside, if_pos missing]
    rfl
  · rw [if_neg outside]
    have small : fd.toNat < vfsMaxOpen := by omega
    cases used : (vfs.openTable fd.toNat).used with
    | false => simp [used]
    | true =>
      have inUse : ¬ (fd < 0 ∨ (vfsMaxOpen : Int) ≤ fd ∨ true = false) := by
        simpa using outside
      rw [if_neg inUse]
      simp [used, small]

/-- Storing an entry of the table changes one descriptor. -/
theorem store_withFile {i : Nat} (small : i < vfsMaxOpen) (file : OpenFile) :
    (vfs.withFile i file).store = ⟨vfs.store.bytes, Function.update vfs.store.handles i
      (if file.used = true then some ⟨file.node, file.offset⟩ else none)⟩ := by
  -- The bytes of the files do not depend on the table.
  have handles : (vfs.withFile i file).store.handles = Function.update vfs.store.handles i
      (if file.used = true then some ⟨file.node, file.offset⟩ else none) := by
    funext fd
    unfold Vfs.store Vfs.withFile
    by_cases same : fd = i
    · subst same
      simp [small]
    · simp [same]
  exact congrArg (FileStore.mk vfs.store.bytes) handles

/-- A descriptor that stays where it is. -/
theorem moveTo_self {i : Nat} (small : i < vfsMaxOpen) (used : (vfs.openTable i).used = true) :
    vfs.store.moveTo i ⟨(vfs.openTable i).node, (vfs.openTable i).offset⟩ (vfs.openTable i).offset =
      vfs.store := by
  -- The entry of the store is written back as it was.
  have here : vfs.store.handles i = some ⟨(vfs.openTable i).node, (vfs.openTable i).offset⟩ :=
    if_pos ⟨small, used⟩
  unfold FileStore.moveTo
  rw [Int.toNat_natCast, ← here, Function.update_eq_self]

/-- Moving on by what was copied. -/
theorem store_advance {i n : Nat} (small : i < vfsMaxOpen) (used : (vfs.openTable i).used = true)
    (fits : (vfs.openTable i).offset + n < 2 ^ 64) :
    (vfs.advance i (vfs.openTable i) n).store = vfs.store.moveTo i
      ⟨(vfs.openTable i).node, (vfs.openTable i).offset⟩ ((vfs.openTable i).offset + n) := by
  -- Nothing copied leaves the entry alone, which is moving it by nothing.
  unfold Vfs.advance
  by_cases some : 0 < (n : Int)
  · rw [if_pos some, Int.toNat_natCast, Int.toNat_natCast, add64_of_lt fits, store_withFile small]
    simp [FileStore.moveTo, used]
  · have none : n = 0 := by omega
    rw [if_neg some, none, Nat.add_zero, moveTo_self small used]

end

section

variable {vfs next : Vfs} {node offset count newData block : Nat} {bytes : List UInt8} {buf : Nat → UInt8}

/-- A file with bytes has a block, which holds them. -/
theorem VfsHolds.hasBlock (holds : VfsHolds vfs) (inside : node ∈ vfs.linked)
    (some : 0 < (vfs.nodes node).size) :
    (vfs.nodes node).data ≠ 0 ∧ vfs.blocks (vfs.nodes node).data = vfs.content node := by
  -- Without a block a file has no bytes, so its size would be zero.
  have length := holds.size node inside
  have real : (vfs.nodes node).data ≠ 0 := by
    intro null
    rw [Vfs.content, if_pos null, List.length_nil] at length
    omega
  refine ⟨real, ?_⟩
  rw [Vfs.content, if_neg real]

/-- A read that does not wrap around delivers the bytes from the offset on, as far as there are. -/
theorem vfsDefaultRead_fits (holds : VfsHolds vfs) (inside : node ∈ vfs.linked)
    (fits : offset + count < 2 ^ 64) :
    vfsDefaultRead node count offset vfs =
      .ok (toInt64 (((vfs.content node).drop offset).take count).length,
        ((vfs.content node).drop offset).take count) := by
  have length := holds.size node inside
  unfold vfsDefaultRead
  by_cases ended : (vfs.nodes node).data = 0 ∨ (vfs.nodes node).size ≤ offset
  · -- Nothing is left from the offset on.
    have nothing : (vfs.content node).drop offset = [] := by
      apply List.drop_eq_nil_of_le
      rcases ended with null | past
      · rw [Vfs.content, if_pos null]
        exact Nat.zero_le _
      · omega
    rw [nothing, List.take_nil, List.length_nil, toInt64_of_lt (by decide)]
    exact if_pos ended
  · obtain ⟨-, filled⟩ := holds.hasBlock inside (by omega)
    have place : offset < (vfs.nodes node).size := by omega
    -- The number of bytes is cut to what is left, as the slice is.
    have short : (if (vfs.nodes node).size < add64 offset count then (vfs.nodes node).size - offset
        else count) = (((vfs.content node).drop offset).take count).length := by
      rw [add64_of_lt fits, List.length_take, List.length_drop, length]
      by_cases clipped : (vfs.nodes node).size < offset + count
      · rw [if_pos clipped]
        omega
      · rw [if_neg clipped]
        omega
    have taken := @readLoop_fits (vfs.content node) offset 0
      (((vfs.content node).drop offset).take count).length
      (by rw [List.length_take, List.length_drop]; omega)
    rw [Nat.add_zero, List.length_take, ← List.take_eq_take_min] at taken
    simp only [if_neg ended, short, filled]
    rw [List.length_take]
    exact bind_eq_ok.mpr ⟨_, taken, rfl⟩

/-- A file got other bytes, and nothing else changed. -/
structure Written (vfs next : Vfs) (node : Nat) (bytes : List UInt8) : Prop where
  holds : VfsHolds next
  openTable : next.openTable = vfs.openTable
  linked : next.linked = vfs.linked
  here : next.content node = bytes
  others : ∀ other ∈ vfs.linked, other ≠ node → next.content other = vfs.content other

/-- A node that gets a block of its own with as many bytes as before or more. -/
theorem written_block (holds : VfsHolds vfs) (real : block ≠ 0)
    (free : ∀ other ∈ vfs.linked, other ≠ node → (vfs.nodes other).data ≠ block)
    (word : bytes.length < 2 ^ 64) (longer : (vfs.nodes node).size ≤ bytes.length)
    (nodes : ∀ other, next.nodes other =
      if other = node then { vfs.nodes node with data := block, size := bytes.length }
      else vfs.nodes other)
    (stored : next.blocks block = bytes)
    (rest : ∀ other, other ≠ block → next.blocks other = vfs.blocks other)
    (rootNode : next.rootNode = vfs.rootNode) (openTable : next.openTable = vfs.openTable)
    (linked : next.linked = vfs.linked) : Written vfs next node bytes := by
  -- Only one node and one block change, and no other node has that block.
  have own : next.nodes node = { vfs.nodes node with data := block, size := bytes.length } := by
    rw [nodes, if_pos rfl]
  have here : next.content node = bytes := by
    rw [Vfs.content, own]
    exact (if_neg real).trans stored
  have apart : ∀ other, other ≠ node → next.nodes other = vfs.nodes other := fun other differ => by
    rw [nodes, if_neg differ]
  have others : ∀ other ∈ vfs.linked, other ≠ node → next.content other = vfs.content other := by
    intro other among differ
    rw [Vfs.content, apart other differ, rest _ (free other among differ)]
    rfl
  -- The links of the tree are not touched.
  have siblings : ∀ other, (next.nodes other).nextSibling = (vfs.nodes other).nextSibling ∧
      (next.nodes other).children = (vfs.nodes other).children := by
    intro other
    by_cases same : other = node
    · rw [same, own]
      exact ⟨rfl, rfl⟩
    · rw [apart other same]
      exact ⟨rfl, rfl⟩
  -- The invariant holds clause by clause: only the node's block, size and bytes have changed.
  refine ⟨⟨?_, ?_, ?_, ?_, ?_, ?_, ?_⟩, openTable, linked, here, others⟩
  · rw [rootNode, linked]
    exact holds.root
  · rw [linked]
    exact holds.solid
  · rw [linked]
    intro other among
    obtain ⟨kids, chain, inTree⟩ := holds.kids other among
    refine ⟨kids, ?_, inTree⟩
    rw [(siblings other).2]
    exact chain.frame fun kid _ => (siblings kid).1
  · rw [linked]
    intro other among
    by_cases same : other = node
    · rw [same, here, own]
    · rw [others other among same, apart other same]
      exact holds.size other among
  · rw [linked]
    intro other among
    by_cases same : other = node
    · rw [same, own]
      exact word
    · rw [apart other same]
      exact holds.word other among
  · -- The block is the node's own or free, so no other node shares it.
    rw [linked]
    intro one first two second differ filled
    by_cases left : one = node
    · have right : two ≠ node := fun same => differ (left.trans same.symm)
      rw [left, own, apart two right]
      exact (free two second right).symm
    · rw [apart one left] at filled ⊢
      by_cases right : two = node
      · rw [right, own]
        exact free one first left
      · rw [apart two right]
        exact holds.apart one first two second differ filled
  · rw [openTable, linked]
    intro fd small used
    -- The file got no shorter, so offsets into it stay inside.
    obtain ⟨inTree, place⟩ := holds.files fd small used
    refine ⟨inTree, ?_⟩
    by_cases same : (vfs.openTable fd).node = node
    · rw [same] at place ⊢
      rw [own]
      exact place.trans longer
    · rw [apart _ same]
      exact place

/-- The bytes of a file that moves to a larger block, before the new ones are laid over them. -/
theorem vfsGrow_ok (holds : VfsHolds vfs) (inside : node ∈ vfs.linked) {newSize : Nat}
    (larger : (vfs.nodes node).size < newSize) :
    ∃ grown, vfsGrow newData newSize node vfs = .ok grown ∧
      grown.nodes = Function.update vfs.nodes node
        { vfs.nodes node with data := newData, size := newSize } ∧
      grown.blocks = Function.update vfs.blocks newData
        (vfs.content node ++ List.replicate (newSize - (vfs.nodes node).size) 0) ∧
      grown.rootNode = vfs.rootNode ∧ grown.openTable = vfs.openTable ∧ grown.linked = vfs.linked := by
  -- The old bytes are laid over zeros, which are as many as the new size.
  have length := holds.size node inside
  unfold vfsGrow
  by_cases filled : (vfs.nodes node).data ≠ 0 ∧ 0 < (vfs.nodes node).size
  · obtain ⟨-, block⟩ := holds.hasBlock inside filled.2
    have copied := @storeLoop_fits (List.replicate newSize 0) 0 0 (vfs.nodes node).size
      (loadByte (vfs.content node)) (fun i => (vfs.content node).getD i 0)
      (by rw [List.length_replicate]; omega)
      (fun j _ small => by
        have within : j < (vfs.content node).length := by omega
        rw [loadByte_inside within, List.getD_eq_getElem _ _ within])
    have bytes : overlay (List.replicate newSize 0) (0 + 0) ((List.range' 0 (vfs.nodes node).size).map
        fun i => (vfs.content node).getD i 0) =
        vfs.content node ++ List.replicate (newSize - (vfs.nodes node).size) 0 := by
      rw [← List.range_eq_range', ← length, map_getD_range]
      exact overlay_zeros (vfs.content node) newSize
    rw [bytes] at copied
    refine ⟨_, (if_pos filled).trans (bind_eq_ok.mpr ⟨_, ?_, rfl⟩), rfl, rfl, rfl, rfl, rfl⟩
    rw [block]
    exact copied
  · -- A file without bytes has nothing to move.
    have empty : vfs.content node = [] := by
      apply List.eq_nil_of_length_eq_zero
      by_cases null : (vfs.nodes node).data = 0
      · rw [Vfs.content, if_pos null]
        rfl
      · rw [length]
        by_contra some
        exact filled ⟨null, Nat.pos_of_ne_zero some⟩
    have none : (vfs.nodes node).size = 0 := by rw [← length, empty]; rfl
    refine ⟨_, if_neg filled, rfl, ?_, rfl, rfl, rfl⟩
    rw [empty, none]
    rfl

/-- Storing inside the block of a file. -/
theorem vfsStore_ok (fits : offset + count ≤ (vfs.blocks (vfs.nodes node).data).length) :
    vfsStore node buf count offset vfs = .ok (toInt64 count, vfs.withBlock (vfs.nodes node).data
      (overlay (vfs.blocks (vfs.nodes node).data) offset ((List.range count).map buf))) := by
  -- The bytes fit behind the offset, so the copy meets no end of the block.
  have copied := @storeLoop_fits (vfs.blocks (vfs.nodes node).data) offset 0 count
    (fun i => .ok (buf i)) buf (by omega) (fun _ _ _ => rfl)
  rw [← List.range_eq_range'] at copied
  exact bind_eq_ok.mpr ⟨_, copied, rfl⟩

/-- A file that bytes are laid over is as long as before, or as long as they reach. -/
theorem VfsHolds.laid_length (holds : VfsHolds vfs) (inside : node ∈ vfs.linked)
    (place : offset ≤ (vfs.nodes node).size) :
    (overlay (vfs.content node) offset ((List.range count).map buf)).length =
      max (vfs.nodes node).size (offset + count) := by
  have length := holds.size node inside
  rw [overlay_length (by omega), length, List.length_map, List.length_range]

/-- A write behind the end moves the file to the new block, and stores the bytes there. -/
theorem VfsHolds.writeGrown (holds : VfsHolds vfs) (inside : node ∈ vfs.linked)
    (place : offset ≤ (vfs.nodes node).size) (fits : offset + count < 2 ^ 64)
    (larger : (vfs.nodes node).size < offset + count) (real : newData ≠ 0)
    (fresh : ∀ other ∈ vfs.linked, (vfs.nodes other).data ≠ newData) :
    ∃ next, (vfsGrow newData (offset + count) node vfs >>= vfsStore node buf count offset) =
        .ok (toInt64 count, next) ∧
      Written vfs next node (overlay (vfs.content node) offset ((List.range count).map buf)) := by
  have length := holds.size node inside
  have total := @VfsHolds.laid_length vfs node offset count buf holds inside place
  obtain ⟨grown, grew, nodes, blocks, rootNode, openTable, linked⟩ :=
    @vfsGrow_ok vfs node newData holds inside _ larger
  have own : (grown.nodes node).data = newData := by rw [nodes, Function.update_self]
  have block : grown.blocks newData = vfs.content node ++
      List.replicate (offset + count - (vfs.nodes node).size) 0 := by
    rw [blocks, Function.update_self]
  have room : offset + count ≤ (grown.blocks (grown.nodes node).data).length := by
    rw [own, block, List.length_append, List.length_replicate, length]
    omega
  -- The zeros behind the old bytes are covered by the new ones.
  have laid : overlay (grown.blocks newData) offset ((List.range count).map buf) =
      overlay (vfs.content node) offset ((List.range count).map buf) := by
    rw [block, overlay_past, overlay_past, List.take_append_of_le_length (by omega)]
    · rw [List.length_map, List.length_range]
      omega
    · rw [List.length_append, List.length_replicate, List.length_map, List.length_range]
      omega
  refine ⟨_, bind_eq_ok.mpr ⟨grown, grew, vfsStore_ok room⟩, ?_⟩
  rw [own, laid]
  apply written_block holds real (fun other among _ => fresh other among)
  · rw [total]
    omega
  · -- The node has the new block and size, and the others are as they were.
    rw [total]
    omega
  · intro other
    rw [total, Nat.max_eq_right (Nat.le_of_lt larger)]
    show grown.nodes other = _
    rw [nodes]
    by_cases same : other = node
    · rw [if_pos same, same, Function.update_self]
    · rw [if_neg same, Function.update_of_ne same]
  · exact Function.update_self ..
  · intro other differ
    refine (Function.update_of_ne differ ..).trans ?_
    rw [blocks, Function.update_of_ne differ]
  · exact rootNode
  · exact openTable
  · exact linked

/-- A write inside a file stores the bytes in the block that the file has. -/
theorem VfsHolds.writeInPlace (holds : VfsHolds vfs) (inside : node ∈ vfs.linked) (some : 0 < count)
    (within : offset + count ≤ (vfs.nodes node).size) :
    ∃ next, vfsStore node buf count offset vfs = .ok (toInt64 count, next) ∧
      Written vfs next node (overlay (vfs.content node) offset ((List.range count).map buf)) := by
  have word := holds.word node inside
  have total := @VfsHolds.laid_length vfs node offset count buf holds inside (by omega)
  obtain ⟨real, block⟩ := holds.hasBlock inside (by omega)
  have room : offset + count ≤ (vfs.blocks (vfs.nodes node).data).length := by
    -- The bytes fit into the block that is there, so that only its contents change.
    rw [block, holds.size node inside]
    exact within
  refine ⟨_, vfsStore_ok room, ?_⟩
  rw [block]
  apply written_block holds real
    (fun other among differ => (holds.apart node inside other among differ.symm real).symm)
  · rw [total]
    omega
  · rw [total]
    omega
  · intro other
    rw [total, Nat.max_eq_left within]
    -- The lengths of the nodes are as they were, since the file does not grow.
    by_cases same : other = node
    · rw [if_pos same, same]
      rfl
    · rw [if_neg same]
      rfl
  · exact Function.update_self ..
  · intro other differ
    exact Function.update_of_ne differ ..
  · rfl
  · rfl
  · rfl

/-- A write that does not wrap around lays the bytes over the file, or fails for want of memory. -/
theorem vfsDefaultWrite_fits (holds : VfsHolds vfs) (inside : node ∈ vfs.linked)
    (place : offset ≤ (vfs.nodes node).size) (fits : offset + count < 2 ^ 64)
    (fresh : newData ≠ 0 → ∀ other ∈ vfs.linked, (vfs.nodes other).data ≠ newData) :
    if (vfs.nodes node).size < offset + count ∧ newData = 0 then
      vfsDefaultWrite newData node buf count offset vfs = .ok (-1, vfs)
    else ∃ next, vfsDefaultWrite newData node buf count offset vfs = .ok (toInt64 count, next) ∧
      Written vfs next node (overlay (vfs.content node) offset ((List.range count).map buf)) := by
  unfold vfsDefaultWrite
  rw [add64_of_lt fits]
  by_cases empty : count = 0
  · -- Nothing is stored, and nothing has to grow.
    subst empty
    rw [if_neg (by omega)]
    refine ⟨vfs, ?_, holds, rfl, rfl, ?_, fun _ _ _ => rfl⟩
    · rw [if_pos rfl, toInt64_of_lt (by decide)]
      rfl
    · simp
  simp only [if_neg empty]
  by_cases larger : (vfs.nodes node).size < offset + count
  · simp only [if_pos larger]
    by_cases null : newData = 0
    · rw [if_pos ⟨larger, null⟩]
      exact if_pos null
    · rw [if_neg fun both => null both.2]
      simp only [if_neg null]
      exact holds.writeGrown inside place fits larger null (fresh null)
  · simp only [if_neg larger]
    rw [if_neg fun both => larger both.1]
    exact holds.writeInPlace inside (Nat.pos_of_ne_zero empty) (Nat.le_of_not_lt larger)

end

end MiraOS
