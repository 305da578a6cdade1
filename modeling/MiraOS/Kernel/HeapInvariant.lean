import MiraOS.Kernel.HeapFree
import MiraOS.Machine.Chain

/-! What holds of the heap in every state that its operations reach. -/

namespace MiraOS

open Machine

/-- The object sizes divide a page. -/
theorem slab_sizes : ∀ order : Fin slabMaxOrder,
    32 ≤ slabMinSize <<< order.val ∧ slabMinSize <<< order.val ≤ 512 ∧
    4096 / (slabMinSize <<< order.val) * (slabMinSize <<< order.val) = 4096 ∧
    8 ≤ 4096 / (slabMinSize <<< order.val) ∧ 4096 / (slabMinSize <<< order.val) ≤ 128 := by
  decide

/-- A slab cache with its pages and the objects on its free list. -/
structure SlabInv (mem : Memory) (cache : SlabCache) (order : Nat) (pages free : List Nat) : Prop where
  objectSize : cache.objectSize = slabMinSize <<< order
  perSlab : cache.objectsPerSlab = 4096 / (slabMinSize <<< order)
  chain : Chain mem cache.freeList free
  distinct : free.Nodup
  slots : ∀ slot ∈ free, ∃ page ∈ pages, slot ∈ stride page cache.objectSize cache.objectsPerSlab
  counted : cache.allocated + free.length = cache.objectsPerSlab * pages.length

/-- The objects of a page lie inside it, each at a multiple of the object size. -/
theorem slot_inside {order : Fin slabMaxOrder} {page slot : Nat}
    (member : slot ∈ stride page (slabMinSize <<< order.val) (4096 / (slabMinSize <<< order.val))) :
    ∃ i, slot = page + i * slabMinSize <<< order.val ∧ page ≤ slot ∧
      slot + slabMinSize <<< order.val ≤ page + 4096 := by
  -- The sizes divide a page, so the last object ends where the page ends.
  obtain ⟨i, small, rfl⟩ := mem_stride.mp member
  obtain ⟨_, _, whole, _⟩ := slab_sizes order
  have last : (i + 1) * slabMinSize <<< order.val ≤ 4096 := by
    rw [← whole]
    exact Nat.mul_le_mul_right _ small
  rw [Nat.add_mul] at last
  exact ⟨i, rfl, by omega, by omega⟩

/-- A cache does not depend on memory outside its pages. -/
theorem SlabInv.frame {mem other : Memory} {cache : SlabCache} {order : Fin slabMaxOrder}
    {pages free : List Nat} (inv : SlabInv mem cache order pages free)
    (same : ∀ page ∈ pages, ∀ byte, page ≤ byte → byte < page + 4096 → other byte = mem byte) :
    SlabInv other cache order pages free := by
  -- Only the free list is read from memory, and its links lie in free objects of the pages.
  refine { inv with chain := inv.chain.frame fun slot member byte low high => ?_ }
  obtain ⟨page, pageMember, place⟩ := inv.slots slot member
  rw [inv.objectSize, inv.perSlab] at place
  obtain ⟨_, _, first, last⟩ := slot_inside place
  obtain ⟨wide, _⟩ := slab_sizes order
  exact same page pageMember byte (by omega) (by omega)

/-- The invariant of the heap, with the pieces of its window and its free objects. -/
structure HeapInv (heap : Heap) (pieces : List Piece) (free : Fin slabMaxOrder → List Nat) : Prop where
  base : heap.heapVirtBase = pagingHeapBase
  head : heap.heapHead = pagingHeapBase
  layout : Layout heap.mem pagingHeapBase (pagingHeapBase + heap.heapMapped) pieces
  whole : heap.heapMapped % 4096 = 0
  pageAligned : ∀ {address cache}, .page address cache ∈ pieces → address % 4096 = 0
  -- Every page of the window has taken one frame, and there are at most 131072 of them.
  budget : heap.heapMapped + 4096 * heap.frames.countP (· ≠ 0) ≤ 2 ^ 29
  slabs : ∀ cache, SlabInv heap.mem (heap.slabCaches cache) cache (pagesOf cache pieces) (free cache)

/-- The list starts at the head, because the window begins with a block. -/
theorem HeapInv.firstOf_eq_head {heap : Heap} {pieces : List Piece}
    {free : Fin slabMaxOrder → List Nat} (inv : HeapInv heap pieces free) :
    firstOf 0 (blocksOf pieces) = heap.heapHead := by
  obtain ⟨first, rest, starts⟩ := inv.layout.starts
  -- The list starts at the base of the window, where the first block lies.
  have tiles := inv.layout.tiles
  rw [starts] at tiles ⊢
  exact tiles.1.trans inv.head.symm

/-- A page and the header of a block have no byte in common. -/
theorem Layout.page_apart {mem : Memory} {low high : Nat} {pieces : List Piece}
    (layout : Layout mem low high pieces) {block : Block} (isBlock : block ∈ blocksOf pieces)
    {page : Nat} {cache : Fin slabMaxOrder} (isPage : page ∈ pagesOf cache pieces) :
    block.stop ≤ page ∨ page + 4096 ≤ block.addr := by
  -- Two different pieces of a tiling are disjoint.
  have apart := layout.tiles.disjoint (mem_blocksOf.mp isBlock) (mem_pagesOf.mp isPage) (by simp)
  simp only [Piece.start, Piece.length] at apart
  simp only [Block.stop]
  omega

/-- Writing headers of blocks leaves the pages alone. -/
theorem Layout.page_frame {mem first last : Memory} {low high : Nat} {pieces : List Piece}
    (layout : Layout mem low high pieces) (only : OnlyHeaders (headersOf (blocksOf pieces)) first last)
    {cache : Fin slabMaxOrder} {page byte : Nat} (isPage : page ∈ pagesOf cache pieces)
    (inside : page ≤ byte) (below : byte < page + 4096) : last byte = first byte := by
  -- A byte of a page is outside of every header.
  refine only byte fun address member => ?_
  obtain ⟨block, isBlock, rfl⟩ := List.mem_map.mp member
  have := layout.page_apart isBlock isPage
  simp only [Block.stop] at this
  omega

/-- A change of blocks that leaves the pages alone keeps the invariant. -/
theorem HeapInv.withBlocks {heap : Heap} {pieces new : List Piece}
    {free : Fin slabMaxOrder → List Nat} (inv : HeapInv heap pieces free) {mem : Memory}
    (layout : Layout mem pagingHeapBase (pagingHeapBase + heap.heapMapped) new)
    (pages : ∀ cache, pagesOf cache new = pagesOf cache pieces)
    (same : ∀ cache, ∀ page ∈ pagesOf cache pieces, ∀ byte, page ≤ byte → byte < page + 4096 →
      mem byte = heap.mem byte) :
    HeapInv { heap with mem := mem } new free where
  -- Pages of caches are the same ones with the same bytes, so that only the layout of the blocks changes.
  base := inv.base
  head := inv.head
  layout := layout
  whole := inv.whole
  pageAligned := by
    intro address cache member
    apply inv.pageAligned
    exact mem_pagesOf.mp (pages cache ▸ mem_pagesOf.mpr member)
  budget := inv.budget
  slabs cache := by
    rw [pages cache]
    exact (inv.slabs cache).frame (same cache)

attribute [local irreducible] blockSize blockFree blockNext blockPrev setSize setFree setNext setPrev

/-- The list neighbours that a release would merge with touch the block in memory. -/
def MergesTouch (mem : Memory) (block : Nat) : Prop :=
  (blockNext mem block ≠ 0 → blockFree mem (blockNext mem block) ≠ 0 →
    blockNext mem block = block + headerSize + blockSize mem block) ∧
  (blockPrev mem block ≠ 0 → blockFree mem (blockPrev mem block) ≠ 0 →
    block = blockPrev mem block + headerSize + blockSize mem (blockPrev mem block))

instance (mem : Memory) (block : Nat) : Decidable (MergesTouch mem block) :=
  inferInstanceAs (Decidable (_ ∧ _))

/-- Releasing a block keeps the invariant when the merges are with touching neighbours. -/
theorem HeapInv.kfree {heap : Heap} {pieces : List Piece} {free : Fin slabMaxOrder → List Nat}
    (inv : HeapInv heap pieces free) {block : Block} (member : block ∈ blocksOf pieces)
    (touch : MergesTouch heap.mem block.addr) :
    ∃ new, HeapInv (MiraOS.kfree heap (block.addr + headerSize)) new free ∧
      (MiraOS.kfree heap (block.addr + headerSize)).slabCaches = heap.slabCaches ∧
      (MiraOS.kfree heap (block.addr + headerSize)).heapMapped = heap.heapMapped ∧
      Released heap.mem (MiraOS.kfree heap (block.addr + headerSize)).mem pagingHeapBase
        (pagingHeapBase + heap.heapMapped) block pieces new := by
  -- The block is looked up by its place, so that its list neighbours can be named.
  obtain ⟨before, after, rfl⟩ := List.append_of_mem (mem_blocksOf.mp member)
  have list := inv.layout.list
  simp only [blocksOf_append, blocksOf_block] at list
  obtain ⟨size, _, link, back⟩ := list.fields
  have bound := list.bounded block (by simp)
  simp only [Block.stop] at bound
  -- The condition speaks of memory; the layout needs it for the blocks of the list.
  have touchNext : ∀ next ∈ (blocksOf after).head?, next.free = true → next.addr = block.stop := by
    intro next first isFree
    obtain ⟨rest, follows⟩ : ∃ rest, blocksOf after = next :: rest :=
      ⟨_, List.eq_cons_of_mem_head? first⟩
    rw [follows] at list link
    have moved : BlockList heap.mem ((blocksOf before ++ [block]) ++ next :: rest) := by
      simpa using list
    have positive := (list.bounded next (by simp)).1
    have touching := touch.1
    simp only [link, firstOf, moved.fields.2.1, size, isFree] at touching
    exact touching (by omega) (by simp)
  have touchPrev : ∀ prev ∈ (blocksOf before).getLast?, prev.free = true → block.addr = prev.stop := by
    intro prev last isFree
    obtain ⟨rest, precedes⟩ : ∃ rest, blocksOf before = rest ++ [prev] :=
      ⟨_, (List.dropLast_append_getLast? prev last).symm⟩
    rw [precedes] at list back
    rw [lastOf_append] at back
    have moved : BlockList heap.mem (rest ++ prev :: (block :: blocksOf after)) := by simpa using list
    have positive := (list.bounded prev (by simp)).1
    have touching := touch.2
    simp only [back, lastOf, moved.fields.1, moved.fields.2.1, isFree] at touching
    exact touching (by omega) (by simp)
  obtain ⟨new, released⟩ := inv.layout.release touchNext touchPrev
  have place := list.of_pointer (show block ∈ _ by simp)
  have called : MiraOS.kfree heap (block.addr + headerSize) =
      { heap with mem := mergeAdjacent (setFree heap.mem block.addr 1) block.addr } := by
    rw [MiraOS.kfree, if_neg (by simp only [headerSize]; omega), place]
  refine ⟨new, ?_, ?_, ?_, ?_⟩
  · rw [called]
    exact inv.withBlocks released.layout released.pages
      (fun cache page isPage byte low high => inv.layout.page_frame released.only isPage low high)
  · rw [called]
  · rw [called]
  · rw [called]
    exact released

end MiraOS
