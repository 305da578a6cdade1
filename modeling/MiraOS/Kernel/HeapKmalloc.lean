import MiraOS.Kernel.HeapAlloc

/-! What one allocation does to the heap, on the block path and on the slab path. -/

namespace MiraOS

open Machine

attribute [local irreducible] blockSize blockFree blockNext blockPrev setSize setFree setNext setPrev
  pagingHeapBase

variable {heap : Heap} {pieces : List Piece} {free : Fin slabMaxOrder → List Nat}

/-- Requests are rounded up to a multiple of sixteen, unless that wraps around. -/
theorem align_eq {size : Nat} (fits : size + 15 < 2 ^ 64) :
    add64 size 15 &&& highMask 4 = (size + 15) / 16 * 16 := by
  have power : 2 ^ 4 = 16 := rfl
  rw [add64_of_lt fits, and_highMask (by decide) fits, power]

/-- No cache takes a request above its objects. -/
theorem HeapInv.find_none (inv : HeapInv heap pieces free) {size : Nat} (large : 512 < size) :
    slabFindCache heap.slabCaches size = none := by
  -- The largest objects have 512 bytes.
  rw [slabFindCache, List.find?_eq_none]
  intro order _
  have limit := (slab_sizes order).2.1
  rw [(inv.slabs order).objectSize]
  simp only [decide_eq_true_eq]
  omega

/-- One turn of a request that no cache takes. -/
theorem HeapInv.kmalloc_turn (inv : HeapInv heap pieces free) {size : Nat} (large : 512 < size) (fuel : Nat) :
    kmalloc (fuel + 1) heap size = (do
      let current ← findFit heap.mem (add64 size 15 &&& highMask 4) fuel heap.heapHead
      if current ≠ 0 then
        return (add64 current headerSize, { heap with
          mem := setFree (splitBlock heap.mem current (add64 size 15 &&& highMask 4)) current 0 })
      else do
        let larger ← MiraOS.appendArea fuel heap
        kmalloc fuel larger (add64 size 15 &&& highMask 4)) := by
  -- No cache holds objects this large, so the call goes to the block list.
  rw [kmalloc, if_neg (by omega), inv.find_none large, ite_self]

/-- The outcome of a request on the block path. -/
structure BlockTaken (heap next : Heap) (size ptr : Nat) (old new : List Piece) (block : Block) :
    Prop where
  pointer : ptr = block.addr + headerSize
  member : block ∈ blocksOf new
  inUse : block.free = false
  large : size ≤ block.size
  used : ∀ other, other.free = false →
    (other ∈ blocksOf new ↔ other ∈ blocksOf old ∨ other = block)
  fresh : ∀ other ∈ blocksOf old, other.free = false → other.addr ≠ block.addr
  pages : ∀ cache, pagesOf cache new = pagesOf cache old
  caches : next.slabCaches = heap.slabCaches
  mapped : heap.heapMapped ≤ next.heapMapped

/-- What blocks in use hold behind their headers is the same. -/
def KeepsHeld (blocks : List Block) (mem other : Memory) : Prop :=
  ∀ block ∈ blocks, block.free = false → ∀ byte, block.addr + headerSize ≤ byte → byte < block.stop →
    other byte = mem byte

/-- Writing headers of the list keeps what the blocks hold. -/
theorem Layout.keepsHeld {any mem last : Memory} {low high : Nat} (layout : Layout any low high pieces)
    (only : OnlyHeaders (headersOf (blocksOf pieces)) mem last) : KeepsHeld (blocksOf pieces) mem last := by
  intro block isBlock _ byte first behind
  refine only byte fun address member => ?_
  obtain ⟨other, isOther, rfl⟩ := List.mem_map.mp member
  by_cases same : other = block
  · rw [same]
    exact .inr first
  · -- Two different pieces of a tiling are disjoint.
    have apart := layout.tiles.disjoint (mem_blocksOf.mp isOther) (mem_blocksOf.mp isBlock) (by simpa using same)
    simp only [Piece.start, Piece.length] at apart
    simp only [Block.stop] at behind
    omega

/-- Taking a free block of the list that is large enough keeps everything. -/
theorem HeapInv.takeBlock {before after : List Piece} {block : Block} {size : Nat}
    (inv : HeapInv heap (before ++ .block block :: after) free) (isFree : block.free = true)
    (enough : size ≤ block.size) :
    ∃ new taken, HeapInv { heap with mem := setFree (splitBlock heap.mem block.addr size) block.addr 0 } new free ∧
      BlockTaken heap { heap with mem := setFree (splitBlock heap.mem block.addr size) block.addr 0 } size
        (add64 block.addr headerSize) (before ++ .block block :: after) new taken ∧
      KeepsHeld (blocksOf (before ++ .block block :: after)) heap.mem
        (setFree (splitBlock heap.mem block.addr size) block.addr 0) := by
  have small := inv.small
  have limit := pagingHeapBase_eq
  have inside := inv.layout.tiles.inside (List.mem_append_right before List.mem_cons_self)
  simp only [Piece.start, Piece.length] at inside
  obtain ⟨taken, new, sameAddr, took⟩ := inv.layout.take isFree enough
    (by simp only [headerSize, minBlock]; omega)
  -- The pointer is the address behind the header, which does not wrap inside the window.
  have pointer : add64 block.addr headerSize = taken.addr + headerSize := by
    rw [sameAddr]
    exact add64_of_lt (by simp only [headerSize]; omega)
  refine ⟨new, taken, inv.withBlocks took.layout took.pages ?_, ⟨pointer, ?_, took.inUse, took.large,
    took.used, took.fresh, took.pages, rfl, Nat.le_refl _⟩, ?_⟩
  · -- The pages of the caches keep their bytes, and blocks in use their headers.
    intro cache page isPage byte low high
    rw [← took.pages cache] at isPage
    exact took.layout.page_frame took.only isPage low high
  · exact (took.used taken took.inUse).mpr (.inr rfl)
  · intro other member used
    exact took.layout.keepsHeld took.only other ((took.used other used).mpr (.inl member)) used

/-- What is taken after a page was appended is taken from the heap before, for a size that was rounded up. -/
theorem BlockTaken.beforeGrowth {larger next : Heap} {size more ptr : Nat} {new : List Piece} {block : Block}
    (taken : BlockTaken larger next more ptr (pieces ++ [.block (newArea heap)]) new block) (rounded : size ≤ more)
    (caches : larger.slabCaches = heap.slabCaches) (mapped : larger.heapMapped = heap.heapMapped + 4096) :
    BlockTaken heap next size ptr pieces new block := by
  have large := taken.large
  have grew := taken.mapped
  refine ⟨taken.pointer, taken.member, taken.inUse, by omega, ?_, ?_, ?_, ?_, by omega⟩
  · intro other used
    -- The new page is free, so it is none of the blocks in use.
    have notArea : other ≠ newArea heap := by
      rintro rfl
      cases used
    rw [taken.used other used]
    simp [notArea]
  · intro other member used
    exact taken.fresh other (by simp [member]) used
  · intro cache
    rw [taken.pages cache]
    simp
  · rw [taken.caches, caches]

/-- A request on the block path that returns has taken a block of at least its size, and kept what others hold. -/
theorem HeapInv.kmalloc_keeps (inv : HeapInv heap pieces free) {fuel size ptr : Nat} {next : Heap}
    (large : 512 < size) (fits : size + 15 < 2 ^ 64)
    (called : kmalloc fuel heap size = .ok (ptr, next)) :
    ∃ new block, HeapInv next new free ∧ BlockTaken heap next size ptr pieces new block ∧
      KeepsHeld (blocksOf pieces) heap.mem next.mem := by
  -- Each turn of the recursion has one more page in the list and the rounded size.
  induction fuel generalizing heap pieces size with
  | zero => cases called
  | succ fuel ih =>
    -- The request is neither empty nor for a cache, so the list is searched.
    rw [inv.kmalloc_turn large, align_eq fits] at called
    obtain ⟨current, found, called⟩ := bind_eq_ok.mp called
    have list := inv.layout.list
    rw [← inv.firstOf_eq_head] at found
    rcases findFit_ok list.linked (fun block member => (list.bounded block member).1) found with
      ⟨rfl, _⟩ | ⟨before, block, after, split, rfl, isFree, enough⟩
    · -- Nothing fits, so the list grows by a page.
      rw [if_neg (by simp)] at called
      obtain ⟨larger, grew, called⟩ := bind_eq_ok.mp called
      obtain ⟨grown, caches, mapped, only⟩ := inv.appendArea_only grew
      obtain ⟨new, block, inv', taken, kept⟩ := ih grown (by omega) (by omega) called
      refine ⟨new, block, inv', taken.beforeGrowth (by omega) caches mapped, ?_⟩
      intro other member used byte low high
      have still : other ∈ blocksOf (pieces ++ [.block (newArea heap)]) := by simp [member]
      rw [kept other still used byte low high, grown.layout.keepsHeld only other still used byte low high]
    · -- The first block that fits is taken, and cut if it is large enough.
      have bound := list.bounded block (by simp [split])
      rw [if_pos (by omega)] at called
      cases called
      obtain ⟨left, right, rfl⟩ := List.append_of_mem
        (mem_blocksOf.mp (show block ∈ blocksOf pieces by simp [split]))
      obtain ⟨new, taken, inv', took, kept⟩ := inv.takeBlock isFree enough
      have wide := took.large
      exact ⟨new, taken, inv', { took with large := by omega }, kept⟩

/-- A request on the block path that returns has taken a block of at least its size. -/
theorem HeapInv.kmalloc_block (inv : HeapInv heap pieces free) {fuel size ptr : Nat} {next : Heap}
    (large : 512 < size) (fits : size + 15 < 2 ^ 64)
    (called : kmalloc fuel heap size = .ok (ptr, next)) :
    ∃ new block, HeapInv next new free ∧ BlockTaken heap next size ptr pieces new block := by
  obtain ⟨new, block, inv', taken, -⟩ := inv.kmalloc_keeps large fits called
  exact ⟨new, block, inv', taken⟩

end MiraOS
