import MiraOS.Kernel.HeapSlab
import MiraOS.Machine.Run

/-! The heap together with its callers: what they hold, and what stays true over every run. -/

namespace MiraOS

open Machine

/-- An allocation that a caller holds, with the size it asked for. -/
structure Allocation where
  ptr : Nat
  size : Nat
  deriving DecidableEq

/-- Two allocations have no byte in common. -/
def Allocation.Disjoint (one two : Allocation) : Prop :=
  one.ptr + one.size ≤ two.ptr ∨ two.ptr + two.size ≤ one.ptr

/-- The heap, the allocations returned and not released since, and the pages the caches have mapped. -/
structure HeapSystem where
  heap : Heap
  live : List Allocation
  slabPages : List (Fin slabMaxOrder × Nat)

/-- The pages recorded for one cache, oldest first. -/
def HeapSystem.pages (system : HeapSystem) (order : Fin slabMaxOrder) : List Nat :=
  (system.slabPages.filter fun entry => entry.1 = order).map Prod.snd

/-- The pages of a cache depend on the record only. -/
theorem HeapSystem.pages_update (system : HeapSystem) (heap : Heap) (live : List Allocation)
    (order : Fin slabMaxOrder) :
    ({ system with heap := heap, live := live } : HeapSystem).pages order = system.pages order := rfl

/-- Record the outcome of an allocation: a new page of a cache, and what the caller holds. -/
def HeapSystem.allocated (system : HeapSystem) (size ptr : Nat) (next : Heap) : HeapSystem where
  heap := next
  live := if ptr = 0 then system.live else ⟨ptr, size⟩ :: system.live
  slabPages :=
    match slabFindCache system.heap.slabCaches size with
    | none => system.slabPages
    | some order =>
      if next.heapMapped = system.heap.heapMapped then system.slabPages
      else system.slabPages ++ [(order, system.heap.heapVirtBase + system.heap.heapMapped)]

/-- What the callers of the heap can do. -/
inductive HeapOp where
  | alloc (size : Nat)
  | free (ptr : Nat)
  | write (address : Nat) (byte : UInt8)

/-- One step, for the requests and the releases that a group of callers makes. -/
inductive HeapStep (asks : Nat → Prop) (releases : Heap → Allocation → Prop) :
    HeapSystem → HeapOp → HeapSystem → Prop where
  | alloc {system : HeapSystem} {fuel size ptr : Nat} {next : Heap} (asked : asks size)
      (called : kmalloc fuel system.heap size = .ok (ptr, next)) :
      HeapStep asks releases system (.alloc size) (system.allocated size ptr next)
  -- Only an allocation that is held is released.
  | free {system : HeapSystem} {allocation : Allocation} (held : allocation ∈ system.live)
      (released : releases system.heap allocation) :
      HeapStep asks releases system (.free allocation.ptr)
        { system with
          heap := kfree system.heap allocation.ptr
          live := system.live.erase allocation }
  -- A caller writes only inside what it holds.
  | write {system : HeapSystem} {allocation : Allocation} {address : Nat} {byte : UInt8}
      (held : allocation ∈ system.live) (low : allocation.ptr ≤ address)
      (high : address < allocation.ptr + allocation.size) :
      HeapStep asks releases system (.write address byte)
        { system with heap :=
          { system.heap with mem := Function.update system.heap.mem address byte } }

/-- Requests whose size can be rounded up without wrapping around. -/
def Rounds (size : Nat) : Prop := size + 15 < 2 ^ 64

/-- Releases of blocks whose free neighbours in the list touch them in memory. -/
def TouchingBlock (heap : Heap) (allocation : Allocation) : Prop :=
  512 < allocation.size ∧ MergesTouch heap.mem (sub64 allocation.ptr headerSize)

/-- Every allocation is a block in use or an object that is not free, and every such block is held. -/
structure Owned (live : List Allocation) (pieces : List Piece) (free : Fin slabMaxOrder → List Nat) :
    Prop where
  distinct : (live.map Allocation.ptr).Nodup
  held : ∀ allocation ∈ live,
    (512 < allocation.size ∧ ∃ block ∈ blocksOf pieces, block.free = false ∧
      allocation.ptr = block.addr + headerSize ∧ allocation.size ≤ block.size) ∨
    (allocation.size ≤ 512 ∧ ∃ order, IsSlot pieces order allocation.ptr ∧
      allocation.ptr ∉ free order ∧ allocation.size ≤ slabMinSize <<< order.val)
  used : ∀ block ∈ blocksOf pieces, block.free = false →
    ∃ allocation ∈ live, allocation.ptr = block.addr + headerSize ∧ allocation.size ≤ block.size ∧
      512 < allocation.size

/-- What holds in every reached state. -/
structure Reached (system : HeapSystem) (pieces : List Piece) (free : Fin slabMaxOrder → List Nat) :
    Prop where
  inv : HeapInv system.heap pieces free
  owned : Owned system.live pieces free
  pages : ∀ order, pagesOf order pieces = system.pages order

section Apart

variable {heap : Heap} {pieces : List Piece} {free : Fin slabMaxOrder → List Nat}

/-- A block and an object have no byte in common. -/
theorem HeapInv.block_slot_apart (inv : HeapInv heap pieces free) {block : Block}
    (isBlock : block ∈ blocksOf pieces) {order : Fin slabMaxOrder} {slot : Nat}
    (isSlot : IsSlot pieces order slot) :
    block.stop ≤ slot ∨ slot + slabMinSize <<< order.val ≤ block.addr := by
  -- The object is inside a page, and pages are apart from blocks.
  obtain ⟨page, isPage, place⟩ := isSlot
  obtain ⟨_, _, low, high⟩ := slot_inside place
  have := inv.layout.page_apart isBlock isPage
  omega

/-- Two blocks at different places have no byte in common. -/
theorem HeapInv.block_block_apart (inv : HeapInv heap pieces free) {one two : Block}
    (left : one ∈ blocksOf pieces) (right : two ∈ blocksOf pieces) (differ : one ≠ two) :
    one.stop ≤ two.addr ∨ two.stop ≤ one.addr := by
  -- Two blocks are two pieces of one tiling.
  have apart := inv.layout.tiles.disjoint (mem_blocksOf.mp left) (mem_blocksOf.mp right)
    (by simpa using differ)
  simp only [Piece.start, Piece.length] at apart
  simp only [Block.stop]
  omega

/-- Two different objects have no byte in common. -/
theorem HeapInv.slot_slot_apart (inv : HeapInv heap pieces free) {one two : Fin slabMaxOrder}
    {slot other : Nat} (left : IsSlot pieces one slot) (right : IsSlot pieces two other)
    (differ : slot ≠ other) :
    slot + slabMinSize <<< one.val ≤ other ∨ other + slabMinSize <<< two.val ≤ slot := by
  obtain ⟨page, isPage, place⟩ := left
  obtain ⟨otherPage, isOther, otherPlace⟩ := right
  obtain ⟨i, isSlot, low, high⟩ := slot_inside place
  obtain ⟨j, isOtherSlot, otherLow, otherHigh⟩ := slot_inside otherPlace
  by_cases same : Piece.page page one = Piece.page otherPage two
  · -- Objects of one page are whole object sizes apart.
    injection same with samePage sameOrder
    subst samePage sameOrder
    rcases Nat.lt_trichotomy i j with less | equal | more
    · have := Nat.mul_le_mul_right (slabMinSize <<< one.val) (show i + 1 ≤ j from less)
      rw [Nat.add_mul] at this
      omega
    · rw [equal] at isSlot
      omega
    · have := Nat.mul_le_mul_right (slabMinSize <<< one.val) (show j + 1 ≤ i from more)
      rw [Nat.add_mul] at this
      omega
  · have apart := inv.layout.tiles.disjoint (mem_pagesOf.mp isPage) (mem_pagesOf.mp isOther) same
    simp only [Piece.start, Piece.length] at apart
    omega

/-- Allocations at different addresses have no byte in common. -/
theorem Owned.apart {live : List Allocation} (owned : Owned live pieces free)
    (inv : HeapInv heap pieces free) {one two : Allocation} (left : one ∈ live) (right : two ∈ live)
    (differ : one.ptr ≠ two.ptr) : one.Disjoint two := by
  -- A block or an object on each side; the pieces they belong to are apart.
  simp only [Allocation.Disjoint]
  rcases owned.held one left with ⟨_, block, isBlock, _, ptr, fits⟩ | ⟨_, order, isSlot, _, fits⟩
  · rcases owned.held two right with
      ⟨_, other, isOther, _, otherPtr, otherFits⟩ | ⟨_, order, isSlot, _, otherFits⟩
    · have apart := inv.block_block_apart isBlock isOther (by rintro rfl; omega)
      simp only [Block.stop] at apart
      omega
    · have apart := inv.block_slot_apart isBlock isSlot
      simp only [Block.stop] at apart
      omega
  · rcases owned.held two right with
      ⟨_, other, isOther, _, otherPtr, otherFits⟩ | ⟨_, otherOrder, isOtherSlot, _, otherFits⟩
    · have apart := inv.block_slot_apart isOther isSlot
      simp only [Block.stop] at apart
      omega
    · have apart := inv.slot_slot_apart isSlot isOtherSlot differ
      omega

/-- Every allocation lies inside the window. -/
theorem Owned.window {live : List Allocation} (owned : Owned live pieces free)
    (inv : HeapInv heap pieces free) {allocation : Allocation} (held : allocation ∈ live) :
    pagingHeapBase ≤ allocation.ptr ∧
      allocation.ptr + allocation.size ≤ pagingHeapBase + heap.heapMapped := by
  -- What is held is in a block of the list or in an object of a cache, and both lie in the window.
  rcases owned.held allocation held with ⟨_, block, isBlock, _, ptr, fits⟩ | ⟨_, order, isSlot, _, fits⟩
  · have inside := inv.layout.tiles.inside (mem_blocksOf.mp isBlock)
    simp only [Piece.start, Piece.length] at inside
    omega
  · have inside := inv.slot_window isSlot
    omega

/-- The header of a block and an allocation have no byte in common. -/
theorem Owned.header_apart {live : List Allocation} (owned : Owned live pieces free)
    (inv : HeapInv heap pieces free) {allocation : Allocation} (held : allocation ∈ live) {block : Block}
    (isBlock : block ∈ blocksOf pieces) :
    allocation.ptr + allocation.size ≤ block.addr ∨ block.addr + headerSize ≤ allocation.ptr := by
  -- The header in front of an allocation is before its pointer, and other blocks are elsewhere.
  rcases owned.held allocation held with ⟨_, own, isOwn, _, ptr, fits⟩ | ⟨_, order, isSlot, _, fits⟩
  · by_cases same : own = block
    · subst same
      omega
    · have apart := inv.block_block_apart isOwn isBlock same
      simp only [Block.stop] at apart
      omega
  · have apart := inv.block_slot_apart isBlock isSlot
    simp only [Block.stop] at apart
    omega

/-- An object and an allocation at another address have no byte in common. -/
theorem Owned.slot_apart {live : List Allocation} (owned : Owned live pieces free)
    (inv : HeapInv heap pieces free) {allocation : Allocation} (held : allocation ∈ live)
    {order : Fin slabMaxOrder} {slot : Nat} (isSlot : IsSlot pieces order slot)
    (differ : allocation.ptr ≠ slot) :
    allocation.ptr + allocation.size ≤ slot ∨ slot + slabMinSize <<< order.val ≤ allocation.ptr := by
  -- A block is apart from every object, and so is another object.
  rcases owned.held allocation held with ⟨_, block, isBlock, _, ptr, fits⟩ | ⟨_, own, isOwn, _, fits⟩
  · have apart := inv.block_slot_apart isBlock isSlot
    simp only [Block.stop] at apart
    omega
  · have apart := inv.slot_slot_apart isOwn isSlot differ
    omega

/-- A free object and an allocation have no byte in common. -/
theorem Owned.free_apart {live : List Allocation} (owned : Owned live pieces free)
    (inv : HeapInv heap pieces free) {allocation : Allocation} (held : allocation ∈ live)
    {order : Fin slabMaxOrder} {slot : Nat} (isFree : slot ∈ free order) :
    allocation.ptr + allocation.size ≤ slot ∨ slot + slabMinSize <<< order.val ≤ allocation.ptr := by
  -- The object could only be the allocation itself, which is not on a free list.
  have freeSlot := inv.free_slot isFree
  refine owned.slot_apart inv held freeSlot ?_
  rintro rfl
  rcases owned.held allocation held with ⟨_, block, isBlock, _, ptr, fits⟩ | ⟨_, own, isSlot, notFree, _⟩
  · -- A block in use with some size contains its own pointer.
    have apart := inv.block_slot_apart isBlock freeSlot
    have wide := (slab_sizes order).1
    simp only [Block.stop] at apart
    omega
  · obtain rfl := inv.slot_owner isSlot freeSlot
    exact notFree isFree

/-- Memory that changes outside headers and free objects keeps the invariant. -/
theorem HeapInv.withMem (inv : HeapInv heap pieces free) {mem : Memory}
    (headers : ∀ block ∈ blocksOf pieces, ∀ byte, block.addr ≤ byte →
      byte < block.addr + headerSize → mem byte = heap.mem byte)
    (objects : ∀ order, ∀ slot ∈ free order, ∀ byte, slot ≤ byte → byte < slot + 8 →
      mem byte = heap.mem byte) :
    HeapInv { heap with mem := mem } pieces free where
  base := inv.base
  head := inv.head
  layout :=
    { inv.layout with
      list :=
        { inv.layout.list with
          -- Only headers of blocks and links of free objects are read by the invariant.
          linked := inv.layout.list.linked.frame fun block member =>
            readHeader_congr (headers block member) } }
  whole := inv.whole
  pageAligned := inv.pageAligned
  budget := inv.budget
  slabs order := { inv.slabs order with chain := (inv.slabs order).chain.frame (objects order) }

end Apart

section Steps

attribute [local irreducible] kfree kmalloc pagingHeapBase

variable {system : HeapSystem} {pieces : List Piece} {free : Fin slabMaxOrder → List Nat}

/-- A write inside an allocation keeps everything. -/
theorem Reached.write (reached : Reached system pieces free) {allocation : Allocation}
    {address : Nat} {byte : UInt8} (held : allocation ∈ system.live)
    (low : allocation.ptr ≤ address) (high : address < allocation.ptr + allocation.size) :
    Reached { system with heap :=
      { system.heap with mem := Function.update system.heap.mem address byte } } pieces free := by
  -- The byte is inside an allocation, where there is neither a header nor a free object.
  refine ⟨reached.inv.withMem ?_ ?_, reached.owned, reached.pages⟩
  · intro block isBlock other first last
    have apart := reached.owned.header_apart reached.inv held isBlock
    exact Function.update_of_ne (by omega) _ _
  · intro order slot isFree other first last
    have apart := reached.owned.free_apart reached.inv held isFree
    have wide := (slab_sizes order).1
    exact Function.update_of_ne (by omega) _ _

/-- Releasing a block whose merges touch keeps everything, and takes the block out of use. -/
theorem Reached.release (reached : Reached system pieces free) {allocation : Allocation}
    (held : allocation ∈ system.live) (touching : TouchingBlock system.heap allocation) :
    ∃ new block, Reached
        { system with
          heap := kfree system.heap allocation.ptr
          live := system.live.erase allocation } new free ∧
      block ∈ blocksOf pieces ∧
      allocation.ptr = block.addr + headerSize ∧ allocation.size ≤ block.size ∧
      (kfree system.heap allocation.ptr).slabCaches = system.heap.slabCaches ∧
      (kfree system.heap allocation.ptr).heapMapped = system.heap.heapMapped ∧
      Released system.heap.mem (kfree system.heap allocation.ptr).mem pagingHeapBase
        (pagingHeapBase + system.heap.heapMapped) block pieces new := by
  obtain ⟨large, touch⟩ := touching
  have inv := reached.inv
  -- A touching block is larger than every object, so it is not one.
  rcases reached.owned.held allocation held with
    ⟨_, block, isBlock, inUse, ptr, fits⟩ | ⟨small, _⟩
  · rw [ptr, inv.layout.list.of_pointer isBlock] at touch
    obtain ⟨new, kept, caches, mapped, released⟩ := inv.kfree isBlock touch
    rw [ptr]
    refine ⟨new, block, ⟨kept, ⟨?_, ?_, ?_⟩, ?_⟩, isBlock, rfl, fits, caches, mapped, released⟩
    · exact reached.owned.distinct.sublist (List.Sublist.map _ (List.erase_sublist ..))
    · intro other member
      rcases reached.owned.held other (List.mem_of_mem_erase member) with
        ⟨size, own, isOwn, ownUse, ownPtr, ownFits⟩ | ⟨size, order, isSlot, notFree, slotFits⟩
      · -- Another allocation has another pointer, and so another block.
        refine .inl ⟨size, own, (released.used own ownUse).mpr ⟨isOwn, ?_⟩, ownUse, ownPtr, ownFits⟩
        rintro rfl
        have sameAllocation : other = allocation :=
          List.inj_on_of_nodup_map reached.owned.distinct (List.mem_of_mem_erase member) held
            (ownPtr.trans ptr.symm)
        have gone := (reached.owned.distinct.of_map _).mem_erase_iff.mp member
        exact gone.1 sameAllocation
      · refine .inr ⟨size, order, ?_, notFree, slotFits⟩
        simpa only [IsSlot, released.pages order] using isSlot
    · intro own isOwn ownUse
      obtain ⟨isOld, differ⟩ := (released.used own ownUse).mp isOwn
      obtain ⟨other, member, otherPtr, rest⟩ := reached.owned.used own isOld ownUse
      refine ⟨other, ?_, otherPtr, rest⟩
      refine (List.mem_erase_of_ne ?_).mpr member
      rintro rfl
      have apart := inv.block_block_apart isOld isBlock differ
      simp only [Block.stop, headerSize] at apart
      omega
    · exact fun order => (released.pages order).trans
        ((reached.pages order).trans (system.pages_update _ _ order).symm)
  · omega

/-- A block taken by a request becomes an allocation. -/
theorem Owned.take {heap next : Heap} {live : List Allocation} {size ptr : Nat} {new : List Piece}
    {block : Block} (owned : Owned live pieces free) (large : 512 < size)
    (inv : HeapInv next new free) (taken : BlockTaken heap next size ptr pieces new block) :
    Owned (⟨ptr, size⟩ :: live) new free where
  distinct := by
    rw [List.map_cons, List.nodup_cons]
    refine ⟨fun member => ?_, owned.distinct⟩
    -- No allocation had the pointer of a block that was free.
    obtain ⟨other, held, same⟩ := List.mem_map.mp member
    have pointer := taken.pointer
    have fits := taken.large
    simp only at same
    rcases owned.held other held with ⟨_, own, isOwn, inUse, ptr, _⟩ | ⟨_, order, isSlot, _, _⟩
    · exact taken.fresh own isOwn inUse (by omega)
    · -- An object of a page is apart from the block.
      have moved : IsSlot new order other.ptr := by
        simpa only [IsSlot, taken.pages order] using isSlot
      have apart := inv.block_slot_apart taken.member moved
      have wide := (slab_sizes order).1
      simp only [Block.stop, headerSize] at apart pointer
      omega
  held := by
    intro allocation member
    rcases List.mem_cons.mp member with rfl | member
    · exact .inl ⟨large, block, taken.member, taken.inUse, taken.pointer, taken.large⟩
    · rcases owned.held allocation member with
        ⟨size, own, isOwn, inUse, rest⟩ | ⟨size, order, isSlot, rest⟩
      · exact .inl ⟨size, own, (taken.used own inUse).mpr (.inl isOwn), inUse, rest⟩
      · refine .inr ⟨size, order, ?_, rest⟩
        simpa only [IsSlot, taken.pages order] using isSlot
  used := by
    intro own isOwn inUse
    rcases (taken.used own inUse).mp isOwn with isOld | rfl
    · obtain ⟨allocation, member, rest⟩ := owned.used own isOld inUse
      exact ⟨allocation, List.mem_cons_of_mem _ member, rest⟩
    · exact ⟨_, List.mem_cons_self, taken.pointer, taken.large, large⟩

/-- The objects of a window are still there when it grows. -/
theorem SlabTaken.slots {heap next : Heap} {ptr : Nat} {order : Fin slabMaxOrder} {new : List Piece}
    {left : Fin slabMaxOrder → List Nat} (taken : SlabTaken heap next ptr order pieces new free left)
    {cache : Fin slabMaxOrder} {slot : Nat} (isSlot : IsSlot pieces cache slot) :
    IsSlot new cache slot := by
  -- The pages are those from before, and at most one new page behind them.
  rcases taken.grows with ⟨rfl, _⟩ | ⟨rfl, _⟩
  · exact isSlot
  · obtain ⟨page, isPage, place⟩ := isSlot
    exact ⟨page, by simp [isPage], place⟩

/-- The block list is the same after a request on the slab path. -/
theorem SlabTaken.blocks {heap next : Heap} {ptr : Nat} {order : Fin slabMaxOrder} {new : List Piece}
    {left : Fin slabMaxOrder → List Nat}
    (taken : SlabTaken heap next ptr order pieces new free left) : blocksOf new = blocksOf pieces := by
  -- A slab page is no block.
  rcases taken.grows with ⟨rfl, _⟩ | ⟨rfl, _⟩
  · rfl
  · simp

/-- An object taken by a request becomes an allocation. -/
theorem Owned.takeSlot {heap next : Heap} {live : List Allocation} {size ptr : Nat}
    {order : Fin slabMaxOrder} {new : List Piece} {left : Fin slabMaxOrder → List Nat}
    (owned : Owned live pieces free) (small : size ≤ 512) (fits : size ≤ slabMinSize <<< order.val)
    (inv : HeapInv next new left) (taken : SlabTaken heap next ptr order pieces new free left) :
    Owned (⟨ptr, size⟩ :: live) new left where
  distinct := by
    rw [List.map_cons, List.nodup_cons]
    refine ⟨fun member => ?_, owned.distinct⟩
    -- No allocation had the pointer of an object that was free.
    obtain ⟨other, held, same⟩ := List.mem_map.mp member
    simp only at same
    -- A live block lies apart from every slot, and a live object was not free.
    rcases owned.held other held with ⟨_, own, isOwn, _, pointer, bound⟩ | ⟨_, cache, isSlot, notFree, _⟩
    · rw [← taken.blocks] at isOwn
      have apart := inv.block_slot_apart isOwn taken.slot
      have wide := (slab_sizes order).1
      simp only [Block.stop, headerSize] at apart pointer
      omega
    · exact taken.fresh isSlot notFree same
  -- The new allocation holds the slot it took, and the others hold what they held.
  held := by
    intro allocation member
    rcases List.mem_cons.mp member with rfl | member
    · exact .inr ⟨small, order, taken.slot, taken.notFree, fits⟩
    · rcases owned.held allocation member with
        ⟨size, own, isOwn, rest⟩ | ⟨size, cache, isSlot, notFree, rest⟩
      · rw [← taken.blocks] at isOwn
        exact .inl ⟨size, own, isOwn, rest⟩
      · exact .inr ⟨size, cache, taken.slots isSlot, taken.kept isSlot notFree, rest⟩
  used := by
    intro own isOwn inUse
    rw [taken.blocks] at isOwn
    obtain ⟨allocation, member, rest⟩ := owned.used own isOwn inUse
    exact ⟨allocation, List.mem_cons_of_mem _ member, rest⟩

/-- A page mapped for one cache is recorded for that cache. -/
theorem pages_append {order cache : Fin slabMaxOrder} {page : Nat} {heap : Heap}
    {live : List Allocation} {record : List (Fin slabMaxOrder × Nat)} :
    (⟨heap, live, record ++ [(order, page)]⟩ : HeapSystem).pages cache =
      (⟨heap, live, record⟩ : HeapSystem).pages cache ++ if order = cache then [page] else [] := by
  simp only [HeapSystem.pages, List.filter_append, List.map_append]
  -- The new page belongs to the cache that took it.
  by_cases same : order = cache <;> simp [same]

/-- An allocation on the block path keeps everything. -/
theorem Reached.alloc_block (reached : Reached system pieces free) {fuel size ptr : Nat} {next : Heap}
    (large : 512 < size) (rounds : Rounds size)
    (called : kmalloc fuel system.heap size = .ok (ptr, next)) :
    ∃ new, Reached (system.allocated size ptr next) new free ∧
      ∀ order, pagesOf order new = pagesOf order pieces := by
  obtain ⟨new, block, inv, taken⟩ := reached.inv.kmalloc_block large rounds called
  -- The pointer is behind a header, so it is not null.
  have nonzero : ptr ≠ 0 := by
    have := taken.pointer
    simp only [headerSize] at this
    omega
  have record : system.allocated size ptr next =
      ⟨next, ⟨ptr, size⟩ :: system.live, system.slabPages⟩ := by
    rw [HeapSystem.allocated, if_neg nonzero, reached.inv.find_none large]
  refine ⟨new, ?_, taken.pages⟩
  rw [record]
  exact ⟨inv, reached.owned.take large inv taken,
    fun order => (taken.pages order).trans (reached.pages order)⟩

/-- The outcome of an allocation on the slab path. -/
structure SlabServed (system : HeapSystem) (size ptr : Nat) (next : Heap) (order : Fin slabMaxOrder)
    (pieces new : List Piece) (free left : Fin slabMaxOrder → List Nat) : Prop where
  reached : Reached (system.allocated size ptr next) new left
  fits : size ≤ slabMinSize <<< order.val
  smallest : ∀ smaller, smaller < order → slabMinSize <<< smaller.val < size
  -- Without a frame the call returns null, otherwise an object of the cache.
  outcome : ptr = 0 ∨ SlabTaken system.heap next ptr order pieces new free left

/-- An allocation on the slab path keeps everything. -/
theorem Reached.alloc_slab (reached : Reached system pieces free) {fuel size ptr : Nat} {next : Heap}
    (positive : 0 < size) (small : size ≤ 512)
    (called : kmalloc fuel system.heap size = .ok (ptr, next)) :
    ∃ order new left, SlabServed system size ptr next order pieces new free left := by
  obtain ⟨order, found, fits, smallest, outcome⟩ := reached.inv.kmalloc_slab positive small called
  rcases outcome with ⟨rfl, inv, mapped⟩ | ⟨nonzero, new, left, inv, taken⟩
  · have record : system.allocated size 0 next = ⟨next, system.live, system.slabPages⟩ := by
      simp only [HeapSystem.allocated, found, if_pos mapped, if_pos]
    refine ⟨order, pieces, free, ?_, fits, smallest, .inl rfl⟩
    rw [record]
    exact ⟨inv, reached.owned, reached.pages⟩
  · refine ⟨order, new, left, ?_, fits, smallest, .inr taken⟩
    have owned := reached.owned.takeSlot small fits inv taken
    rcases taken.grows with ⟨rfl, mapped⟩ | ⟨rfl, mapped⟩
    -- An object was free, and no page is recorded.
    · have record : system.allocated size ptr next =
          ⟨next, ⟨ptr, size⟩ :: system.live, system.slabPages⟩ := by
        simp only [HeapSystem.allocated, found, if_pos mapped, if_neg nonzero]
      rw [record]
      exact ⟨inv, owned, reached.pages⟩
    -- The window has grown, which is how the record knows of the new page.
    · have grew : ¬ next.heapMapped = system.heap.heapMapped := by omega
      have record : system.allocated size ptr next = ⟨next, ⟨ptr, size⟩ :: system.live,
          system.slabPages ++ [(order, pagingHeapBase + system.heap.heapMapped)]⟩ := by
        simp only [HeapSystem.allocated, found, if_neg grew, if_neg nonzero, reached.inv.base]
      rw [record]
      refine ⟨inv, owned, fun cache => ?_⟩
      rw [pages_append]
      simp only [pagesOf_append, pagesOf_page, pagesOf_nil]
      exact congrArg (· ++ _) (reached.pages cache)

/-- A request for nothing returns null and changes nothing. -/
theorem Reached.alloc_zero (reached : Reached system pieces free) {fuel ptr : Nat} {next : Heap}
    (called : kmalloc fuel system.heap 0 = .ok (ptr, next)) :
    Reached (system.allocated 0 ptr next) pieces free := by
  cases fuel with
  | zero => unfold kmalloc at called; cases called
  | succ fuel =>
    -- A request for nothing comes back before the heap is looked at.
    unfold kmalloc at called
    rw [if_pos rfl] at called
    cases called
    have record : system.allocated 0 0 system.heap =
        ⟨system.heap, system.live, system.slabPages⟩ := by
      simp only [HeapSystem.allocated, if_pos]
      cases slabFindCache system.heap.slabCaches 0 <;> rfl
    rw [record]
    exact reached

/-- One step of callers that release touching blocks only keeps everything. -/
theorem Reached.step {next : HeapSystem} {op : HeapOp} (reached : Reached system pieces free)
    (step : HeapStep Rounds TouchingBlock system op next) :
    ∃ new left, Reached next new left := by
  -- One case for each operation, with what it reaches.
  cases step with
  | @alloc fuel size ptr heap rounds called =>
    by_cases zero : size = 0
    · subst zero
      exact ⟨_, _, reached.alloc_zero called⟩
    · -- Up to 512 bytes a cache serves, beyond them the list.
      by_cases small : size ≤ 512
      · obtain ⟨_, new, left, served⟩ := reached.alloc_slab (by omega) small called
        exact ⟨new, left, served.reached⟩
      · obtain ⟨new, reached, _⟩ := reached.alloc_block (by omega) rounds called
        exact ⟨new, free, reached⟩
  | free held released =>
    obtain ⟨new, _, kept, _⟩ := reached.release held released
    exact ⟨new, free, kept⟩
  | write held low high => exact ⟨pieces, free, reached.write held low high⟩

end Steps

end MiraOS
