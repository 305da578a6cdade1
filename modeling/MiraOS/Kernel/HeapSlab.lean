import MiraOS.Kernel.HeapKmalloc

/-! What one allocation does to the slab caches. -/

namespace MiraOS

open Machine

attribute [local irreducible] blockSize blockFree blockNext blockPrev setSize setFree setNext setPrev
  pagingHeapBase

variable {heap : Heap} {pieces : List Piece} {free : Fin slabMaxOrder → List Nat}

/-- A request that fits an object finds the cache with the smallest such objects. -/
theorem HeapInv.find_cache (inv : HeapInv heap pieces free) {size : Nat} (small : size ≤ 512) :
    ∃ order, slabFindCache heap.slabCaches size = some order ∧
      size ≤ slabMinSize <<< order.val ∧
      ∀ smaller, smaller < order → slabMinSize <<< smaller.val < size := by
  have sizes : ∀ order, (heap.slabCaches order).objectSize = slabMinSize <<< order.val :=
    fun order => (inv.slabs order).objectSize
  cases found : slabFindCache heap.slabCaches size with
  | none =>
    -- The last cache takes every such request.
    rw [slabFindCache, List.find?_eq_none] at found
    have last := found ⟨4, by decide⟩ (List.mem_finRange _)
    rw [sizes] at last
    exact absurd (show size ≤ slabMinSize <<< 4 from small) (by simpa using last)
  | some order =>
    -- The caches are tried in order, and those before the answer were too small.
    obtain ⟨fits, earlier, later, split, skipped⟩ := List.find?_eq_some_iff_append.mp found
    refine ⟨order, rfl, by simpa [sizes] using fits, fun smaller less => ?_⟩
    have sorted := List.pairwise_lt_finRange slabMaxOrder
    rw [split, List.pairwise_append, List.pairwise_cons] at sorted
    have member := List.mem_finRange smaller
    rw [split, List.mem_append, List.mem_cons] at member
    rcases member with member | rfl | member
    · have := skipped smaller member
      rw [sizes] at this
      simpa using this
    · exact absurd less (Nat.lt_irrefl _)
    · exact absurd less (Nat.lt_asymm (sorted.2.1.1 smaller member))

/-- The pages of a cache take up their part of the window. -/
theorem pagesOf_length_le (cache : Fin slabMaxOrder) (pieces : List Piece) :
    4096 * (pagesOf cache pieces).length ≤ (pieces.map Piece.length).sum := by
  -- Every page is 4096 bytes of the sum, and pages of other caches only add to it.
  induction pieces with
  | nil => simp
  | cons piece rest ih =>
    cases piece with
    | block block =>
      simp only [pagesOf_block, List.map_cons, List.sum_cons]
      omega
    | page address owner =>
      simp only [pagesOf_page, List.map_cons, List.sum_cons, Piece.length]
      split
      · simp only [List.length_cons]
        omega
      · omega

/-- The counter of a cache stays far below its range. -/
theorem HeapInv.allocated_lt (inv : HeapInv heap pieces free) (order : Fin slabMaxOrder) :
    (heap.slabCaches order).allocated + 1 < 2 ^ 32 := by
  have counted := (inv.slabs order).counted
  have total := inv.layout.tiles.sum_eq
  have pages := pagesOf_length_le order pieces
  have small := inv.small
  -- The window has at most 2^17 pages, each with at most 128 objects.
  have few : (pagesOf order pieces).length ≤ 2 ^ 17 := by omega
  have perSlab := (slab_sizes order).2.2.2.2
  rw [← (inv.slabs order).perSlab] at perSlab
  have product := Nat.mul_le_mul perSlab few
  omega

/-- Popping the free list of a cache takes its first object. -/
theorem HeapInv.slabPop (inv : HeapInv heap pieces free) {order : Fin slabMaxOrder} {ptr : Nat}
    {rest : List Nat} (available : free order = ptr :: rest) :
    (MiraOS.slabPop heap order).1 = ptr ∧
      HeapInv (MiraOS.slabPop heap order).2 pieces (Function.update free order rest) := by
  have slab := inv.slabs order
  rw [available] at slab
  obtain ⟨isFirst, _, tail⟩ := slab.chain
  refine ⟨isFirst, { inv with slabs := fun cache => ?_ }⟩
  -- Only the cache that was asked changes, by one object and its counter.
  by_cases same : cache = order
  · subst same
    have bound := inv.allocated_lt cache
    have count : ((heap.slabCaches cache).allocated + 1) % 2 ^ 32 =
        (heap.slabCaches cache).allocated + 1 := Nat.mod_eq_of_lt bound
    simp only [MiraOS.slabPop, Function.update_self]
    refine ⟨slab.objectSize, slab.perSlab, ?_, (List.nodup_cons.mp slab.distinct).2,
      fun slot member => slab.slots slot (List.mem_cons_of_mem _ member), ?_⟩
    · rw [isFirst]
      exact tail
    · have counted := slab.counted
      simp only [List.length_cons] at counted
      simp only [count]
      omega
  · simp only [MiraOS.slabPop, Function.update_of_ne same]
    exact inv.slabs cache

section Carve

variable {mem : Memory} {page : Nat} (order : Fin slabMaxOrder)

/-- Cutting up a page writes only inside it. -/
theorem slabCarve_outside {byte : Nat} (outside : byte < page ∨ page + 4096 ≤ byte) :
    slabCarve mem page (slabMinSize <<< order.val) (4096 / (slabMinSize <<< order.val)) byte =
      mem byte := by
  obtain ⟨wide, _, whole, several, _⟩ := slab_sizes order
  generalize slabMinSize <<< order.val = size at wide whole several ⊢
  generalize 4096 / size = count at whole several ⊢
  -- Every object ends inside the page.
  have inside : ∀ i, i < count → i * size + size ≤ 4096 := by
    intro i small
    have := Nat.mul_le_mul_right size (show i + 1 ≤ count from small)
    rw [Nat.add_mul] at this
    omega
  have last := inside (count - 1) (by omega)
  rw [slabCarve, write64, writeLE_outside (by omega)]
  refine linkStride_outside fun i small => ?_
  have := inside i (by omega)
  omega

/-- The objects of a new page form a chain. -/
theorem slabCarve_chain (positive : 0 < page) (fits : page + 4096 < 2 ^ 64) :
    Chain (slabCarve mem page (slabMinSize <<< order.val) (4096 / (slabMinSize <<< order.val))) page
      (stride page (slabMinSize <<< order.val) (4096 / (slabMinSize <<< order.val))) := by
  obtain ⟨wide, _, whole, several, _⟩ := slab_sizes order
  generalize slabMinSize <<< order.val = size at wide whole several ⊢
  generalize 4096 / size = count at whole several ⊢
  obtain ⟨count, rfl⟩ : ∃ rest, count = rest + 1 := ⟨count - 1, by omega⟩
  rw [Nat.add_mul] at whole
  refine chain_stride count positive (fun i small => ?_) ?_
  · -- The links are stored before the last one, which lies behind them.
    have before := Nat.mul_le_mul_right size (show i + 1 ≤ count from small)
    rw [Nat.add_mul] at before
    have kept : read64 (slabCarve mem page size (count + 1)) (page + i * size) =
        read64 (linkStride mem page size count) (page + i * size) :=
      readLE_writeLE_apart (.inl (by simp only [Nat.add_sub_cancel]; omega))
    rw [kept]
    exact read64_linkStride (by omega) (by omega) small
  · have stored : read64 (slabCarve mem page size (count + 1)) (page + (count + 1 - 1) * size) = 0 :=
      read64_write64 (by decide)
    simpa using stored

end Carve

/-- An object of a cache, in use or not. -/
def IsSlot (pieces : List Piece) (order : Fin slabMaxOrder) (slot : Nat) : Prop :=
  ∃ page ∈ pagesOf order pieces,
    slot ∈ stride page (slabMinSize <<< order.val) (4096 / (slabMinSize <<< order.val))

/-- The free objects of a cache are objects of it. -/
theorem HeapInv.free_slot (inv : HeapInv heap pieces free) {order : Fin slabMaxOrder} {slot : Nat}
    (member : slot ∈ free order) : IsSlot pieces order slot := by
  -- The invariant places every free slot on a page of its own cache.
  obtain ⟨page, isPage, place⟩ := (inv.slabs order).slots slot member
  rw [(inv.slabs order).objectSize, (inv.slabs order).perSlab] at place
  exact ⟨page, isPage, place⟩

/-- An object lies in the window, inside a page of its cache. -/
theorem HeapInv.slot_window (inv : HeapInv heap pieces free) {order : Fin slabMaxOrder} {slot : Nat}
    (isSlot : IsSlot pieces order slot) :
    pagingHeapBase ≤ slot ∧
      slot + slabMinSize <<< order.val ≤ pagingHeapBase + heap.heapMapped := by
  -- Objects lie in their page, and pages lie in the window.
  obtain ⟨page, isPage, place⟩ := isSlot
  obtain ⟨_, _, low, high⟩ := slot_inside place
  have inside := inv.layout.tiles.inside (mem_pagesOf.mp isPage)
  simp only [Piece.start, Piece.length] at inside
  omega

/-- A page added at the end of the window as free objects of one cache. -/
theorem HeapInv.newSlab (inv : HeapInv heap pieces free) (order : Fin slabMaxOrder) {grown : Heap}
    (grows : heap.GrowsTo grown) (empty : free order = []) :
    HeapInv { grown with
        mem := slabCarve grown.mem (pagingHeapBase + heap.heapMapped)
          (heap.slabCaches order).objectSize (heap.slabCaches order).objectsPerSlab
        slabCaches := Function.update grown.slabCaches order
          { heap.slabCaches order with freeList := pagingHeapBase + heap.heapMapped } }
      (pieces ++ [.page (pagingHeapBase + heap.heapMapped) order])
      (Function.update free order (stride (pagingHeapBase + heap.heapMapped)
        (slabMinSize <<< order.val) (4096 / (slabMinSize <<< order.val)))) := by
  have small := inv.small
  have limit := pagingHeapBase_eq
  have slab := inv.slabs order
  obtain ⟨base, head, mem, caches, _⟩ := grows.fields
  rw [slab.objectSize, slab.perSlab, mem, caches]
  -- Everything that was in the window before lies below the new page.
  have below : ∀ piece ∈ pieces, piece.start + piece.length ≤ pagingHeapBase + heap.heapMapped :=
    fun piece member => (inv.layout.tiles.inside member).2
  refine inv.extend grows (base.trans inv.base) (head.trans inv.head) (inv.grown_fields grows).1 rfl rfl rfl
    ?_ fun cache => ?_
  -- The block list lies below the new page, so no header was written.
  · have list := inv.layout.list
    simp only [blocksOf_append, blocksOf_page, blocksOf_nil, List.append_nil]
    refine ⟨list.linked.frame fun block member => readHeader_congr fun byte _ high => ?_,
      list.ordered, list.bounded⟩
    have := below _ (mem_blocksOf.mp member)
    simp only [Piece.start, Piece.length] at this
    exact slabCarve_outside order (.inl (by omega))
  -- The cache that grows had no free objects; the pages of the others are not written.
  · by_cases same : cache = order
    · subst same
      simp only [Function.update_self, pagesOf_append, pagesOf_page, if_pos, pagesOf_nil]
      refine ⟨slab.objectSize, slab.perSlab, slabCarve_chain cache (by omega) (by omega),
        stride_nodup (by have := (slab_sizes cache).1; omega) _, fun slot member => ?_, ?_⟩
      · refine ⟨pagingHeapBase + heap.heapMapped, by simp, ?_⟩
        rwa [slab.objectSize, slab.perSlab]
      · have counted := slab.counted
        rw [empty] at counted
        simp only [List.length_nil, Nat.add_zero] at counted
        simp only [counted, slab.perSlab, List.length_append, List.length_singleton, stride,
          List.length_map, List.length_range]
        ring
    · simp only [Function.update_of_ne same, pagesOf_append, pagesOf_page, if_neg (Ne.symm same),
        pagesOf_nil, List.append_nil]
      refine (inv.slabs cache).frame fun page isPage byte _ high => ?_
      have := below _ (mem_pagesOf.mp isPage)
      simp only [Piece.start, Piece.length] at this
      exact slabCarve_outside order (.inl (by omega))

/-- An object belongs to one cache only. -/
theorem HeapInv.slot_owner (inv : HeapInv heap pieces free) {one two : Fin slabMaxOrder} {slot : Nat}
    (left : IsSlot pieces one slot) (right : IsSlot pieces two slot) : one = two := by
  obtain ⟨page, isPage, place⟩ := left
  obtain ⟨other, isOther, otherPlace⟩ := right
  by_cases same : Piece.page page one = Piece.page other two
  · injection same
  · -- Different pages have no byte in common.
    have apart := inv.layout.tiles.disjoint (mem_pagesOf.mp isPage) (mem_pagesOf.mp isOther) same
    obtain ⟨_, _, low, high⟩ := slot_inside place
    obtain ⟨_, _, otherLow, otherHigh⟩ := slot_inside otherPlace
    have wide := (slab_sizes one).1
    have otherWide := (slab_sizes two).1
    simp only [Piece.start, Piece.length] at apart
    omega

/-- The outcome of a request on the slab path. -/
structure SlabTaken (heap next : Heap) (ptr : Nat) (order : Fin slabMaxOrder) (old new : List Piece)
    (free left : Fin slabMaxOrder → List Nat) : Prop where
  slot : IsSlot new order ptr
  notFree : ptr ∉ left order
  -- Either an object was free, or the window has grown by a page for this cache.
  grows : (new = old ∧ next.heapMapped = heap.heapMapped) ∨
    (new = old ++ [.page (pagingHeapBase + heap.heapMapped) order] ∧
      next.heapMapped = heap.heapMapped + 4096)
  fresh : ∀ {cache slot}, IsSlot old cache slot → slot ∉ free cache → slot ≠ ptr
  kept : ∀ {cache slot}, IsSlot old cache slot → slot ∉ free cache → slot ∉ left cache

/-- Taking the first object of a free list. -/
theorem HeapInv.slabPop_taken (inv : HeapInv heap pieces free) {order : Fin slabMaxOrder} {ptr : Nat}
    {rest : List Nat} (available : free order = ptr :: rest) :
    SlabTaken heap (MiraOS.slabPop heap order).2 ptr order pieces pieces free
      (Function.update free order rest) where
  slot := inv.free_slot (by rw [available]; exact List.mem_cons_self)
  -- The pointer was on the list once, and is taken off.
  notFree := by
    have distinct := (inv.slabs order).distinct
    rw [available] at distinct
    rw [Function.update_self]
    exact (List.nodup_cons.mp distinct).1
  grows := .inl ⟨rfl, rfl⟩
  -- What is in use was not free, so that it is another one.
  fresh := by
    rintro cache slot isSlot notFree rfl
    have here := inv.free_slot (show slot ∈ free order by rw [available]; exact List.mem_cons_self)
    obtain rfl := inv.slot_owner isSlot here
    exact notFree (by rw [available]; exact List.mem_cons_self)
  kept := by
    -- Other lists are the same, and this one is shorter.
    intro cache slot _ notFree member
    by_cases same : cache = order
    · subst same
      rw [Function.update_self] at member
      exact notFree (by rw [available]; exact List.mem_cons_of_mem _ member)
    · rw [Function.update_of_ne same] at member
      exact notFree member

/-- A slab allocation returns null without a frame, and an object of its cache otherwise. -/
theorem HeapInv.slabAlloc (inv : HeapInv heap pieces free) {order : Fin slabMaxOrder} {ptr : Nat}
    {next : Heap} (called : MiraOS.slabAlloc heap order = .ok (ptr, next)) :
    (ptr = 0 ∧ HeapInv next pieces free ∧ next.heapMapped = heap.heapMapped) ∨
    (ptr ≠ 0 ∧ ∃ new left, HeapInv next new left ∧
      SlabTaken heap next ptr order pieces new free left) := by
  have limit := pagingHeapBase_eq
  have slab := inv.slabs order
  by_cases none_ : (heap.slabCaches order).freeList = 0
  -- A null head means that the free list is empty.
  · have empty : free order = [] := by
      have chain := slab.chain
      cases isFree : free order with
      | nil => rfl
      | cons node rest =>
        rw [isFree] at chain
        exact absurd (chain.1.symm.trans none_) chain.2.1
    rw [MiraOS.slabAlloc] at called
    simp only [if_pos none_] at called
    by_cases exhausted : heap.takeFrame.1 = 0
    · rw [if_pos exhausted] at called
      cases called
      -- Without a frame only an answer of the page allocator is used up.
      have frames : heap.frames.tail.countP (· ≠ 0) ≤ heap.frames.countP (· ≠ 0) :=
        (List.tail_sublist _).countP_le
      have budget := inv.budget
      refine .inl ⟨rfl, { inv with budget := ?_ }, rfl⟩
      show heap.heapMapped + 4096 * heap.frames.tail.countP (· ≠ 0) ≤ 2 ^ 29
      omega
    · rw [if_neg exhausted] at called
      obtain ⟨grown, page, called⟩ := bind_eq_ok.mp called
      have grows : heap.GrowsTo grown := ⟨exhausted, page⟩
      rw [(inv.grown_fields grows).2] at called
      -- The new page gives the cache its objects, of which the first is taken.
      have slabbed := inv.newSlab order grows empty
      obtain ⟨count, several⟩ : ∃ count, 4096 / (slabMinSize <<< order.val) = count + 1 :=
        ⟨4096 / (slabMinSize <<< order.val) - 1, by have := (slab_sizes order).2.2.2.1; omega⟩
      have available : Function.update free order (stride (pagingHeapBase + heap.heapMapped)
          (slabMinSize <<< order.val) (4096 / (slabMinSize <<< order.val))) order =
          (pagingHeapBase + heap.heapMapped) :: stride (pagingHeapBase + heap.heapMapped +
            slabMinSize <<< order.val) (slabMinSize <<< order.val) count := by
        rw [Function.update_self, several, stride_succ]
      obtain ⟨first, popped⟩ := slabbed.slabPop available
      have taken := slabbed.slabPop_taken available
      have mapped := (inv.grown_fields grows).1
      have result := Except.ok.inj called
      rw [result] at first popped taken
      simp only at first popped taken
      subst first
      have sameMapped : next.heapMapped = heap.heapMapped + 4096 := by
        rw [← mapped]
        exact congrArg (fun result => result.2.heapMapped) result.symm
      refine .inr ⟨by omega, _, _, popped, taken.slot, taken.notFree, .inr ⟨rfl, sameMapped⟩, ?_, ?_⟩
      -- The objects that were there before lie below the new page.
      · intro cache slot isSlot _
        have := (inv.slot_window isSlot).2
        have := (slab_sizes cache).1
        omega
      · intro cache slot isSlot notFree member
        by_cases same : cache = order
        · subst same
          rw [Function.update_self] at member
          obtain ⟨i, _, rfl⟩ := mem_stride.mp member
          have := (inv.slot_window isSlot).2
          have := (slab_sizes cache).1
          omega
        · rw [Function.update_of_ne same, Function.update_of_ne same] at member
          exact notFree member
  -- With a free object, that one is taken.
  · obtain ⟨rest, available, _⟩ := slab.chain.cons_of_ne none_
    obtain ⟨first, popped⟩ := inv.slabPop available
    rw [MiraOS.slabAlloc] at called
    simp only [if_neg none_] at called
    have result := Except.ok.inj called
    have taken := inv.slabPop_taken available
    rw [result] at first popped taken
    simp only at first popped taken
    subst first
    exact .inr ⟨none_, pieces, _, popped, taken⟩

/-- A request of at most 512 bytes is served by the cache with the smallest objects for it. -/
theorem HeapInv.kmalloc_slab (inv : HeapInv heap pieces free) {fuel size ptr : Nat} {next : Heap}
    (positive : 0 < size) (small : size ≤ 512)
    (called : kmalloc fuel heap size = .ok (ptr, next)) :
    ∃ order, slabFindCache heap.slabCaches size = some order ∧
      size ≤ slabMinSize <<< order.val ∧
      (∀ smaller, smaller < order → slabMinSize <<< smaller.val < size) ∧
      ((ptr = 0 ∧ HeapInv next pieces free ∧ next.heapMapped = heap.heapMapped) ∨
      (ptr ≠ 0 ∧ ∃ new left, HeapInv next new left ∧
        SlabTaken heap next ptr order pieces new free left)) := by
  -- One turn of the request: the cache is found, and it answers.
  obtain ⟨order, found, fits, smallest⟩ := inv.find_cache small
  cases fuel with
  | zero => cases called
  | succ fuel =>
    have limit : size ≤ slabMaxSize := Nat.le_trans small (by decide)
    rw [kmalloc, if_neg (by omega), if_pos limit, found] at called
    exact ⟨order, found, fits, smallest, inv.slabAlloc called⟩

end MiraOS
