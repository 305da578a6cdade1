import MiraOS.Kernel.HeapRuns

/-! Runs without releases: the slab caches share the window with the blocks and never overlap them. -/

namespace MiraOS

open Machine

attribute [local irreducible] blockSize blockFree blockNext blockPrev setSize setFree setNext setPrev
  pagingHeapBase

/-- Requests that one new page can serve. -/
def PageRequest (size : Nat) : Prop := 1 ≤ size ∧ size ≤ 4064

/-- The free list of a cache, and what it has in common with the rest of the heap: nothing. -/
structure CacheWellFormed (system : HeapSystem) (order : Fin slabMaxOrder) (blocks : List Block)
    (free : List Nat) : Prop where
  -- Following the links from the head ends after these objects, which are all different.
  chain : Chain system.heap.mem (system.heap.slabCaches order).freeList free
  distinct : free.Nodup
  slots : ∀ slot ∈ free, slot % (system.heap.slabCaches order).objectSize = 0 ∧
    ∃ page ∈ system.pages order, slot ∈ stride page (system.heap.slabCaches order).objectSize
      (system.heap.slabCaches order).objectsPerSlab
  noAllocation : ∀ slot ∈ free, ∀ allocation ∈ system.live,
    allocation.ptr + allocation.size ≤ slot ∨
      slot + (system.heap.slabCaches order).objectSize ≤ allocation.ptr
  noBlock : ∀ slot ∈ free, ∀ block ∈ blocks,
    block.stop ≤ slot ∨ slot + (system.heap.slabCaches order).objectSize ≤ block.addr
  counted : (system.heap.slabCaches order).allocated + free.length =
    (system.heap.slabCaches order).objectsPerSlab * (system.pages order).length

/-- What a request for an object returns: a fresh object of the smallest cache that is large enough. -/
structure FreshObject (system : HeapSystem) (size ptr : Nat) (next : HeapSystem)
    (order : Fin slabMaxOrder) : Prop where
  fits : size ≤ (system.heap.slabCaches order).objectSize
  smallest : ∀ smaller, smaller < order → (system.heap.slabCaches smaller).objectSize < size
  slot : ∃ page ∈ next.pages order, ptr ∈ stride page (system.heap.slabCaches order).objectSize
    (system.heap.slabCaches order).objectsPerSlab
  -- Nothing that was returned before overlaps it or starts at the same address.
  apart : ∀ allocation ∈ system.live, allocation.ptr ≠ ptr ∧
    (allocation.ptr + allocation.size ≤ ptr ∨
      ptr + (system.heap.slabCaches order).objectSize ≤ allocation.ptr)

/-- Object addresses are multiples of the object size. -/
theorem slot_aligned {order : Fin slabMaxOrder} {page slot : Nat} (whole : page % 4096 = 0)
    (member : slot ∈ stride page (slabMinSize <<< order.val) (4096 / (slabMinSize <<< order.val))) :
    slot % (slabMinSize <<< order.val) = 0 := by
  -- The size divides a page, so it divides the address of the page and of the object.
  obtain ⟨i, rfl, _, _⟩ := slot_inside member
  obtain ⟨_, _, divides, _⟩ := slab_sizes order
  have pages : slabMinSize <<< order.val ∣ page :=
    (Dvd.intro_left _ divides).trans (Nat.dvd_of_mod_eq_zero whole)
  exact Nat.mod_eq_zero_of_dvd (Nat.dvd_add pages (Dvd.intro_left _ rfl))

section

variable {system : HeapSystem} {pieces : List Piece} {free : Fin slabMaxOrder → List Nat}

/-- In every reached state each cache is well formed. -/
theorem Reached.cache_wellFormed (reached : Reached system pieces free) (order : Fin slabMaxOrder) :
    CacheWellFormed system order (blocksOf pieces) (free order) := by
  have slab := reached.inv.slabs order
  have pages := reached.pages order
  have inv := reached.inv
  -- The free list and its count are the invariant; the rest is that pieces do not overlap.
  refine ⟨slab.chain, slab.distinct, fun slot member => ?_, fun slot member allocation held => ?_,
    fun slot member block isBlock => ?_, ?_⟩
  · obtain ⟨page, isPage, place⟩ := slab.slots slot member
    have whole := inv.pageAligned (mem_pagesOf.mp isPage)
    refine ⟨?_, page, pages ▸ isPage, place⟩
    rw [slab.objectSize, slab.perSlab] at place
    rw [slab.objectSize]
    exact slot_aligned whole place
  · rw [slab.objectSize]
    exact reached.owned.free_apart inv held member
  · rw [slab.objectSize]
    exact inv.block_slot_apart isBlock (inv.free_slot member)
  · rw [← pages]
    exact slab.counted

/-- In every reached state a request for an object that is not refused returns a fresh one. -/
theorem Reached.fresh_object (reached : Reached system pieces free) {fuel size ptr : Nat} {next : Heap}
    (positive : 1 ≤ size) (small : size ≤ 512)
    (called : kmalloc fuel system.heap size = .ok (ptr, next)) (nonzero : ptr ≠ 0) :
    ∃ order, FreshObject system size ptr (system.allocated size ptr next) order := by
  obtain ⟨order, new, left, served⟩ := reached.alloc_slab positive small called
  -- A request that was not refused took an object of its cache.
  have taken := served.outcome.resolve_left nonzero
  have sizes := fun order => (reached.inv.slabs order).objectSize
  refine ⟨order, ?_, ?_, ?_, ?_⟩
  · rw [sizes]
    exact served.fits
  · intro smaller less
    rw [sizes]
    exact served.smallest smaller less
  · obtain ⟨page, isPage, place⟩ := taken.slot
    rw [sizes, (reached.inv.slabs order).perSlab]
    exact ⟨page, served.reached.pages order ▸ isPage, place⟩
  · -- The new allocation is apart from the old ones, because all of them are held now.
    intro allocation held
    have live : (system.allocated size ptr next).live = ⟨ptr, size⟩ :: system.live := if_neg nonzero
    have distinct := served.reached.owned.distinct
    rw [live] at distinct
    have differ : allocation.ptr ≠ ptr := fun same =>
      (List.nodup_cons.mp distinct).1 (List.mem_map.mpr ⟨allocation, held, same⟩)
    have still : allocation ∈ (system.allocated size ptr next).live := by
      rw [live]
      exact List.mem_cons_of_mem _ held
    rw [sizes]
    exact ⟨differ, served.reached.owned.slot_apart served.reached.inv still taken.slot differ⟩

end

/--
The slab caches keep their representation over every run of requests and writes.

No object or block is released, so everything ever returned is still held.
-/
theorem slab_caches_well_formed {fuel : Nat} {mem : Memory} {paging : Paging (List Nat)} {heap : Heap}
    {ops : List HeapOp} {final : HeapSystem} (distinct : DistinctFrames paging.pmm)
    (called : heapInit fuel mem paging = .ok heap)
    (run : Run (HeapStep PageRequest fun _ _ => False) ⟨heap, [], []⟩ ops final) :
    (∃ blocks, Linked final.heap.mem 0 0 blocks ∧ firstOf 0 blocks = final.heap.heapHead ∧
      ∀ order, ∃ free, CacheWellFormed final order blocks free) ∧
    ∀ steps size ptr next, 1 ≤ size → size ≤ 512 →
      kmalloc steps final.heap size = .ok (ptr, next) → ptr ≠ 0 →
      ∃ order, FreshObject final size ptr (final.allocated size ptr next) order := by
  have rounds : ∀ size, PageRequest size → Rounds size := by
    intro size bounded
    have := bounded.2
    simp only [Rounds]
    omega
  -- A run without releases is a run in which every release touches.
  have wider : Run (HeapStep Rounds TouchingBlock) ⟨heap, [], []⟩ ops final :=
    run.mono fun step => step.mono rounds fun _ _ never => absurd never id
  obtain ⟨pieces, free, reached⟩ := reached_of_run distinct called wider
  exact ⟨⟨blocksOf pieces, reached.inv.layout.list.linked, reached.inv.firstOf_eq_head, fun order =>
    ⟨free order, reached.cache_wellFormed order⟩⟩, fun steps size ptr next positive small called =>
    reached.fresh_object positive small called⟩

/-- After two requests of the mixed run, a further one for an object returns a fresh object. -/
theorem mixedRun_fresh :
    ∃ heap final ops next, heapInit 1 (fun _ => 0) (bootedWindow [0x200000, 0x201000]) = .ok heap ∧
      Run (HeapStep PageRequest fun _ _ => False) ⟨heap, [], []⟩ ops final ∧
      kmalloc 3 final.heap 100 = .ok (0x40001000, next) ∧
      ∃ order, FreshObject final 100 0x40001000 (final.allocated 100 0x40001000 next) order := by
  -- Two requests for blocks, and then one for an object of the next cache.
  obtain ⟨heap, one, two, three, init, tookFirst, tookSecond, tookThird, _⟩ := mixedRun_ok
  have run : Run (HeapStep PageRequest fun _ _ => False) ⟨heap, [], []⟩ [.alloc 600, .alloc 700] _ :=
    .cons (.alloc ⟨by decide, by decide⟩ tookFirst) <|
    .cons (.alloc ⟨by decide, by decide⟩ tookSecond) (.nil _)
  exact ⟨heap, _, _, three, init, run, tookThird, (slab_caches_well_formed mixedRun_frames init run).2
    3 100 0x40001000 three (by decide) (by decide) tookThird (by decide)⟩

end MiraOS
