import MiraOS.Kernel.HeapRuns

/-! Runs on the block path alone: the block list tiles the whole window. -/

namespace MiraOS

open Machine

attribute [local irreducible] blockSize blockFree blockNext blockPrev setSize setFree setNext setPrev
  pagingHeapBase

/-- The length of a block with its header. -/
def Block.length (block : Block) : Nat := headerSize + block.size

/-- Without slab pages the blocks alone tile the window. -/
theorem tiles_blocksOf {low high : Nat} {pieces : List Piece}
    (tiles : Tiles Piece.start Piece.length low pieces high)
    (noPages : ∀ order, pagesOf order pieces = []) :
    Tiles Block.addr Block.length low (blocksOf pieces) high := by
  -- A page among the pieces would be a page of some cache.
  induction pieces generalizing low with
  | nil => exact tiles
  | cons piece rest ih =>
    cases piece with
    | block block => exact ⟨tiles.1, ih tiles.2 noPages⟩
    | page address order =>
      have := noPages order
      simp at this

/-- Neighbours in a list of blocks that tiles an interval touch. -/
theorem tiles_next_addr {low high : Nat} {before after : List Block} {block next : Block}
    (tiles : Tiles Block.addr Block.length low (before ++ block :: next :: after) high) :
    next.addr = block.stop := by
  -- In a tiling every piece starts where the one in front of it stops.
  obtain ⟨_, _, here, there, _⟩ := tiles_append.mp tiles
  simp only [Block.length] at there
  simp only [Block.stop]
  omega

/-- In a list of blocks that tiles an interval every merge is with a touching block. -/
theorem BlockList.mergesTouch {mem : Memory} {low high : Nat} {before after : List Block} {block : Block}
    (list : BlockList mem (before ++ block :: after))
    (tiles : Tiles Block.addr Block.length low (before ++ block :: after) high) :
    MergesTouch mem block.addr := by
  -- The links lead to the list neighbours, and neighbours of a tiling touch.
  obtain ⟨size, _, link, back⟩ := list.fields
  constructor
  · rw [link, size]
    intro some _
    cases after with
    | nil => exact absurd rfl some
    | cons next rest => exact tiles_next_addr tiles
  · rw [back]
    intro some _
    rcases List.eq_nil_or_concat before with rfl | ⟨earlier, prev, rfl⟩
    · exact absurd rfl some
    · rw [List.concat_eq_append] at list tiles some ⊢
      have moved : BlockList mem (earlier ++ prev :: block :: after) := by simpa using list
      have movedTiles : Tiles Block.addr Block.length low (earlier ++ prev :: block :: after) high := by
        simpa using tiles
      rw [lastOf_append]
      simp only [lastOf]
      rw [moved.fields.1]
      exact tiles_next_addr movedTiles

/-- The loop over the list adds up the sizes of the blocks in use. -/
theorem usedLoop_eq {mem : Memory} {blocks : List Block} {fuel prev used : Nat}
    (linked : Linked mem 0 prev blocks) (positive : ∀ block ∈ blocks, 0 < block.addr)
    (enough : blocks.length ≤ fuel)
    (fits : used + ((blocks.filter fun block => !block.free).map Block.size).sum < 2 ^ 64) :
    usedLoop mem fuel (firstOf 0 blocks) used =
      .ok (used + ((blocks.filter fun block => !block.free).map Block.size).sum) := by
  -- Induction on the list; the sum stays below 2^64, so no addition wraps around.
  induction blocks generalizing fuel prev used with
  | nil => cases fuel <;> simp [usedLoop, firstOf]
  | cons block rest ih =>
    obtain ⟨fuel, rfl⟩ : ∃ more, fuel = more + 1 := ⟨fuel - 1, by simp at enough; omega⟩
    have nonzero := positive block List.mem_cons_self
    have size : blockSize mem block.addr = block.size := congrArg Header.size linked.1
    have flag : blockFree mem block.addr = if block.free then 1 else 0 :=
      congrArg Header.free linked.1
    have link : blockNext mem block.addr = firstOf 0 rest := congrArg Header.next linked.1
    have later : ∀ other ∈ rest, 0 < other.addr :=
      fun other member => positive other (List.mem_cons_of_mem _ member)
    simp only [List.length_cons] at enough
    rw [firstOf, usedLoop, if_neg (by omega), size, flag, link]
    cases isFree : block.free with
    | true =>
      simp only [isFree, List.filter_cons, Bool.not_true, Bool.false_eq_true, if_false] at fits ⊢
      exact ih linked.2 later (by omega) fits
    | false =>
      simp only [isFree, List.filter_cons, Bool.not_false, if_true, List.map_cons, List.sum_cons,
        Bool.false_eq_true, if_false] at fits ⊢
      rw [add64_of_lt (by omega), ih linked.2 later (by omega) (by omega), Nat.add_assoc]

/-- The bytes of some blocks are those in use, the free ones and the headers. -/
theorem sum_lengths (blocks : List Block) :
    ((blocks.filter fun block => !block.free).map Block.size).sum +
      ((blocks.filter fun block => block.free).map Block.size).sum + headerSize * blocks.length =
      (blocks.map Block.length).sum := by
  -- Each block adds its header, and its size to one of the two sums.
  induction blocks with
  | nil => rfl
  | cons block rest ih =>
    cases isFree : block.free <;>
      simp only [isFree, List.filter_cons, List.map_cons, List.sum_cons, List.length_cons,
        Block.length, Bool.not_true, Bool.not_false, Bool.false_eq_true, if_true, if_false,
        Nat.mul_add, Nat.mul_one] <;>
      omega

/-- Requests above every slab object. -/
def BlockRequest (size : Nat) : Prop := 512 < size ∧ size < 2 ^ 63

/-- What holds in every state reached on the block path: no cache has mapped a page. -/
def BlocksOnly (system : HeapSystem) : Prop :=
  (∃ pieces free, Reached system pieces free) ∧ system.slabPages = []

/-- Without recorded pages there are no pages in the window. -/
theorem Reached.no_pages {system : HeapSystem} {pieces : List Piece}
    {free : Fin slabMaxOrder → List Nat} (reached : Reached system pieces free)
    (none_ : system.slabPages = []) (order : Fin slabMaxOrder) : pagesOf order pieces = [] := by
  rw [reached.pages order, HeapSystem.pages, none_]
  rfl

/-- On the block path every release is one of a touching block. -/
theorem Reached.touching {system : HeapSystem} {pieces : List Piece}
    {free : Fin slabMaxOrder → List Nat} (reached : Reached system pieces free)
    (none_ : system.slabPages = []) {allocation : Allocation} (held : allocation ∈ system.live) :
    TouchingBlock system.heap allocation := by
  -- Without pages every allocation is a block, and every neighbour of a block touches it.
  have tiles := tiles_blocksOf reached.inv.layout.tiles (reached.no_pages none_)
  have list := reached.inv.layout.list
  rcases reached.owned.held allocation held with
    ⟨large, block, isBlock, _, pointer, _⟩ | ⟨_, order, ⟨page, isPage, _⟩, _⟩
  · refine ⟨large, ?_⟩
    rw [pointer, list.of_pointer isBlock]
    obtain ⟨before, after, split⟩ := List.append_of_mem isBlock
    rw [split] at list tiles
    exact list.mergesTouch tiles
  · rw [reached.no_pages none_ order] at isPage
    cases isPage

/-- One step on the block path maps no page for a cache. -/
theorem BlocksOnly.step {system next : HeapSystem} {op : HeapOp} (only : BlocksOnly system)
    (step : HeapStep BlockRequest (fun _ _ => True) system op next) : BlocksOnly next := by
  obtain ⟨⟨pieces, free, reached⟩, none_⟩ := only
  cases step with
  | @alloc fuel size ptr heap asked called =>
    obtain ⟨large, bound⟩ := asked
    have rounds : Rounds size := by
      simp only [Rounds]
      omega
    -- Requests above 512 bytes find no cache, so no page is recorded.
    obtain ⟨new, after, _⟩ := reached.alloc_block large rounds called
    refine ⟨⟨new, free, after⟩, ?_⟩
    simp only [HeapSystem.allocated, reached.inv.find_none large]
    exact none_
  | free held _ =>
    have wider : HeapStep Rounds TouchingBlock system _ _ := .free held (reached.touching none_ held)
    exact ⟨reached.step wider, none_⟩
  | write held low high => exact ⟨⟨pieces, free, reached.write held low high⟩, none_⟩

/-- The pointers of the blocks in use. -/
def usedPointers (blocks : List Block) : List Nat :=
  (blocks.filter fun block => !block.free).map fun block => block.addr + headerSize

/-- The blocks in use are exactly the allocations, each once. -/
theorem Reached.usedPointers_perm {system : HeapSystem} {pieces : List Piece}
    {free : Fin slabMaxOrder → List Nat} (reached : Reached system pieces free)
    (none_ : system.slabPages = []) :
    (usedPointers (blocksOf pieces)).Perm (system.live.map Allocation.ptr) := by
  -- Blocks in the order of their addresses have different pointers.
  have nodup : (usedPointers (blocksOf pieces)).Nodup := by
    refine List.pairwise_map.mpr (List.Pairwise.filter _ ?_)
    refine reached.inv.layout.list.ordered.imp fun before => ?_
    simp only [Block.stop, headerSize] at before
    simp only [headerSize, ne_eq]
    omega
  rw [List.perm_ext_iff_of_nodup nodup reached.owned.distinct]
  -- Both lists are without repetition, so they need only have the same members.
  intro pointer
  simp only [usedPointers, List.mem_map, List.mem_filter, Bool.not_eq_true']
  constructor
  · rintro ⟨block, ⟨isBlock, inUse⟩, rfl⟩
    obtain ⟨allocation, held, same, _⟩ := reached.owned.used block isBlock inUse
    exact ⟨allocation, held, same⟩
  · rintro ⟨allocation, held, rfl⟩
    rcases reached.owned.held allocation held with
      ⟨_, block, isBlock, inUse, same, _⟩ | ⟨_, order, ⟨page, isPage, _⟩, _⟩
    · exact ⟨block, ⟨isBlock, inUse⟩, same.symm⟩
    · rw [reached.no_pages none_ order] at isPage
      cases isPage

/--
On the block path the list from the head tiles the mapped window exactly.

Its blocks are linked both ways in the order of their addresses, the blocks in use are the
allocations, and the two counters are what the list adds up to.
-/
theorem block_list_tiles_window {fuel : Nat} {mem : Memory} {paging : Paging (List Nat)} {heap : Heap}
    {ops : List HeapOp} {final : HeapSystem} (distinct : DistinctFrames paging.pmm)
    (called : heapInit fuel mem paging = .ok heap)
    (run : Run (HeapStep BlockRequest fun _ _ => True) ⟨heap, [], []⟩ ops final) :
    ∃ blocks, firstOf 0 blocks = final.heap.heapHead ∧
      final.heap.heapHead = final.heap.heapVirtBase ∧ Linked final.heap.mem 0 0 blocks ∧
      Tiles Block.addr Block.length final.heap.heapVirtBase blocks
        (final.heap.heapVirtBase + final.heap.heapMapped) ∧
      (blocks.map Block.length).sum = final.heap.heapMapped ∧
      (usedPointers blocks).Perm (final.live.map Allocation.ptr) ∧
      ∃ used, (∀ steps, blocks.length ≤ steps → heapUsed steps final.heap = .ok used) ∧
        used = ((blocks.filter fun block => !block.free).map Block.size).sum ∧
        used + ((blocks.filter fun block => block.free).map Block.size).sum +
          headerSize * blocks.length = heapTotal final.heap := by
  -- The run keeps to the block path, so at its end there are no slab pages.
  have only : BlocksOnly final := run.preserves BlocksOnly (fun only step => only.step step)
    ⟨⟨_, _, heapInit_reached distinct called⟩, rfl⟩
  obtain ⟨⟨pieces, free, reached⟩, none_⟩ := only
  have inv := reached.inv
  have list := inv.layout.list
  have tiles := tiles_blocksOf inv.layout.tiles (reached.no_pages none_)
  have small := inv.small
  -- The pieces of a tiling have the length of the window.
  have total : (blocksOf pieces |>.map Block.length).sum = final.heap.heapMapped := by
    have := tiles.sum_eq
    omega
  have parts := sum_lengths (blocksOf pieces)
  refine ⟨blocksOf pieces, inv.firstOf_eq_head, inv.head.trans inv.base.symm, list.linked, ?_, total,
    reached.usedPointers_perm none_, _, fun steps enough => ?_, rfl, ?_⟩
  · rw [inv.base]
    exact tiles
  · have summed := usedLoop_eq list.linked (fun block member => (list.bounded block member).1) enough
      (show 0 + ((blocksOf pieces |>.filter fun block => !block.free).map Block.size).sum < 2 ^ 64 by
        omega)
    rw [heapUsed, ← inv.firstOf_eq_head, summed, Nat.zero_add]
  · rw [heapTotal]
    omega

/-- Two blocks are taken and the first is released: the other one is the only block in use. -/
theorem mixedRun_tiles :
    ∃ heap final ops blocks, heapInit 1 (fun _ => 0) (bootedWindow [0x200000, 0x201000]) = .ok heap ∧
      Run (HeapStep BlockRequest fun _ _ => True) ⟨heap, [], []⟩ ops final ∧
      Tiles Block.addr Block.length final.heap.heapVirtBase blocks
        (final.heap.heapVirtBase + final.heap.heapMapped) ∧
      (usedPointers blocks).Perm [0x400002A0] := by
  obtain ⟨heap, one, two, _, init, tookFirst, tookSecond, _⟩ := mixedRun_ok
  -- Two blocks are taken and the first one is given back, so that the second one is the only one in use.
  have run : Run (HeapStep BlockRequest fun _ _ => True) ⟨heap, [], []⟩
      [.alloc 600, .alloc 700, .free 0x40000020] _ :=
    .cons (.alloc ⟨by decide, by decide⟩ tookFirst) <|
    .cons (.alloc ⟨by decide, by decide⟩ tookSecond) <|
    .cons (.free (show (⟨0x40000020, 600⟩ : Allocation) ∈ _ by simp [HeapSystem.allocated]) trivial)
      (.nil _)
  obtain ⟨blocks, _, _, _, tiles, _, inUse, _⟩ :=
    block_list_tiles_window mixedRun_frames init run
  exact ⟨heap, _, _, blocks, init, run, tiles, by simpa [HeapSystem.allocated] using inUse⟩

end MiraOS
