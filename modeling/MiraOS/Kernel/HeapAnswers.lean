import MiraOS.Kernel.HeapRuns

/-! What a request is answered with in a reached state: a panic, null, or a pointer. -/

namespace MiraOS

open Machine

/-- A free block of the list has at least this size. -/
def FreeRoom (heap : Heap) (size : Nat) : Prop :=
  ∃ blocks, BlockList heap.mem blocks ∧ firstOf 0 blocks = heap.heapHead ∧
    ∃ block ∈ blocks, block.free = true ∧ size ≤ block.size

/-- What a request for a block looks for in the list. -/
def searchedSize (size : Nat) : Nat := add64 size 15 &&& highMask 4

/-- The cache for this size has a free object. -/
def FreeObject (heap : Heap) (size : Nat) : Prop :=
  ∃ order, slabFindCache heap.slabCaches size = some order ∧ (heap.slabCaches order).freeList ≠ 0

/--
A request that panics for want of pages.

It is for a block that no free block has room for and that is too large for a page, or it needs a page that
cannot be mapped. A request for an object is answered with null where there is no frame for its page at all.
-/
def OutOfPages (heap : Heap) (size : Nat) : Prop :=
  (512 < size ∧ ¬ FreeRoom heap (searchedSize size) ∧ (4096 - headerSize < searchedSize size ∨ ¬ heap.CanGrow)) ∨
  (0 < size ∧ size ≤ 512 ∧ ¬ FreeObject heap size ∧ heap.takeFrame.1 ≠ 0 ∧ ¬ heap.CanGrow)

/-- A request for nothing, for an object that no page is left for, or for what is rounded to nothing. -/
def GivesNull (heap : Heap) (size : Nat) : Prop :=
  size = 0 ∨ (∃ order, slabFindCache heap.slabCaches size = some order ∧
      (heap.slabCaches order).freeList = 0 ∧ heap.takeFrame.1 = 0) ∨
    -- The list grows by a page that nothing is taken from.
    (512 < size ∧ searchedSize size = 0 ∧ ¬ FreeRoom heap 0)

attribute [local irreducible] blockSize blockFree blockNext blockPrev setSize setFree setNext setPrev
  pagingHeapBase

section Loops

variable {mem : Memory} {prev : Nat}

/-- Links and the address of the first block determine the list. -/
theorem Linked.unique {one two : List Block} (first : Linked mem 0 prev one) (second : Linked mem 0 prev two)
    (positive : ∀ block ∈ one, 0 < block.addr) (positiveToo : ∀ block ∈ two, 0 < block.addr)
    (heads : firstOf 0 one = firstOf 0 two) : one = two := by
  -- The lists are compared block by block, from the common head on.
  induction one generalizing prev two with
  | nil =>
    cases two with
    | nil => rfl
    | cons block rest =>
      -- An empty list has a null head, and no block is at the null address.
      have := positiveToo block List.mem_cons_self
      simp only [firstOf] at heads
      omega
  | cons block rest ih =>
    cases two with
    | nil =>
      have := positive block List.mem_cons_self
      simp only [firstOf] at heads
      omega
    | cons other others =>
      have address : block.addr = other.addr := heads
      -- Both headers are read at the same address.
      have headers := first.1.symm.trans (address ▸ second.1)
      simp only [Block.header, Header.mk.injEq, and_true] at headers
      obtain ⟨size, flag, links⟩ := headers
      -- The stored flag is one or zero.
      have free : block.free = other.free := by
        cases isFree : block.free <;> cases otherFree : other.free <;> simp [isFree, otherFree] at flag ⊢
      -- The links forward lead to the same second block.
      have rests : rest = others := by
        refine ih first.2 (address ▸ second.2) ?_ ?_ links
        · exact fun kid among => positive kid (List.mem_cons_of_mem _ among)
        · exact fun kid among => positiveToo kid (List.mem_cons_of_mem _ among)
      obtain ⟨addr, length, isFree⟩ := block
      obtain ⟨addrToo, lengthToo, isFreeToo⟩ := other
      simp only at address size free
      rw [address, size, free, rests]

/-- The search along a list comes to an end. -/
theorem findFit_settles {blocks : List Block} (linked : Linked mem 0 prev blocks) (size : Nat)
    (positive : ∀ block ∈ blocks, 0 < block.addr) :
    ∃ current, Settles (fun fuel => findFit mem size fuel (firstOf 0 blocks)) current := by
  induction blocks generalizing prev with
  | nil =>
    refine ⟨0, .now fun fuel => ?_⟩
    cases fuel with
    | zero => rfl
    | succ fuel => rfl
  | cons block rest ih =>
    have nonzero := positive block List.mem_cons_self
    have link : blockNext mem block.addr = firstOf 0 rest := congrArg Header.next linked.1
    -- One unit of fuel is used up for each block.
    have turn : ∀ fuel, findFit mem size (fuel + 1) block.addr =
        if blockFree mem block.addr ≠ 0 ∧ size ≤ blockSize mem block.addr then .ok block.addr
        else findFit mem size fuel (firstOf 0 rest) := fun fuel => by
      rw [findFit, if_neg (by omega), link]
    -- The block is the answer, or the search goes on behind it.
    by_cases fits : blockFree mem block.addr ≠ 0 ∧ size ≤ blockSize mem block.addr
    · exact ⟨block.addr, .later turn (.now fun _ => if_pos fits)⟩
    · obtain ⟨current, settled⟩ := ih linked.2 fun other member =>
        positive other (List.mem_cons_of_mem _ member)
      refine ⟨current, .later turn ?_⟩
      simp only [if_neg fits]
      exact settled

/-- The walk to the last block comes to an end. -/
theorem listTail_settles {block : Block} {rest : List Block} (linked : Linked mem 0 prev (block :: rest))
    (positive : ∀ other ∈ rest, 0 < other.addr) :
    ∃ tail, Settles (fun fuel => listTail mem fuel block.addr) tail := by
  -- Every step of the walk follows one link, and the last block has none.
  induction rest generalizing prev block with
  | nil =>
    have link : blockNext mem block.addr = 0 := congrArg Header.next linked.1
    refine ⟨block.addr, .now fun fuel => ?_⟩
    cases fuel with
    | zero => rw [listTail, if_pos link]
    | succ fuel => rw [listTail, if_pos link]
  | cons next rest ih =>
    have nonzero := positive next List.mem_cons_self
    have link : blockNext mem block.addr = next.addr := congrArg Header.next linked.1
    obtain ⟨tail, settled⟩ := ih linked.2 fun other member => positive other (List.mem_cons_of_mem _ member)
    refine ⟨tail, .later (fun fuel => ?_) settled⟩
    rw [listTail, link, if_neg (by omega)]

end Loops

section Growth

variable {heap grown : Heap} {pieces : List Piece} {free : Fin slabMaxOrder → List Nat}

/-- Where one more page can be had, it is mapped. -/
theorem HeapInv.heapMapMore_settles (inv : HeapInv heap pieces free) (grows : heap.GrowsTo grown) :
    Settles (fun fuel => heapMapMore fuel heap (add64 heap.heapMapped 4096)) grown := by
  -- The window is far from wrapping around.
  have small := inv.small
  have larger : add64 heap.heapMapped 4096 = heap.heapMapped + 4096 := add64_of_lt (by omega)
  have mapped := (inv.grown_fields grows).1
  refine @Settles.later _ _ (fun fuel => heapMapMore fuel grown (heap.heapMapped + 4096)) _
    (fun fuel => ?_) (.now fun fuel => ?_)
  · -- The first turn of the loop takes the frame.
    rw [larger, heapMapMore, if_pos (by omega)]
    dsimp only
    rw [if_neg grows.1, grows.2, ok_bind]
  · -- After one page the window is large enough.
    cases fuel with
    | zero => rw [heapMapMore, if_neg (by omega)]
    | succ fuel => rw [heapMapMore, if_neg (by omega)]

/-- Where one more page can be had, the list gets one more block. -/
theorem HeapInv.appendArea_settles (inv : HeapInv heap pieces free) (grows : heap.GrowsTo grown) :
    ∃ next, Settles (fun fuel => MiraOS.appendArea fuel heap) next := by
  have list := inv.layout.list
  -- The list is not empty, so the new block is linked behind its last one.
  obtain ⟨first, rest, starts⟩ := inv.layout.starts
  have listed : blocksOf pieces = first :: blocksOf rest := by rw [starts]; rfl
  have firstAddr : first.addr = heap.heapHead := by
    rw [← inv.firstOf_eq_head, listed]
    rfl
  have linked := list.linked
  rw [listed] at linked
  obtain ⟨tail, walked⟩ := listTail_settles linked fun other member =>
    (list.bounded other (by simp [listed, member])).1
  -- The page is mapped, and the walk to the last block is the one of the list before.
  have head : grown.heapHead = first.addr := grows.fields.2.1.trans firstAddr.symm
  have positive := (list.bounded first (by simp [listed])).1
  apply Exists.intro
  apply (inv.heapMapMore_settles grows).bind
  simp only [head, grows.fields.2.2.1, if_pos (show first.addr ≠ 0 by omega)]
  exact walked.bind (.now fun _ => rfl)

/-- The free blocks of the list are those of the window. -/
theorem HeapInv.freeRoom_iff (inv : HeapInv heap pieces free) {size : Nat} :
    FreeRoom heap size ↔ ∃ block ∈ blocksOf pieces, block.free = true ∧ size ≤ block.size := by
  have list := inv.layout.list
  constructor
  · rintro ⟨blocks, listToo, head, block, member, isFree, large⟩
    -- The list of the window is the only one that starts at the head.
    have same := list.linked.unique listToo.linked (fun other among => (list.bounded other among).1)
      (fun other among => (listToo.bounded other among).1) (inv.firstOf_eq_head.trans head.symm)
    rw [← same] at member
    exact ⟨block, member, isFree, large⟩
  · intro some
    exact ⟨blocksOf pieces, list, inv.firstOf_eq_head, some⟩

/-- A page that was appended has room for itself without a header, and the old blocks have what they had. -/
theorem HeapInv.freeRoom_appended {larger : Heap} (inv : HeapInv heap pieces free)
    (kept : HeapInv larger (pieces ++ [.block (newArea heap)]) free) {size : Nat} :
    FreeRoom larger size ↔ FreeRoom heap size ∨ size ≤ 4096 - headerSize := by
  rw [inv.freeRoom_iff, kept.freeRoom_iff]
  simp only [blocksOf_append, blocksOf_block, blocksOf_nil, List.mem_append, List.mem_singleton, or_and_right,
    exists_or, exists_eq_left, newArea, true_and]

/-- The search ends at a free block of the list that has room, or at none if there is no such block. -/
theorem HeapInv.findFit_settles (inv : HeapInv heap pieces free) (size : Nat) :
    ∃ current, Settles (fun fuel => findFit heap.mem size fuel heap.heapHead) current ∧
      (current = 0 ↔ ¬ FreeRoom heap size) ∧
      (current ≠ 0 → ∃ block ∈ blocksOf pieces, current = block.addr) := by
  have list := inv.layout.list
  have positive := fun block member => (list.bounded block member).1
  rw [← inv.firstOf_eq_head]
  obtain ⟨current, settled⟩ := MiraOS.findFit_settles list.linked size positive
  refine ⟨current, settled, ?_⟩
  -- What the search has found with some fuel it has found for good.
  obtain ⟨enough, ran⟩ := settled
  rw [inv.freeRoom_iff]
  rcases findFit_ok list.linked positive (ran enough (Nat.le_refl _)) with
    ⟨rfl, small⟩ | ⟨before, block, after, split, rfl, isFree, large⟩
  · -- Every free block that was passed over was too small.
    refine ⟨⟨fun _ => ?_, fun _ => rfl⟩, fun some => absurd rfl some⟩
    rintro ⟨block, member, isFree, large⟩
    have := small block member isFree
    omega
  · have member : block ∈ blocksOf pieces := by simp [split]
    have nonzero := positive block member
    exact ⟨⟨fun null => by omega, fun none => absurd ⟨block, member, isFree, large⟩ none⟩,
      fun _ => ⟨block, member, rfl⟩⟩

end Growth

section Requests

variable {heap : Heap} {pieces : List Piece} {free : Fin slabMaxOrder → List Nat} {size : Nat}

/-- A size that does not wrap around is rounded up to a multiple of sixteen. -/
theorem searchedSize_eq (rounds : Rounds size) : searchedSize size = (size + 15) / 16 * 16 := align_eq rounds

/-- A size that wraps around is rounded to zero. -/
theorem searchedSize_wraps (word : size < 2 ^ 64) (wraps : ¬ Rounds size) : searchedSize size = 0 := by
  have power : 2 ^ 4 = 16 := rfl
  simp only [Rounds] at wraps
  -- What is left of the sum is below the first multiple of sixteen.
  have small : add64 size 15 < 15 := by
    simp only [add64]
    omega
  rw [searchedSize, and_highMask (by decide) (by omega), power]
  omega

/-- A rounded size is not rounded further. -/
theorem searchedSize_again (rounds : Rounds size) : searchedSize (searchedSize size) = searchedSize size := by
  have rounded := searchedSize_eq rounds
  simp only [Rounds] at rounds
  -- A rounded size is a multiple of 16, which rounding leaves alone.
  rw [rounded, searchedSize_eq (by simp only [Rounds]; omega)]
  omega

/-- With room in a free block, the request returns, behind the header of a block. -/
theorem HeapInv.kmalloc_found (inv : HeapInv heap pieces free) (large : 512 < size)
    (room : FreeRoom heap (searchedSize size)) :
    ∃ block ∈ blocksOf pieces, ∃ mem, Settles (fun fuel => kmalloc fuel heap size)
      (add64 block.addr headerSize, { heap with mem := mem }) := by
  obtain ⟨current, found, none, listed⟩ := inv.findFit_settles (searchedSize size)
  -- A null answer of the search would mean that nothing has room.
  have nonzero : current ≠ 0 := fun null => none.mp null room
  obtain ⟨block, member, rfl⟩ := listed nonzero
  refine ⟨block, member, setFree (splitBlock heap.mem block.addr (searchedSize size)) block.addr 0,
    .later (inv.kmalloc_turn large) (found.bind ?_)⟩
  simp only [if_pos nonzero]
  exact .now fun _ => rfl

/-- Without room, the list grows by a page, and the request is made again with the rounded size. -/
theorem HeapInv.kmalloc_grows (inv : HeapInv heap pieces free) (large : 512 < size)
    (full : ¬ FreeRoom heap (searchedSize size)) (can : heap.CanGrow) :
    ∃ larger, HeapInv larger (pieces ++ [.block (newArea heap)]) free ∧
      larger.frames.length < heap.frames.length ∧
      (∀ result, Settles (fun fuel => kmalloc fuel larger (searchedSize size)) result →
        Settles (fun fuel => kmalloc fuel heap size) result) ∧
      ∀ halt, Stops (fun fuel => kmalloc fuel larger (searchedSize size)) halt →
        Stops (fun fuel => kmalloc fuel heap size) halt := by
  obtain ⟨current, found, none, -⟩ := inv.findFit_settles (searchedSize size)
  obtain rfl := none.mpr full
  obtain ⟨grown, grows⟩ := can
  obtain ⟨larger, grew⟩ := inv.appendArea_settles grows
  -- The page becomes a free block at the end of the window.
  obtain ⟨enough, ran⟩ := id grew
  obtain ⟨kept, -⟩ := inv.appendArea (ran enough (Nat.le_refl _))
  obtain ⟨other, growsToo, before, last, -, isLarger⟩ := inv.appendArea_links (ran enough (Nat.le_refl _))
  refine ⟨larger, kept, ?_, fun result again => .later (inv.kmalloc_turn large) (found.bind ?_),
    fun halt again => .later (inv.kmalloc_turn large) (found.bind_stops ?_)⟩
  · obtain ⟨frame, rest, answers, -, left⟩ := growsToo.frames
    have fewer := left.length_le
    rw [isLarger, answers, List.length_cons]
    exact Nat.lt_succ_of_le fewer
  · simp only [if_neg (show ¬ (0 : Nat) ≠ 0 by simp)]
    exact grew.bind again
  · simp only [if_neg (show ¬ (0 : Nat) ≠ 0 by simp)]
    exact grew.bind_stops again

/-- A request that fits into a page returns, from a page that is appended where no block has room. -/
theorem HeapInv.kmalloc_settles (inv : HeapInv heap pieces free) (large : 512 < size)
    (rounds : Rounds size) (can : heap.CanGrow) (page : searchedSize size ≤ 4096 - headerSize) :
    ∃ result, Settles (fun fuel => kmalloc fuel heap size) result := by
  -- Either a block is there already, or the first new page is one.
  by_cases here : FreeRoom heap (searchedSize size)
  · obtain ⟨block, -, mem, settled⟩ := inv.kmalloc_found large here
    exact ⟨_, settled⟩
  · obtain ⟨larger, kept, -, again, -⟩ := inv.kmalloc_grows large here can
    have found : FreeRoom larger (searchedSize (searchedSize size)) := by
      rw [searchedSize_again rounds, inv.freeRoom_appended kept]
      exact .inr page
    have rounded := searchedSize_eq rounds
    obtain ⟨block, -, mem, settled⟩ := kept.kmalloc_found (by omega) found
    exact ⟨_, again _ settled⟩

/-- A request for a block runs out of pages where it finds no room and cannot get it. -/
theorem outOfPages_iff (large : 512 < size) : OutOfPages heap size ↔ ¬ FreeRoom heap (searchedSize size) ∧
    (4096 - headerSize < searchedSize size ∨ ¬ heap.CanGrow) := by
  simp only [OutOfPages, large, Nat.not_le.mpr large, false_and, and_false, or_false, true_and]

/-- Where no page can be had, the list does not grow. -/
theorem HeapInv.appendArea_panics (inv : HeapInv heap pieces free) (cannot : ¬ heap.CanGrow) :
    Panics (fun fuel => MiraOS.appendArea fuel heap) := by
  have small := inv.small
  have larger : add64 heap.heapMapped 4096 = heap.heapMapped + 4096 := add64_of_lt (by omega)
  have turn : ∀ fuel, heapMapMore (fuel + 1) heap (heap.heapMapped + 4096) =
      if heap.takeFrame.1 = 0 then .error (.panic "heap oom")
      else heap.takeFrame.2.mapAtEnd heap.takeFrame.1 >>= fun grown =>
        heapMapMore fuel grown (heap.heapMapped + 4096) := fun fuel => by
    rw [heapMapMore, if_pos (by omega)]
  -- Either there is no frame, or its tables cannot be made.
  have mapping : Panics (fun fuel => heapMapMore fuel heap (add64 heap.heapMapped 4096)) := by
    simp only [larger]
    by_cases empty : heap.takeFrame.1 = 0
    · exact ⟨"heap oom", .later turn ⟨0, fun fuel _ => if_pos empty⟩⟩
    · cases page : heap.takeFrame.2.mapAtEnd heap.takeFrame.1 with
      | ok grown => exact absurd ⟨grown, empty, page⟩ cannot
      | error halt =>
        obtain ⟨message, rfl⟩ := Heap.mapAtEnd_panics page
        refine ⟨message, .later turn ⟨0, fun fuel _ => ?_⟩⟩
        dsimp only
        rw [if_neg empty, page]
        rfl
  obtain ⟨message, stops⟩ := mapping
  exact ⟨message, stops.bind⟩

/-- A request that finds nothing panics when the list cannot grow. -/
theorem HeapInv.kmalloc_exhausted (inv : HeapInv heap pieces free) (large : 512 < size)
    (full : ¬ FreeRoom heap (searchedSize size)) (cannot : ¬ heap.CanGrow) :
    Panics (fun fuel => kmalloc fuel heap size) := by
  -- Nothing is found in the list, so that the heap must grow for the request.
  obtain ⟨current, found, none, -⟩ := inv.findFit_settles (searchedSize size)
  obtain rfl := none.mpr full
  obtain ⟨message, stops⟩ := inv.appendArea_panics cannot
  refine ⟨message, .later (inv.kmalloc_turn large) (found.bind_stops ?_)⟩
  simp only [if_neg (show ¬ (0 : Nat) ≠ 0 by simp)]
  exact stops.bind

/-- A request for a block that no page has room for takes page after page, and panics in the end. -/
theorem HeapInv.kmalloc_oversized (inv : HeapInv heap pieces free) (rounds : Rounds size)
    (wide : 4096 - headerSize < searchedSize size) (full : ¬ FreeRoom heap (searchedSize size)) :
    Panics (fun fuel => kmalloc fuel heap size) := by
  -- Each page leaves fewer answers of the page allocator, and becomes a block that is too small.
  induction count : heap.frames.length using Nat.strong_induction_on generalizing heap pieces size with
  | _ count ih =>
    have rounded := searchedSize_eq rounds
    simp only [headerSize] at wide
    simp only [Rounds] at rounds
    by_cases can : heap.CanGrow
    · obtain ⟨larger, kept, fewer, -, again⟩ := inv.kmalloc_grows (by omega) full can
      have same := searchedSize_again rounds
      obtain ⟨message, stops⟩ := ih larger.frames.length (by omega) kept
        (show Rounds (searchedSize size) by simp only [Rounds]; omega) (by rw [same]; exact wide)
        (by rw [same, inv.freeRoom_appended kept, not_or, headerSize]; exact ⟨full, by omega⟩) rfl
      exact ⟨message, again _ stops⟩
    · exact inv.kmalloc_exhausted (by omega) full can

/-- A request for an object has no page to take it from. -/
theorem HeapInv.slabAlloc_panics (inv : HeapInv heap pieces free) (small : size ≤ 512) (positive : 0 < size)
    (none : ¬ FreeObject heap size) (some : heap.takeFrame.1 ≠ 0) (cannot : ¬ heap.CanGrow) :
    Panics (fun fuel => kmalloc fuel heap size) := by
  obtain ⟨order, found, -⟩ := inv.find_cache small
  have limit : size ≤ slabMaxSize := Nat.le_trans small (by decide)
  -- The cache has no object, so that it asks for a page.
  have empty : (heap.slabCaches order).freeList = 0 := by
    by_contra object
    exact none ⟨order, found, object⟩
  have called : ∀ fuel, kmalloc (fuel + 1) heap size = MiraOS.slabAlloc heap order := fun fuel => by
    rw [kmalloc, if_neg (by omega), if_pos limit, found]
  cases page : heap.takeFrame.2.mapAtEnd heap.takeFrame.1 with
  | ok grown => exact absurd ⟨grown, some, page⟩ cannot
  | error halt =>
    -- The only stop of a mapping is its panic.
    obtain ⟨message, rfl⟩ := Heap.mapAtEnd_panics page
    refine ⟨message, .later called ⟨0, fun fuel _ => ?_⟩⟩
    dsimp only
    rw [MiraOS.slabAlloc, if_pos empty]
    dsimp only
    rw [if_neg some, page]
    rfl

/-- A request that runs out of pages panics. -/
theorem HeapInv.kmalloc_panics (inv : HeapInv heap pieces free) (word : size < 2 ^ 64)
    (out : OutOfPages heap size) : Panics (fun fuel => kmalloc fuel heap size) := by
  rcases out with ⟨large, full, wide | cannot⟩ | ⟨positive, small, none, some, cannot⟩
  · -- A size that is rounded to more than a page does not wrap around.
    refine inv.kmalloc_oversized (by_contra fun wraps => ?_) wide full
    rw [searchedSize_wraps word wraps] at wide
    omega
  · exact inv.kmalloc_exhausted large full cannot
  · exact inv.slabAlloc_panics small positive none some cannot

end Requests

section Answers

variable {system : HeapSystem} {pieces : List Piece} {free : Fin slabMaxOrder → List Nat} {size : Nat}

/-- What a request is answered with in a reached state: a panic, null, or a pointer. -/
inductive Answered (system : HeapSystem) (size : Nat) : Prop where
  | panics (out : OutOfPages system.heap size)
      (panicked : Panics (fun fuel => kmalloc fuel system.heap size)) : Answered system size
  | null (next : Heap) (inside : ¬ OutOfPages system.heap size) (null : GivesNull system.heap size)
      (settled : Settles (fun fuel => kmalloc fuel system.heap size) (0, next)) : Answered system size
  | pointer (ptr : Nat) (next : Heap) (inside : ¬ OutOfPages system.heap size)
      (some : ¬ GivesNull system.heap size) (nonzero : ptr ≠ 0)
      (settled : Settles (fun fuel => kmalloc fuel system.heap size) (ptr, next))
      (base : next.heapVirtBase = MiraOS.pagingHeapBase) (small : next.heapMapped ≤ 2 ^ 29)
      (reached : Rounds size → ∃ new left, Reached (system.allocated size ptr next) new left) :
      Answered system size

/-- A cache answers null when it has no object and gets no frame, and otherwise with an object if it can grow. -/
theorem HeapInv.slabAlloc_ok {heap : Heap} (inv : HeapInv heap pieces free) (order : Fin slabMaxOrder)
    (can : (heap.slabCaches order).freeList ≠ 0 ∨ heap.takeFrame.1 = 0 ∨ heap.CanGrow) :
    ∃ result, MiraOS.slabAlloc heap order = .ok result ∧
      (result.1 = 0 ↔ (heap.slabCaches order).freeList = 0 ∧ heap.takeFrame.1 = 0) := by
  rw [MiraOS.slabAlloc]
  dsimp only
  by_cases none : (heap.slabCaches order).freeList = 0
  · rw [if_pos none]
    by_cases empty : heap.takeFrame.1 = 0
    · rw [if_pos empty]
      exact ⟨_, rfl, fun _ => ⟨none, empty⟩, fun _ => rfl⟩
    · -- The first object of the new page is its first byte, which is not null.
      obtain ⟨grown, grows⟩ := (can.resolve_left fun some => some none).resolve_left empty
      have place := (inv.grown_fields grows).2
      have limit := pagingHeapBase_eq
      rw [if_neg empty, grows.2, ok_bind, place]
      refine ⟨_, rfl, ?_⟩
      simp only [MiraOS.slabPop, Function.update_self, empty, and_false, iff_false]
      omega
  · rw [if_neg none]
    refine ⟨_, rfl, ?_⟩
    simp only [MiraOS.slabPop, none, false_and]

/-- A request of an object is answered by its cache. -/
theorem Reached.answers_slab (reached : Reached system pieces free) (positive : 1 ≤ size) (small : size ≤ 512)
    (inside : ¬ OutOfPages system.heap size) : Answered system size := by
  obtain ⟨order, found, -⟩ := reached.inv.find_cache small
  have limit : size ≤ slabMaxSize := Nat.le_trans small (by decide)
  have called : ∀ fuel, kmalloc (fuel + 1) system.heap size = MiraOS.slabAlloc system.heap order :=
    fun fuel => by rw [kmalloc, if_neg (by omega), if_pos limit, found]
  -- The cache has an object, or there is no frame, or the page can be mapped.
  have can : (system.heap.slabCaches order).freeList ≠ 0 ∨ system.heap.takeFrame.1 = 0 ∨ system.heap.CanGrow := by
    by_contra cannot
    simp only [not_or, ne_eq, not_not] at cannot
    refine inside (.inr ⟨positive, small, ?_, cannot.2⟩)
    rintro ⟨other, foundToo, object⟩
    rw [found] at foundToo
    cases foundToo
    exact object cannot.1
  obtain ⟨result, answered, empty⟩ := reached.inv.slabAlloc_ok order can
  have settled : Settles (fun fuel => kmalloc fuel system.heap size) result :=
    .after 1 fun fuel => (called fuel).trans answered
  -- The cache answers null exactly when it has no object and no frame.
  by_cases null : result.1 = 0
  · refine .null result.2 inside (.inr (.inl ⟨order, found, empty.mp null⟩)) ?_
    rw [← null]
    exact settled
  · obtain ⟨cache, new, left, served⟩ := reached.alloc_slab positive small ((called 0).trans answered)
    refine .pointer _ _ inside ?_ null settled served.reached.inv.base served.reached.inv.small
      fun _ => ⟨new, left, served.reached⟩
    rintro (rfl | ⟨other, foundToo, none⟩ | ⟨large, -⟩)
    · omega
    · rw [found] at foundToo
      cases foundToo
      exact null (empty.mpr none)
    · omega

/-- Without a cache or a size of zero, only what is rounded to nothing is answered with null. -/
theorem HeapInv.givesNull_iff {heap : Heap} (inv : HeapInv heap pieces free) (large : 512 < size) :
    GivesNull heap size ↔ searchedSize size = 0 ∧ ¬ FreeRoom heap 0 := by
  simp only [GivesNull, inv.find_none large, reduceCtorEq, false_and, exists_false, false_or, large, true_and]
  -- What is not found is found nowhere later.
  constructor
  · rintro (zero | rest)
    · omega
    · exact rest
  · exact .inr

/-- A request of a block that rounds is answered with one, unless it runs out of pages. -/
theorem Reached.answers_block (reached : Reached system pieces free) (large : 512 < size) (rounds : Rounds size)
    (inside : ¬ OutOfPages system.heap size) : Answered system size := by
  have inv := reached.inv
  obtain ⟨result, settled⟩ : ∃ result, Settles (fun fuel => kmalloc fuel system.heap size) result := by
    by_cases room : FreeRoom system.heap (searchedSize size)
    · obtain ⟨block, -, mem, found⟩ := inv.kmalloc_found large room
      exact ⟨_, found⟩
    · -- There is a frame for a page, and the page is large enough.
      simp only [outOfPages_iff large, room, not_false_eq_true, true_and, not_or, Nat.not_lt, not_not] at inside
      exact inv.kmalloc_settles large rounds inside.2 inside.1
  obtain ⟨enough, ran⟩ := settled
  obtain ⟨new, block, kept, taken⟩ := inv.kmalloc_block large rounds (ran enough (Nat.le_refl _))
  obtain ⟨after, whole, -⟩ := reached.alloc_block large rounds (ran enough (Nat.le_refl _))
  have pointer := taken.pointer
  refine .pointer result.1 result.2 inside ?_ ?_ ⟨enough, ran⟩ kept.base kept.small fun _ => ⟨after, free, whole⟩
  · rw [inv.givesNull_iff large, searchedSize_eq rounds]
    omega
  · simp only [headerSize] at pointer
    omega

/-- A size that wraps around is answered with some free block, or with null when there is none. -/
theorem Reached.answers_wrapped (reached : Reached system pieces free) (word : size < 2 ^ 64)
    (wraps : ¬ Rounds size) (inside : ¬ OutOfPages system.heap size) : Answered system size := by
  have inv := reached.inv
  have large : 512 < size := by
    simp only [Rounds] at wraps
    omega
  have zero := searchedSize_wraps word wraps
  by_cases room : FreeRoom system.heap 0
  · obtain ⟨block, member, mem, settled⟩ := inv.kmalloc_found large (by rwa [zero])
    have bound := inv.layout.list.bounded block member
    have pointer : add64 block.addr headerSize = block.addr + headerSize := by
      simp only [Block.stop] at bound
      exact add64_of_lt (by omega)
    refine .pointer _ _ inside ?_ (by omega) settled inv.base inv.small fun rounds => absurd rounds wraps
    rw [inv.givesNull_iff large]
    exact fun null => null.2 room
  · -- The list grows, and a request for nothing returns null.
    have can : system.heap.CanGrow := by
      simp only [outOfPages_iff large, zero, room, not_false_eq_true, true_and, not_or, not_not] at inside
      exact inside.2
    obtain ⟨larger, -, -, again, -⟩ := inv.kmalloc_grows large (by rwa [zero]) can
    rw [zero] at again
    have nothing : ∀ fuel, kmalloc (fuel + 1) larger 0 = .ok (0, larger) := fun fuel => by
      rw [kmalloc, if_pos rfl]
    exact .null larger inside ((inv.givesNull_iff large).mpr ⟨zero, room⟩) (again _ (.after 1 nothing))

/-- Every request of a reached state is answered. -/
theorem Reached.answers (reached : Reached system pieces free) (word : size < 2 ^ 64) : Answered system size := by
  -- A request for nothing is answered with null before anything else.
  by_cases zero : size = 0
  · have nothing : ∀ fuel, kmalloc (fuel + 1) system.heap size = .ok (0, system.heap) := fun fuel => by
      rw [kmalloc, if_pos zero]
    refine .null system.heap ?_ (.inl zero) (.after 1 nothing)
    simp [OutOfPages, zero]
  by_cases out : OutOfPages system.heap size
  · exact .panics out (reached.inv.kmalloc_panics word out)
  -- What is left has the memory that it needs, in a cache or in the list.
  by_cases small : size ≤ 512
  · exact reached.answers_slab (by omega) small out
  by_cases rounds : Rounds size
  · exact reached.answers_block (by omega) rounds out
  · exact reached.answers_wrapped word rounds out

end Answers

end MiraOS
