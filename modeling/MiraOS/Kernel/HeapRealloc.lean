import MiraOS.Kernel.HeapTiling

/-! Reallocations and cleared arrays of kernel/heap.c: what they leave of the heap, and of the bytes moved. -/

namespace MiraOS

open Machine

/-- A reallocation that moves, up to the release of the old block. -/
def reallocCopied (fuel : Nat) (heap : Heap) (ptr size : Nat) : Except Halt (Nat × Heap) := do
  let (newPtr, heap) ← kmalloc fuel heap size
  let mem ← copyLoop (sub64 ptr headerSize) newPtr ptr fuel 0 heap.mem
  return (newPtr, { heap with mem := mem })

/-- What callers hold after a reallocation. -/
def reallocated (live : List Allocation) (allocation : Allocation) (size ptr : Nat) : List Allocation :=
  if ptr = 0 then live
  -- A block is never cut down, so a caller that stays keeps what it had.
  else ⟨ptr, if ptr = allocation.ptr then max size allocation.size else size⟩ :: live.erase allocation

/-- What the callers of the heap can do, with all of its functions. -/
inductive CallOp where
  | heap (op : HeapOp)
  | calloc (nmemb size : Nat)
  | realloc (ptr size : Nat)

/-- One step of the callers; a reallocation of nothing or to nothing is a request or a release. -/
inductive CallStep (asks : Nat → Prop) (releases : Heap → Allocation → Prop) :
    HeapSystem → CallOp → HeapSystem → Prop where
  | heap {system next : HeapSystem} {op : HeapOp} (step : HeapStep asks releases system op next) :
      CallStep asks releases system (.heap op) next
  | calloc {system : HeapSystem} {fuel nmemb size ptr : Nat} {next : Heap}
      (asked : asks (nmemb * size % 2 ^ 64)) (called : kcalloc fuel system.heap nmemb size = .ok (ptr, next)) :
      CallStep asks releases system (.calloc nmemb size) (system.allocated (nmemb * size % 2 ^ 64) ptr next)
  -- Only blocks have the header that a reallocation reads.
  | realloc {system : HeapSystem} {allocation : Allocation} {fuel size ptr : Nat} {next : Heap}
      (held : allocation ∈ system.live) (large : 512 < allocation.size) (asked : asks size) (positive : 0 < size)
      (called : krealloc fuel system.heap allocation.ptr size = .ok (ptr, next))
      (released : ∀ copied, blockSize system.heap.mem (sub64 allocation.ptr headerSize) < size →
        reallocCopied fuel system.heap allocation.ptr size = .ok (ptr, copied) → releases copied allocation) :
      CallStep asks releases system (.realloc allocation.ptr size)
        { system with heap := next, live := reallocated system.live allocation size ptr }

/-- The copying loop moves the bytes that are left, as long as it does not reach its own bound or source. -/
theorem copyLoop_ok {block newPtr ptr fuel i : Nat} {mem last : Memory}
    (header : newPtr + blockSize mem block ≤ block ∨ block + 8 ≤ newPtr)
    (apart : newPtr + blockSize mem block ≤ ptr ∨ ptr + blockSize mem block ≤ newPtr)
    (ran : copyLoop block newPtr ptr fuel i mem = .ok last) (byte : Nat) :
    last byte = if newPtr + i ≤ byte ∧ byte < newPtr + blockSize mem block then mem (ptr + (byte - newPtr))
      else mem byte := by
  induction fuel generalizing i mem with
  | zero =>
    rw [copyLoop] at ran
    split_ifs at ran with more
    obtain rfl := Except.ok.inj ran
    rw [if_neg (by omega)]
  | succ fuel ih =>
    rw [copyLoop] at ran
    split_ifs at ran with more
    · -- The byte that is copied belongs neither to the header nor to the source.
      have bound : blockSize (Function.update mem (newPtr + i) (mem (ptr + i))) block = blockSize mem block :=
        readLE_congr fun other low high => Function.update_of_ne (by omega) _ _
      have rest := ih (by rw [bound]; exact header) (by rw [bound]; exact apart) ran
      rw [bound] at rest
      rw [rest]
      by_cases later : newPtr + (i + 1) ≤ byte ∧ byte < newPtr + blockSize mem block
      · rw [if_pos later, if_pos (by omega)]
        exact Function.update_of_ne (by omega) _ _
      · rw [if_neg later]
        by_cases here : byte = newPtr + i
        · rw [here, Function.update_self, if_pos (by omega), Nat.add_sub_cancel_left]
        · rw [Function.update_of_ne here, if_neg (by omega)]
    · obtain rfl := Except.ok.inj ran
      rw [if_neg (by omega)]

/-- With a step for each byte the copying loop ends, as long as it does not reach its own bound. -/
theorem copyLoop_total {block newPtr ptr fuel i : Nat} {mem : Memory}
    (header : newPtr + blockSize mem block ≤ block ∨ block + 8 ≤ newPtr)
    (enough : blockSize mem block ≤ i + fuel) : ∃ last, copyLoop block newPtr ptr fuel i mem = .ok last := by
  induction fuel generalizing i mem with
  | zero => exact ⟨mem, by rw [copyLoop, if_neg (by omega)]⟩
  | succ fuel ih =>
    rw [copyLoop]
    by_cases more : i < blockSize mem block
    · -- The byte that is copied is not part of the header.
      have bound : blockSize (Function.update mem (newPtr + i) (mem (ptr + i))) block = blockSize mem block :=
        readLE_congr fun other low high => Function.update_of_ne (by omega) _ _
      rw [if_pos more]
      exact ih (by rw [bound]; exact header) (by rw [bound]; omega)
    · exact ⟨mem, by rw [if_neg more]⟩

/-- The clearing loop puts zero into the bytes of the array, and touches no other. -/
theorem clear_apply (ptr count : Nat) (mem : Memory) (byte : Nat) :
    (List.range count).foldl (fun mem i => Function.update mem (ptr + i) 0) mem byte =
      if ptr ≤ byte ∧ byte < ptr + count then 0 else mem byte := by
  induction count with
  | zero =>
    rw [if_neg (by omega)]
    rfl
  -- The last byte is cleared after the others.
  | succ count ih =>
    rw [List.range_succ, List.foldl_append, List.foldl_cons, List.foldl_nil]
    by_cases last : byte = ptr + count
    · rw [last, Function.update_self, if_pos (by omega)]
    · rw [Function.update_of_ne last, ih]
      have same : (ptr ≤ byte ∧ byte < ptr + count) ↔ (ptr ≤ byte ∧ byte < ptr + (count + 1)) := by omega
      rw [if_congr same rfl rfl]

attribute [local irreducible] kfree kmalloc pagingHeapBase blockSize

section

variable {system : HeapSystem} {pieces : List Piece} {free : Fin slabMaxOrder → List Nat}

/-- Memory that changes inside an allocation only keeps everything. -/
theorem Reached.withMem (reached : Reached system pieces free) {allocation : Allocation} {mem : Memory}
    (held : allocation ∈ system.live)
    (only : ∀ byte, byte < allocation.ptr ∨ allocation.ptr + allocation.size ≤ byte →
      mem byte = system.heap.mem byte) :
    Reached { system with heap := { system.heap with mem := mem } } pieces free := by
  refine ⟨reached.inv.withMem ?_ ?_, reached.owned, reached.pages⟩
  · -- Headers lie outside of what a caller holds, and so do the links of free objects.
    intro block isBlock byte first last
    have apart := reached.owned.header_apart reached.inv held isBlock
    exact only byte (by omega)
  · intro order slot isFree byte first last
    have apart := reached.owned.free_apart reached.inv held isFree
    have wide := (slab_sizes order).1
    exact only byte (by omega)

/-- Clearing what was allocated last keeps everything. -/
theorem Reached.cleared {size ptr : Nat} {next : Heap}
    (reached : Reached (system.allocated size ptr next) pieces free) (nonzero : ptr ≠ 0) :
    Reached (system.allocated size ptr { next with
      mem := (List.range size).foldl (fun mem i => Function.update mem (ptr + i) 0) next.mem }) pieces free := by
  -- The new allocation is held, so its bytes may change.
  have held : (⟨ptr, size⟩ : Allocation) ∈ (system.allocated size ptr next).live := by
    rw [HeapSystem.allocated, if_neg nonzero]
    exact List.mem_cons_self
  refine reached.withMem held fun byte outside => ?_
  dsimp only at outside
  rw [clear_apply, if_neg (by omega)]
  rfl

/-- A caller may hold more of its block. -/
theorem Reached.resize (reached : Reached system pieces free) {allocation : Allocation} {block : Block} {size : Nat}
    (held : allocation ∈ system.live) (large : 512 < size) (isBlock : block ∈ blocksOf pieces)
    (inUse : block.free = false) (pointer : allocation.ptr = block.addr + headerSize) (fits : size ≤ block.size) :
    Reached { system with live := ⟨allocation.ptr, size⟩ :: system.live.erase allocation } pieces free := by
  have distinct := reached.owned.distinct
  -- No other allocation has the same pointer.
  have other : ∀ kept ∈ system.live.erase allocation, kept ∈ system.live ∧ kept.ptr ≠ allocation.ptr := by
    intro kept among
    have listed := List.mem_of_mem_erase among
    refine ⟨listed, fun same => ?_⟩
    obtain rfl := List.inj_on_of_nodup_map distinct listed held same
    exact ((distinct.of_map _).mem_erase_iff.mp among).1 rfl
  refine ⟨reached.inv, ⟨?_, ?_, ?_⟩, reached.pages⟩
  · rw [List.map_cons, List.nodup_cons]
    refine ⟨fun among => ?_, distinct.sublist (List.Sublist.map _ (List.erase_sublist ..))⟩
    obtain ⟨kept, listed, same⟩ := List.mem_map.mp among
    exact (other kept listed).2 same
  · intro kept among
    rcases List.mem_cons.mp among with rfl | listed
    · exact .inl ⟨large, block, isBlock, inUse, pointer, fits⟩
    · exact reached.owned.held kept (other kept listed).1
  · -- Every block in use still has its owner.
    intro used isUsed usedInUse
    obtain ⟨owner, listed, ownerPtr, ownerFits, ownerLarge⟩ := reached.owned.used used isUsed usedInUse
    by_cases same : owner = allocation
    · -- The block is the one of the allocation itself.
      rw [same] at ownerPtr
      have equal : used = block := by
        by_contra differs
        have apart := reached.inv.block_block_apart isUsed isBlock differs
        simp only [Block.stop, headerSize] at apart
        omega
      exact ⟨_, List.mem_cons_self, ownerPtr, equal ▸ fits, large⟩
    · exact ⟨owner, List.mem_cons_of_mem _ ((List.mem_erase_of_ne same).mpr listed), ownerPtr, ownerFits, ownerLarge⟩

/-- The block of a large allocation, with its size in memory. -/
theorem Reached.block_of (reached : Reached system pieces free) {allocation : Allocation}
    (held : allocation ∈ system.live) (large : 512 < allocation.size) :
    ∃ block ∈ blocksOf pieces, block.free = false ∧ allocation.ptr = block.addr + headerSize ∧
      allocation.size ≤ block.size ∧ sub64 allocation.ptr headerSize = block.addr ∧
      blockSize system.heap.mem block.addr = block.size := by
  -- What is larger than the caches can serve is a block of the list.
  rcases reached.owned.held allocation held with ⟨-, block, isBlock, inUse, pointer, fits⟩ | ⟨small, -⟩
  · have list := reached.inv.layout.list
    refine ⟨block, isBlock, inUse, pointer, fits, ?_, ?_⟩
    · rw [pointer, list.of_pointer isBlock]
    · obtain ⟨before, after, split⟩ := List.append_of_mem isBlock
      rw [split] at list
      exact list.fields.1
  · omega

/-- A block that was copied to a new place: both blocks are in use, with the same bytes. -/
structure Copied (system : HeapSystem) (size ptr : Nat) (copied : Heap) (block : Block) (pieces new : List Piece)
    (free : Fin slabMaxOrder → List Nat) : Prop where
  reached : Reached ⟨copied, ⟨ptr, size⟩ :: system.live, system.slabPages⟩ new free
  room : ∃ target ∈ blocksOf new, target.free = false ∧ ptr = target.addr + headerSize ∧ size ≤ target.size
  still : ∀ other ∈ blocksOf pieces, other.free = false → other ∈ blocksOf new
  moved : ∀ i < block.size, copied.mem (ptr + i) = system.heap.mem (block.addr + headerSize + i)
  kept : KeepsHeld (blocksOf pieces) system.heap.mem copied.mem
  fresh : ∀ other ∈ blocksOf pieces, other.free = false → ptr ≠ other.addr + headerSize

/-- Copying a block in use keeps everything. -/
theorem Reached.copied (reached : Reached system pieces free) {fuel size ptr : Nat} {copied : Heap} {block : Block}
    (isBlock : block ∈ blocksOf pieces) (inUse : block.free = false) (large : 512 < size) (rounds : Rounds size)
    (more : block.size < size)
    (ran : reallocCopied fuel system.heap (block.addr + headerSize) size = .ok (ptr, copied)) :
    ∃ new, Copied system size ptr copied block pieces new free := by
  obtain ⟨⟨target, middle⟩, took, rest⟩ := bind_eq_ok.mp ran
  obtain ⟨mem, copying, made⟩ := bind_eq_ok.mp rest
  cases made
  obtain ⟨new, room, inv, taken, held⟩ := reached.inv.kmalloc_keeps large rounds took
  have owned := reached.owned.take large inv taken
  have pages : ∀ order, pagesOf order new = system.pages order := fun order =>
    (taken.pages order).trans (reached.pages order)
  have taking : Reached ⟨middle, ⟨ptr, size⟩ :: system.live, system.slabPages⟩ new free := ⟨inv, owned, pages⟩
  -- The header of the old block is where it was, and says the same.
  have old : block ∈ blocksOf new := (taken.used block inUse).mpr (.inl isBlock)
  have list := inv.layout.list
  have pointer := list.of_pointer old
  have header : blockSize middle.mem block.addr = block.size := by
    obtain ⟨before, after, split⟩ := List.append_of_mem old
    rw [split] at list
    exact list.fields.1
  have roomy := taken.large
  have place := taken.pointer
  -- The new block lies apart from the old one, header included.
  have apart := inv.block_block_apart old taken.member
    (fun same => taken.fresh block isBlock inUse (congrArg Block.addr same))
  simp only [Block.stop, headerSize] at apart place
  rw [pointer] at copying
  have bytes := copyLoop_ok (by rw [header]; omega) (by rw [header]; simp only [headerSize]; omega) copying
  rw [header] at bytes
  refine ⟨new, ⟨?_, ⟨room, taken.member, taken.inUse, taken.pointer, roomy⟩, ?_, ?_, ?_, ?_⟩⟩
  · refine taking.withMem List.mem_cons_self fun byte outside => ?_
    dsimp only at outside
    rw [bytes, if_neg (by omega)]
  · exact fun other member used => (taken.used other used).mpr (.inl member)
  · -- The copied bytes are those that the request kept in the old block.
    intro i inside
    dsimp only
    rw [bytes, if_pos (by omega), Nat.add_sub_cancel_left]
    exact held block isBlock inUse _ (by omega) (by simp only [Block.stop]; omega)
  · -- No other block in use is reached by the copy.
    intro other member used byte low high
    have separate := inv.block_block_apart ((taken.used other used).mpr (.inl member)) taken.member
      (fun same => taken.fresh other member used (congrArg Block.addr same))
    simp only [Block.stop, headerSize] at separate low high
    dsimp only
    rw [bytes, if_neg (by omega)]
    exact held other member used byte low (by simp only [Block.stop, headerSize]; omega)
  · intro other member used same
    refine taken.fresh other member used ?_
    rw [taken.pointer] at same
    exact (Nat.add_right_cancel same).symm

/-- The ways a reallocation can end. -/
theorem krealloc_cases {heap next : Heap} {fuel ptr size new : Nat} (given : ptr ≠ 0) (positive : 0 < size)
    (called : krealloc fuel heap ptr size = .ok (new, next)) :
    (size ≤ blockSize heap.mem (sub64 ptr headerSize) ∧ new = ptr ∧ next = heap) ∨
      (blockSize heap.mem (sub64 ptr headerSize) < size ∧
        ((new = 0 ∧ kmalloc fuel heap size = .ok (0, next)) ∨
          new ≠ 0 ∧ ∃ copied, reallocCopied fuel heap ptr size = .ok (new, copied) ∧ next = kfree copied ptr)) := by
  -- One case for each branch of the code: the block is large enough, there is no memory, or the bytes move.
  rw [krealloc, if_neg given, if_neg (by omega)] at called
  dsimp only at called
  split_ifs at called with fits
  · cases called
    exact .inl ⟨fits, rfl, rfl⟩
  · refine .inr ⟨by omega, ?_⟩
    obtain ⟨⟨target, middle⟩, took, rest⟩ := bind_eq_ok.mp called
    dsimp only at rest
    by_cases null : target = 0
    · rw [if_pos null] at rest
      cases rest
      exact .inl ⟨rfl, by rw [took, null]⟩
    · rw [if_neg null] at rest
      obtain ⟨mem, copying, made⟩ := bind_eq_ok.mp rest
      cases made
      exact .inr ⟨null, _, bind_eq_ok.mpr ⟨_, took, bind_eq_ok.mpr ⟨_, copying, rfl⟩⟩, rfl⟩

/-- A reallocation that moves and releases a touching block keeps everything. -/
theorem Copied.release {size ptr : Nat} {copied : Heap} {block : Block} {new : List Piece} {allocation : Allocation}
    (moved : Copied system size ptr copied block pieces new free) (held : allocation ∈ system.live)
    (isBlock : block ∈ blocksOf pieces) (inUse : block.free = false)
    (pointer : allocation.ptr = block.addr + headerSize)
    (touching : TouchingBlock copied allocation) :
    ∃ last, Reached ⟨kfree copied allocation.ptr, ⟨ptr, size⟩ :: system.live.erase allocation, system.slabPages⟩
        last free ∧
      Released copied.mem (kfree copied allocation.ptr).mem pagingHeapBase (pagingHeapBase + copied.heapMapped) block
        new last := by
  obtain ⟨last, own, kept, isOwn, ownPtr, -, -, -, released⟩ :=
    moved.reached.release (List.mem_cons_of_mem _ held) touching
  -- The block in front of the pointer is the old one.
  have same : own = block := by
    by_contra differs
    have apart := moved.reached.inv.block_block_apart isOwn (moved.still block isBlock inUse) differs
    simp only [Block.stop, headerSize] at apart ownPtr pointer
    omega
  rw [same] at released
  have differs : (⟨ptr, size⟩ : Allocation) ≠ allocation := by
    intro equal
    exact moved.fresh block isBlock inUse ((congrArg Allocation.ptr equal).trans pointer)
  rw [List.erase_cons_tail (by simpa using differs)] at kept
  exact ⟨last, kept, released⟩

/-- One step of callers that release touching blocks only keeps everything. -/
theorem Reached.call {next : HeapSystem} {op : CallOp} (reached : Reached system pieces free)
    (step : CallStep Rounds TouchingBlock system op next) : ∃ new left, Reached next new left := by
  cases step with
  | heap step => exact reached.step step
  | @calloc fuel nmemb size ptr heap rounds called =>
    obtain ⟨⟨target, middle⟩, took, rest⟩ := bind_eq_ok.mp called
    obtain ⟨new, left, taking⟩ := reached.step (.alloc rounds took)
    dsimp only at rest
    split_ifs at rest with null
    · cases rest
      rw [null] at taking
      exact ⟨new, left, taking⟩
    · cases rest
      -- Clearing stays inside the new allocation.
      exact ⟨new, left, taking.cleared null⟩
  | @realloc allocation fuel size ptr heap held large rounds positive called released =>
    obtain ⟨block, isBlock, inUse, pointer, fits, place, header⟩ := reached.block_of held large
    have given : allocation.ptr ≠ 0 := by
      simp only [headerSize] at pointer
      omega
    rcases krealloc_cases given positive called with
      ⟨stays, rfl, rfl⟩ | ⟨more, ⟨rfl, took⟩ | ⟨nonzero, copied, moved, rfl⟩⟩
    · rw [place, header] at stays
      rw [reallocated, if_neg given, if_pos rfl]
      exact ⟨pieces, free, reached.resize held (by omega) isBlock inUse pointer (by omega)⟩
    · rw [place, header] at more
      -- A request of a block is never answered with null.
      obtain ⟨new, target, -, taken⟩ := reached.inv.kmalloc_block (by omega) rounds took
      have answer := taken.pointer
      simp only [headerSize] at answer
      omega
    · -- The block moved, and the old one is released.
      have touching := released copied more moved
      rw [place, header] at more
      rw [pointer] at moved
      obtain ⟨new, whole⟩ := reached.copied isBlock inUse (by omega) rounds more moved
      obtain ⟨last, kept, -⟩ := whole.release held isBlock inUse pointer touching
      have apart : ptr ≠ allocation.ptr := by
        rw [pointer]
        exact whole.fresh block isBlock inUse
      rw [reallocated, if_neg nonzero, if_neg apart]
      exact ⟨last, free, kept⟩

/-- A call on the block path is one whose requests round and whose releases touch. -/
theorem Reached.blocks_call {next : HeapSystem} {op : CallOp} (reached : Reached system pieces free)
    (none_ : system.slabPages = []) (step : CallStep BlockRequest (fun _ _ => True) system op next) :
    CallStep Rounds TouchingBlock system op next := by
  have rounds : ∀ size, BlockRequest size → Rounds size := by
    rintro size ⟨-, bound⟩
    simp only [Rounds]
    omega
  cases step with
  | heap step =>
    cases step with
    | alloc asked called => exact .heap (.alloc (rounds _ asked) called)
    | free held _ => exact .heap (.free held (reached.touching none_ held))
    | write held low high => exact .heap (.write held low high)
  | calloc asked called => exact .calloc (rounds _ asked) called
  | @realloc allocation fuel size ptr heap held large asked positive called _ =>
    refine .realloc held large (rounds _ asked) positive called fun copied more moved => ?_
    -- Until the old block is released, the window has no page of a cache either.
    obtain ⟨block, isBlock, inUse, pointer, -, place, header⟩ := reached.block_of held large
    rw [place, header] at more
    rw [pointer] at moved
    obtain ⟨new, whole⟩ := reached.copied isBlock inUse asked.1 (rounds _ asked) more moved
    exact whole.reached.touching none_ (List.mem_cons_of_mem _ held)

end

/-- One call on the block path maps no page for a cache. -/
theorem BlocksOnly.call {system next : HeapSystem} {op : CallOp} (only : BlocksOnly system)
    (step : CallStep BlockRequest (fun _ _ => True) system op next) : BlocksOnly next := by
  obtain ⟨⟨pieces, free, reached⟩, none_⟩ := only
  refine ⟨reached.call (reached.blocks_call none_ step), ?_⟩
  -- Every request of the run is one for a block, so that the caches stay without pages.
  cases step with
  | heap step => exact (BlocksOnly.step ⟨⟨pieces, free, reached⟩, none_⟩ step).2
  | calloc asked called =>
    simp only [HeapSystem.allocated, reached.inv.find_none asked.1]
    exact none_
  | realloc held large asked positive called released => exact none_

/-- What a reallocation that returns a pointer leaves of the bytes, the blocks and the other allocations. -/
structure KeepsContents (system : HeapSystem) (allocation : Allocation) (size ptr : Nat) (next : Heap) :
    Prop where
  contents : ∀ i < min (blockSize system.heap.mem (sub64 allocation.ptr headerSize)) size,
    next.mem (ptr + i) = system.heap.mem (allocation.ptr + i)
  blocks : ∃ blocks, BlockList next.mem blocks ∧ firstOf 0 blocks = next.heapHead ∧
    (∃ block ∈ blocks, block.free = false ∧ ptr = block.addr + headerSize ∧ size ≤ block.size) ∧
    -- A block that was left has become part of a free one.
    (ptr ≠ allocation.ptr → ∃ cover ∈ blocks, cover.free = true ∧ cover.addr + headerSize ≤ allocation.ptr ∧
      allocation.ptr + blockSize system.heap.mem (sub64 allocation.ptr headerSize) ≤ cover.stop)
  apart : ptr ≠ allocation.ptr → ∀ other ∈ system.live, Allocation.Disjoint ⟨ptr, size⟩ other
  -- Not only what the others asked for: their blocks as a whole.
  others : ∀ other ∈ system.live, other ≠ allocation →
    other.size ≤ blockSize system.heap.mem (sub64 other.ptr headerSize) ∧
      ∀ i < blockSize system.heap.mem (sub64 other.ptr headerSize),
        next.mem (other.ptr + i) = system.heap.mem (other.ptr + i)

section

variable {system : HeapSystem} {pieces : List Piece} {free : Fin slabMaxOrder → List Nat}

/-- Where every block in use keeps its bytes, the allocations do, with what else their blocks have. -/
theorem Reached.keeps_others (reached : Reached system pieces free) (none_ : system.slabPages = [])
    {allocation : Allocation} {last : Memory} {block : Block} (pointer : allocation.ptr = block.addr + headerSize)
    (held : allocation ∈ system.live)
    (kept : ∀ own ∈ blocksOf pieces, own.free = false → own ≠ block →
      ∀ i < own.size, last (own.addr + headerSize + i) = system.heap.mem (own.addr + headerSize + i)) :
    ∀ other ∈ system.live, other ≠ allocation →
      other.size ≤ blockSize system.heap.mem (sub64 other.ptr headerSize) ∧
        ∀ i < blockSize system.heap.mem (sub64 other.ptr headerSize),
          last (other.ptr + i) = system.heap.mem (other.ptr + i) := by
  intro other otherHeld differs
  obtain ⟨own, isOwn, ownUse, ownPtr, ownFits, ownPlace, ownSize⟩ :=
    reached.block_of otherHeld (reached.touching none_ otherHeld).1
  rw [ownPlace, ownSize]
  refine ⟨ownFits, fun i inside => ?_⟩
  rw [ownPtr]
  refine kept own isOwn ownUse (fun same => differs ?_) i inside
  -- Allocations with one pointer are one.
  exact List.inj_on_of_nodup_map reached.owned.distinct otherHeld held (by rw [ownPtr, pointer, same])

/-- On the block path a reallocation that returns a pointer keeps the contents. -/
theorem Reached.keepsContents (reached : Reached system pieces free) (none_ : system.slabPages = [])
    {allocation : Allocation} {fuel size ptr : Nat} {next : Heap} (held : allocation ∈ system.live)
    (positive : 1 ≤ size) (bound : size < 2 ^ 63)
    (called : krealloc fuel system.heap allocation.ptr size = .ok (ptr, next)) (nonzero : ptr ≠ 0) :
    KeepsContents system allocation size ptr next := by
  have touching := reached.touching none_ held
  obtain ⟨block, isBlock, inUse, pointer, fits, place, header⟩ := reached.block_of held touching.1
  have given : allocation.ptr ≠ 0 := by
    simp only [headerSize] at pointer
    omega
  have rounds : Rounds size := by
    simp only [Rounds]
    omega
  rcases krealloc_cases given positive called with ⟨stays, rfl, rfl⟩ | ⟨more, ⟨null, -⟩ | ⟨-, copied, moved, rfl⟩⟩
  · -- The block is large enough, and nothing happens.
    rw [place, header] at stays
    refine ⟨fun _ _ => rfl, ⟨blocksOf pieces, reached.inv.layout.list, reached.inv.firstOf_eq_head,
      ⟨block, isBlock, inUse, pointer, stays⟩, fun left => absurd rfl left⟩, fun left => absurd rfl left, ?_⟩
    exact reached.keeps_others none_ pointer held fun _ _ _ _ _ _ => rfl
  · exact absurd null nonzero
  · rw [place, header] at more
    rw [pointer] at moved
    obtain ⟨new, whole⟩ := reached.copied isBlock inUse (Nat.lt_of_lt_of_le touching.1 (by omega)) rounds more moved
    obtain ⟨last, kept, released⟩ := whole.release held isBlock inUse pointer
      (whole.reached.touching none_ (List.mem_cons_of_mem _ held))
    obtain ⟨target, isTarget, targetUse, targetPtr, roomy⟩ := whole.room
    -- The release writes headers only.
    have bytes := whole.reached.inv.layout.keepsHeld released.only
    refine ⟨?_, ⟨blocksOf last, kept.inv.layout.list, kept.inv.firstOf_eq_head, ?_, ?_⟩, ?_, ?_⟩
    · rw [place, header]
      intro i inside
      have copy := whole.moved i (by omega)
      rw [← pointer] at copy
      rw [← copy]
      exact bytes target isTarget targetUse _ (by omega) (by simp only [Block.stop, headerSize] at targetPtr ⊢; omega)
    · -- The target of the copy is still a used block, since the released one is another.
      refine ⟨target, (released.used target targetUse).mpr ⟨isTarget, ?_⟩, targetUse, targetPtr, roomy⟩
      rintro rfl
      exact whole.fresh target isBlock inUse targetPtr
    · -- The old block has become free space that covers what it was.
      intro _
      obtain ⟨cover, isCover, isFree, low, high⟩ := released.available
      rw [place, header, pointer]
      simp only [Block.stop] at high ⊢
      exact ⟨cover, isCover, isFree, by omega, by omega⟩
    · intro _
      have apart := (whole.reached.disjoint).1
      exact (List.pairwise_cons.mp apart).1
    · -- The other blocks were moved by neither the copy nor the release.
      refine reached.keeps_others none_ pointer held fun own isOwn ownUse _ i inside => ?_
      have inside' : own.addr + headerSize + i < own.stop := by
        simp only [Block.stop]
        omega
      rw [bytes own (whole.still own isOwn ownUse) ownUse _ (by omega) inside',
        whole.kept own isOwn ownUse _ (by omega) inside']

end

/--
Reallocation keeps the contents.

In every state reached with requests of blocks only, a reallocation that returns a pointer has moved the bytes
that both sizes have room for into a block of the new size. A block that it leaves becomes part of a free one,
the new place belonged to nobody, and no other block in use changes.
-/
theorem krealloc_keeps_contents {fuel : Nat} {mem : Memory} {paging : Paging (List Nat)} {heap : Heap}
    {ops : List CallOp} {final : HeapSystem} (distinct : DistinctFrames paging.pmm)
    (called : heapInit fuel mem paging = .ok heap)
    (run : Run (CallStep BlockRequest fun _ _ => True) ⟨heap, [], []⟩ ops final) {allocation : Allocation}
    (held : allocation ∈ final.live) {enough size ptr : Nat} {next : Heap} (positive : 1 ≤ size)
    (bound : size < 2 ^ 63) (resized : krealloc enough final.heap allocation.ptr size = .ok (ptr, next))
    (nonzero : ptr ≠ 0) : KeepsContents final allocation size ptr next := by
  -- A run of these calls never gives a slab object back, so every live allocation is a block.
  have only : BlocksOnly final := run.preserves BlocksOnly (fun only step => only.call step)
    ⟨⟨_, _, heapInit_reached distinct called⟩, rfl⟩
  obtain ⟨⟨pieces, free, reached⟩, none_⟩ := only
  exact reached.keepsContents none_ held positive bound resized nonzero

/-- Two blocks are taken, and a third one for the contents of the first. -/
def movingRun : Except Halt (Heap × Heap × Heap × Heap × List Nat) := do
  let heap ← heapInit 1 (fun _ => 0) (bootedWindow [0x200000, 0x201000])
  let (first, one) ← kmalloc 3 heap 600
  let (second, two) ← kmalloc 3 one 700
  let (third, three) ← kmalloc 640 two 1000
  return (heap, one, two, three, [first, second, third])

/-- Where the three blocks are, and the size in the header of the first. -/
theorem movingRun_ok : ∃ heap one two three,
    heapInit 1 (fun _ => 0) (bootedWindow [0x200000, 0x201000]) = .ok heap ∧
    kmalloc 3 heap 600 = .ok (0x40000020, one) ∧ kmalloc 3 one 700 = .ok (0x400002A0, two) ∧
    kmalloc 640 two 1000 = .ok (0x40000580, three) ∧
    blockSize two.mem 0x40000000 = 608 ∧ blockSize three.mem 0x40000000 = 608 := by
  -- The run is computed once: 1000 bytes do not fit behind the two blocks in use.
  obtain ⟨⟨heap, one, two, three, pointers⟩, ran, checked⟩ := @exists_ok Halt _ movingRun
    (fun (_, _, two, three, pointers) => pointers = [0x40000020, 0x400002A0, 0x40000580] ∧
      blockSize two.mem 0x40000000 = 608 ∧ blockSize three.mem 0x40000000 = 608) (by decide +kernel)
  obtain ⟨started, init, ran⟩ := bind_eq_ok.mp ran
  obtain ⟨⟨first, _⟩, tookFirst, ran⟩ := bind_eq_ok.mp ran
  obtain ⟨⟨second, _⟩, tookSecond, ran⟩ := bind_eq_ok.mp ran
  obtain ⟨⟨third, _⟩, tookThird, ran⟩ := bind_eq_ok.mp ran
  cases ran
  simp only [decide_eq_true_eq, List.cons.injEq, and_true] at checked
  obtain ⟨⟨rfl, rfl, rfl⟩, sizes⟩ := checked
  exact ⟨heap, one, two, three, init, tookFirst, tookSecond, tookThird, sizes⟩

/-- The first block moves behind the second one, with its contents. -/
theorem movingRun_keeps :
    ∃ heap final ops next, heapInit 1 (fun _ => 0) (bootedWindow [0x200000, 0x201000]) = .ok heap ∧
      Run (CallStep BlockRequest fun _ _ => True) ⟨heap, [], []⟩ ops final ∧
      krealloc 640 final.heap 0x40000020 1000 = .ok (0x40000580, next) ∧
      KeepsContents final ⟨0x40000020, 600⟩ 1000 0x40000580 next := by
  obtain ⟨heap, one, two, three, init, tookFirst, tookSecond, tookThird, before, after⟩ := movingRun_ok
  have run : Run (CallStep BlockRequest fun _ _ => True) ⟨heap, [], []⟩
      [.heap (.alloc 600), .heap (.alloc 700)] _ :=
    .cons (.heap (.alloc ⟨by decide, by decide⟩ tookFirst)) <|
    .cons (.heap (.alloc ⟨by decide, by decide⟩ tookSecond)) (.nil _)
  -- The loop has a step for each of the 608 bytes.
  obtain ⟨mem, copied⟩ : ∃ mem, copyLoop 0x40000000 0x40000580 0x40000020 640 0 three.mem = .ok mem :=
    copyLoop_total (.inr (by decide)) (by omega)
  have place : sub64 0x40000020 headerSize = 0x40000000 := by decide
  have moved : krealloc 640 two 0x40000020 1000 =
      .ok (0x40000580, kfree { three with mem := mem } 0x40000020) := by
    rw [krealloc, if_neg (by decide), if_neg (by decide), place]
    dsimp only
    rw [before, if_neg (by decide)]
    refine bind_eq_ok.mpr ⟨_, tookThird, ?_⟩
    exact bind_eq_ok.mpr ⟨mem, copied, rfl⟩
  have held : (⟨0x40000020, 600⟩ : Allocation) ∈
      (((⟨heap, [], []⟩ : HeapSystem).allocated 600 0x40000020 one).allocated 700 0x400002A0 two).live := by
    simp [HeapSystem.allocated]
  exact ⟨heap, _, _, _, init, run, moved, krealloc_keeps_contents mixedRun_frames init run held (by decide)
    (by decide) moved (by decide)⟩

end MiraOS
