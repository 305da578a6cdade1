import MiraOS.Kernel.HeapInvariant

/-! Taking a block: the first-fit search, the cut and the growth of the window. -/

namespace MiraOS

open Machine

attribute [local irreducible] blockSize blockFree blockNext blockPrev setSize setFree setNext setPrev

/-- The search stops at a free block that is large enough, or at the end of the list. -/
theorem findFit_ok {mem : Memory} {size fuel prev current : Nat} {blocks : List Block}
    (linked : Linked mem 0 prev blocks) (positive : ∀ block ∈ blocks, 0 < block.addr)
    (found : findFit mem size fuel (firstOf 0 blocks) = .ok current) :
    (current = 0 ∧ ∀ block ∈ blocks, block.free = true → block.size < size) ∨
    ∃ before block after, blocks = before ++ block :: after ∧ current = block.addr ∧
      block.free = true ∧ size ≤ block.size := by
  -- Each step of the search moves on by one block.
  induction fuel generalizing prev blocks with
  | zero =>
    cases blocks with
    | nil =>
      cases found
      exact .inl ⟨rfl, by simp⟩
    | cons block rest =>
      have := positive block List.mem_cons_self
      rw [firstOf, findFit, if_neg (by omega)] at found
      cases found
  | succ fuel ih =>
    cases blocks with
    | nil =>
      cases found
      exact .inl ⟨rfl, by simp⟩
    -- The search reads the size, the flag and the link of the block in front.
    | cons block rest =>
      have nonzero := positive block List.mem_cons_self
      have size_ : blockSize mem block.addr = block.size := congrArg Header.size linked.1
      have flag : blockFree mem block.addr = if block.free then 1 else 0 :=
        congrArg Header.free linked.1
      have link : blockNext mem block.addr = firstOf 0 rest := congrArg Header.next linked.1
      rw [firstOf, findFit, if_neg (by omega), size_, flag, link] at found
      -- The test of the source is about the two fields of the block in front.
      by_cases fits : block.free = true ∧ size ≤ block.size
      · rw [if_pos (by simpa [fits.1] using fits.2)] at found
        cases found
        exact .inr ⟨[], block, rest, rfl, rfl, fits.1, fits.2⟩
      · have skipped : ¬ ((if block.free = true then 1 else 0) ≠ 0 ∧ size ≤ block.size) := by
          rintro ⟨isFree, large⟩
          exact fits ⟨by simpa using isFree, large⟩
        rw [if_neg skipped] at found
        -- A block that was passed over is in use or too small.
        rcases ih linked.2 (fun other member => positive other (List.mem_cons_of_mem _ member)) found
          with ⟨none_, small⟩ | ⟨before, other, after, rfl, same, isFree, large⟩
        · refine .inl ⟨none_, fun other member isFree => ?_⟩
          rcases List.mem_cons.mp member with rfl | member
          · exact Nat.lt_of_not_le fun large => fits ⟨isFree, large⟩
          · exact small other member isFree
        · exact .inr ⟨block :: before, other, after, rfl, same, isFree, large⟩

/-- The walk to the end of a list returns its last block. -/
theorem listTail_ok {mem : Memory} {fuel prev tail : Nat} {block : Block} {rest : List Block}
    (linked : Linked mem 0 prev (block :: rest)) (positive : ∀ other ∈ rest, 0 < other.addr)
    (found : listTail mem fuel block.addr = .ok tail) : tail = lastOf block.addr rest := by
  -- Every step follows one link, until a link is zero.
  induction fuel generalizing prev block rest with
  | zero =>
    have link : blockNext mem block.addr = firstOf 0 rest := congrArg Header.next linked.1
    rw [listTail, link] at found
    cases rest with
    | nil =>
      cases found
      rfl
    -- A block that has a successor is not the tail, and without fuel the walk cannot go on.
    | cons next others =>
      have := positive next List.mem_cons_self
      rw [firstOf, if_neg (by omega)] at found
      cases found
  | succ fuel ih =>
    have link : blockNext mem block.addr = firstOf 0 rest := congrArg Header.next linked.1
    rw [listTail, link] at found
    cases rest with
    | nil =>
      cases found
      rfl
    | cons next others =>
      have := positive next List.mem_cons_self
      rw [firstOf, if_neg (by omega)] at found
      show tail = lastOf next.addr others
      exact ih linked.2 (fun other member => positive other (List.mem_cons_of_mem _ member)) found

/-- A free block has become a block in use, the pages being untouched. -/
structure Taken (mem last : Memory) (low high size : Nat) (block : Block) (old new : List Piece) :
    Prop where
  layout : Layout last low high new
  inUse : block.free = false
  large : size ≤ block.size
  -- The blocks in use are the ones that were, and this one.
  used : ∀ other, other.free = false →
    (other ∈ blocksOf new ↔ other ∈ blocksOf old ∨ other = block)
  fresh : ∀ other ∈ blocksOf old, other.free = false → other.addr ≠ block.addr
  pages : ∀ cache, pagesOf cache new = pagesOf cache old
  only : OnlyHeaders (headersOf (blocksOf new)) mem last

/-- Taking a free block, cut down to the size when there is room. -/
theorem Layout.take {mem : Memory} {low high size : Nat} {before after : List Piece} {block : Block}
    (layout : Layout mem low high (before ++ .block block :: after)) (free : block.free = true)
    (large : size ≤ block.size) (fits : size + headerSize + minBlock < 2 ^ 64) :
    ∃ taken new, taken.addr = block.addr ∧
      Taken mem (setFree (splitBlock mem block.addr size) block.addr 0) low high size taken
        (before ++ .block block :: after) new := by
  have list := layout.list
  simp only [blocksOf_append, blocksOf_block] at list
  -- The blocks in use are other blocks, and so at other addresses.
  have fresh : ∀ other ∈ blocksOf (before ++ .block block :: after), other.free = false →
      other.addr ≠ block.addr := by
    intro other member used
    simp only [blocksOf_append, blocksOf_block, List.mem_append, List.mem_cons] at member
    rcases member with member | rfl | member
    · have := list.around.1 other member
      simp only [Block.stop, headerSize] at this
      omega
    · rw [free] at used
      cases used
    · have := list.around.2 other member
      simp only [Block.stop, headerSize] at this
      omega
  -- A block in use is not the free one that is taken.
  have notOld : ∀ other : Block, other.free = false → other ≠ block := by
    rintro other used rfl
    rw [free] at used
    cases used
  by_cases room : size + headerSize + minBlock ≤ block.size
  -- With room, the block is cut first and its front part marked.
  · obtain ⟨divided, only⟩ := layout.split room
    have parts : Layout (splitBlock mem block.addr size) low high
        (before ++ .block { block with size := size } ::
          .block ⟨block.addr + headerSize + size, block.size - size - headerSize, true⟩ :: after) := by
      simpa [carve] using divided
    have flagged := parts.setFlag false
    refine ⟨{ block with size := size, free := false }, _, rfl, flagged, rfl, Nat.le_refl _, ?_,
      fresh, ?_, ?_⟩
    · intro other used
      -- The rest of the block is free, so a used block is one of the old ones or the front part.
      have notRest : other ≠ ⟨block.addr + headerSize + size, block.size - size - headerSize, true⟩ := by
        rintro rfl
        cases used
      simp only [blocksOf_append, blocksOf_block, List.mem_append, List.mem_cons, notOld other used,
        notRest, false_or]
      tauto
    · intro cache
      simp
    · -- The headers that were written are those of the block, of its rest and of the block behind.
      refine (only.trans onlyHeaders_set.2.1).mono fun address member => ?_
      simp only [headersOf, blocksOf_append, blocksOf_block, List.map_append, List.map_cons,
        List.mem_append, List.mem_cons, List.not_mem_nil, or_false] at member ⊢
      rcases member with (same | same | later) | same
      · exact .inr (.inl same)
      · exact .inr (.inr (.inl same))
      · exact .inr (.inr (.inr later))
      · exact .inr (.inl same)
  -- Without, it is taken as it is, with all of its size.
  · have whole : splitBlock mem block.addr size = mem :=
      splitBlock_small fits (by rw [list.fields.1]; omega)
    rw [whole]
    have flagged := layout.setFlag false
    refine ⟨{ block with free := false }, _, rfl, flagged, rfl, large, ?_, fresh, ?_, ?_⟩
    · intro other used
      simp only [blocksOf_append, blocksOf_block, List.mem_append, List.mem_cons, notOld other used,
        false_or]
      tauto
    · intro cache
      simp
    · refine onlyHeaders_set.2.1.mono fun address member => ?_
      rw [List.mem_singleton.mp member]
      simp [headersOf]

/-- The window has grown by a page: a frame was taken, and mapped at its end. -/
def Heap.GrowsTo (heap grown : Heap) : Prop :=
  heap.takeFrame.1 ≠ 0 ∧ heap.takeFrame.2.mapAtEnd heap.takeFrame.1 = .ok grown

/-- There are frames for one more page and for the tables that it needs. -/
def Heap.CanGrow (heap : Heap) : Prop := ∃ grown, heap.GrowsTo grown

/-- Mapping a page at the end panics if it does not return. -/
theorem Heap.mapAtEnd_panics {heap : Heap} {frame : Nat} {halt : Halt}
    (stopped : heap.mapAtEnd frame = .error halt) : halt.IsPanic := by
  -- Mapping the page panics without a frame, and nothing behind it can fail.
  rcases bind_eq_error.mp stopped with inside | ⟨_, _, last⟩
  · exact pagingMapPage_answers (Nat.lt_succ_self _) inside
  · cases last

/-- Mapping a page at the end changes the page tables and the size of the window, and nothing else. -/
theorem Heap.mapAtEnd_fields {heap grown : Heap} {frame : Nat} (mapped : heap.mapAtEnd frame = .ok grown) :
    grown = { heap with paging := grown.paging, heapMapped := add64 heap.heapMapped 4096 } ∧
      grown.frames <:+ heap.frames := by
  -- Only the paging state and the mapped length change.
  obtain ⟨⟨virt, paging⟩, called, result⟩ := bind_eq_ok.mp mapped
  cases result
  exact ⟨rfl, (pagingMapPage_allocations popFrame called).suffix⟩

section GrowsTo

variable {heap grown : Heap}

/-- One more page changes the size of the window and nothing else of these. -/
theorem Heap.GrowsTo.fields (grows : heap.GrowsTo grown) :
    grown.heapVirtBase = heap.heapVirtBase ∧ grown.heapHead = heap.heapHead ∧ grown.mem = heap.mem ∧
    grown.slabCaches = heap.slabCaches ∧ grown.heapMapped = add64 heap.heapMapped 4096 := by
  -- Growing maps one page and writes none of the heap's fields but its length.
  obtain ⟨same, -⟩ := Heap.mapAtEnd_fields grows.2
  rw [same]
  exact ⟨rfl, rfl, rfl, rfl, rfl⟩

/-- The page has taken an answer of the page allocator, and its tables may have taken more. -/
theorem Heap.GrowsTo.frames (grows : heap.GrowsTo grown) : ∃ frame rest,
    heap.frames = frame :: rest ∧ frame ≠ 0 ∧ grown.frames <:+ rest := by
  have some := grows.1
  have left := (Heap.mapAtEnd_fields grows.2).2
  -- An answer that is not null was in the list.
  cases answers : heap.frames with
  | nil => exact absurd (by rw [Heap.takeFrame, answers]; rfl) some
  | cons frame rest =>
    simp only [Heap.takeFrame, answers, List.headD_cons, List.tail_cons] at some left
    exact ⟨frame, rest, rfl, some, left⟩

/-- Every page uses up at least one frame. -/
theorem Heap.GrowsTo.countP_frames (grows : heap.GrowsTo grown) :
    grown.frames.countP (· ≠ 0) + 1 ≤ heap.frames.countP (· ≠ 0) := by
  -- The mapped frame is one that counted as free.
  obtain ⟨frame, rest, answers, some, left⟩ := grows.frames
  have fewer := left.sublist.countP_le (p := (· ≠ 0))
  rw [answers, List.countP_cons_of_pos (by simpa using some)]
  omega

end GrowsTo

/-- Asking for one more page maps exactly one, or fails. -/
theorem heapMapMore_one {fuel needed : Nat} {heap next : Heap}
    (small : heap.heapMapped + 4096 < 2 ^ 64) (one : needed = heap.heapMapped + 4096)
    (mapped : heapMapMore fuel heap needed = .ok next) : heap.GrowsTo next := by
  have larger : add64 heap.heapMapped 4096 = heap.heapMapped + 4096 := add64_of_lt small
  subst one
  -- The loop maps a page while the window is too small, which is once.
  cases fuel with
  | zero =>
    rw [heapMapMore, if_pos (by omega)] at mapped
    cases mapped
  | succ fuel =>
    rw [heapMapMore, if_pos (by omega)] at mapped
    dsimp only at mapped
    by_cases none_ : heap.takeFrame.1 = 0
    · rw [if_pos none_] at mapped
      cases mapped
    · rw [if_neg none_] at mapped
      obtain ⟨grown, page, rest⟩ := bind_eq_ok.mp mapped
      have grows : heap.GrowsTo grown := ⟨none_, page⟩
      -- After one page the window is large enough.
      have enough : ¬ grown.heapMapped < heap.heapMapped + 4096 := by
        rw [grows.fields.2.2.2.2, larger]
        omega
      cases fuel with
      | zero =>
        rw [heapMapMore, if_neg enough] at rest
        exact Except.ok.inj rest ▸ grows
      | succ fuel =>
        rw [heapMapMore, if_neg enough] at rest
        exact Except.ok.inj rest ▸ grows

/-- The free block that one more page becomes. -/
def newArea (heap : Heap) : Block := ⟨pagingHeapBase + heap.heapMapped, 4096 - headerSize, true⟩

/-- Appending a block to a list that ends below it. -/
theorem BlockList.append {mem : Memory} {before : List Block} {tail area : Block}
    (list : BlockList mem (before ++ [tail])) (behind : tail.stop ≤ area.addr)
    (fits : area.stop < 2 ^ 64) (free : area.free = true) :
    BlockList (setNext (setFree (setSize (setPrev (setNext mem tail.addr area.addr) area.addr
        tail.addr) area.addr area.size) area.addr 1) area.addr 0) (before ++ [tail, area]) ∧
    OnlyHeaders [tail.addr, area.addr] mem (setNext (setFree (setSize (setPrev (setNext mem tail.addr
      area.addr) area.addr tail.addr) area.addr area.size) area.addr 1) area.addr 0) := by
  have bound := list.bounded tail (by simp)
  simp only [Block.stop] at behind fits bound
  have areaFits : area.addr < 2 ^ 64 := by omega
  have tailFits : tail.addr < 2 ^ 64 := by omega
  have apart : Apart tail.addr area.addr := .inl (by omega)
  -- The old tail gets a forward link, and then all four fields of the new header are stored.
  have tailHeader : readHeader (setNext mem tail.addr area.addr) tail.addr =
      tail.header area.addr (lastOf 0 before) := by
    rw [readHeader_setNext areaFits, list.header]
    rfl
  have onlyArea : OnlyHeaders [area.addr] (setNext mem tail.addr area.addr)
      (setNext (setFree (setSize (setPrev (setNext mem tail.addr area.addr) area.addr tail.addr)
        area.addr area.size) area.addr 1) area.addr 0) :=
    (((onlyHeaders_set.2.2.2.trans onlyHeaders_set.1).trans onlyHeaders_set.2.1).trans
      onlyHeaders_set.2.2.1).mono (by simp)
  have areaHeader : readHeader (setNext (setFree (setSize (setPrev (setNext mem tail.addr area.addr)
      area.addr tail.addr) area.addr area.size) area.addr 1) area.addr 0) area.addr =
      area.header 0 tail.addr := by
    rw [readHeader_setNext (by decide), readHeader_setFree (by decide),
      readHeader_setSize (by omega), readHeader_setPrev tailFits, Block.header, if_pos free]
  have only := (@onlyHeaders_set mem tail.addr area.addr).2.2.1.trans onlyArea
  refine ⟨?_, only⟩
  -- The tail is replaced by the tail and the new block; nothing comes behind them.
  refine BlockList.replace [] [area] [tail.addr, area.addr] area.stop list rfl fits (by simp) only ?_
    ⟨?_, areaHeader, trivial⟩ (fun some => absurd rfl some) ?_ ?_
  · intro address member
    simp only [List.mem_cons, List.not_mem_nil, or_false] at member
    simp only [Block.stop]
    omega
  · rw [onlyArea.header, tailHeader]
    · rfl
    · intro changed member
      rw [List.mem_singleton.mp member]
      exact apart
  · simp only [List.pairwise_cons, List.mem_singleton, forall_eq, List.not_mem_nil,
      IsEmpty.forall_iff, implies_true, List.Pairwise.nil, and_true, Block.stop]
    exact behind
  · simp only [List.mem_cons, List.not_mem_nil, or_false, forall_eq_or_imp, forall_eq, Block.stop]
    omega

section Grow

attribute [local irreducible] pagingHeapBase

variable {heap grown : Heap} {pieces : List Piece} {free : Fin slabMaxOrder → List Nat}

/-- The bounds on the window that rule out every overflow. -/
theorem HeapInv.small (inv : HeapInv heap pieces free) : heap.heapMapped ≤ 2 ^ 29 := by
  have := inv.budget
  omega

/-- One more page, in plain arithmetic. -/
theorem HeapInv.grown_fields (inv : HeapInv heap pieces free) (grows : heap.GrowsTo grown) :
    grown.heapMapped = heap.heapMapped + 4096 ∧
    sub64 (add64 grown.heapVirtBase grown.heapMapped) 4096 = pagingHeapBase + heap.heapMapped := by
  -- The window is small, so its end does not wrap around.
  have small := inv.small
  obtain ⟨base, _, _, _, mapped⟩ := grows.fields
  rw [add64_of_lt (by omega)] at mapped
  refine ⟨mapped, ?_⟩
  have limit := pagingHeapBase_eq
  have sum : add64 pagingHeapBase (heap.heapMapped + 4096) =
      pagingHeapBase + (heap.heapMapped + 4096) := add64_of_lt (by omega)
  rw [mapped, base, inv.base, sum, sub64_of_le (by omega) (by omega)]
  omega

/-- What a new piece at the end of the window has to bring for the invariant to hold again. -/
theorem HeapInv.extend (inv : HeapInv heap pieces free) (grows : heap.GrowsTo grown) {next : Heap}
    {piece : Piece} {objects : Fin slabMaxOrder → List Nat}
    (base : next.heapVirtBase = pagingHeapBase) (head : next.heapHead = pagingHeapBase)
    (mapped : next.heapMapped = heap.heapMapped + 4096) (paging : next.paging = grown.paging)
    (start : piece.start = pagingHeapBase + heap.heapMapped) (length : piece.length = 4096)
    (list : BlockList next.mem (blocksOf (pieces ++ [piece])))
    (slabs : ∀ cache, SlabInv next.mem (next.slabCaches cache) cache
      (pagesOf cache (pieces ++ [piece])) (objects cache)) :
    HeapInv next (pieces ++ [piece]) objects where
  base := base
  head := head
  layout := by
    refine ⟨?_, list, ?_⟩
    · -- The new piece starts where the old ones end.
      rw [mapped]
      refine tiles_append.mpr ⟨_, inv.layout.tiles, start, ?_⟩
      rw [length, Nat.add_assoc]
      rfl
    · obtain ⟨first, rest, rfl⟩ := inv.layout.starts
      exact ⟨first, rest ++ [piece], rfl⟩
  whole := by
    have := inv.whole
    omega
  pageAligned := by
    intro address cache member
    have whole := inv.whole
    -- An old page stays aligned, and the new piece starts at the old end of the window.
    rcases List.mem_append.mp member with member | member
    · exact inv.pageAligned member
    · rw [List.mem_singleton] at member
      rw [← member] at start
      have limit := pagingHeapBase_eq
      simp only [Piece.start] at start
      omega
  budget := by
    -- The window grows by a page, and by at least one frame there are fewer.
    have budget := inv.budget
    have fewer := grows.countP_frames
    have left : next.frames = grown.frames := congrArg Paging.pmm paging
    rw [mapped, left]
    omega
  slabs := slabs

/-- Appending a page takes a frame, and links the new block behind the last one of the list. -/
theorem HeapInv.appendArea_links (inv : HeapInv heap pieces free) {fuel : Nat} {next : Heap}
    (called : MiraOS.appendArea fuel heap = .ok next) :
    ∃ grown, heap.GrowsTo grown ∧ ∃ before last, blocksOf pieces = before ++ [last] ∧
      next = { grown with
        mem := setNext (setFree (setSize (setPrev (setNext heap.mem last.addr (newArea heap).addr)
          (newArea heap).addr last.addr) (newArea heap).addr (newArea heap).size) (newArea heap).addr 1)
          (newArea heap).addr 0
        heapHead := pagingHeapBase } := by
  have small := inv.small
  obtain ⟨grown, mapping, called⟩ := bind_eq_ok.mp called
  have grows := heapMapMore_one (by omega) (add64_of_lt (by omega)) mapping
  have limit := pagingHeapBase_eq
  have head : grown.heapHead = pagingHeapBase := grows.fields.2.1.trans inv.head
  rw [(inv.grown_fields grows).2, head, grows.fields.2.2.1, if_pos (by omega)] at called
  obtain ⟨tail, found, called⟩ := bind_eq_ok.mp called
  cases called
  -- The list is not empty, and its last block is where the new one is linked.
  obtain ⟨first, rest, starts⟩ := inv.layout.starts
  -- The head of the list is the first piece, which lies at the base of the window.
  have firstAddr : first.addr = pagingHeapBase := by
    have tiles := inv.layout.tiles
    rw [starts] at tiles
    exact tiles.1
  have list := inv.layout.list
  have listed : blocksOf pieces = first :: blocksOf rest := by rw [starts]; rfl
  have isTail : tail = lastOf first.addr (blocksOf rest) := by
    have linked := list.linked
    rw [listed] at linked
    rw [← firstAddr] at found
    exact listTail_ok linked (fun other member => (list.bounded other (by simp [listed, member])).1)
      found
  obtain ⟨before, last, split⟩ : ∃ before last, blocksOf pieces = before ++ [last] := by
    rcases List.eq_nil_or_concat (blocksOf pieces) with none_ | ⟨before, last, same⟩
    · rw [listed] at none_
      cases none_
    · exact ⟨before, last, by rw [same, List.concat_eq_append]⟩
  -- The walk ends at the last block of the list.
  have tailLast : tail = last.addr := by
    have same : lastOf 0 (blocksOf pieces) = lastOf first.addr (blocksOf rest) := by rw [listed]; rfl
    rw [isTail, ← same, split, lastOf_append]
    rfl
  refine ⟨grown, grows, before, last, split, ?_⟩
  rw [tailLast]
  rfl

/-- Appending a page to the block list keeps the invariant, and writes headers of the list only. -/
theorem HeapInv.appendArea_only (inv : HeapInv heap pieces free) {fuel : Nat} {next : Heap}
    (called : MiraOS.appendArea fuel heap = .ok next) :
    HeapInv next (pieces ++ [.block (newArea heap)]) free ∧
      next.slabCaches = heap.slabCaches ∧ next.heapMapped = heap.heapMapped + 4096 ∧
      OnlyHeaders (headersOf (blocksOf (pieces ++ [.block (newArea heap)]))) heap.mem next.mem := by
  obtain ⟨grown, grows, before, last, split, rfl⟩ := inv.appendArea_links called
  have small := inv.small
  have limit := pagingHeapBase_eq
  have list := inv.layout.list
  have inside := inv.layout.tiles.inside (mem_blocksOf.mp (show last ∈ blocksOf pieces by simp [split]))
  simp only [Piece.start, Piece.length] at inside
  rw [split] at list
  have behind : last.stop ≤ (newArea heap).addr := by simp only [Block.stop, newArea]; omega
  have fits : (newArea heap).stop < 2 ^ 64 := by simp only [Block.stop, newArea, headerSize]; omega
  obtain ⟨appended, only⟩ := list.append behind fits rfl
  have blocks : blocksOf (pieces ++ [.block (newArea heap)]) = before ++ [last, newArea heap] := by
    simp [split]
  refine ⟨?_, grows.fields.2.2.2.1, (inv.grown_fields grows).1, ?_⟩
  · refine inv.extend grows (grows.fields.1.trans inv.base) rfl (inv.grown_fields grows).1 rfl rfl rfl ?_ ?_
    · rw [blocks]
      exact appended
    · intro cache
      have pages : pagesOf cache (pieces ++ [.block (newArea heap)]) = pagesOf cache pieces := by simp
      simp only [pages, grows.fields.2.2.2.1]
      refine (inv.slabs cache).frame fun page isPage byte low high => only byte fun address member => ?_
      -- A page of a cache is apart from the last block and lies before the new one.
      have apart := inv.layout.page_apart (show last ∈ blocksOf pieces by simp [split]) isPage
      have pageInside := inv.layout.tiles.inside (mem_pagesOf.mp isPage)
      simp only [Piece.start, Piece.length] at pageInside
      simp only [Block.stop] at apart
      simp only [List.mem_cons, List.not_mem_nil, or_false] at member
      rcases member with rfl | rfl
      · omega
      · simp only [newArea]
        omega
  · refine only.mono fun address member => ?_
    rw [blocks, headersOf]
    simp only [List.mem_cons, List.not_mem_nil, or_false] at member
    rcases member with rfl | rfl
    · simp
    · simp

/-- Appending a page to the block list keeps the invariant. -/
theorem HeapInv.appendArea (inv : HeapInv heap pieces free) {fuel : Nat} {next : Heap}
    (called : MiraOS.appendArea fuel heap = .ok next) :
    HeapInv next (pieces ++ [.block (newArea heap)]) free ∧
      next.slabCaches = heap.slabCaches ∧ next.heapMapped = heap.heapMapped + 4096 := by
  -- This is the part of the general lemma that speaks of the invariant.
  obtain ⟨kept, caches, mapped, -⟩ := inv.appendArea_only called
  exact ⟨kept, caches, mapped⟩

end Grow

end MiraOS
