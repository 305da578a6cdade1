import MiraOS.Kernel.HeapAnswers

/-! Which requests the heap serves: those that one page, a free block or a cache has room for. -/

namespace MiraOS

open Machine

/-- The bytes of a new allocation belong to a block in use or to an object, and to no other allocation. -/
structure Usable (system : HeapSystem) (size ptr : Nat) (next : Heap) : Prop where
  room : ∃ pieces free, HeapInv next pieces free ∧
    ((∃ block ∈ blocksOf pieces, block.free = false ∧ ptr = block.addr + headerSize ∧ size ≤ block.size) ∨
      ∃ order, IsSlot pieces order ptr ∧ ptr ∉ free order ∧ size ≤ slabMinSize <<< order.val)
  inside : next.heapVirtBase ≤ ptr ∧ ptr + size ≤ next.heapVirtBase + next.heapMapped
  apart : ∀ allocation ∈ system.live, Allocation.Disjoint ⟨ptr, size⟩ allocation

/-- A request returns, with null or with as many usable bytes as it asks for. -/
def ServesRequest (system : HeapSystem) (size : Nat) : Prop :=
  ∃ ptr next, Settles (fun fuel => kmalloc fuel system.heap size) (ptr, next) ∧
    (ptr = 0 ∨ Usable system size ptr next)

/-- The next answers of the page allocator are frames, as many as these. -/
def HasFrames (heap : Heap) (count : Nat) : Prop :=
  count ≤ heap.frames.length ∧ ∀ frame ∈ heap.frames.take count, frame ≠ 0

/-- An object or a block is there for the request, or one more page can be had and is large enough for it. -/
def Servable (heap : Heap) (size : Nat) : Prop :=
  FreeObject heap size ∨ (512 < size ∧ Rounds size ∧ FreeRoom heap ((size + 15) / 16 * 16)) ∨
    (heap.CanGrow ∧ (size ≤ 4096 - headerSize ∨
      -- A size that wraps around is rounded to zero, which every free block has room for.
      (¬ Rounds size ∧ ¬ FreeRoom heap 0)))

attribute [local irreducible] blockSize blockFree blockNext blockPrev setSize setFree setNext setPrev
  pagingHeapBase

section Service

variable {system : HeapSystem} {pieces : List Piece} {free : Fin slabMaxOrder → List Nat} {size : Nat}

/-- In a reached state, what was allocated last is usable. -/
theorem Reached.usable {ptr : Nat} {next : Heap} (reached : Reached (system.allocated size ptr next) pieces free)
    (nonzero : ptr ≠ 0) : Usable system size ptr next := by
  have live : (system.allocated size ptr next).live = ⟨ptr, size⟩ :: system.live := by
    rw [HeapSystem.allocated, if_neg nonzero]
  -- Among the allocations held afterwards, the new one is the first.
  obtain ⟨apart, inside⟩ := reached.disjoint
  have held := reached.owned.held
  rw [live] at apart inside held
  refine ⟨⟨pieces, free, reached.inv, ?_⟩, inside _ List.mem_cons_self, (List.pairwise_cons.mp apart).1⟩
  -- The caller holds a block or an object.
  rcases held _ List.mem_cons_self with ⟨-, block, member, inUse, pointer, large⟩ | ⟨-, order, slot⟩
  · exact .inl ⟨block, member, inUse, pointer, large⟩
  · exact .inr ⟨order, slot⟩

/-- A size that wraps around has no usable bytes in the window. -/
theorem not_usable_of_wraps {ptr : Nat} {next : Heap} (wraps : ¬ Rounds size)
    (base : next.heapVirtBase = pagingHeapBase) (small : next.heapMapped ≤ 2 ^ 29) :
    ¬ Usable system size ptr next := by
  intro usable
  -- A request that wraps is near 2⁶⁴, so its end would lie far past the window.
  have inside := usable.inside
  have limit := pagingHeapBase_eq
  simp only [Rounds] at wraps
  omega

/-- A request is served exactly when it does not run out of pages, and rounds up or is answered with null. -/
theorem Reached.serves_answers (reached : Reached system pieces free) (word : size < 2 ^ 64) :
    ServesRequest system size ↔ ¬ OutOfPages system.heap size ∧ (Rounds size ∨ GivesNull system.heap size) := by
  rcases reached.answers word with
    ⟨out, panics⟩ | ⟨next, inside, null, settled⟩ |
    ⟨ptr, next, inside, some, nonzero, settled, base, small, kept⟩
  · -- A request that panics has no answer.
    refine iff_of_false ?_ fun served => served.1 out
    rintro ⟨ptr, next, settled, -⟩
    exact panics.not_settles settled
  · exact iff_of_true ⟨0, next, settled, .inl rfl⟩ ⟨inside, .inr null⟩
  · -- A pointer is to as many bytes as were asked for, unless the size wrapped around.
    by_cases rounds : Rounds size
    · obtain ⟨new, left, whole⟩ := kept rounds
      exact iff_of_true ⟨ptr, next, settled, .inr (whole.usable nonzero)⟩ ⟨inside, .inl rounds⟩
    · refine iff_of_false ?_ fun served => (served.2.resolve_left rounds |> some)
      rintro ⟨other, last, settledToo, answer⟩
      cases settledToo.unique settled
      exact answer.elim nonzero (not_usable_of_wraps rounds base small)

/-- What there is for a request, or can be had for it, decides whether it is served. -/
theorem HeapInv.servable_iff {heap : Heap} (inv : HeapInv heap pieces free) (positive : 1 ≤ size)
    (word : size < 2 ^ 64) (frame : heap.takeFrame.1 ≠ 0) :
    Servable heap size ↔ ¬ OutOfPages heap size ∧ (Rounds size ∨ GivesNull heap size) := by
  by_cases small : size ≤ 512
  · -- A new page is large enough for every object.
    have rounds : Rounds size := by simp only [Rounds]; omega
    have fits : size ≤ 4096 - headerSize := by simp only [headerSize]; omega
    have notLarge : ¬ 512 < size := by omega
    have some : 0 < size := positive
    simp only [Servable, OutOfPages, notLarge, small, rounds, fits, some, frame, ne_eq, not_false_eq_true]
    tauto
  have large : 512 < size := by omega
  have none : ¬ FreeObject heap size := by
    rintro ⟨order, found, -⟩
    rw [inv.find_none large] at found
    cases found
  simp only [Servable, outOfPages_iff large, inv.givesNull_iff large, none, large]
  by_cases rounds : Rounds size
  · -- What a page has behind its header is a multiple of sixteen.
    have rounded := searchedSize_eq rounds
    have fits : 4096 - headerSize < searchedSize size ↔ ¬ size ≤ 4096 - headerSize := by
      simp only [headerSize]
      omega
    rw [fits, ← rounded]
    simp only [rounds]
    tauto
  · have wide : ¬ size ≤ 4096 - headerSize := by
      simp only [Rounds] at rounds
      simp only [headerSize]
      omega
    simp only [searchedSize_wraps word rounds, rounds, wide, Nat.not_lt_zero]
    tauto

/-- In a reached state with a frame left, a request is served exactly when there is room for it. -/
theorem Reached.serves_iff (reached : Reached system pieces free) (positive : 1 ≤ size) (word : size < 2 ^ 64)
    (frame : system.heap.takeFrame.1 ≠ 0) : ServesRequest system size ↔ Servable system.heap size :=
  (reached.serves_answers word).trans (reached.inv.servable_iff positive word frame).symm

end Service

/--
Which requests are served.

In every state of a run whose requests do not wrap around and whose releases merge touching blocks only, and
with a frame left, a request returns null or as many usable bytes as it asks for exactly when its cache has a
free object, when a free block has room for it, or when one more page and its tables can be had and the size
fits into one page or wraps around with no block free.
-/
theorem kmalloc_serves_iff {fuel : Nat} {mem : Memory} {paging : Paging (List Nat)} {heap : Heap} {ops : List HeapOp}
    {final : HeapSystem} (distinct : DistinctFrames paging.pmm) (called : heapInit fuel mem paging = .ok heap)
    (run : Run (HeapStep Rounds TouchingBlock) ⟨heap, [], []⟩ ops final) {size : Nat} (positive : 1 ≤ size)
    (word : size < 2 ^ 64) (frame : final.heap.takeFrame.1 ≠ 0) :
    ServesRequest final size ↔ Servable final.heap size := by
  obtain ⟨pieces, free, reached⟩ := reached_of_run distinct called run
  exact reached.serves_iff positive word frame

/-- The heap after boot with three frames left, one more page of it, and what a request of 5000 bytes panics with. -/
def oversizedRun : Except Halt (Heap × Heap × List Nat × Option String) := do
  let heap ← heapInit 1 (fun _ => 0) (bootedWindow [0x200000, 0x201000, 0x202000, 0x203000])
  let grown ← heap.takeFrame.2.mapAtEnd heap.takeFrame.1
  match kmalloc 8 heap 5000 with
  | .error (.panic message) => return (heap, grown, heap.frames, some message)
  | _ => return (heap, grown, heap.frames, none)

/-- That request uses up all three frames. -/
theorem oversizedRun_ok : ∃ heap,
    heapInit 1 (fun _ => 0) (bootedWindow [0x200000, 0x201000, 0x202000, 0x203000]) = .ok heap ∧
    heap.frames = [0x201000, 0x202000, 0x203000] ∧ heap.CanGrow ∧
    kmalloc 8 heap 5000 = .error (.panic "heap oom") := by
  -- The run is computed once, and its steps are taken apart.
  obtain ⟨⟨heap, grown, frames, message⟩, ran, checked⟩ := @exists_ok Halt _ oversizedRun
    (fun (_, _, frames, message) => frames = [0x201000, 0x202000, 0x203000] ∧ message = some "heap oom")
    (by decide +kernel)
  simp only [decide_eq_true_eq] at checked
  obtain ⟨left, panics⟩ := checked
  obtain ⟨started, init, ran⟩ := bind_eq_ok.mp ran
  obtain ⟨larger, page, ran⟩ := bind_eq_ok.mp ran
  refine ⟨started, init, ?_⟩
  split at ran
  · next message' stopped =>
    cases ran
    -- One frame is enough for a page, and more than the run has for the rest.
    refine ⟨left, ⟨grown, ?_, page⟩, by rw [stopped]; cases panics; rfl⟩
    simp [Heap.takeFrame, left]
  · cases ran
    cases panics

/-- The frames of that heap are different pages of physical memory. -/
theorem oversizedRun_frames : DistinctFrames (bootedWindow [0x200000, 0x201000, 0x202000, 0x203000]).pmm :=
  ⟨by decide, by decide⟩

/-- Right after boot, a request for an object is served, from a page that is mapped for it. -/
theorem page_request_served : ∃ heap,
    heapInit 1 (fun _ => 0) (bootedWindow [0x200000, 0x201000, 0x202000, 0x203000]) = .ok heap ∧
    heap.takeFrame.1 ≠ 0 ∧ ¬ FreeObject heap 100 ∧ ServesRequest ⟨heap, [], []⟩ 100 := by
  obtain ⟨heap, init, left, can, -⟩ := oversizedRun_ok
  have frame : heap.takeFrame.1 ≠ 0 := by simp [Heap.takeFrame, left]
  refine ⟨heap, init, frame, ?_, (kmalloc_serves_iff oversizedRun_frames init (.nil _) (by decide) (by decide)
    frame).mpr (.inr (.inr ⟨can, .inl (by decide)⟩))⟩
  -- No cache has objects yet.
  rintro ⟨order, -, object⟩
  have slab := (heapInit_reached oversizedRun_frames init).inv.slabs order
  exact object slab.chain

/-- A request of 5000 bytes does not return, with frames for more bytes than it asks for. -/
theorem oversized_request_fails :
    ¬ ∀ (fuel : Nat) (mem : Memory) (paging : Paging (List Nat)) (heap : Heap) (ops : List HeapOp) (final : HeapSystem)
      (size : Nat), DistinctFrames paging.pmm → heapInit fuel mem paging = .ok heap →
      Run (HeapStep Rounds TouchingBlock) ⟨heap, [], []⟩ ops final → 1 ≤ size → size < 2 ^ 64 →
      HasFrames final.heap ((size + headerSize + 4095) / 4096 + 1) → ServesRequest final size := by
  intro claim
  obtain ⟨heap, init, left, -, -⟩ := oversizedRun_ok
  have enoughFrames : HasFrames heap 3 := by
    rw [HasFrames, left]
    decide
  obtain ⟨ptr, next, settled, -⟩ := claim _ _ _ _ _ _ 5000 oversizedRun_frames init (.nil _) (by decide)
    (by decide) enoughFrames
  -- The only free block is the first page.
  have inv := (heapInit_reached oversizedRun_frames init).inv
  have rounded : searchedSize 5000 = 5008 := by decide
  refine (inv.kmalloc_panics (by decide) (.inl ⟨by decide, ?_, .inl (by decide)⟩)).not_settles settled
  rw [rounded, inv.freeRoom_iff]
  rintro ⟨block, member, -, room⟩
  rw [blocksOf_block, blocksOf_nil, List.mem_singleton] at member
  rw [member] at room
  simp only [firstBlock, headerSize] at room
  omega

end MiraOS
