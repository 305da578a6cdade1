import MiraOS.Arch.PagingRefinement
import MiraOS.Kernel.HeapSystem
import Mathlib.Data.List.NodupEquivFin

/-! Runs of the heap from its initialisation: allocations stay apart, and a release stays local. -/

namespace MiraOS

open Machine

/-- Answers of the page allocator: null, or whole frames of physical memory, each at most once. -/
structure DistinctFrames (frames : List Nat) : Prop where
  whole : ∀ frame ∈ frames, frame % 4096 = 0 ∧ frame < 131072 * 4096
  distinct : (frames.filter (· ≠ 0)).Nodup

/-- There are no more distinct frames than physical memory has. -/
theorem DistinctFrames.countP_le {frames : List Nat} (distinct : DistinctFrames frames) :
    frames.countP (· ≠ 0) ≤ 131072 := by
  rw [List.countP_eq_length_filter]
  -- Different frames have different numbers below 131072.
  have numbers : ((frames.filter (· ≠ 0)).map (· / 4096)).Nodup := by
    refine distinct.distinct.map_on fun one left two right same => ?_
    have := (distinct.whole one (List.mem_filter.mp left).1).1
    have := (distinct.whole two (List.mem_filter.mp right).1).1
    omega
  have below : ((frames.filter (· ≠ 0)).map (· / 4096)) ⊆ List.range 131072 := by
    intro number member
    obtain ⟨frame, isFrame, rfl⟩ := List.mem_map.mp member
    have := (distinct.whole frame (List.mem_filter.mp isFrame).1).2
    simp only [List.mem_range]
    omega
  have counted := (List.subperm_of_subset numbers below).length_le
  simpa using counted

section Init

attribute [local irreducible] blockSize blockFree blockNext blockPrev setSize setFree setNext setPrev
  pagingHeapBase

/-- The block that the first page becomes. -/
def firstBlock : Block := ⟨pagingHeapBase, 4096 - headerSize, true⟩

/-- The state after initialisation: one free block, and nothing in the caches. -/
theorem heapInit_reached {fuel : Nat} {mem : Memory} {paging : Paging (List Nat)} {heap : Heap}
    (distinct : DistinctFrames paging.pmm) (called : heapInit fuel mem paging = .ok heap) :
    Reached ⟨heap, [], []⟩ [.block firstBlock] (fun _ => []) := by
  obtain ⟨grown, mapping, called⟩ := bind_eq_ok.mp called
  have noPages : (heapReset mem paging).heapMapped = 0 := rfl
  -- One page is mapped, and the whole of it becomes the first block.
  have grows := heapMapMore_one (by omega) (by omega) mapping
  obtain ⟨base, _, _, _, size⟩ := grows.fields
  have isBase : (heapReset mem paging).heapVirtBase = pagingHeapBase := rfl
  rw [isBase] at base
  rw [noPages, add64_of_lt (by omega)] at size
  cases called
  rw [base]
  have limit := pagingHeapBase_eq
  -- Every frame is counted once, and the first one has been used up.
  have budget := distinct.countP_le
  have count := grows.countP_frames
  have all : (heapReset mem paging).frames = paging.pmm := rfl
  rw [all] at count
  obtain ⟨header, _⟩ := @newHeader_stores grown.mem pagingHeapBase
    (4096 - headerSize) 1 0 0 (by decide) (by decide) (by decide) (by decide)
  refine ⟨⟨rfl, rfl, ⟨?_, ?_, firstBlock, [], rfl⟩, ?_, ?_, ?_, ?_⟩, ⟨?_, ?_, ?_⟩, ?_⟩
  · simp only [size]
    exact ⟨rfl, rfl⟩
  · -- The list is the one block that `heap_init` writes.
    refine ⟨⟨header, trivial⟩, List.pairwise_singleton _ _, ?_⟩
    intro block member
    rw [blocksOf_block, blocksOf_nil, List.mem_singleton] at member
    subst member
    simp only [firstBlock, Block.stop, headerSize]
    omega
  · simp only [size]
  · intro address cache member
    simp at member
  · show grown.heapMapped + 4096 * grown.frames.countP (· ≠ 0) ≤ 2 ^ 29
    omega
  · -- The caches are as `slab_init` leaves them, without a page or an object.
    intro cache
    exact ⟨rfl, rfl, rfl, List.nodup_nil, by simp, by simp [slabInit]⟩
  · exact List.nodup_nil
  · intro allocation member
    cases member
  · intro block member used
    rw [blocksOf_block, blocksOf_nil, List.mem_singleton] at member
    subst member
    cases used
  · intro order
    rfl

end Init

/-- Every state of a run that releases touching blocks only is a reached one. -/
theorem reached_of_run {fuel : Nat} {mem : Memory} {paging : Paging (List Nat)} {heap : Heap}
    {ops : List HeapOp} {final : HeapSystem} (distinct : DistinctFrames paging.pmm)
    (called : heapInit fuel mem paging = .ok heap)
    (run : Run (HeapStep Rounds TouchingBlock) ⟨heap, [], []⟩ ops final) :
    ∃ pieces free, Reached final pieces free :=
  run.preserves (fun system => ∃ pieces free, Reached system pieces free)
    (fun ⟨_, _, reached⟩ step => reached.step step) ⟨_, _, heapInit_reached distinct called⟩

/-- Callers that ask for less and release less take the same steps. -/
theorem HeapStep.mono {asks more : Nat → Prop} {releases wider : Heap → Allocation → Prop}
    (asksMore : ∀ size, asks size → more size)
    (wide : ∀ heap allocation, releases heap allocation → wider heap allocation)
    {system next : HeapSystem} {op : HeapOp} (step : HeapStep asks releases system op next) :
    HeapStep more wider system op next := by
  -- A step is the same step under weaker conditions.
  cases step with
  | alloc asked called => exact .alloc (asksMore _ asked) called
  | free held released => exact .free held (wide _ _ released)
  | write held low high => exact .write held low high

/-- In a reached state the allocations are apart and inside the window. -/
theorem Reached.disjoint {system : HeapSystem} {pieces : List Piece}
    {free : Fin slabMaxOrder → List Nat} (reached : Reached system pieces free) :
    system.live.Pairwise Allocation.Disjoint ∧
    ∀ allocation ∈ system.live, system.heap.heapVirtBase ≤ allocation.ptr ∧
      allocation.ptr + allocation.size ≤ system.heap.heapVirtBase + system.heap.heapMapped := by
  -- Different allocations have different pointers, and those with different pointers are apart.
  constructor
  · have distinct : system.live.Pairwise fun one two => one.ptr ≠ two.ptr :=
      List.pairwise_map.mp reached.owned.distinct
    exact distinct.imp_of_mem fun left right differ =>
      reached.owned.apart reached.inv left right differ
  · intro allocation held
    rw [reached.inv.base]
    exact reached.owned.window reached.inv held

/-- Requests from one byte up to four gigabytes. -/
def BoundedRequest (size : Nat) : Prop := 1 ≤ size ∧ size ≤ 2 ^ 32

/--
Allocations never overlap while every release merges touching blocks only.

Requests for objects and for blocks may alternate in any order, and callers may write to what they hold.
-/
theorem live_allocations_disjoint {fuel : Nat} {mem : Memory} {paging : Paging (List Nat)} {heap : Heap}
    {ops : List HeapOp} {final : HeapSystem} (distinct : DistinctFrames paging.pmm)
    (called : heapInit fuel mem paging = .ok heap)
    (run : Run (HeapStep BoundedRequest TouchingBlock) ⟨heap, [], []⟩ ops final) :
    final.live.Pairwise Allocation.Disjoint ∧
    ∀ allocation ∈ final.live, final.heap.heapVirtBase ≤ allocation.ptr ∧
      allocation.ptr + allocation.size ≤ final.heap.heapVirtBase + final.heap.heapMapped := by
  -- Four gigabytes are far from wrapping around.
  have rounds : ∀ size, BoundedRequest size → Rounds size := by
    intro size bounded
    have := bounded.2
    simp only [Rounds]
    omega
  have wider := run.mono fun step => step.mono rounds fun _ _ released => released
  obtain ⟨_, _, reached⟩ := reached_of_run distinct called wider
  exact reached.disjoint

/-- The page tables of a small kernel after boot, with frames for these pages of the window and for two tables. -/
def bootedWindow (pages : List Nat) : Paging (List Nat) :=
  pagingInit smallBootTables (fun _ => 0) (pages.headD 0 :: 0x120000 :: 0x121000 :: pages.tail)

/-- Two blocks and an object are taken one after the other. -/
def mixedRun : Except Halt (Heap × Heap × Heap × Heap × List Nat) := do
  let heap ← heapInit 1 (fun _ => 0) (bootedWindow [0x200000, 0x201000])
  let (first, one) ← kmalloc 3 heap 600
  let (second, two) ← kmalloc 3 one 700
  let (third, three) ← kmalloc 3 two 100
  return (heap, one, two, three, [first, second, third])

/-- The frames of the example runs are different pages of physical memory. -/
theorem mixedRun_frames : DistinctFrames (bootedWindow [0x200000, 0x201000]).pmm := ⟨by decide, by decide⟩

/-- Where the three allocations are, and that the second block touches the free one behind it. -/
theorem mixedRun_ok : ∃ heap one two three,
    heapInit 1 (fun _ => 0) (bootedWindow [0x200000, 0x201000]) = .ok heap ∧
    kmalloc 3 heap 600 = .ok (0x40000020, one) ∧ kmalloc 3 one 700 = .ok (0x400002A0, two) ∧
    kmalloc 3 two 100 = .ok (0x40001000, three) ∧
    MergesTouch three.mem (sub64 0x400002A0 headerSize) := by
  -- Computed once, and then taken apart into its steps.
  obtain ⟨⟨heap, one, two, three, pointers⟩, ran, checked⟩ := @exists_ok Halt _ mixedRun
    (fun (_, _, _, three, pointers) => pointers = [0x40000020, 0x400002A0, 0x40001000] ∧
      MergesTouch three.mem (sub64 0x400002A0 headerSize)) (by decide +kernel)
  obtain ⟨started, init, ran⟩ := bind_eq_ok.mp ran
  obtain ⟨⟨first, _⟩, tookFirst, ran⟩ := bind_eq_ok.mp ran
  obtain ⟨⟨second, _⟩, tookSecond, ran⟩ := bind_eq_ok.mp ran
  obtain ⟨⟨third, _⟩, tookThird, ran⟩ := bind_eq_ok.mp ran
  cases ran
  simp only [decide_eq_true_eq, List.cons.injEq, and_true] at checked
  obtain ⟨⟨rfl, rfl, rfl⟩, touch⟩ := checked
  exact ⟨heap, one, two, three, init, tookFirst, tookSecond, tookThird, touch⟩

/-- After the second block of the mixed run is released, the other two allocations are apart. -/
theorem mixedRun_disjoint :
    ∃ heap final ops, heapInit 1 (fun _ => 0) (bootedWindow [0x200000, 0x201000]) = .ok heap ∧
      Run (HeapStep BoundedRequest TouchingBlock) ⟨heap, [], []⟩ ops final ∧
      final.live = [⟨0x40001000, 100⟩, ⟨0x40000020, 600⟩] ∧
      final.live.Pairwise Allocation.Disjoint := by
  obtain ⟨heap, one, two, three, init, tookFirst, tookSecond, tookThird, touch⟩ := mixedRun_ok
  -- The second block is freed when both of its neighbours touch it.
  have run : Run (HeapStep BoundedRequest TouchingBlock) ⟨heap, [], []⟩
      [.alloc 600, .alloc 700, .alloc 100, .free 0x400002A0] _ :=
    .cons (.alloc ⟨by decide, by decide⟩ tookFirst) <|
    .cons (.alloc ⟨by decide, by decide⟩ tookSecond) <|
    .cons (.alloc ⟨by decide, by decide⟩ tookThird) <|
    .cons (.free (show (⟨0x400002A0, 700⟩ : Allocation) ∈ _ by simp [HeapSystem.allocated])
      ⟨by decide, touch⟩) (.nil _)
  exact ⟨heap, _, _, init, run, by simp [HeapSystem.allocated],
    (live_allocations_disjoint mixedRun_frames init run).1⟩

/-- The page of an object lies between two blocks that are released, and a large block follows. -/
def overlapRun : Except Halt (Heap × Heap × Heap × Heap × Heap × List Nat) := do
  let heap ← heapInit 1 (fun _ => 0) (bootedWindow [0x200000, 0x201000, 0x202000])
  let (first, one) ← kmalloc 6 heap 4064
  let (second, two) ← kmalloc 6 one 512
  let (third, three) ← kmalloc 6 two 4064
  let (fourth, four) ← kmalloc 6 (kfree (kfree three first) third) 8000
  return (heap, one, two, three, four, [first, second, third, fourth])

/-- The large block starts where the first block was and reaches over the object. -/
theorem overlapRun_ok : ∃ heap one two three four,
    heapInit 1 (fun _ => 0) (bootedWindow [0x200000, 0x201000, 0x202000]) = .ok heap ∧
    kmalloc 6 heap 4064 = .ok (0x40000020, one) ∧ kmalloc 6 one 512 = .ok (0x40001000, two) ∧
    kmalloc 6 two 4064 = .ok (0x40002020, three) ∧
    kmalloc 6 (kfree (kfree three 0x40000020) 0x40002020) 8000 = .ok (0x40000020, four) := by
  -- Two blocks that a page of objects lies between are freed and merged over it.
  obtain ⟨⟨heap, one, two, three, four, pointers⟩, ran, checked⟩ := @exists_ok Halt _ overlapRun
    (fun (_, _, _, _, _, pointers) =>
      pointers = [0x40000020, 0x40001000, 0x40002020, 0x40000020]) (by decide +kernel)
  obtain ⟨started, init, ran⟩ := bind_eq_ok.mp ran
  obtain ⟨⟨first, _⟩, tookFirst, ran⟩ := bind_eq_ok.mp ran
  obtain ⟨⟨second, _⟩, tookSecond, ran⟩ := bind_eq_ok.mp ran
  obtain ⟨⟨third, _⟩, tookThird, ran⟩ := bind_eq_ok.mp ran
  obtain ⟨⟨fourth, _⟩, tookFourth, ran⟩ := bind_eq_ok.mp ran
  cases ran
  simp only [decide_eq_true_eq, List.cons.injEq, and_true] at checked
  obtain ⟨rfl, rfl, rfl, rfl⟩ := checked
  exact ⟨heap, one, two, three, four, init, tookFirst, tookSecond, tookThird, tookFourth⟩

/-- Releasing blocks only is not enough for allocations to stay apart. -/
theorem live_allocations_overlap :
    ¬ ∀ (fuel : Nat) (mem : Memory) (paging : Paging (List Nat)) (heap : Heap) (ops : List HeapOp)
      (final : HeapSystem), DistinctFrames paging.pmm → heapInit fuel mem paging = .ok heap →
      Run (HeapStep BoundedRequest fun _ allocation => 512 < allocation.size)
        ⟨heap, [], []⟩ ops final →
      final.live.Pairwise Allocation.Disjoint ∧
      ∀ allocation ∈ final.live, final.heap.heapVirtBase ≤ allocation.ptr ∧
        allocation.ptr + allocation.size ≤ final.heap.heapVirtBase + final.heap.heapMapped := by
  intro claim
  obtain ⟨heap, one, two, three, four, init, tookFirst, tookSecond, tookThird, tookFourth⟩ :=
    overlapRun_ok
  have distinct : DistinctFrames (bootedWindow [0x200000, 0x201000, 0x202000]).pmm := ⟨by decide, by decide⟩
  have run : Run (HeapStep BoundedRequest fun _ allocation => 512 < allocation.size) ⟨heap, [], []⟩
      [.alloc 4064, .alloc 512, .alloc 4064, .free 0x40000020, .free 0x40002020, .alloc 8000] _ :=
    .cons (.alloc ⟨by decide, by decide⟩ tookFirst) <|
    .cons (.alloc ⟨by decide, by decide⟩ tookSecond) <|
    .cons (.alloc ⟨by decide, by decide⟩ tookThird) <|
    .cons (.free (show (⟨0x40000020, 4064⟩ : Allocation) ∈ _ by simp [HeapSystem.allocated])
      (by decide)) <|
    .cons (.free (show (⟨0x40002020, 4064⟩ : Allocation) ∈ _ by simp [HeapSystem.allocated])
      (by decide)) <|
    .cons (.alloc ⟨by decide, by decide⟩ tookFourth) (.nil _)
  have apart := (claim _ _ _ _ _ _ distinct init run).1
  -- What is left are the object and the large block over it.
  simp [HeapSystem.allocated, Allocation.Disjoint] at apart

/--
What a release may change.

The two states differ in one allocation only: its block has become part of a free one.
-/
structure LocalRelease (system : HeapSystem) (allocation : Allocation) : Prop where
  -- The contents of the other allocations.
  contents : ∀ other ∈ system.live, other ≠ allocation → ∀ byte, other.ptr ≤ byte →
    byte < other.ptr + other.size →
    (kfree system.heap allocation.ptr).mem byte = system.heap.mem byte
  caches : (kfree system.heap allocation.ptr).slabCaches = system.heap.slabCaches
  mapped : (kfree system.heap allocation.ptr).heapMapped = system.heap.heapMapped
  -- Both lists are well formed, with the same free objects and one block in use fewer.
  wellFormed : ∃ old new free, Reached system old free ∧
    Reached { system with
      heap := kfree system.heap allocation.ptr
      live := system.live.erase allocation } new free ∧
    (∀ block, block.free = false → (block ∈ blocksOf new ↔
      block ∈ blocksOf old ∧ block.addr + headerSize ≠ allocation.ptr)) ∧
    ∃ cover ∈ blocksOf new, cover.free = true ∧ cover.addr + headerSize ≤ allocation.ptr ∧
      allocation.ptr + allocation.size ≤ cover.stop

/-- Releasing a block whose merges touch is local in every reached state. -/
theorem kfree_touches_only_freed {fuel : Nat} {mem : Memory} {paging : Paging (List Nat)} {heap : Heap}
    {ops : List HeapOp} {final : HeapSystem} (distinct : DistinctFrames paging.pmm)
    (called : heapInit fuel mem paging = .ok heap)
    (run : Run (HeapStep Rounds TouchingBlock) ⟨heap, [], []⟩ ops final) {allocation : Allocation}
    (held : allocation ∈ final.live) (touching : TouchingBlock final.heap allocation) :
    LocalRelease final allocation := by
  obtain ⟨pieces, free, reached⟩ := reached_of_run distinct called run
  obtain ⟨new, block, after, isBlock, pointer, fits, caches, mapped, released⟩ :=
    reached.release held touching
  refine ⟨?_, caches, mapped, pieces, new, free, reached, after, ?_, ?_⟩
  · -- Only headers are written, and no header lies inside an allocation.
    intro other otherHeld _ byte low high
    refine released.only byte fun address member => ?_
    obtain ⟨owner, isOwner, rfl⟩ := List.mem_map.mp member
    have apart := reached.owned.header_apart reached.inv otherHeld isOwner
    omega
  · intro other inUse
    rw [released.used other inUse, pointer]
    refine and_congr_right fun isOld => not_congr ⟨fun same => by rw [same], fun same => ?_⟩
    by_contra differ
    have apart := reached.inv.block_block_apart isOld isBlock differ
    simp only [Block.stop, headerSize] at apart same
    omega
  · obtain ⟨cover, isCover, free, low, high⟩ := released.available
    simp only [Block.stop] at high ⊢
    exact ⟨cover, isCover, free, by omega, by omega⟩

/-- The second block of the mixed run can be released, and that is local. -/
theorem mixedRun_release :
    ∃ heap final ops, heapInit 1 (fun _ => 0) (bootedWindow [0x200000, 0x201000]) = .ok heap ∧
      Run (HeapStep Rounds TouchingBlock) ⟨heap, [], []⟩ ops final ∧
      final.live.length = 3 ∧ LocalRelease final ⟨0x400002A0, 700⟩ := by
  obtain ⟨heap, one, two, three, init, tookFirst, tookSecond, tookThird, touch⟩ := mixedRun_ok
  -- Small sizes are rounded up without a wrap.
  have rounds : ∀ size, size < 1000 → Rounds size := by
    intro size small
    simp only [Rounds]
    omega
  -- All three requests, without a release.
  have run : Run (HeapStep Rounds TouchingBlock) ⟨heap, [], []⟩
      [.alloc 600, .alloc 700, .alloc 100] _ :=
    .cons (.alloc (rounds _ (by decide)) tookFirst) <|
    .cons (.alloc (rounds _ (by decide)) tookSecond) <|
    .cons (.alloc (rounds _ (by decide)) tookThird) (.nil _)
  exact ⟨heap, _, _, init, run, by simp [HeapSystem.allocated],
    kfree_touches_only_freed mixedRun_frames init run (by simp [HeapSystem.allocated])
      ⟨by decide, touch⟩⟩

/-- Two objects of one page are taken one after the other. -/
def neighbourRun : Except Halt (Heap × Heap × Heap × List Nat) := do
  let heap ← heapInit 1 (fun _ => 0) (bootedWindow [0x200000, 0x201000])
  let (first, one) ← kmalloc 1 heap 32
  let (second, two) ← kmalloc 1 one 32
  return (heap, one, two, [first, second])

/-- Releasing the second object overwrites a byte of the first one. -/
theorem neighbourRun_ok : ∃ heap one two,
    heapInit 1 (fun _ => 0) (bootedWindow [0x200000, 0x201000]) = .ok heap ∧
    kmalloc 1 heap 32 = .ok (0x40001000, one) ∧ kmalloc 1 one 32 = .ok (0x40001020, two) ∧
    (kfree two 0x40001020).mem 0x40001008 ≠ two.mem 0x40001008 := by
  -- Two objects side by side, of which the upper one is released.
  obtain ⟨⟨heap, one, two, pointers⟩, ran, checked⟩ := @exists_ok Halt _ neighbourRun
    (fun (_, _, two, pointers) => pointers = [0x40001000, 0x40001020] ∧
      (kfree two 0x40001020).mem 0x40001008 ≠ two.mem 0x40001008) (by decide +kernel)
  obtain ⟨started, init, ran⟩ := bind_eq_ok.mp ran
  obtain ⟨⟨first, _⟩, tookFirst, ran⟩ := bind_eq_ok.mp ran
  obtain ⟨⟨second, _⟩, tookSecond, ran⟩ := bind_eq_ok.mp ran
  cases ran
  simp only [decide_eq_true_eq, List.cons.injEq, and_true] at checked
  obtain ⟨⟨rfl, rfl⟩, changed⟩ := checked
  exact ⟨heap, one, two, init, tookFirst, tookSecond, changed⟩

/-- Releasing an allocation does not leave the others alone in every reached state. -/
theorem kfree_changes_other :
    ¬ ∀ (fuel : Nat) (mem : Memory) (paging : Paging (List Nat)) (heap : Heap) (ops : List HeapOp)
      (final : HeapSystem) (allocation : Allocation), DistinctFrames paging.pmm →
      heapInit fuel mem paging = .ok heap →
      Run (HeapStep (fun _ => True) fun _ _ => True) ⟨heap, [], []⟩ ops final →
      allocation ∈ final.live → LocalRelease final allocation := by
  intro claim
  -- The mark goes to the last bytes of the lower object, which somebody else holds.
  obtain ⟨heap, one, two, init, tookFirst, tookSecond, changed⟩ := neighbourRun_ok
  have run : Run (HeapStep (fun _ => True) fun _ _ => True) ⟨heap, [], []⟩
      [.alloc 32, .alloc 32] _ :=
    .cons (.alloc trivial tookFirst) (.cons (.alloc trivial tookSecond) (.nil _))
  have release := claim _ _ _ _ _ _ ⟨0x40001020, 32⟩ mixedRun_frames init run
    (by simp [HeapSystem.allocated])
  exact changed (release.contents ⟨0x40001000, 32⟩ (by simp [HeapSystem.allocated]) (by decide) _
    (by decide) (by decide))

end MiraOS
