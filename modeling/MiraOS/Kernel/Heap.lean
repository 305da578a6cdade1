import MiraOS.Arch.Paging

/-! The kernel heap of kernel/heap.c: a list of blocks and five slab caches in one growing window. -/

namespace MiraOS

open Machine

/-- Size of the header in front of every block. -/
def headerSize : Nat := 32

/-- Smallest remainder that is worth a block of its own. -/
def minBlock : Nat := 32

/-- Number of slab caches. -/
def slabMaxOrder : Nat := 5

/-- Object size of the first slab cache. -/
def slabMinSize : Nat := 32

/-- Requests up to this size look for a slab cache first. -/
def slabMaxSize : Nat := slabMinSize <<< slabMaxOrder

/-- Field `size` of a block header. -/
def blockSize (mem : Memory) (block : Nat) : Nat := read64 mem block

/-- Field `free` of a block header. -/
def blockFree (mem : Memory) (block : Nat) : Nat := read32 mem (block + 8)

/-- Field `next` of a block header. -/
def blockNext (mem : Memory) (block : Nat) : Nat := read64 mem (block + 16)

/-- Field `prev` of a block header. -/
def blockPrev (mem : Memory) (block : Nat) : Nat := read64 mem (block + 24)

/-- Store the field `size` of a block header. -/
def setSize (mem : Memory) (block value : Nat) : Memory := write64 mem block value

/-- Store the field `free` of a block header. -/
def setFree (mem : Memory) (block value : Nat) : Memory := write32 mem (block + 8) value

/-- Store the field `next` of a block header. -/
def setNext (mem : Memory) (block value : Nat) : Memory := write64 mem (block + 16) value

/-- Store the field `prev` of a block header. -/
def setPrev (mem : Memory) (block value : Nat) : Memory := write64 mem (block + 24) value

/-- A slab cache: equal objects cut from pages of their own. -/
structure SlabCache where
  objectSize : Nat
  -- First free object, which holds the address of the next one.
  freeList : Nat
  objectsPerSlab : Nat
  allocated : Nat
  deriving DecidableEq

/-- The heap: its window of memory, its static variables and the page tables its window grows in. -/
structure Heap where
  -- Memory as it is read at the virtual addresses of the window.
  mem : Memory
  heapHead : Nat
  heapMapped : Nat
  heapVirtBase : Nat
  slabCaches : Fin slabMaxOrder → SlabCache
  -- The page tables, with what the page allocator returns from now on.
  paging : Paging (List Nat)

/-- The answers that the page allocator still has, with zero for its null pointer. -/
abbrev Heap.frames (heap : Heap) : List Nat := heap.paging.pmm

/-- Ask the page allocator for a frame; once its answers are used up it returns null. -/
def Heap.takeFrame (heap : Heap) : Nat × Heap :=
  (heap.frames.headD 0, { heap with paging := { heap.paging with pmm := heap.frames.tail } })

/--
Map a frame at the end of the window, which takes further frames for the tables that are missing.

Each of them is one answer of the page allocator, so that one step more than there are answers is enough.
-/
def Heap.mapAtEnd (heap : Heap) (frame : Nat) : Except Halt Heap := do
  let (_, paging) ← pagingMapPage popFrame (heap.frames.length + 1) heap.paging
    (add64 heap.heapVirtBase heap.heapMapped) frame 0
  return { heap with paging := paging, heapMapped := add64 heap.heapMapped 4096 }

/-- The state of the slab caches after boot. -/
def slabInit : Fin slabMaxOrder → SlabCache := fun i =>
  { objectSize := slabMinSize <<< i.val
    freeList := 0
    objectsPerSlab := 4096 / (slabMinSize <<< i.val)
    allocated := 0 }

/-- Chain the objects of a new page, the last one pointing nowhere. -/
def slabCarve (mem : Memory) (page objectSize objectsPerSlab : Nat) : Memory :=
  let mem := (List.range (objectsPerSlab - 1)).foldl
    (fun mem i => write64 mem (page + i * objectSize) (page + (i + 1) * objectSize)) mem
  write64 mem (page + (objectsPerSlab - 1) * objectSize) 0

/-- Take the first free object of a cache. -/
def slabPop (heap : Heap) (index : Fin slabMaxOrder) : Nat × Heap :=
  let cache := heap.slabCaches index
  (cache.freeList,
    { heap with
      slabCaches := Function.update heap.slabCaches index
        { cache with
          freeList := read64 heap.mem cache.freeList
          allocated := (cache.allocated + 1) % 2 ^ 32 } })

/-- Allocate an object of a cache, from a new page when none is free. -/
def slabAlloc (heap : Heap) (index : Fin slabMaxOrder) : Except Halt (Nat × Heap) :=
  let cache := heap.slabCaches index
  if cache.freeList = 0 then
    let (slab, heap) := heap.takeFrame
    if slab = 0 then .ok (0, heap)
    else do
      let heap ← heap.mapAtEnd slab
      let page := sub64 (add64 heap.heapVirtBase heap.heapMapped) 4096
      return slabPop
        { heap with
          mem := slabCarve heap.mem page cache.objectSize cache.objectsPerSlab
          slabCaches := Function.update heap.slabCaches index { cache with freeList := page } }
        index
  else .ok (slabPop heap index)

/-- The first cache, in the order of the chain, whose objects are large enough. -/
def slabFindCache (caches : Fin slabMaxOrder → SlabCache) (size : Nat) : Option (Fin slabMaxOrder) :=
  (List.finRange slabMaxOrder).find? fun i => size ≤ (caches i).objectSize

/-- Map pages at the end of the window until it is large enough. -/
def heapMapMore : Nat → Heap → Nat → Except Halt Heap
  | 0, heap, needed => if heap.heapMapped < needed then .error .outOfFuel else .ok heap
  | fuel + 1, heap, needed =>
    if heap.heapMapped < needed then
      let (phys, heap) := heap.takeFrame
      if phys = 0 then .error (.panic "heap oom")
      else do
        let heap ← heap.mapAtEnd phys
        heapMapMore fuel heap needed
    else .ok heap

/-- The static variables before initialisation, with the base of the window already set. -/
def heapReset (mem : Memory) (paging : Paging (List Nat)) : Heap where
  mem := mem
  heapHead := 0
  heapMapped := 0
  heapVirtBase := pagingHeapBase
  slabCaches := fun _ => ⟨0, 0, 0, 0⟩
  paging := paging

/-- Map the first page and make it one free block. -/
def heapInit (fuel : Nat) (mem : Memory) (paging : Paging (List Nat)) : Except Halt Heap := do
  let heap ← heapMapMore fuel (heapReset mem paging) 4096
  let head := heap.heapVirtBase
  let mem := setSize heap.mem head (4096 - headerSize)
  let mem := setFree mem head 1
  let mem := setNext mem head 0
  let mem := setPrev mem head 0
  return { heap with mem := mem, heapHead := head, slabCaches := slabInit }

/-- Cut a block down to a size when the rest can be a block of its own. -/
def splitBlock (mem : Memory) (block size : Nat) : Memory :=
  if blockSize mem block < add64 (add64 size headerSize) minBlock then mem
  else
    let newBlock := add64 (add64 block headerSize) size
    let mem := setSize mem newBlock (sub64 (sub64 (blockSize mem block) size) headerSize)
    let mem := setFree mem newBlock 1
    let mem := setNext mem newBlock (blockNext mem block)
    let mem := setPrev mem newBlock block
    let mem := if blockNext mem block ≠ 0 then setPrev mem (blockNext mem block) newBlock else mem
    let mem := setNext mem block newBlock
    setSize mem block size

/-- Merge a block with the next one of the list, if that one is free. -/
def mergeNext (mem : Memory) (block : Nat) : Memory :=
  if blockNext mem block ≠ 0 ∧ blockFree mem (blockNext mem block) ≠ 0 then
    let mem := setSize mem block
      (add64 (blockSize mem block) (add64 headerSize (blockSize mem (blockNext mem block))))
    let mem := setNext mem block (blockNext mem (blockNext mem block))
    if blockNext mem block ≠ 0 then setPrev mem (blockNext mem block) block else mem
  else mem

/-- Merge a block into the previous one of the list, if that one is free. -/
def mergePrev (mem : Memory) (block : Nat) : Memory :=
  if blockPrev mem block ≠ 0 ∧ blockFree mem (blockPrev mem block) ≠ 0 then
    let mem := setSize mem (blockPrev mem block)
      (add64 (blockSize mem (blockPrev mem block)) (add64 headerSize (blockSize mem block)))
    let mem := setNext mem (blockPrev mem block) (blockNext mem block)
    if blockNext mem block ≠ 0 then setPrev mem (blockNext mem block) (blockPrev mem block) else mem
  else mem

/-- Merge a block with its neighbours in the list. -/
def mergeAdjacent (mem : Memory) (block : Nat) : Memory := mergePrev (mergeNext mem block) block

/-- The first-fit search along the list, giving zero at its end. -/
def findFit (mem : Memory) (size : Nat) : Nat → Nat → Except Halt Nat
  | 0, current => if current = 0 then .ok 0 else .error .outOfFuel
  | fuel + 1, current =>
    if current = 0 then .ok 0
    else if blockFree mem current ≠ 0 ∧ size ≤ blockSize mem current then .ok current
    else findFit mem size fuel (blockNext mem current)

/-- The last block of the list. -/
def listTail (mem : Memory) : Nat → Nat → Except Halt Nat
  | 0, tail => if blockNext mem tail = 0 then .ok tail else .error .outOfFuel
  | fuel + 1, tail =>
    if blockNext mem tail = 0 then .ok tail else listTail mem fuel (blockNext mem tail)

/-- Map one more page and append it to the list as a free block. -/
def appendArea (fuel : Nat) (heap : Heap) : Except Halt Heap := do
  let heap ← heapMapMore fuel heap (add64 heap.heapMapped 4096)
  let newArea := sub64 (add64 heap.heapVirtBase heap.heapMapped) 4096
  let (head, mem) ←
    if heap.heapHead ≠ 0 then do
      let tail ← listTail heap.mem fuel heap.heapHead
      pure (heap.heapHead, setPrev (setNext heap.mem tail newArea) newArea tail)
    else pure (newArea, heap.mem)
  let mem := setSize mem newArea (4096 - headerSize)
  let mem := setFree mem newArea 1
  let mem := setNext mem newArea 0
  return { heap with mem := mem, heapHead := head }

/-- Allocate memory; the recursion after each new page is cut off by the fuel. -/
def kmalloc : Nat → Heap → Nat → Except Halt (Nat × Heap)
  | 0, _, _ => .error .outOfFuel
  | fuel + 1, heap, size =>
    if size = 0 then .ok (0, heap)
    else
      match if size ≤ slabMaxSize then slabFindCache heap.slabCaches size else none with
      | some index => slabAlloc heap index
      | none => do
        let size := add64 size 15 &&& highMask 4
        let current ← findFit heap.mem size fuel heap.heapHead
        if current ≠ 0 then
          let mem := setFree (splitBlock heap.mem current size) current 0
          return (add64 current headerSize, { heap with mem := mem })
        else do
          let heap ← appendArea fuel heap
          kmalloc fuel heap size

/-- Give a block back, taking the pointer to follow a header. -/
def kfree (heap : Heap) (ptr : Nat) : Heap :=
  if ptr = 0 then heap
  else
    let block := sub64 ptr headerSize
    { heap with mem := mergeAdjacent (setFree heap.mem block 1) block }

/-- The copying loop of a reallocation, whose bound is read from the old header each time. -/
def copyLoop (block newPtr ptr : Nat) : Nat → Nat → Memory → Except Halt Memory
  | 0, i, mem => if i < blockSize mem block then .error .outOfFuel else .ok mem
  | fuel + 1, i, mem =>
    if i < blockSize mem block then
      copyLoop block newPtr ptr fuel (i + 1) (Function.update mem (newPtr + i) (mem (ptr + i)))
    else .ok mem

/-- Resize an allocation. -/
def krealloc (fuel : Nat) (heap : Heap) (ptr size : Nat) : Except Halt (Nat × Heap) :=
  if ptr = 0 then kmalloc fuel heap size
  else if size = 0 then .ok (0, kfree heap ptr)
  else
    let block := sub64 ptr headerSize
    if size ≤ blockSize heap.mem block then .ok (ptr, heap)
    else do
      let (newPtr, heap) ← kmalloc fuel heap size
      if newPtr = 0 then return (0, heap)
      let mem ← copyLoop block newPtr ptr fuel 0 heap.mem
      return (newPtr, kfree { heap with mem := mem } ptr)

/-- Allocate an array and clear it. -/
def kcalloc (fuel : Nat) (heap : Heap) (nmemb size : Nat) : Except Halt (Nat × Heap) := do
  let total := nmemb * size % 2 ^ 64
  let (ptr, heap) ← kmalloc fuel heap total
  if ptr = 0 then return (0, heap)
  let mem := (List.range total).foldl (fun mem i => Function.update mem (ptr + i) 0) heap.mem
  return (ptr, { heap with mem := mem })

/-- The loop that adds up the sizes of the blocks in use. -/
def usedLoop (mem : Memory) : Nat → Nat → Nat → Except Halt Nat
  | 0, current, used => if current = 0 then .ok used else .error .outOfFuel
  | fuel + 1, current, used =>
    if current = 0 then .ok used
    else
      usedLoop mem fuel (blockNext mem current)
        (if blockFree mem current = 0 then add64 used (blockSize mem current) else used)

/-- Bytes in use. -/
def heapUsed (fuel : Nat) (heap : Heap) : Except Halt Nat := usedLoop heap.mem fuel heap.heapHead 0

/-- Bytes mapped. -/
def heapTotal (heap : Heap) : Nat := heap.heapMapped

end MiraOS
