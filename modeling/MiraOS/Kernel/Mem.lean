import MiraOS.Machine.Bitmap
import MiraOS.Machine.Bytes
import MiraOS.Machine.Run
import MiraOS.Machine.Words

/-! The physical page allocator of kernel/mem.c and its boot-time memory map walk. -/

namespace MiraOS

open Machine

/-- Number of page frames the bitmap describes. -/
def maxPhysPages : Nat := 131072

/-- Number of bytes of the bitmap. -/
def bitmapSize : Nat := (maxPhysPages + 7) / 8

/-- Bytes of one page. -/
def pageSize : Nat := 4096

/-- The static variables of the page allocator. -/
structure Pmm where
  -- One flag per page frame, set while the frame is in use.
  pageBitmap : Bitmap
  -- Available pages found at boot.
  totalPages : Nat
  -- Counter of free pages.
  freePages : Nat
  -- Address the allocation scan starts at.
  memStart : Nat
  -- Address the allocation scan stops at.
  memEnd : Nat

/-- Mark a page as used. -/
def bitmapSet (pmm : Pmm) (page : Nat) : Except Halt Pmm :=
  -- An index past the array is undefined behaviour in the source, so the model stops there.
  if page / 8 < bitmapSize then .ok { pmm with pageBitmap := pmm.pageBitmap.set page }
  else .error .outOfBounds

/-- Mark a page as free. -/
def bitmapClear (pmm : Pmm) (page : Nat) : Except Halt Pmm :=
  if page / 8 < bitmapSize then .ok { pmm with pageBitmap := pmm.pageBitmap.clear page }
  else .error .outOfBounds

/-- Whether a page is marked as used. -/
def bitmapTest (pmm : Pmm) (page : Nat) : Except Halt Bool :=
  if page / 8 < bitmapSize then .ok (pmm.pageBitmap.test page) else .error .outOfBounds

/-- The body of a page loop applied to a run of consecutive pages. -/
def forPages (body : Pmm → Nat → Except Halt Pmm) : Nat → Nat → Pmm → Except Halt Pmm
  | 0, _, pmm => .ok pmm
  | count + 1, page, pmm => do
    let pmm ← body pmm page
    forPages body count (page + 1) pmm

/-- Mark every page that a byte range touches as used. -/
def reserveRegion (pmm : Pmm) (base length : Nat) : Except Halt Pmm :=
  let startPage := base / pageSize
  let endPage := add64 (add64 base length) 4095 / pageSize
  forPages bitmapSet (endPage - startPage) startPage pmm

/-- One entry of the boot loader's memory map. -/
structure MmapEntry where
  -- First byte of the region.
  base : Nat
  -- Bytes of the region.
  length : Nat
  -- Kind of the region, where one means available.
  type : Nat
  deriving DecidableEq, Repr

/-- Read a memory map entry out of the boot information. -/
def readMmapEntry (info : Memory) (entry : Nat) : MmapEntry where
  base := read64 info entry
  length := read64 info (entry + 8)
  type := read32 info (entry + 16)

/-- One turn of the page loop over an available region. -/
def addFreePage (pmm : Pmm) (page : Nat) : Except Halt Pmm := do
  let pmm ← bitmapClear pmm page
  return { pmm with totalPages := add64 pmm.totalPages 1, freePages := add64 pmm.freePages 1 }

/-- One turn of the memory map loop. -/
def addMmapEntry (pmm : Pmm) (entry : MmapEntry) : Except Halt Pmm :=
  if entry.type ≠ 1 then .ok pmm
  else
    let «end» := add64 entry.base entry.length
    let pmm := if «end» > pmm.memEnd then { pmm with memEnd := «end» } else pmm
    let startPage := entry.base / pageSize
    let endPage := «end» / pageSize
    forPages addFreePage (endPage - startPage) startPage pmm

/-- The loop over the entries of one memory map tag. -/
def mmapLoop (info : Memory) (entrySize limit : Nat) : Nat → Nat → Pmm → Except Halt Pmm
  | 0, entry, pmm => if entry < limit then .error .outOfFuel else .ok pmm
  | fuel + 1, entry, pmm =>
    if entry < limit then do
      let pmm ← addMmapEntry pmm (readMmapEntry info entry)
      mmapLoop info entrySize limit fuel (add64 entry entrySize) pmm
    else .ok pmm

/-- The address of the tag after this one, its size rounded up in 32-bit arithmetic. -/
def mbiNext (info : Memory) (tag : Nat) : Nat :=
  add64 tag ((read32 info (tag + 4) + 7) % 2 ^ 32 / 8 * 8)

/-- The loop over the tags of the boot information. -/
def tagLoop (info : Memory) : Nat → Nat → Pmm → Except Halt Pmm
  | 0, tag, pmm => if read32 info tag = 0 then .ok pmm else .error .outOfFuel
  | fuel + 1, tag, pmm =>
    if read32 info tag = 0 then .ok pmm
    else do
      let pmm ←
        if read32 info tag = 6 then
          mmapLoop info (read32 info (tag + 8)) (add64 tag (read32 info (tag + 4))) fuel
            (add64 tag 16) pmm
        else .ok pmm
      tagLoop info fuel (mbiNext info tag) pmm

/-- The allocator before the boot information has been read. -/
def pmmReset : Pmm where
  pageBitmap := fun _ => 0xFF
  totalPages := 0
  freePages := 0
  memStart := 0x100000
  memEnd := 0

/-- Build the bitmap from the boot information at `mbi`, with the bitmap itself at `bitmapAddr`. -/
def pmmInit (fuel : Nat) (info : Memory) (mbi bitmapAddr : Nat) : Except Halt Pmm := do
  let pmm ← tagLoop info fuel (add64 mbi 8) pmmReset
  let pmm ← reserveRegion pmm 0 0x100000
  reserveRegion pmm bitmapAddr bitmapSize

/-- The allocation scan over a run of pages, returning zero when every page is used. -/
def pmmScan (pmm : Pmm) : Nat → Nat → Except Halt (Nat × Pmm)
  | 0, _ => .ok (0, pmm)
  | count + 1, page => do
    if ← bitmapTest pmm page then pmmScan pmm count (page + 1)
    else
      let pmm ← bitmapSet pmm page
      return (page * pageSize, { pmm with freePages := sub64 pmm.freePages 1 })

/-- Take the lowest free page, or return zero. -/
def pmmAllocPage (pmm : Pmm) : Except Halt (Nat × Pmm) :=
  pmmScan pmm (pmm.memEnd / pageSize - pmm.memStart / pageSize) (pmm.memStart / pageSize)

/-- Give a page back. -/
def pmmFreePage (pmm : Pmm) (page : Nat) : Except Halt Pmm := do
  let p := page / pageSize
  if ← bitmapTest pmm p then
    let pmm ← bitmapClear pmm p
    return { pmm with freePages := add64 pmm.freePages 1 }
  else return pmm

/-- The pages the allocation scan covers and would still hand out. -/
def managedFree (pmm : Pmm) : Finset Nat :=
  (pmm.pageBitmap.clearSet (pmm.memEnd / pageSize)).filter fun page =>
    pmm.memStart / pageSize ≤ page

end MiraOS
