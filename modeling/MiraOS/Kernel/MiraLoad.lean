import MiraOS.Arch.Paging
import MiraOS.Kernel.Mem
import MiraOS.Kernel.MiraFormat

/-! The loader of kernel/bin/mira_exec.c and the mapping of a section of kernel/bin/mira_bin_map.c. -/

namespace MiraOS

open Machine

/-- What the loader uses of the kernel; an allocation of zero stands for a null pointer. -/
structure Platform (σ : Type) where
  -- Take a page.
  pmmAllocPage : σ → Except Halt (Nat × σ)
  -- Store a byte through a pointer.
  storeByte : Nat → UInt8 → σ → Except Halt σ
  -- Map a page: a virtual address, a physical one and flags.
  pagingMapPage : Nat → Nat → Nat → σ → Except Halt σ

/-- The kernel: its page allocator, its page tables and the memory behind them. -/
def kernelPlatform (fuel : Nat) : Platform (Paging Pmm) where
  pmmAllocPage := fun paging => do
    let (page, pmm) ← pmmAllocPage paging.pmm
    return (page, { paging with pmm := pmm })
  storeByte := fun address byte paging => do
    -- A pointer is translated by the page tables, and an address that is not mapped is a page fault.
    let phys ← pagingVirtToPhys pmmAllocPage paging address
    if phys = 0 then throw .outOfBounds
    return { paging with mem := Function.update paging.mem phys byte }
  pagingMapPage := fun virt phys flags paging => do
    let (_, paging) ← pagingMapPage pmmAllocPage fuel paging virt phys flags
    return paging

/-- The type of a section with code. -/
def miraSectText : Nat := 1

/-- The type of a section with constants. -/
def miraSectRodata : Nat := 2

/-- The type of a section with data. -/
def miraSectData : Nat := 3

/-- The type of a section with zeros. -/
def miraSectBss : Nat := 4

/-- What is known of an image that was loaded. -/
structure MiraLoadedImage where
  entryPoint : Nat
  cr3 : Nat
  userStackTop : Nat
  deriving DecidableEq, Repr

/-- A call of the platform, whose stop is one of the loader. -/
def onPlatform {α : Type} (call : Except Halt α) : Except MiraFault α := call.mapError .halt

section

variable {σ : Type} (platform : Platform σ)

/-- Fill memory with a byte. -/
def memset (dest : Nat) (val : UInt8) : Nat → Nat → σ → Except Halt σ
  | 0, _, state => .ok state
  | count + 1, i, state => do
    let state ← platform.storeByte (add64 dest i) val state
    memset dest val count (i + 1) state

/-- The loop that copies bytes of a container, from an index on, to a page. -/
def copySection (file : List UInt8) (source page : Nat) : Nat → Nat → σ → Except MiraFault σ
  | 0, _, state => .ok state
  | count + 1, k, state => do
    let byte ← readByte file (add64 source k)
    let state ← onPlatform (platform.storeByte (add64 page k) byte state)
    copySection file source page count (k + 1) state

/-- The flags of a section in kernel/bin/mira_exec.c, which ignores the flags of the section. -/
def MiraExec.miraFlagsToPaging (sectType _sectFlags : Nat) : Nat :=
  if sectType = miraSectData ∨ sectType = miraSectBss ∨ sectType = miraSectText then
    if sectType ≠ miraSectText then pagePresent ||| pageWrite else pagePresent
  -- Constants and unknown types are not writable.
  else pagePresent

/-- The loop over the pages of a section in kernel/bin/mira_exec.c. -/
def MiraExec.pageLoop (file : List UInt8) (sd : MiraSectDesc) (pagingFlags : Nat) :
    Nat → Nat → σ → Except MiraFault (Bool × σ)
  -- The loop has fuel, as the 64-bit offset may wrap around and never reach the end.
  | 0, j, state => if j < sd.memsz then .error (.halt .outOfFuel) else .ok (true, state)
  | fuel + 1, j, state =>
    if j < sd.memsz then do
      let (page, state) ← onPlatform (platform.pmmAllocPage state)
      if page = 0 then return (false, state)
      else do
        let state ← onPlatform (memset platform page 0 4096 0 state)
        let dstOff := j
        let srcOff := dstOff
        let state ←
          if srcOff < sd.filesz then
            let copyLeft := sd.filesz - srcOff
            let copy := if copyLeft < 4096 then copyLeft else 4096
            copySection platform file (add64 sd.fileOff srcOff) page copy 0 state
          else .ok state
        -- A page is always mapped writable.
        let state ← onPlatform (platform.pagingMapPage (add64 sd.vaddr j) page (pagingFlags ||| pageWrite)
          state)
        MiraExec.pageLoop file sd pagingFlags fuel (add64 j 4096) state
    else .ok (true, state)

/-- The loop over the sections of a container. -/
def MiraExec.sectionLoop (fuel : Nat) (file : List UInt8) (sectTableOff : Nat) :
    Nat → Nat → σ → Except MiraFault (Bool × σ)
  | 0, _, state => .ok (true, state)
  | count + 1, i, state => do
    let sd ← readSectDesc file sectTableOff i
    if sd.filesz > sd.memsz then return (false, state)
    -- The end of the section in the file is found in 64-bit arithmetic.
    else if add64 sd.fileOff sd.filesz > file.length then return (false, state)
    else do
      let pagingFlags := MiraExec.miraFlagsToPaging sd.sectType sd.sectFlags
      let (loaded, state) ← MiraExec.pageLoop platform file sd pagingFlags fuel 0 state
      if loaded then MiraExec.sectionLoop fuel file sectTableOff count (i + 1) state
      else return (false, state)

/-- Load a container of a type; none stands for a failure. -/
def miraLoad (fuel : Nat) (file : List UInt8) (type : Nat) (state : σ) :
    Except MiraFault (Option MiraLoadedImage × σ) :=
  if file.length < miraHeaderBytes then .ok (none, state)
  else do
    let valid ← MiraExec.miraValidateHeader file type
    if valid then
      let header ← readMiraHeader file
      let (loaded, state) ← MiraExec.sectionLoop platform fuel file header.sectTableOff header.sectCount 0
        state
      if loaded then
        return (some { entryPoint := header.entryPoint, cr3 := 0, userStackTop := 0 }, state)
      -- What was mapped before a failure stays mapped.
      else return (none, state)
    else return (none, state)

/-- Load a program. -/
def miraLoadMex (fuel : Nat) (file : List UInt8) (state : σ) :
    Except MiraFault (Option MiraLoadedImage × σ) :=
  miraLoad platform fuel file miraBinTypeMex state

/-- Load a module. -/
def miraLoadMdl (fuel : Nat) (file : List UInt8) (state : σ) :
    Except MiraFault (Option MiraLoadedImage × σ) :=
  miraLoad platform fuel file miraBinTypeMdl state

/-- The flags of a section in kernel/bin/mira_bin_map.c. -/
def MiraBinMap.miraFlagsToPaging (sectType : Nat) : Nat :=
  if sectType ≠ miraSectRodata then pagePresent ||| pageWrite else pagePresent

/-- The loop over the pages of a section in kernel/bin/mira_bin_map.c. -/
def MiraBinMap.pageLoop (file : List UInt8) (sd : MiraSectDesc) (pagingFlags : Nat) :
    Nat → Nat → σ → Except MiraFault (Bool × σ)
  | 0, j, state => if j < sd.memsz then .error (.halt .outOfFuel) else .ok (true, state)
  | fuel + 1, j, state =>
    if j < sd.memsz then do
      let (page, state) ← onPlatform (platform.pmmAllocPage state)
      if page = 0 then return (false, state)
      else do
        let state ← onPlatform (memset platform page 0 4096 0 state)
        let srcOff := j
        let state ←
          if srcOff < sd.filesz then
            let copyLeft := sd.filesz - srcOff
            let copy := if copyLeft < 4096 then copyLeft else 4096
            copySection platform file (add64 sd.fileOff srcOff) page copy 0 state
          else .ok state
        let state ← onPlatform (platform.pagingMapPage (add64 sd.vaddr j) page (pagingFlags ||| pageWrite)
          state)
        MiraBinMap.pageLoop file sd pagingFlags fuel (add64 j 4096) state
    else .ok (true, state)

/-- Map a section of a container. -/
def miraMapSection (fuel : Nat) (file : List UInt8) (sd : MiraSectDesc) (state : σ) :
    Except MiraFault (Bool × σ) :=
  if sd.filesz > sd.memsz then .ok (false, state)
  else if add64 sd.fileOff sd.filesz > file.length then .ok (false, state)
  else MiraBinMap.pageLoop platform file sd (MiraBinMap.miraFlagsToPaging sd.sectType) fuel 0 state

end

end MiraOS
