import MiraOS.Kernel.MiraLoad

/-! The loader of ELF files of kernel/elf.c. -/

namespace MiraOS

open Machine

/-- The number that an ELF file starts with. -/
def elfMagic : Nat := 0x464C457F

/-- The number of the machine x86_64. -/
def elfMachine : Nat := 0x3E

/-- The type of a segment that is loaded. -/
def ptLoad : Nat := 1

/-- Bytes of the header of a file. -/
def elfHeaderBytes : Nat := 64

/-- Bytes of a program header. -/
def elfProgramHeaderBytes : Nat := 56

/-- What the loader uses of a program header. -/
structure ElfSegment where
  vaddr : Nat
  offset : Nat
  filesz : Nat
  memsz : Nat
  deriving DecidableEq, Repr

/-- A number of the file. -/
def readField (file : List UInt8) (index width : Nat) : Except MiraFault Nat := do
  let bytes ← readBytes file width index
  return leValue bytes

/-- How far a program header is from the first one. -/
def programHeaderStep (i phentsize : Nat) : Nat :=
  -- Both factors are 32-bit integers with a sign, and so is their product.
  let product := i * phentsize % 2 ^ 32
  if product < 2 ^ 31 then product else 2 ^ 64 - 2 ^ 32 + product

/-- The place of a program header. -/
def programHeaderPlace (phoff phentsize i : Nat) : Nat := add64 phoff (programHeaderStep i phentsize)

/-- Read what a program header says about a segment. -/
def readSegment (file : List UInt8) (ph : Nat) : Except MiraFault ElfSegment := do
  -- In the order in which the loader uses them.
  let vaddr ← readField file (add64 ph 16) 8
  let offset ← readField file (add64 ph 8) 8
  let filesz ← readField file (add64 ph 32) 8
  let memsz ← readField file (add64 ph 40) 8
  return { vaddr := vaddr, offset := offset, filesz := filesz, memsz := memsz }

section

variable {σ : Type} (platform : Platform σ)

/-- The loop that copies bytes of a segment to a page. -/
def copySegment (file : List UInt8) (source page j memsz : Nat) : Nat → Nat → σ → Except MiraFault σ
  | 0, _, state => .ok state
  | count + 1, k, state =>
    -- The loop stops at the end of the segment in memory, too.
    if add64 j k < memsz then do
      let byte ← readByte file (add64 source k)
      let state ← onPlatform (platform.storeByte (add64 page k) byte state)
      copySegment file source page j memsz count (k + 1) state
    else .ok state

/-- The loop over the pages of a segment. -/
def elfPageLoop (file : List UInt8) (segment : ElfSegment) : Nat → Nat → σ → Except MiraFault (Bool × σ)
  -- The loop has fuel, as the 64-bit offset may wrap around and never reach the end.
  | 0, j, state => if j < segment.memsz then .error (.halt .outOfFuel) else .ok (true, state)
  | fuel + 1, j, state =>
    if j < segment.memsz then do
      let (page, state) ← onPlatform (platform.pmmAllocPage state)
      if page = 0 then return (false, state)
      else do
        let copySize :=
          if add64 j 4096 ≤ segment.filesz then 4096
          else if segment.filesz > j then segment.filesz - j else 0
        -- The page keeps what was in it behind the bytes that are copied.
        let state ←
          if j < segment.filesz then
            copySegment platform file (add64 segment.offset j) page j segment.memsz copySize 0 state
          else .ok state
        let state ← onPlatform (platform.pagingMapPage (add64 segment.vaddr j) page
          (pagePresent ||| pageWrite) state)
        elfPageLoop file segment fuel (add64 j 4096) state
    else .ok (true, state)

/-- The loop over the program headers of a file. -/
def elfSegmentLoop (fuel : Nat) (file : List UInt8) : Nat → Nat → σ → Except MiraFault (Bool × σ)
  | 0, _, state => .ok (true, state)
  | count + 1, i, state => do
    -- The pointer to a header is found anew in each turn, from two fields of the file header.
    let phoff ← readField file 32 8
    let phentsize ← readField file 54 2
    let ph := programHeaderPlace phoff phentsize i
    let type ← readField file ph 4
    if type ≠ ptLoad then elfSegmentLoop fuel file count (i + 1) state
    else do
      let segment ← readSegment file ph
      let (loaded, state) ← elfPageLoop platform file segment fuel 0 state
      if loaded then elfSegmentLoop fuel file count (i + 1) state else return (false, state)

/--
Load an ELF file.

The result says whether it was loaded, and where it is entered if the caller asks for that.
The size of the file is a parameter of the source that nothing looks at.
-/
def elfLoad (fuel : Nat) (file : List UInt8) (wantsEntry : Bool) (state : σ) :
    Except MiraFault (Bool × Option Nat × σ) := do
  let magic ← readField file 0 4
  if magic ≠ elfMagic then return (false, none, state)
  else do
    let machine ← readField file 18 2
    if machine ≠ elfMachine then return (false, none, state)
    else do
      -- The entry is stored before any segment is loaded, so also where the loading fails.
      let entry ← if wantsEntry then some <$> readField file 24 8 else .ok none
      let phnum ← readField file 56 2
      let (loaded, state) ← elfSegmentLoop platform fuel file phnum 0 state
      return (loaded, entry, state)

end

end MiraOS
