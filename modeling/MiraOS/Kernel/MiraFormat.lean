import MiraOS.Machine.Packed
import MiraOS.Machine.Run
import MiraOS.Machine.Words

/-! The binary container of kernel/bin: its header, its checksum and the two checks of the header. -/

namespace MiraOS

open Machine

/-- The number that a container starts with. -/
def miraBinMagic : Nat := 0x4D495845582

/-- The version of the format. -/
def miraBinAbiVersion : Nat := 1

/-- The type of a program. -/
def miraBinTypeMex : Nat := 1

/-- The type of a module. -/
def miraBinTypeMdl : Nat := 2

/-- Bytes of the header. -/
def miraHeaderBytes : Nat := 64

/-- Bytes of the description of a section. -/
def miraSectDescBytes : Nat := 40

/-- The header of a container. -/
structure MiraBinHeader where
  magic : Nat
  abiVersion : Nat
  type : Nat
  headerSize : Nat
  imageFlags : Nat
  entryPoint : Nat
  loadBase : Nat
  sectCount : Nat
  sectTableOff : Nat
  nameTableOff : Nat
  checksum : Nat
  deriving DecidableEq, Repr

/-- The description of a section. -/
structure MiraSectDesc where
  sectType : Nat
  sectFlags : Nat
  vaddr : Nat
  memsz : Nat
  filesz : Nat
  fileOff : Nat
  deriving DecidableEq, Repr

/-- Why a computation on a container stops without a result. -/
inductive MiraFault where
  -- A byte was read that is not one of the container.
  | readOutside (index : Nat)
  -- The platform stopped.
  | halt (reason : Halt)
  deriving DecidableEq, Repr

/-- The byte of a container at an index. -/
def readByte (file : List UInt8) (index : Nat) : Except MiraFault UInt8 :=
  match file[index]? with
  | some byte => .ok byte
  | none => .error (.readOutside index)

/-- A number of bytes of a container, from an index on; the addresses are 64-bit words. -/
def readBytes (file : List UInt8) : Nat → Nat → Except MiraFault (List UInt8)
  | 0, _ => .ok []
  | count + 1, index => do
    let byte ← readByte file index
    let rest ← readBytes file count (add64 index 1)
    return byte :: rest

/-- The header that bytes stand for, field after field. -/
def headerOf (bytes : List UInt8) : MiraBinHeader where
  magic := leValue (fieldOf bytes 0 8)
  abiVersion := leValue (fieldOf bytes 8 2)
  type := leValue (fieldOf bytes 10 2)
  headerSize := leValue (fieldOf bytes 12 4)
  imageFlags := leValue (fieldOf bytes 16 4)
  entryPoint := leValue (fieldOf bytes 20 8)
  loadBase := leValue (fieldOf bytes 28 8)
  sectCount := leValue (fieldOf bytes 36 4)
  sectTableOff := leValue (fieldOf bytes 40 8)
  nameTableOff := leValue (fieldOf bytes 48 8)
  checksum := leValue (fieldOf bytes 56 8)

/-- The bytes that a header has in memory. -/
def headerBytes (header : MiraBinHeader) : List UInt8 :=
  leBytes 8 header.magic ++ leBytes 2 header.abiVersion ++ leBytes 2 header.type ++
    leBytes 4 header.headerSize ++ leBytes 4 header.imageFlags ++ leBytes 8 header.entryPoint ++
    leBytes 8 header.loadBase ++ leBytes 4 header.sectCount ++ leBytes 8 header.sectTableOff ++
    leBytes 8 header.nameTableOff ++ leBytes 8 header.checksum

/-- The description of a section that bytes stand for. -/
def sectDescOf (bytes : List UInt8) : MiraSectDesc where
  sectType := leValue (fieldOf bytes 0 4)
  sectFlags := leValue (fieldOf bytes 4 4)
  vaddr := leValue (fieldOf bytes 8 8)
  memsz := leValue (fieldOf bytes 16 8)
  filesz := leValue (fieldOf bytes 24 8)
  fileOff := leValue (fieldOf bytes 32 8)

/-- Read the header of a container. -/
def readMiraHeader (file : List UInt8) : Except MiraFault MiraBinHeader := do
  let bytes ← readBytes file miraHeaderBytes 0
  return headerOf bytes

/-- Read the description of a section of a container. -/
def readSectDesc (file : List UInt8) (sectTableOff i : Nat) : Except MiraFault MiraSectDesc := do
  let bytes ← readBytes file miraSectDescBytes (add64 sectTableOff (i * miraSectDescBytes))
  return sectDescOf bytes

/-- The state that a checksum starts from. -/
def hashSeed : UInt64 := 1469598103934665603

/-- One step of a checksum. -/
def hashStep (h : UInt64) (byte : UInt8) : UInt64 := (h ^^^ byte.toUInt64) * 1099511628211

/-- The checksum of a buffer. -/
def miraChecksum64 (data : List UInt8) : UInt64 := data.foldl hashStep hashSeed

/-- The loop that hashes the bytes of a container behind its header. -/
def hashLoop (file : List UInt8) : Nat → Nat → UInt64 → Except MiraFault UInt64
  | 0, _, h => .ok h
  | count + 1, i, h => do
    let byte ← readByte file i
    hashLoop file count (i + 1) (hashStep h byte)

/-- The check of kernel/bin/mira_exec.c; its callers have seen that there is a header. -/
def MiraExec.miraValidateHeader (file : List UInt8) (expectedType : Nat) : Except MiraFault Bool := do
  let header ← readMiraHeader file
  if header.magic ≠ miraBinMagic then .ok false
  else if header.abiVersion ≠ miraBinAbiVersion then .ok false
  else if header.type ≠ expectedType then .ok false
  else if header.headerSize < miraHeaderBytes then .ok false
  else if header.sectCount > 65535 then .ok false
  else if header.sectTableOff < miraHeaderBytes then .ok false
  else if header.sectTableOff ≥ file.length then .ok false
  -- The end of the table is found in 64-bit arithmetic.
  else if add64 header.sectTableOff (header.sectCount * miraSectDescBytes) > file.length then .ok false
  else if header.headerSize > miraHeaderBytes then .ok false
  else
    -- The header is hashed without its checksum, and then the rest of the file.
    let h := (headerBytes { header with checksum := 0 }).foldl hashStep hashSeed
    if file.length < miraHeaderBytes then .ok false
    else do
      let h ← hashLoop file (file.length - miraHeaderBytes) miraHeaderBytes h
      return h.toNat = header.checksum

/-- Whether a buffer is a container of a type. -/
def miraBinIsValid (file : List UInt8) (expectedType : Nat) : Except MiraFault Bool :=
  if file.length < miraHeaderBytes then .ok false else MiraExec.miraValidateHeader file expectedType

/-- The check of kernel/bin/mira_bin_validate.c. -/
def MiraBinValidate.miraValidateHeader (file : List UInt8) (expectedType : Nat) :
    Except MiraFault Bool :=
  if file.length < miraHeaderBytes then .ok false
  else do
    let header ← readMiraHeader file
    if header.magic ≠ miraBinMagic then .ok false
    else if header.abiVersion ≠ miraBinAbiVersion then .ok false
    else if header.type ≠ expectedType then .ok false
    else if header.headerSize < miraHeaderBytes then .ok false
    else if header.sectCount > 65535 then .ok false
    else if header.sectTableOff < miraHeaderBytes then .ok false
    else if header.sectTableOff ≥ file.length then .ok false
    else if add64 header.sectTableOff (header.sectCount * miraSectDescBytes) > file.length then .ok false
    else
      let h := (headerBytes { header with checksum := 0 }).foldl hashStep hashSeed
      if file.length < miraHeaderBytes then .ok false
      else do
        let h ← hashLoop file (file.length - miraHeaderBytes) miraHeaderBytes h
        return h.toNat = header.checksum

end MiraOS
