import Mathlib.Logic.Function.Basic
import MiraOS.Machine.Blocks
import MiraOS.Machine.Words

/-! What files are for: a byte sequence for each file, and an offset for each open descriptor. -/

namespace Machine

/-- An open descriptor: the file it is open on, and the place in it. -/
structure Handle (File : Type) where
  file : File
  offset : Nat

/-- The bytes of each file, and what each descriptor is open on. -/
@[ext]
structure FileStore (File : Type) where
  bytes : File → List UInt8
  handles : Nat → Option (Handle File)

/-- A call on the files of a store. -/
inductive FileCall (File : Type) where
  -- Open a file, if the path names one.
  | open (target : Option File)
  | read (fd : Int) (count : Nat)
  -- Write bytes, and whether there is memory for a longer file.
  | write (fd : Int) (bytes : List UInt8) (memory : Bool)
  | seek (fd : Int) (offset : Nat) (whence : Int)
  | close (fd : Int)

/-- What a call answers, with the bytes it delivers. -/
structure FileAnswer where
  value : Int
  delivered : List UInt8 := []
  deriving DecidableEq, Repr

namespace FileStore

variable {File : Type}

/-- What a descriptor is open on; the store has a number of descriptors. -/
def handle? (slots : Nat) (store : FileStore File) (fd : Int) : Option (Handle File) :=
  -- A number outside the table names no descriptor.
  if fd < 0 ∨ (slots : Int) ≤ fd then none else store.handles fd.toNat

/-- Move a descriptor to a place in its file. -/
def moveTo (store : FileStore File) (fd : Int) (handle : Handle File) (offset : Nat) : FileStore File :=
  { store with handles := Function.update store.handles fd.toNat (some ⟨handle.file, offset⟩) }

/-- Open a file at its start, with the lowest descriptor that is free. -/
def openFile (slots : Nat) (store : FileStore File) (target : Option File) :
    FileAnswer × FileStore File :=
  match target, (List.range slots).find? fun fd => (store.handles fd).isNone with
  | some file, some fd =>
    (⟨fd, []⟩, { store with handles := Function.update store.handles fd (some ⟨file, 0⟩) })
  -- Without a file or without a free descriptor nothing is opened.
  | _, _ => (⟨-1, []⟩, store)

/-- Deliver the bytes from the place of a descriptor on, as many as asked for or as there are. -/
def read (slots : Nat) (store : FileStore File) (fd : Int) (count : Nat) :
    FileAnswer × FileStore File :=
  match store.handle? slots fd with
  | none => (⟨-1, []⟩, store)
  | some handle =>
    -- At the end of the file the slice is empty, and the answer is zero.
    let slice := ((store.bytes handle.file).drop handle.offset).take count
    (⟨slice.length, slice⟩, store.moveTo fd handle (handle.offset + slice.length))

/-- Lay bytes over a file at the place of a descriptor. -/
def write [DecidableEq File] (slots : Nat) (store : FileStore File) (fd : Int) (bytes : List UInt8)
    (memory : Bool) : FileAnswer × FileStore File :=
  match store.handle? slots fd with
  | none => (⟨-1, []⟩, store)
  | some handle =>
    let file := store.bytes handle.file
    -- A longer file needs new memory; without it the call fails and changes nothing.
    if file.length < handle.offset + bytes.length ∧ memory = false then (⟨-1, []⟩, store)
    else
      (⟨bytes.length, []⟩,
        { store.moveTo fd handle (handle.offset + bytes.length) with
          bytes := Function.update store.bytes handle.file (overlay file handle.offset bytes) })

/-- The place in a file that a seek counts from. -/
def seekBase (current size : Nat) (whence : Int) : Option Nat :=
  if whence = 0 then some 0
  else if whence = 1 then some current
  else if whence = 2 then some size
  else none

/-- Move a descriptor to another place inside its file, found in 64-bit arithmetic. -/
def seek (slots : Nat) (store : FileStore File) (fd : Int) (offset : Nat) (whence : Int) :
    FileAnswer × FileStore File :=
  match store.handle? slots fd with
  | none => (⟨-1, []⟩, store)
  | some handle =>
    let size := (store.bytes handle.file).length
    match seekBase handle.offset size whence with
    | none => (⟨-1, []⟩, store)
    | some base =>
      -- The place may be the end of the file but not past it.
      if size < add64 base offset then (⟨-1, []⟩, store)
      else (⟨0, []⟩, store.moveTo fd handle (add64 base offset))

/-- Release a descriptor. -/
def close (slots : Nat) (store : FileStore File) (fd : Int) : FileAnswer × FileStore File :=
  match store.handle? slots fd with
  | none => (⟨-1, []⟩, store)
  | some _ => (⟨0, []⟩, { store with handles := Function.update store.handles fd.toNat none })

/-- One call. -/
def call [DecidableEq File] (slots : Nat) (store : FileStore File) :
    FileCall File → FileAnswer × FileStore File
  | .open target => store.openFile slots target
  | .read fd count => store.read slots fd count
  | .write fd bytes memory => store.write slots fd bytes memory
  | .seek fd offset whence => store.seek slots fd offset whence
  | .close fd => store.close slots fd

end FileStore

end Machine
