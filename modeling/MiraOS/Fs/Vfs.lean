import Mathlib.Logic.Function.Basic
import MiraOS.Machine.Blocks
import MiraOS.Machine.Text
import MiraOS.Machine.Words

/-! The file tree and the open files of fs/vfs.c, and the root directory of fs/backend/ramfs.c. -/

namespace MiraOS

open Machine

/-- Entries of the table of open files. -/
def vfsMaxOpen : Nat := 16

/-- Bytes of a name, without its terminator. -/
def vfsNameMax : Nat := 63

/-- The flag that asks for a missing file to be created. -/
def vfsOCreat : Nat := 4

/-- What a node is; a cleared one is neither. -/
inductive VfsType where
  | unset | file | directory
  deriving DecidableEq, Repr

/-- A node of the file tree, cleared at first. -/
structure VfsNode where
  name : List UInt8 := []
  type : VfsType := .unset
  size : Nat := 0
  -- Address of the block that holds the bytes of a file, or null.
  data : Nat := 0
  parent : Nat := 0
  children : Nat := 0
  nextSibling : Nat := 0
  childCount : Nat := 0
  deriving DecidableEq, Repr

/-- An entry of the table of open files. -/
structure OpenFile where
  node : Nat := 0
  offset : Nat := 0
  flags : Nat := 0
  used : Bool := false
  deriving DecidableEq, Repr

/-- The static variables of the file system, and the memory that it uses. -/
structure Vfs where
  rootNode : Nat
  openTable : Nat → OpenFile
  nodes : Nat → VfsNode
  -- What the blocks of file bytes hold, by their address.
  blocks : Nat → List UInt8
  -- Pointers given back to the heap, in order.
  freed : List Nat
  -- The nodes linked into the tree so far, the newest first.
  linked : List Nat

/-- Store a node. -/
def Vfs.withNode (vfs : Vfs) (address : Nat) (node : VfsNode) : Vfs :=
  { vfs with nodes := Function.update vfs.nodes address node }

/-- Store what a block holds. -/
def Vfs.withBlock (vfs : Vfs) (address : Nat) (bytes : List UInt8) : Vfs :=
  { vfs with blocks := Function.update vfs.blocks address bytes }

/-- Store an entry of the table of open files. -/
def Vfs.withFile (vfs : Vfs) (fd : Nat) (file : OpenFile) : Vfs :=
  { vfs with openTable := Function.update vfs.openTable fd file }

/-- Give memory back to the heap. -/
def Vfs.kfree (vfs : Vfs) (pointer : Nat) : Vfs := { vfs with freed := vfs.freed ++ [pointer] }

/-- A 64-bit word as a signed number. -/
def toInt64 (word : Nat) : Int :=
  -- The upper half of the words stands for the negative numbers.
  if word % 2 ^ 64 < 2 ^ 63 then (word % 2 ^ 64 : Nat) else (word % 2 ^ 64 : Nat) - 2 ^ 64

/-- Copy bytes of a file out, and how many. -/
def vfsDefaultRead (node count offset : Nat) (vfs : Vfs) : Except Halt (Int × List UInt8) :=
  let file := vfs.nodes node
  if file.data = 0 ∨ file.size ≤ offset then .ok (0, [])
  else do
    -- The end of the read is found in 64-bit arithmetic, which may wrap around.
    let count := if file.size < add64 offset count then file.size - offset else count
    let copied ← readLoop (vfs.blocks file.data) offset count 0
    return (toInt64 count, copied)

/-- Move the bytes of a file to a larger block, with zeros behind them. -/
def vfsGrow (newData newSize node : Nat) (vfs : Vfs) : Except Halt Vfs :=
  let file := vfs.nodes node
  let zeros := List.replicate newSize 0
  -- Only an old block with bytes in it is copied and given back.
  if file.data ≠ 0 ∧ 0 < file.size then do
    let bytes ← storeLoop (loadByte (vfs.blocks file.data)) 0 file.size 0 zeros
    return ((vfs.kfree file.data).withBlock newData bytes).withNode node
      { file with data := newData, size := newSize }
  else .ok ((vfs.withBlock newData zeros).withNode node { file with data := newData, size := newSize })

/-- Copy bytes into the block of a file, and how many. -/
def vfsStore (node : Nat) (buf : Nat → UInt8) (count offset : Nat) (vfs : Vfs) :
    Except Halt (Int × Vfs) := do
  let data := (vfs.nodes node).data
  let bytes ← storeLoop (fun i => .ok (buf i)) offset count 0 (vfs.blocks data)
  return (toInt64 count, vfs.withBlock data bytes)

/-- Copy bytes into a file, into the block that the heap answered with where it has to grow. -/
def vfsDefaultWrite (newData node : Nat) (buf : Nat → UInt8) (count offset : Nat) (vfs : Vfs) :
    Except Halt (Int × Vfs) :=
  if count = 0 then .ok (0, vfs)
  else
    -- The end of the write may wrap around, and then the file does not grow.
    let newSize := add64 offset count
    if (vfs.nodes node).size < newSize then
      if newData = 0 then .ok (-1, vfs)
      else do
        let vfs ← vfsGrow newData newSize node vfs
        vfsStore node buf count offset vfs
    else vfsStore node buf count offset vfs

/-- The static variables of the file system, with a root. -/
def vfsInit (root : Nat) (vfs : Vfs) : Vfs :=
  { vfs with
    rootNode := root
    -- The other fields of an entry are left as they were.
    openTable := fun fd =>
      if fd < vfsMaxOpen then { vfs.openTable fd with used := false } else vfs.openTable fd
    linked := [root] }

/-- The walk along the children of a node. -/
def findChildLoop (vfs : Vfs) (name : List UInt8) : Nat → Nat → Except Halt Nat
  -- The walk has fuel, as nothing in the code bounds the list of children.
  | 0, child => if child = 0 then .ok 0 else .error .outOfFuel
  | fuel + 1, child =>
    if child = 0 then .ok 0
    else if name = (vfs.nodes child).name then .ok child
    else findChildLoop vfs name fuel (vfs.nodes child).nextSibling

/-- The child of a node with a name, or zero. -/
def vfsFindChild (fuel dir : Nat) (name : List UInt8) (vfs : Vfs) : Except Halt Nat :=
  findChildLoop vfs name fuel (vfs.nodes dir).children

/-- The bytes of a path up to the next slash, as many as a name can have, and what follows. -/
def takeComponent : Nat → List UInt8 → List UInt8 × List UInt8
  -- A longer component is cut off, and its rest counts as the next one.
  | 0, path => ([], path)
  | _ + 1, [] => ([], [])
  | limit + 1, byte :: path =>
    if byte = 0x2F then ([], byte :: path)
    else
      let (component, rest) := takeComponent limit path
      (byte :: component, rest)

/-- A path after the slash it starts with, if it does. -/
def skipSlash : List UInt8 → List UInt8
  | [] => []
  | byte :: path => if byte = 0x2F then path else byte :: path

/-- The walk down the tree, one component of the path after the other. -/
def lookupLoop (vfs : Vfs) : Nat → List UInt8 → Nat → Except Halt Nat
  | _, [], current => .ok current
  | 0, _ :: _, _ => .error .outOfFuel
  | fuel + 1, path, current =>
    let (component, rest) := takeComponent vfsNameMax path
    let rest := skipSlash rest
    -- Two slashes in a row give an empty component, which is passed over.
    if component = [] then lookupLoop vfs fuel rest current
    else do
      let child ← vfsFindChild fuel current component vfs
      if child = 0 then return 0 else lookupLoop vfs fuel rest child

/-- The node that a path leads to, or zero. -/
def vfsLookup (fuel : Nat) (path : List UInt8) (vfs : Vfs) : Except Halt Nat :=
  if vfs.rootNode = 0 then .ok 0
  else if path = [0x2F] then .ok vfs.rootNode
  else lookupLoop vfs fuel (skipSlash path) vfs.rootNode

/-- Link a node into the tree, as the first child of another. -/
def vfsAddChild (parent child : Nat) (vfs : Vfs) : Vfs :=
  let vfs := vfs.withNode child
    { vfs.nodes child with parent := parent, nextSibling := (vfs.nodes parent).children }
  let vfs := vfs.withNode parent
    { vfs.nodes parent with children := child, childCount := (vfs.nodes parent).childCount + 1 }
  { vfs with linked := child :: vfs.linked }

/-- A new node for the last component of a path, a file with these bytes, or zero. -/
def makeFile (answers : Nat → Nat) (requests : Nat) (name : List UInt8) (data : Nat → UInt8)
    (size parent : Nat) (vfs : Vfs) : Except Halt (Nat × Vfs) :=
  let child := answers requests
  let vfs := vfs.withNode child { name := name, type := .file, size := size }
  if 0 < size then
    let block := answers (requests + 1)
    -- The node is given back before it is linked in.
    if block = 0 then .ok (0, vfs.kfree child)
    else do
      -- Every byte of the block is stored by the loop, whatever it held before.
      let bytes ← storeLoop (fun i => .ok (data i)) 0 size 0 (List.replicate size 0)
      let vfs := vfs.withBlock block bytes
      let vfs := vfs.withNode child { name := name, type := .file, size := size, data := block }
      return (child, vfsAddChild parent child vfs)
  else .ok (child, vfsAddChild parent child vfs)

/-- The walk down the tree that makes the nodes that are missing. -/
def createLoop (answers : Nat → Nat) (data : Nat → UInt8) (size : Nat) :
    Nat → Nat → List UInt8 → Nat → Vfs → Except Halt (Nat × Vfs)
  | _, _, [], current, vfs => .ok (current, vfs)
  | 0, _, _ :: _, _, _ => .error .outOfFuel
  | fuel + 1, requests, path, current, vfs =>
    let (component, rest) := takeComponent vfsNameMax path
    let rest := skipSlash rest
    if component = [] then createLoop answers data size fuel requests rest current vfs
    else do
      let child ← vfsFindChild fuel current component vfs
      if child ≠ 0 then createLoop answers data size fuel requests rest child vfs
      -- The missing node takes one answer of the heap.
      else if answers requests = 0 then return (0, vfs)
      else if rest = [] then makeFile answers requests component data size current vfs
      else
        -- A component that is not the last one becomes a directory.
        let child := answers requests
        let vfs := vfs.withNode child { name := component, type := .directory }
        createLoop answers data size fuel (requests + 1) rest child (vfsAddChild current child vfs)

/-- The node that a path leads to, made with these bytes where it is missing, or zero. -/
def vfsCreateFile (fuel : Nat) (answers : Nat → Nat) (path : List UInt8) (data : Nat → UInt8)
    (size : Nat) (vfs : Vfs) : Except Halt (Nat × Vfs) :=
  createLoop answers data size fuel 0 (skipSlash path) vfs.rootNode vfs

/-- The lowest entry of the table that is not used. -/
def Vfs.unusedFile (vfs : Vfs) : Option Nat :=
  (List.range vfsMaxOpen).find? fun fd => !(vfs.openTable fd).used

/-- The node for opening a path, made first where it is missing and that is asked for. -/
def openNode (fuel : Nat) (answers : Nat → Nat) (path : List UInt8) (flags : Nat) (vfs : Vfs) :
    Except Halt (Nat × Vfs) := do
  let node ← vfsLookup fuel path vfs
  if node = 0 ∧ flags &&& vfsOCreat ≠ 0 then
    let (_, vfs) ← vfsCreateFile fuel answers path (fun _ => 0) 0 vfs
    -- The path is looked up again, whatever the creation answered.
    let node ← vfsLookup fuel path vfs
    return (node, vfs)
  else return (node, vfs)

/-- Open a file. -/
def vfsOpen (fuel : Nat) (answers : Nat → Nat) (path : List UInt8) (flags : Nat) (vfs : Vfs) :
    Except Halt (Int × Vfs) := do
  let (node, vfs) ← openNode fuel answers path flags vfs
  if node = 0 then return (-1, vfs)
  else if (vfs.nodes node).type = .directory then return (-1, vfs)
  else
    -- A node that was made stays in the tree where no entry is free.
    match vfs.unusedFile with
    | some fd =>
      return (fd, vfs.withFile fd { node := node, offset := 0, flags := flags, used := true })
    | none => return (-1, vfs)

/-- The entry that a file descriptor stands for, if there is one in use. -/
def Vfs.file? (vfs : Vfs) (fd : Int) : Option OpenFile :=
  if fd < 0 ∨ (vfsMaxOpen : Int) ≤ fd ∨ (vfs.openTable fd.toNat).used = false then none
  else some (vfs.openTable fd.toNat)

/-- Close a file. -/
def vfsClose (fd : Int) (vfs : Vfs) : Int × Vfs :=
  match vfs.file? fd with
  | none => (-1, vfs)
  | some file => (0, vfs.withFile fd.toNat { file with used := false })

/-- Move the offset of an open file by what was copied. -/
def Vfs.advance (vfs : Vfs) (fd : Int) (file : OpenFile) (n : Int) : Vfs :=
  if 0 < n then vfs.withFile fd.toNat { file with offset := add64 file.offset n.toNat } else vfs

/-- Read from an open file, with the bytes that are copied. -/
def vfsRead (fd : Int) (count : Nat) (vfs : Vfs) : Except Halt (Int × List UInt8 × Vfs) :=
  match vfs.file? fd with
  | none => .ok (-1, [], vfs)
  | some file => do
    let (n, copied) ← vfsDefaultRead file.node count file.offset vfs
    return (n, copied, vfs.advance fd file n)

/-- Write to an open file. -/
def vfsWrite (newData : Nat) (fd : Int) (buf : Nat → UInt8) (count : Nat) (vfs : Vfs) :
    Except Halt (Int × Vfs) :=
  match vfs.file? fd with
  | none => .ok (-1, vfs)
  | some file => do
    let (n, vfs) ← vfsDefaultWrite newData file.node buf count file.offset vfs
    return (n, vfs.advance fd file n)

/-- The place that a seek asks for, in 64-bit arithmetic. -/
def seekTarget (current size offset : Nat) (whence : Int) : Option Nat :=
  if whence = 0 then some offset
  else if whence = 1 then some (add64 current offset)
  else if whence = 2 then some (add64 size offset)
  else none

/-- Move the offset of an open file, not past the end. -/
def vfsLseek (fd : Int) (offset : Nat) (whence : Int) (vfs : Vfs) : Int × Vfs :=
  match vfs.file? fd with
  | none => (-1, vfs)
  | some file =>
    let size := (vfs.nodes file.node).size
    match seekTarget file.offset size offset whence with
    | none => (-1, vfs)
    | some newOffset =>
      -- The end of the file itself is allowed.
      if size < newOffset then (-1, vfs)
      else (0, vfs.withFile fd.toNat { file with offset := newOffset })

/-- An empty root directory. -/
def mountRoot (root : Nat) (vfs : Vfs) : Vfs :=
  vfsInit root (vfs.withNode root { name := [0x2F], type := .directory })

/-- A file that is made with a text. -/
def createText (fuel : Nat) (answers : Nat → Nat) (path text : String) (vfs : Vfs) :
    Except Halt (Nat × Vfs) :=
  vfsCreateFile fuel answers (asciiBytes path) (fun i => (asciiBytes text).getD i 0)
    (asciiBytes text).length vfs

/-- The root directory with its two files; each creation has its own answers of the heap. -/
def ramfsInit (fuel : Nat) (readme version : Nat → Nat) (root : Nat) (vfs : Vfs) : Except Halt Vfs := do
  let (_, vfs) ← createText fuel readme "/readme.txt" "MiraOS ramfs online" (mountRoot root vfs)
  let (_, vfs) ← createText fuel version "/version" "1.0" vfs
  return vfs

end MiraOS
