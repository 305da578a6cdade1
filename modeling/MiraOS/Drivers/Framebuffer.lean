import MiraOS.Machine.Blocks
import MiraOS.Machine.Packed
import MiraOS.Machine.Words
import MiraOS.Kernel.Mem

/-! Drawing into the framebuffer or into its back buffer, as in drivers/framebuffer.c. -/

namespace MiraOS

open Machine

/-- What the boot loader says about the framebuffer. -/
structure FramebufferInfo where
  addr : UInt64
  pitch : UInt32
  width : UInt32
  height : UInt32
  bpp : UInt8
  deriving DecidableEq

/-- The state of the driver: the bytes of the framebuffer, and those of the back buffer if there is one. -/
structure Framebuffer where
  fb : FramebufferInfo
  front : List UInt8
  backBuffer : Option (List UInt8)
  useDoubleBuffer : Bool
  deriving DecidableEq

/-- The framebuffer can be drawn into. -/
def fbReady (fb : FramebufferInfo) : Bool := fb.addr != 0 && fb.bpp == 32

/-- Where the pixel of a column and a row starts, from the start of the buffer on.

The back buffer is an array of words with an index of 32 bits, and the framebuffer is reached from its
address by two products of 32 bits. -/
def pixelStart (fb : FramebufferInfo) (double : Bool) (x y : UInt32) : Nat :=
  if double then 4 * (y * (fb.pitch / 4) + x).toNat else (y * fb.pitch).toNat + (x * 4).toNat

/-- Store the four bytes of a pixel. -/
def storePixel (block : List UInt8) (start : Nat) (bytes : List UInt8) : Except Halt (List UInt8) :=
  if start + 4 ≤ block.length then .ok (overlay block start bytes) else .error .outOfBounds

/-- The bytes of a color. -/
def colorBytes (color : UInt32) : List UInt8 := leBytes 4 color.toNat

/-- Store a pixel, if it is on the screen. -/
def fbWritePixel (fb : FramebufferInfo) (double : Bool) (x y color : UInt32) (block : List UInt8) :
    Except Halt (List UInt8) :=
  if !fbReady fb ∨ fb.width ≤ x ∨ fb.height ≤ y then .ok block
  else storePixel block (pixelStart fb double x y) (colorBytes color)

/-- Store pixels one behind the other, with the bytes that each of them gets. -/
def storeLine (start : Nat) (bytes : Nat → List UInt8) (w : Nat) (block : List UInt8) :
    Except Halt (List UInt8) :=
  (List.range w).foldlM (fun block col => storePixel block (start + 4 * col) (bytes col)) block

/-- Fill a rectangle, clipped to the screen. -/
def fbFillRect (fb : FramebufferInfo) (double : Bool) (x y w h color : UInt32) (block : List UInt8) :
    Except Halt (List UInt8) :=
  if !fbReady fb ∨ fb.width ≤ x ∨ fb.height ≤ y then .ok block
  else
    -- The sums wrap, so a rectangle that is too large for words may pass unclipped.
    let w := if fb.width < x + w then fb.width - x else w
    let h := if fb.height < y + h then fb.height - y else h
    -- A sum of row and height that wrapped lies before the first row, and no row is filled.
    let rows := List.range' y.toNat ((y + h).toNat - y.toNat)
    rows.foldlM (fun block row =>
      storeLine (pixelStart fb double x (UInt32.ofNat row)) (fun _ => colorBytes color) w.toNat block) block

/-- The bytes of a pixel of the source. -/
def sourcePixel (src : Nat → UInt8) (srcPitch row : UInt32) (col : Nat) : List UInt8 :=
  let start := (row * srcPitch).toNat + 4 * col
  [src start, src (start + 1), src (start + 2), src (start + 3)]

/-- The rows of a picture that is copied; its width is clipped again for every row. -/
def blitLoop (fb : FramebufferInfo) (double : Bool) (dx dy : UInt32) (src : Nat → UInt8) (srcPitch : UInt32) :
    Nat → UInt32 → UInt32 → List UInt8 → Except Halt (List UInt8)
  | 0, _, _, block => .ok block
  | turns + 1, row, w, block =>
    -- The first row below the screen ends the copy.
    if dy + row < fb.height then do
      -- A start behind the end of the rows makes the difference wrap.
      let w := if fb.width < dx + w then fb.width - dx else w
      let block ← storeLine (pixelStart fb double dx (dy + row)) (sourcePixel src srcPitch row) w.toNat block
      blitLoop fb double dx dy src srcPitch turns (row + 1) w block
    else .ok block

/-- Copy a picture from memory apart from the buffers. -/
def fbBlit (fb : FramebufferInfo) (double : Bool) (dx dy w h : UInt32) (src : Option (Nat → UInt8))
    (srcPitch : UInt32) (block : List UInt8) : Except Halt (List UInt8) :=
  match src with
  | some src =>
    if fbReady fb then blitLoop fb double dx dy src srcPitch h.toNat 0 w block else .ok block
  | none => .ok block

/-- The backward half of a move, from high to low indices. -/
def moveDownLoop (dst src : Nat) : Nat → List UInt8 → Except Halt (List UInt8)
  | 0, block => .ok block
  | count + 1, block => do
    -- Bytes that overlap are read before they are written.
    let byte ← loadByte block (src + count)
    let block ← storeByte block (dst + count) byte
    moveDownLoop dst src count block

/-- Move bytes inside a block. -/
def memmoveBlock (dst src count : Nat) (block : List UInt8) : Except Halt (List UInt8) :=
  if dst < src then moveLoop dst src count 0 block
  else if src < dst then moveDownLoop dst src count block
  else .ok block

/-- Set bytes of a block. -/
def memsetBlock (dst : Nat) (value : UInt8) (count : Nat) (block : List UInt8) : Except Halt (List UInt8) :=
  storeLoop (fun _ => .ok value) dst count 0 block

/-- The bytes of the screen, whose product is one of 32 bits. -/
def totalBytes (fb : FramebufferInfo) : Nat := (fb.height * fb.pitch).toNat

/-- The static variables of the driver, with the back buffer as the pointer to it. -/
structure FbStatics where
  fb : FramebufferInfo
  backBuffer : Nat
  useDoubleBuffer : Bool

/-- What a framebuffer tag of the boot information says. -/
def readFramebufferTag (info : Memory) (tag : Nat) : FramebufferInfo where
  addr := UInt64.ofNat (read64 info (tag + 8))
  pitch := UInt32.ofNat (read32 info (tag + 16))
  width := UInt32.ofNat (read32 info (tag + 20))
  height := UInt32.ofNat (read32 info (tag + 24))
  bpp := info (tag + 28)

/-- Take over a framebuffer tag, and ask for a back buffer. -/
def fbFound (info : Memory) (kmalloc : Nat → Except Halt Nat) (tag : Nat) (statics : FbStatics) :
    Except Halt (Bool × FbStatics) := do
  let fb := readFramebufferTag info tag
  let backBuffer ← kmalloc (totalBytes fb)
  -- Without a back buffer the flag keeps its value.
  let double := if backBuffer ≠ 0 then true else statics.useDoubleBuffer
  return (fb.bpp == 32, ⟨fb, backBuffer, double⟩)

/-- The loop over the tags of the boot information, up to the first framebuffer tag. -/
def fbLoop (info : Memory) (kmalloc : Nat → Except Halt Nat) :
    Nat → Nat → FbStatics → Except Halt (Bool × FbStatics)
  | 0, _, _ => .error .outOfFuel
  | fuel + 1, tag, statics =>
    if read32 info tag = 0 then .ok (false, statics)
    else if read32 info tag = 8 then fbFound info kmalloc tag statics
    -- The driver has a function of its own for the next tag, with the same text.
    else fbLoop info kmalloc fuel (mbiNext info tag) statics

/-- Look for the framebuffer in the boot information at `mbi`. -/
def fbInit (fuel : Nat) (info : Memory) (kmalloc : Nat → Except Halt Nat) (mbi : Nat) (statics : FbStatics) :
    Except Halt (Bool × FbStatics) :=
  fbLoop info kmalloc fuel (add64 mbi 8) statics

/-- Move the screen up by some rows and clear those at its end; both buffers are reached alike. -/
def fbScroll (fb : FramebufferInfo) (lines : UInt32) (block : List UInt8) : Except Halt (List UInt8) :=
  if !fbReady fb ∨ lines = 0 then .ok block
  else do
    let scrollBytes := lines.toNat * fb.pitch.toNat
    -- The number of bytes is of the full width here, unlike the size of the screen.
    let rest := sub64 (totalBytes fb) scrollBytes
    let block ← memmoveBlock 0 scrollBytes rest block
    memsetBlock rest 0 scrollBytes block

/-- A call that draws. -/
inductive FbCall where
  | putPixel (x y color : UInt32)
  | fillRect (x y w h color : UInt32)
  | blit (dx dy w h : UInt32) (src : Option (Nat → UInt8)) (srcPitch : UInt32)
  | scroll (lines : UInt32)

/-- What a call does to the buffer that it draws into. -/
def fbDraw (fb : FramebufferInfo) (double : Bool) : FbCall → List UInt8 → Except Halt (List UInt8)
  | .putPixel x y color => fbWritePixel fb double x y color
  | .fillRect x y w h color => fbFillRect fb double x y w h color
  | .blit dx dy w h src srcPitch => fbBlit fb double dx dy w h src srcPitch
  | .scroll lines => fbScroll fb lines

/-- A call draws into the back buffer with double buffering and into the framebuffer without. -/
def fbStep (state : Framebuffer) (call : FbCall) : Except Halt Framebuffer :=
  if state.useDoubleBuffer then
    match state.backBuffer with
    | some back => do
      let back ← fbDraw state.fb true call back
      return { state with backBuffer := some back }
    -- The mode is only set together with a buffer.
    | none => .error .outOfBounds
  else do
    let front ← fbDraw state.fb false call state.front
    return { state with front := front }

/-- The calls one after another. -/
def fbRun (state : Framebuffer) (calls : List FbCall) : Except Halt Framebuffer := calls.foldlM fbStep state

/-- Copy the back buffer to the framebuffer. -/
def fbSwapBuffers (state : Framebuffer) : Except Halt Framebuffer :=
  match state.useDoubleBuffer, state.backBuffer with
  | true, some back => do
    let front ← storeLoop (loadByte back) 0 (totalBytes state.fb) 0 state.front
    return { state with front := front }
  | _, _ => .ok state

end MiraOS
