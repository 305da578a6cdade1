import MiraOS.Drivers.Framebuffer

/-! Drawing with and without the back buffer of drivers/framebuffer.c shows the same screen. -/

namespace MiraOS

open Machine

/-- A geometry of whole words: rows of full pixels, and a screen whose size is a word of 32 bits. -/
structure FramebufferInfo.Geometry (fb : FramebufferInfo) : Prop where
  aligned : fb.pitch.toNat % 4 = 0
  wide : 4 * fb.width.toNat ≤ fb.pitch.toNat
  small : fb.height.toNat * fb.pitch.toNat < 2 ^ 32

/-- A color has four bytes. -/
@[simp] theorem colorBytes_length (color : UInt32) : (colorBytes color).length = 4 := rfl

/-- Storing the bytes of a pixel keeps the length of the buffer. -/
theorem storePixel_length {block bytes after : List UInt8} {start : Nat} (four : bytes.length = 4)
    (stored : storePixel block start bytes = .ok after) :
    after.length = block.length ∧ start + 4 ≤ block.length := by
  rw [storePixel] at stored
  -- A store that happened was inside of the buffer.
  split_ifs at stored with inside
  refine ⟨?_, inside⟩
  rw [← Except.ok.inj stored, overlay_length (by omega), four]
  omega

/-- A line of pixels that could be stored lies inside the buffer, and keeps its length. -/
theorem storeLine_length {bytes : Nat → List UInt8} {block after : List UInt8} {start w : Nat}
    (four : ∀ col, (bytes col).length = 4) (stored : storeLine start bytes w block = .ok after) :
    after.length = block.length ∧ (0 < w → start + 4 * w ≤ block.length) := by
  -- The line is taken apart at its last pixel.
  induction w generalizing after with
  | zero =>
    refine ⟨?_, fun none => absurd none (Nat.lt_irrefl 0)⟩
    rw [← Except.ok.inj stored]
  | succ w ih =>
    -- The last pixel of the line is the one that reaches furthest.
    rw [storeLine, List.range_succ, List.foldlM_append] at stored
    obtain ⟨middle, front, last⟩ := bind_eq_ok.mp stored
    rw [List.foldlM_cons] at last
    obtain ⟨next, one, done⟩ := bind_eq_ok.mp last
    obtain rfl := Except.ok.inj done
    obtain ⟨same, -⟩ := ih front
    obtain ⟨kept, inside⟩ := storePixel_length (four w) one
    exact ⟨kept.trans same, fun _ => by omega⟩

/-- The rows of a picture keep the length of the buffer. -/
theorem blitLoop_length {fb : FramebufferInfo} {double : Bool} {dx dy srcPitch row w : UInt32}
    {src : Nat → UInt8} {turns : Nat} {block after : List UInt8}
    (ran : blitLoop fb double dx dy src srcPitch turns row w block = .ok after) :
    after.length = block.length := by
  -- Every row is a line of its own, with its own width.
  induction turns generalizing row w block with
  | zero => rw [← Except.ok.inj ran]
  | succ turns ih =>
    rw [blitLoop] at ran
    by_cases shown : dy + row < fb.height
    · rw [if_pos shown] at ran
      obtain ⟨middle, line, rest⟩ := bind_eq_ok.mp ran
      rw [ih rest, (storeLine_length (fun _ => rfl) line).1]
    · rw [if_neg shown] at ran
      rw [← Except.ok.inj ran]

/-- Every call keeps the length of the buffer that it draws into. -/
theorem fbDraw_length {fb : FramebufferInfo} {double : Bool} {call : FbCall} {block after : List UInt8}
    (drawn : fbDraw fb double call block = .ok after) : after.length = block.length := by
  cases call with
  | putPixel x y color =>
    rw [fbDraw, fbWritePixel] at drawn
    split_ifs at drawn
    · rw [← Except.ok.inj drawn]
    · exact (storePixel_length (colorBytes_length color) drawn).1
  | fillRect x y w h color =>
    rw [fbDraw, fbFillRect] at drawn
    by_cases outside : !fbReady fb ∨ fb.width ≤ x ∨ fb.height ≤ y
    · rw [if_pos outside] at drawn
      rw [← Except.ok.inj drawn]
    · rw [if_neg outside] at drawn
      -- The length is the same after every row.
      refine @foldlM_keeps _ _ _ _ (fun state => state.length = block.length) _ _ _ drawn rfl ?_
      intro state row next _ same stored
      rw [(storeLine_length (fun _ => colorBytes_length color) stored).1, same]
  | blit dx dy w h src srcPitch =>
    rw [fbDraw, fbBlit.eq_def] at drawn
    cases src with
    | none => rw [← Except.ok.inj drawn]
    | some src =>
      dsimp only at drawn
      split_ifs at drawn
      · exact blitLoop_length drawn
      · rw [← Except.ok.inj drawn]
  | scroll lines =>
    rw [fbDraw, fbScroll] at drawn
    split_ifs at drawn
    · rw [← Except.ok.inj drawn]
    · obtain ⟨middle, moved, cleared⟩ := bind_eq_ok.mp drawn
      rw [storeLoop_length cleared]
      -- The rows move towards the start of the buffer, or there is nothing to move.
      rw [memmoveBlock] at moved
      split_ifs at moved with down up
      · exact moveLoop_length moved
      · omega
      · rw [← Except.ok.inj moved]

section

variable {fb : FramebufferInfo} (geometry : fb.Geometry)

include geometry

/-- The size of the screen. -/
theorem totalBytes_eq : totalBytes fb = fb.height.toNat * fb.pitch.toNat := by
  rw [totalBytes, UInt32.toNat_mul, Nat.mod_eq_of_lt geometry.small]

/-- Up to the end of a row of the screen, both ways to reach a pixel lead to the same place. -/
theorem pixelStart_eq {x y : UInt32} (row : y < fb.height) (column : x ≤ fb.width) :
    pixelStart fb true x y = pixelStart fb false x y := by
  have aligned := geometry.aligned
  have wide := geometry.wide
  have small := geometry.small
  have below : y.toNat < fb.height.toNat := UInt32.lt_iff_toNat_lt.mp row
  have left : x.toNat ≤ fb.width.toNat := UInt32.le_iff_toNat_le.mp column
  -- The row and all rows before it lie on the screen.
  have rows : y.toNat * fb.pitch.toNat + fb.pitch.toNat ≤ fb.height.toNat * fb.pitch.toNat := by
    rw [← Nat.succ_mul]
    exact Nat.mul_le_mul_right _ below
  -- Rows are whole words, so counting in words or in bytes is the same.
  have words : 4 * (y.toNat * (fb.pitch.toNat / 4)) = y.toNat * fb.pitch.toNat := by
    rw [Nat.mul_left_comm]
    congr 1
    omega
  rw [pixelStart, pixelStart, if_pos rfl, if_neg Bool.false_ne_true, UInt32.toNat_add, UInt32.toNat_mul,
    UInt32.toNat_mul, UInt32.toNat_mul, UInt32.toNat_div, show (4 : UInt32).toNat = 4 from rfl]
  omega

/-- A pixel is stored at the same place. -/
theorem fbWritePixel_same (x y color : UInt32) (block : List UInt8) :
    fbWritePixel fb true x y color block = fbWritePixel fb false x y color block := by
  rw [fbWritePixel, fbWritePixel]
  by_cases outside : !fbReady fb ∨ fb.width ≤ x ∨ fb.height ≤ y
  · rw [if_pos outside, if_pos outside]
  · rw [if_neg outside, if_neg outside]
    -- A pixel that is drawn at all is on the screen.
    simp only [not_or, UInt32.not_le] at outside
    rw [pixelStart_eq geometry outside.2.2 (UInt32.le_of_lt outside.2.1)]

/-- A rectangle is filled at the same place, since all its rows are on the screen. -/
theorem fbFillRect_same (x y w h color : UInt32) (block : List UInt8) :
    fbFillRect fb true x y w h color block = fbFillRect fb false x y w h color block := by
  rw [fbFillRect, fbFillRect]
  by_cases outside : !fbReady fb ∨ fb.width ≤ x ∨ fb.height ≤ y
  · rw [if_pos outside, if_pos outside]
  · rw [if_neg outside, if_neg outside]
    simp only [not_or, UInt32.not_le] at outside
    dsimp only
    have below := UInt32.lt_iff_toNat_lt.mp outside.2.2
    -- The clipped rectangle ends at the last row of the screen, even where the sum wraps.
    have bound : (y + if fb.height < y + h then fb.height - y else h).toNat ≤ fb.height.toNat := by
      split_ifs with past
      · rw [UInt32.toNat_add, UInt32.toNat_sub]
        have := fb.height.toNat_lt
        omega
      · exact UInt32.le_iff_toNat_le.mp (UInt32.not_lt.mp past)
    -- Row after row, the line starts at the same place.
    refine foldlM_same (fun row among block => ?_) block
    obtain ⟨-, last⟩ := List.mem_range'_1.mp among
    have inside : row < fb.height.toNat := by omega
    have word : (UInt32.ofNat row).toNat = row :=
      UInt32.toNat_ofNat_of_lt (Nat.lt_trans inside fb.height.toNat_lt)
    have shown : UInt32.ofNat row < fb.height := by
      rw [UInt32.lt_iff_toNat_lt, word]
      exact inside
    rw [pixelStart_eq geometry shown (UInt32.le_of_lt outside.2.1)]

/-- A picture that is copied inside the framebuffer is copied to the same place of the back buffer.

A start behind the end of the rows makes the width wrap around, so that the copy leaves the framebuffer. -/
theorem blitLoop_same {dx dy srcPitch row w : UInt32} {src : Nat → UInt8} {turns : Nat}
    {block after : List UInt8} (size : block.length = totalBytes fb)
    (direct : blitLoop fb false dx dy src srcPitch turns row w block = .ok after) :
    blitLoop fb true dx dy src srcPitch turns row w block = .ok after := by
  have total := totalBytes_eq geometry
  have small := geometry.small
  -- The clipped width of a row is the one that the next row starts from.
  induction turns generalizing row w block with
  | zero => exact direct
  | succ turns ih =>
    rw [blitLoop] at direct ⊢
    by_cases shown : dy + row < fb.height
    · rw [if_pos shown] at direct
      obtain ⟨middle, line, rest⟩ := bind_eq_ok.mp direct
      obtain ⟨kept, inside⟩ := storeLine_length (fun _ => rfl) line
      -- In direct mode the line was inside of the buffer, which settles where it started.
      have column : dx ≤ fb.width := by
        by_contra right
        have beyond := UInt32.lt_iff_toNat_lt.mp (UInt32.not_le.mp right)
        -- The clipped width takes the row past the words of 32 bits.
        have wraps : 2 ^ 32 ≤ dx.toNat + (if fb.width < dx + w then fb.width - dx else w).toNat := by
          split_ifs with past
          · rw [UInt32.toNat_sub]
            have := dx.toNat_lt
            omega
          · have under := UInt32.le_iff_toNat_le.mp (UInt32.not_lt.mp past)
            rw [UInt32.toNat_add] at under
            omega
        have word := dx.toNat_lt
        have reach := inside (by omega)
        rw [pixelStart, if_neg Bool.false_ne_true, UInt32.toNat_mul dx,
          show (4 : UInt32).toNat = 4 from rfl] at reach
        omega
      rw [if_pos shown, pixelStart_eq geometry shown column]
      exact bind_eq_ok.mpr ⟨middle, line, ih (by omega) rest⟩
    · -- Below the screen both copies are over.
      rw [if_neg shown] at direct ⊢
      exact direct

/-- A call that stays inside the framebuffer does the same to the back buffer. -/
theorem fbDraw_same {call : FbCall} {block after : List UInt8} (size : block.length = totalBytes fb)
    (direct : fbDraw fb false call block = .ok after) : fbDraw fb true call block = .ok after := by
  cases call with
  | putPixel x y color =>
    rw [← direct]
    exact fbWritePixel_same geometry x y color block
  | fillRect x y w h color =>
    rw [← direct]
    exact fbFillRect_same geometry x y w h color block
  | blit dx dy w h src srcPitch =>
    rw [fbDraw, fbBlit.eq_def] at direct ⊢
    cases src with
    | none => exact direct
    | some src =>
      dsimp only at direct ⊢
      split_ifs at direct with ready
      · rw [if_pos ready]
        exact blitLoop_same geometry size direct
      · rw [if_neg ready]
        exact direct
  -- Scrolling does not ask for the mode.
  | scroll lines => exact direct

/--
Calls that stay inside the framebuffer leave in the back buffer what they would leave in the framebuffer.

The two modes walk in step, since every call that does not stop draws the same bytes at the same places.
-/
theorem fbRun_same {bytes front : List UInt8} {calls : List FbCall} {back : Option (List UInt8)}
    {shown : Framebuffer} (size : bytes.length = totalBytes fb)
    (direct : fbRun ⟨fb, bytes, back, false⟩ calls = .ok shown) :
    shown.front.length = totalBytes fb ∧
      fbRun ⟨fb, front, some bytes, true⟩ calls = .ok ⟨fb, front, some shown.front, true⟩ := by
  -- The contents of both buffers change along the calls, and stay equal.
  induction calls generalizing bytes with
  | nil =>
    obtain rfl := Except.ok.inj direct
    exact ⟨size, rfl⟩
  | cons call rest ih =>
    rw [fbRun, List.foldlM_cons] at direct
    -- In direct mode the call went through, and its bytes are the new framebuffer.
    obtain ⟨next, one, others⟩ := bind_eq_ok.mp direct
    obtain ⟨drawn, drawing, made⟩ := bind_eq_ok.mp one
    obtain rfl := Except.ok.inj made
    have length := (fbDraw_length drawing).trans size
    obtain ⟨final, ran⟩ := ih length others
    refine ⟨final, ?_⟩
    rw [fbRun, List.foldlM_cons]
    refine bind_eq_ok.mpr ⟨⟨fb, front, some drawn, true⟩, ?_, ran⟩
    exact bind_eq_ok.mpr ⟨drawn, fbDraw_same geometry size drawing, rfl⟩

/--
Double buffering is invisible.

From equal contents, calls that stay inside the framebuffer in direct mode also run into the back buffer, and
after the buffers are swapped the framebuffer shows the same bytes.
-/
theorem doubleBuffering_invisible {bytes : List UInt8} {calls : List FbCall} {back : Option (List UInt8)}
    {shown : Framebuffer} (size : bytes.length = fb.height.toNat * fb.pitch.toNat)
    (direct : fbRun ⟨fb, bytes, back, false⟩ calls = .ok shown) :
    ∃ drawn after, fbRun ⟨fb, bytes, some bytes, true⟩ calls = .ok drawn ∧
      fbSwapBuffers drawn = .ok after ∧ after.front = shown.front := by
  rw [← totalBytes_eq geometry] at size
  obtain ⟨length, ran⟩ := @fbRun_same fb geometry bytes bytes calls back shown size direct
  -- The swap copies all of the back buffer over the framebuffer.
  have copied := @storeLoop_loadByte bytes 0 (totalBytes fb) shown.front (by omega) (by omega)
  have whole : overlay bytes 0 (shown.front.take (totalBytes fb)) = shown.front := by
    rw [List.take_of_length_le (by omega), overlay_past (by omega)]
    rfl
  rw [whole] at copied
  exact ⟨_, _, ran, bind_eq_ok.mpr ⟨shown.front, copied, rfl⟩, rfl⟩

end

/-- A screen of two rows of one pixel each, on which a pixel is set and moved up. -/
theorem doubleBuffering_invisible_pixel :
    let fb : FramebufferInfo := ⟨0xFD000000, 4, 1, 2, 32⟩
    let calls : List FbCall := [.putPixel 0 1 0x01020304, .scroll 1]
    ∃ shown drawn after, fbRun ⟨fb, [0, 0, 0, 0, 0, 0, 0, 0], none, false⟩ calls = .ok shown ∧
      fbRun ⟨fb, [0, 0, 0, 0, 0, 0, 0, 0], some [0, 0, 0, 0, 0, 0, 0, 0], true⟩ calls = .ok drawn ∧
      fbSwapBuffers drawn = .ok after ∧ after.front = shown.front ∧
      shown.front = [4, 3, 2, 1, 0, 0, 0, 0] := by
  intro fb calls
  have geometry : fb.Geometry := ⟨by decide, by decide, by decide⟩
  -- Drawn directly, the pixel of the second row is scrolled to the first one.
  have direct : fbRun ⟨fb, [0, 0, 0, 0, 0, 0, 0, 0], none, false⟩ calls =
      .ok ⟨fb, [4, 3, 2, 1, 0, 0, 0, 0], none, false⟩ := by decide +kernel
  obtain ⟨drawn, after, ran, swapped, same⟩ := doubleBuffering_invisible geometry rfl direct
  exact ⟨_, drawn, after, direct, ran, swapped, same, rfl⟩

end MiraOS
