import MiraOS.Drivers.Clipping
import MiraOS.Machine.Pictures

/-! The framebuffer as a picture: what calls of drivers/framebuffer.c draw, whatever buffer they draw into. -/

namespace MiraOS

open Machine

/-- The buffer that calls draw into. -/
def Framebuffer.drawn (state : Framebuffer) : Option (List UInt8) :=
  if state.useDoubleBuffer then state.backBuffer else some state.front

/-- A buffer that shows a picture: on the screen, each pixel has the bytes of its color. -/
structure ShowsPicture (fb : FramebufferInfo) (double : Bool) (block : List UInt8) (picture : Nat × Nat → UInt32) :
    Prop where
  size : block.length = bufferSize fb double
  pixels : ∀ px < fb.width.toNat, ∀ py < fb.height.toNat, ∀ k < 4,
    block[pixelPlace fb double px py + k]? = (colorBytes (picture (px, py)))[k]?

/-- The driver shows a picture, in the buffer that it draws into. -/
def Framebuffer.Shows (state : Framebuffer) (picture : Nat × Nat → UInt32) : Prop :=
  ∃ block, state.drawn = some block ∧ ShowsPicture state.fb state.useDoubleBuffer block picture

/-- The pixels of a rectangle, whether they are on the screen or not. -/
def InRect (x y w h : UInt32) (place : Nat × Nat) : Prop :=
  (x.toNat ≤ place.1 ∧ place.1 < x.toNat + w.toNat) ∧ y.toNat ≤ place.2 ∧ place.2 < y.toNat + h.toNat

instance (x y w h : UInt32) (place : Nat × Nat) : Decidable (InRect x y w h place) :=
  inferInstanceAs (Decidable ((_ ∧ _) ∧ _))

/-- The calls that draw pixels and rectangles whose ends are numbers of 32 bits. -/
def FbCall.Plain : FbCall → Prop
  | .putPixel .. => True
  | .fillRect x y w h _ => x.toNat + w.toNat < 2 ^ 32 ∧ y.toNat + h.toNat < 2 ^ 32
  | _ => False

/-- What such a call is for. -/
def FbCall.paint (picture : Nat × Nat → UInt32) : FbCall → Nat × Nat → UInt32
  | .putPixel x y color => paintDot picture ((x.toNat, y.toNat), color)
  | .fillRect x y w h color => overPicture picture fun place => if InRect x y w h place then some color else none
  | _ => picture

/-- A pixel is a rectangle of one pixel. -/
theorem fbWritePixel_eq_fill (fb : FramebufferInfo) (double : Bool) (x y color : UInt32) :
    fbWritePixel fb double x y color = fbFillRect fb double x y 1 1 color := by
  funext block
  rw [fbWritePixel, fbFillRect]
  by_cases outside : !fbReady fb ∨ fb.width ≤ x ∨ fb.height ≤ y
  · rw [if_pos outside, if_pos outside]
  · rw [if_neg outside, if_neg outside]
    simp only [not_or, UInt32.not_le] at outside
    obtain ⟨-, column, row⟩ := outside
    have left := UInt32.lt_iff_toNat_lt.mp column
    have top := UInt32.lt_iff_toNat_lt.mp row
    have wide := fb.width.toNat_lt
    have high := fb.height.toNat_lt
    have one : (1 : UInt32).toNat = 1 := rfl
    have right : ¬ fb.width < x + 1 := by
      rw [UInt32.lt_iff_toNat_lt, UInt32.toNat_add, one]
      omega
    have bottom : ¬ fb.height < y + 1 := by
      rw [UInt32.lt_iff_toNat_lt, UInt32.toNat_add, one]
      omega
    have count : (y + 1).toNat - y.toNat = 1 := by
      rw [UInt32.toNat_add, one]
      omega
    -- The loops over the rows and over the columns take one turn each.
    simp only [if_neg right, if_neg bottom, count, List.range'_one, one, storeLine, List.range_one, List.foldlM_cons,
      List.foldlM_nil, bind_pure, UInt32.ofNat_toNat, Nat.mul_zero, Nat.add_zero]

section

variable {fb : FramebufferInfo} (geometry : fb.Geometry)

include geometry

/-- With a geometry of whole words, both buffers have rows of the same length. -/
theorem lineStride_eq (double : Bool) : lineStride fb double = fb.pitch.toNat := by
  have aligned := geometry.aligned
  rw [lineStride]
  -- The pitch of the geometry is a number of whole words, so both strides are the same.
  split_ifs
  · omega
  · rfl

/-- Both buffers have room for all rows. -/
theorem bufferSize_eq (double : Bool) : bufferSize fb double = fb.height.toNat * fb.pitch.toNat := by
  rw [bufferSize, totalBytes_eq geometry, ite_self]

/-- The bytes of pixels on the screen are apart from each other. -/
theorem pixelPlace_inj {double : Bool} {px py qx qy k l : Nat} (column : px < fb.width.toNat)
    (other : qx < fb.width.toNat) (byte : k < 4) (last : l < 4)
    (same : pixelPlace fb double px py + k = pixelPlace fb double qx qy + l) : px = qx ∧ py = qy ∧ k = l := by
  have wide := geometry.wide
  rw [pixelPlace, pixelPlace, lineStride_eq geometry] at same
  -- Pixels of different rows are a row apart.
  rcases Nat.lt_trichotomy py qy with above | rfl | below
  · have rows := Nat.mul_le_mul_right fb.pitch.toNat (show py + 1 ≤ qy from above)
    rw [Nat.add_mul, Nat.one_mul] at rows
    omega
  · omega
  · have rows := Nat.mul_le_mul_right fb.pitch.toNat (show qy + 1 ≤ py from below)
    rw [Nat.add_mul, Nat.one_mul] at rows
    omega

/-- A pixel on the screen is inside of the buffer. -/
theorem pixelPlace_lt {double : Bool} {px py : Nat} (column : px < fb.width.toNat) (row : py < fb.height.toNat) :
    pixelPlace fb double px py + 4 ≤ bufferSize fb double := by
  have wide := geometry.wide
  -- The pixel's row ends within the buffer, and its four bytes within the row.
  have rows := Nat.mul_le_mul_right fb.pitch.toNat (show py + 1 ≤ fb.height.toNat from row)
  rw [Nat.add_mul, Nat.one_mul] at rows
  rw [bufferSize_eq geometry, pixelPlace, lineStride_eq geometry]
  omega

/-- Rectangles whose ends do not wrap are clipped exactly. -/
theorem clipsExactly_plain {double : Bool} {x y w h : UInt32} (right : x.toNat + w.toNat < 2 ^ 32)
    (bottom : y.toNat + h.toNat < 2 ^ 32) : ClipsExactly fb double x y w h := by
  by_cases nothing : fb.width ≤ x ∨ fb.height ≤ y ∨ w = 0 ∨ h = 0
  · exact .inl nothing
  · simp only [not_or, UInt32.not_le] at nothing
    obtain ⟨column, row, columns, rows⟩ := nothing
    have left := UInt32.lt_iff_toNat_lt.mp column
    have top := UInt32.lt_iff_toNat_lt.mp row
    have more : h.toNat ≠ 0 := fun none => rows (UInt32.toNat_inj.mp none)
    have some : w.toNat ≠ 0 := fun none => columns (UInt32.toNat_inj.mp none)
    refine .inr ⟨right, bottom, ?_⟩
    -- The last pixel of the last row is on the screen.
    have inside := @pixelPlace_lt fb geometry double (min (x.toNat + w.toNat) fb.width.toNat - 1)
      (min (y.toNat + h.toNat) fb.height.toNat - 1) (by omega) (by omega)
    have small := geometry.small
    rw [bufferSize_eq geometry, pixelPlace, lineStride_eq geometry] at inside
    refine ⟨?_, ?_⟩
    · rw [StartReached, pixelPlace, lineStride_eq geometry]
      split_ifs
      · omega
      · omega
    · rw [bufferSize_eq geometry, pixelPlace, lineStride_eq geometry]
      omega

/-- Filling a rectangle without a wrap paints its pixels in the picture. -/
theorem fbFillRect_shows {double : Bool} {block : List UInt8} {picture : Nat × Nat → UInt32} {x y w h color : UInt32}
    (ready : fbReady fb = true) (right : x.toNat + w.toNat < 2 ^ 32) (bottom : y.toNat + h.toNat < 2 ^ 32)
    (shows : ShowsPicture fb double block picture) :
    ∃ after, fbFillRect fb double x y w h color block = .ok after ∧
      ShowsPicture fb double after ((FbCall.fillRect x y w h color).paint picture) := by
  have paints := (@fill_clipped_iff fb double x y w h color ready geometry.wide).mpr
    (clipsExactly_plain geometry right bottom)
  obtain ⟨after, drew, length, own, others⟩ := paints block shows.size
  refine ⟨after, drew, length, fun px column py row k byte => ?_⟩
  rw [FbCall.paint, overPicture]
  by_cases inside : InRect x y w h (px, py)
  · rw [if_pos inside]
    have place : OnScreen fb x y w h px py := by
      obtain ⟨⟨low, high⟩, top, down⟩ := inside
      exact ⟨⟨low, Nat.lt_min.mpr ⟨high, column⟩⟩, top, Nat.lt_min.mpr ⟨down, row⟩⟩
    have bounded : k < (colorBytes color).length := byte
    rw [own _ _ ⟨px, py, k, place, byte, rfl, List.getElem?_eq_getElem bounded⟩]
    exact (List.getElem?_eq_getElem bounded).symm
  · rw [if_neg inside]
    refine (others _ fun value cell => inside ?_).trans (shows.pixels px column py row k byte)
    -- The byte of a pixel of the rectangle would be a byte of this pixel.
    obtain ⟨qx, qy, l, ⟨⟨low, high⟩, top, down⟩, last, same, -⟩ := cell
    obtain ⟨rfl, rfl, -⟩ := pixelPlace_inj geometry column (Nat.lt_min.mp high).2 byte last same
    exact ⟨⟨low, (Nat.lt_min.mp high).1⟩, top, (Nat.lt_min.mp down).1⟩

/-- A pixel is painted in the picture, wherever it is. -/
theorem fbWritePixel_shows {double : Bool} {block : List UInt8} {picture : Nat × Nat → UInt32} {x y color : UInt32}
    (ready : fbReady fb = true) (shows : ShowsPicture fb double block picture) :
    ∃ after, fbWritePixel fb double x y color block = .ok after ∧
      ShowsPicture fb double after ((FbCall.putPixel x y color).paint picture) := by
  by_cases outside : fb.width ≤ x ∨ fb.height ≤ y
  · -- Behind the sides of the screen nothing is drawn, and nothing is shown either.
    refine ⟨block, ?_, shows.size, fun px column py row k byte => ?_⟩
    · rw [fbWritePixel, if_pos (.inr outside)]
    · rw [shows.pixels px column py row k byte, FbCall.paint, paintDot, Function.update_of_ne]
      intro same
      obtain ⟨rfl, rfl⟩ := Prod.mk.inj same
      rcases outside with aside | below
      · exact absurd column (Nat.not_lt.mpr (UInt32.le_iff_toNat_le.mp aside))
      · exact absurd row (Nat.not_lt.mpr (UInt32.le_iff_toNat_le.mp below))
  · -- On the screen the pixel is a rectangle of one pixel.
    simp only [not_or, UInt32.not_le] at outside
    have left := UInt32.lt_iff_toNat_lt.mp outside.1
    have top := UInt32.lt_iff_toNat_lt.mp outside.2
    have wide := fb.width.toNat_lt
    have high := fb.height.toNat_lt
    have one : (1 : UInt32).toNat = 1 := rfl
    obtain ⟨after, drew, shown⟩ := @fbFillRect_shows fb geometry double block picture x y 1 1 color ready
      (by omega) (by omega) shows
    refine ⟨after, (congrFun (fbWritePixel_eq_fill fb double x y color) block).trans drew, ?_⟩
    have same : (FbCall.fillRect x y 1 1 color).paint picture = (FbCall.putPixel x y color).paint picture := by
      funext place
      rw [FbCall.paint, FbCall.paint, overPicture, paintDot]
      by_cases here : place = (x.toNat, y.toNat)
      · subst here
        rw [Function.update_self, if_pos ⟨⟨Nat.le_refl _, by omega⟩, Nat.le_refl _, by omega⟩]
        rfl
      · rw [Function.update_of_ne here, if_neg]
        · rfl
        · rintro ⟨⟨low, before⟩, above, under⟩
          exact here (Prod.ext (by omega) (by omega))
    exact same ▸ shown

/-- A plain call paints in the picture what it is for. -/
theorem fbDraw_shows {double : Bool} {block : List UInt8} {picture : Nat × Nat → UInt32} {call : FbCall}
    (ready : fbReady fb = true) (plain : call.Plain) (shows : ShowsPicture fb double block picture) :
    ∃ after, fbDraw fb double call block = .ok after ∧ ShowsPicture fb double after (call.paint picture) := by
  -- A plain call is a pixel or a clipped rectangle.
  cases call with
  | putPixel x y color => exact fbWritePixel_shows geometry ready shows
  | fillRect x y w h color => exact fbFillRect_shows geometry ready plain.1 plain.2 shows
  | blit => exact absurd plain id
  | scroll => exact absurd plain id

end

/-- Plain calls one after another paint in the picture what they are for, with or without a back buffer. -/
theorem fbRun_shows {state : Framebuffer} {picture : Nat × Nat → UInt32} {calls : List FbCall}
    (geometry : state.fb.Geometry) (ready : fbReady state.fb = true) (plain : ∀ call ∈ calls, call.Plain)
    (shows : state.Shows picture) :
    ∃ after, fbRun state calls = .ok after ∧ after.fb = state.fb ∧ after.Shows (calls.foldl FbCall.paint picture) := by
  induction calls generalizing state picture with
  | nil => exact ⟨state, rfl, rfl, shows⟩
  | cons call rest ih =>
    have later := fun other among => plain other (List.mem_cons_of_mem call among)
    obtain ⟨fb, front, back, double⟩ := state
    obtain ⟨block, drawn, shown⟩ := shows
    obtain ⟨after, drew, next⟩ := fbDraw_shows geometry ready (plain call List.mem_cons_self) shown
    -- The call replaces the buffer that it draws into.
    obtain ⟨middle, stepped, same, buffer⟩ : ∃ middle, fbStep ⟨fb, front, back, double⟩ call = .ok middle ∧
        middle.fb = fb ∧ middle.Shows (call.paint picture) := by
      cases double with
      | true =>
        obtain rfl : back = some block := drawn
        refine ⟨⟨fb, front, some after, true⟩, ?_, rfl, after, rfl, next⟩
        show (fbDraw fb true call block >>= fun back => pure _) = _
        rw [drew]
        rfl
      | false =>
        obtain rfl : front = block := Option.some.inj drawn
        refine ⟨⟨fb, after, back, false⟩, ?_, rfl, after, rfl, next⟩
        show (fbDraw fb false call front >>= fun front => pure _) = _
        rw [drew]
        rfl
    obtain ⟨final, ran, kept, last⟩ := ih (same ▸ geometry) (same ▸ ready) later buffer
    refine ⟨final, ?_, kept.trans same, last⟩
    rw [fbRun, List.foldlM_cons, stepped]
    exact ran

/-- A framebuffer of zeros, without a back buffer. -/
def blackScreen (fb : FramebufferInfo) : Framebuffer := ⟨fb, List.replicate (bufferSize fb false) 0, none, false⟩

/-- It shows black. -/
theorem blackScreen_shows {fb : FramebufferInfo} (geometry : fb.Geometry) : (blackScreen fb).Shows fun _ => 0 := by
  refine ⟨_, rfl, List.length_replicate .., fun px column py row k byte => ?_⟩
  -- The cleared buffer holds four zero bytes for every pixel.
  have inside := @pixelPlace_lt fb geometry false px py column row
  show (List.replicate (bufferSize fb false) (0 : UInt8))[pixelPlace fb false px py + k]? =
    (List.replicate 4 (0 : UInt8))[k]?
  rw [List.getElem?_replicate, if_pos (by omega), List.getElem?_replicate, if_pos byte]

end MiraOS
