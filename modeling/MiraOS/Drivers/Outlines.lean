import MiraOS.Drivers.Pictures

/-! Rectangles and their outlines, as in drivers/framebuffer.c. -/

namespace MiraOS

open Machine

/-- Draw a rectangle. -/
def fbDrawRect (x y w h color : UInt32) : List FbCall := [.fillRect x y w h color]

/-- The four sides of an outline that is some pixels inside of a rectangle. -/
def outlineSides (x y w h color : UInt32) (inset : Nat) : List FbCall :=
  let t := UInt32.ofNat inset
  [.fillRect (x + t) (y + t) (w - 2 * t) 1 color,
    .fillRect (x + t) (y + h - 1 - t) (w - 2 * t) 1 color,
    .fillRect (x + t) (y + t) 1 (h - 2 * t) color,
    .fillRect (x + w - 1 - t) (y + t) 1 (h - 2 * t) color]

/-- Draw the outline of a rectangle, from the outside in. -/
def fbDrawRectOutline (x y w h color thickness : UInt32) : List FbCall :=
  (List.range thickness.toNat).flatMap (outlineSides x y w h color)

/-- Fill the screen. -/
def fbClear (fb : FramebufferInfo) (color : UInt32) : List FbCall := [.fillRect 0 0 fb.width fb.height color]

/-- The frame of a rectangle: what is in it, but not in the smaller one inside. -/
def InFrame (x y w h thickness : UInt32) (place : Nat × Nat) : Prop :=
  InRect x y w h place ∧
    ¬ InRect (x + thickness) (y + thickness) (w - 2 * thickness) (h - 2 * thickness) place

instance (x y w h thickness : UInt32) (place : Nat × Nat) : Decidable (InFrame x y w h thickness place) :=
  inferInstanceAs (Decidable (_ ∧ ¬ _))

section

variable {x y w h : UInt32}

/-- A rectangle that is smaller by some pixels on each side, without a wrap. -/
theorem inset_toNat {start length inset : UInt32} (fits : start.toNat + length.toNat < 2 ^ 32)
    (room : 2 * inset.toNat ≤ length.toNat) :
    (start + inset).toNat = start.toNat + inset.toNat ∧ (length - 2 * inset).toNat = length.toNat - 2 * inset.toNat ∧
      (0 < length.toNat → inset.toNat < length.toNat →
        (start + length - 1 - inset).toNat = start.toNat + length.toNat - 1 - inset.toNat) := by
  -- Nothing wraps: an inset leaves room for itself on both sides.
  have double : (2 * inset).toNat = 2 * inset.toNat := by
    rw [UInt32.toNat_mul, show (2 : UInt32).toNat = 2 from rfl, Nat.mod_eq_of_lt (by omega)]
  have one : (1 : UInt32).toNat = 1 := rfl
  have whole : (start + length).toNat = start.toNat + length.toNat := by
    rw [UInt32.toNat_add, Nat.mod_eq_of_lt fits]
  refine ⟨?_, ?_, fun some inside => ?_⟩
  · rw [UInt32.toNat_add, Nat.mod_eq_of_lt (by omega)]
  · rw [UInt32.toNat_sub_of_le _ _ (UInt32.le_iff_toNat_le.mpr (by omega)), double]
  · have before : (start + length - 1).toNat = start.toNat + length.toNat - 1 := by
      rw [UInt32.toNat_sub_of_le _ _ (UInt32.le_iff_toNat_le.mpr (by omega)), whole, one]
    rw [UInt32.toNat_sub_of_le _ _ (UInt32.le_iff_toNat_le.mpr (by omega)), before]

end

/-- Rectangles of one color, laid over a picture one after another. -/
theorem foldl_paint_fills {rects : List (UInt32 × UInt32 × UInt32 × UInt32)} (color : UInt32)
    (picture : Nat × Nat → UInt32) :
    (rects.map fun r => FbCall.fillRect r.1 r.2.1 r.2.2.1 r.2.2.2 color).foldl FbCall.paint picture =
      overPicture picture fun place =>
        if ∃ r ∈ rects, InRect r.1 r.2.1 r.2.2.1 r.2.2.2 place then some color else none := by
  rw [List.foldl_map]
  exact @over_areas _ _ picture _ rects (fun r => InRect r.1 r.2.1 r.2.2.1 r.2.2.2) _ color

/-- The rectangles of an outline. -/
def outlineRects (x y w h : UInt32) (inset : Nat) : List (UInt32 × UInt32 × UInt32 × UInt32) :=
  let t := UInt32.ofNat inset
  [(x + t, y + t, w - 2 * t, 1), (x + t, y + h - 1 - t, w - 2 * t, 1), (x + t, y + t, 1, h - 2 * t),
    (x + w - 1 - t, y + t, 1, h - 2 * t)]

/-- An outline is its rectangles in one color. -/
theorem fbDrawRectOutline_eq (x y w h color thickness : UInt32) :
    fbDrawRectOutline x y w h color thickness =
      ((List.range thickness.toNat).flatMap (outlineRects x y w h)).map fun r =>
        FbCall.fillRect r.1 r.2.1 r.2.2.1 r.2.2.2 color := by
  rw [fbDrawRectOutline, List.map_flatMap]
  rfl

section

variable {x y w h thickness : UInt32} (right : x.toNat + w.toNat < 2 ^ 32) (bottom : y.toNat + h.toNat < 2 ^ 32)
  (wide : 2 * thickness.toNat ≤ w.toNat) (high : 2 * thickness.toNat ≤ h.toNat)

include right bottom wide high

/-- The sides of an outline, without a wrap. -/
theorem mem_outlineRects {inset : Nat} (inside : inset < thickness.toNat) {place : Nat × Nat} :
    (∃ r ∈ outlineRects x y w h inset, InRect r.1 r.2.1 r.2.2.1 r.2.2.2 place) ↔
      (x.toNat + inset ≤ place.1 ∧ place.1 + inset < x.toNat + w.toNat ∧ y.toNat + inset ≤ place.2 ∧
          place.2 + inset < y.toNat + h.toNat) ∧
        (place.2 = y.toNat + inset ∨ place.2 + inset + 1 = y.toNat + h.toNat ∨ place.1 = x.toNat + inset ∨
          place.1 + inset + 1 = x.toNat + w.toNat) := by
  -- The inset is below the thickness, and so a word.
  have word : (UInt32.ofNat inset).toNat = inset :=
    UInt32.toNat_ofNat_of_lt' (by have := thickness.toNat_lt; show _ < 2 ^ 32; omega)
  obtain ⟨left, width, behind⟩ := @inset_toNat x w (UInt32.ofNat inset) right (by rw [word]; omega)
  obtain ⟨top, height, below⟩ := @inset_toNat y h (UInt32.ofNat inset) bottom (by rw [word]; omega)
  have last := behind (by omega) (by rw [word]; omega)
  have lowest := below (by omega) (by rw [word]; omega)
  have one : (1 : UInt32).toNat = 1 := rfl
  rw [word] at left width last top height lowest
  -- Each of the four sides is a rectangle of one row or one column inside.
  simp only [outlineRects, List.mem_cons, List.not_mem_nil, or_false, exists_eq_or_imp, exists_eq_left, InRect, left,
    width, last, top, height, lowest, one]
  omega

/-- All rectangles of an outline have their ends in 32 bits. -/
theorem outline_plain (color : UInt32) : ∀ call ∈ fbDrawRectOutline x y w h color thickness, call.Plain := by
  -- Each call is one of the four sides at some inset.
  intro call among
  obtain ⟨inset, less, side⟩ := List.mem_flatMap.mp among
  have inside := List.mem_range.mp less
  have word : (UInt32.ofNat inset).toNat = inset :=
    UInt32.toNat_ofNat_of_lt' (by have := thickness.toNat_lt; show _ < 2 ^ 32; omega)
  obtain ⟨left, width, behind⟩ := @inset_toNat x w (UInt32.ofNat inset) right (by rw [word]; omega)
  obtain ⟨top, height, below⟩ := @inset_toNat y h (UInt32.ofNat inset) bottom (by rw [word]; omega)
  have last := behind (by omega) (by rw [word]; omega)
  have lowest := below (by omega) (by rw [word]; omega)
  have one : (1 : UInt32).toNat = 1 := rfl
  rw [word] at left width last top height lowest
  simp only [outlineSides, List.mem_cons, List.not_mem_nil, or_false] at side
  rcases side with rfl | rfl | rfl | rfl
  all_goals
    simp only [FbCall.Plain, left, width, last, top, height, lowest, one]
    omega

/--
The outline of a rectangle is its frame: over whatever the framebuffer shows, exactly the pixels of the rectangle that
are not in the smaller one inside get the color.
-/
theorem outline_shows_frame {state : Framebuffer} {picture : Nat × Nat → UInt32} (geometry : state.fb.Geometry)
    (ready : fbReady state.fb = true) (shows : state.Shows picture) (color : UInt32) :
    ∃ after, fbRun state (fbDrawRectOutline x y w h color thickness) = .ok after ∧ after.fb = state.fb ∧
      after.Shows (overPicture picture fun place => if InFrame x y w h thickness place then some color else none) := by
  obtain ⟨after, ran, kept, shown⟩ := fbRun_shows geometry ready (outline_plain right bottom wide high color) shows
  refine ⟨after, ran, kept, ?_⟩
  rw [fbDrawRectOutline_eq, foldl_paint_fills] at shown
  -- A pixel of the frame is on the outline that is as far inside as the nearest side.
  have same : ∀ place, (∃ r ∈ (List.range thickness.toNat).flatMap (outlineRects x y w h),
      InRect r.1 r.2.1 r.2.2.1 r.2.2.2 place) ↔ InFrame x y w h thickness place := by
    intro place
    obtain ⟨left, width, -⟩ := @inset_toNat x w thickness right wide
    obtain ⟨top, height, -⟩ := @inset_toNat y h thickness bottom high
    rw [InFrame, InRect, InRect, left, width, top, height]
    constructor
    · -- A pixel of one of the outlines is inside the rectangle and less than the thickness away from a side.
      rintro ⟨r, among, own⟩
      obtain ⟨inset, less, side⟩ := List.mem_flatMap.mp among
      have inside := List.mem_range.mp less
      obtain ⟨bounds, edge⟩ := (mem_outlineRects right bottom wide high inside).mp ⟨r, side, own⟩
      omega
    · rintro ⟨inside, outer⟩
      -- The nearest side of a pixel of the frame names the outline it is on.
      obtain ⟨inset, less, bounds, edge⟩ : ∃ inset < thickness.toNat,
          (x.toNat + inset ≤ place.1 ∧ place.1 + inset < x.toNat + w.toNat ∧ y.toNat + inset ≤ place.2 ∧
            place.2 + inset < y.toNat + h.toNat) ∧
          (place.2 = y.toNat + inset ∨ place.2 + inset + 1 = y.toNat + h.toNat ∨ place.1 = x.toNat + inset ∨
            place.1 + inset + 1 = x.toNat + w.toNat) :=
        ⟨min (min (place.1 - x.toNat) (x.toNat + w.toNat - 1 - place.1))
          (min (place.2 - y.toNat) (y.toNat + h.toNat - 1 - place.2)), by omega, by omega, by omega⟩
      obtain ⟨r, side, own⟩ := (mem_outlineRects right bottom wide high less).mpr ⟨bounds, edge⟩
      exact ⟨r, List.mem_flatMap.mpr ⟨inset, List.mem_range.mpr less, side⟩, own⟩
  simpa only [same] using shown

end

/-- A frame of one pixel on a screen of four by four. -/
theorem small_frame_shown :
    let fb : FramebufferInfo := ⟨0xFD000000, 16, 4, 4, 32⟩
    ∃ after, fbRun (blackScreen fb) (fbDrawRectOutline 0 0 3 3 0xFFFFFF 1) = .ok after ∧ after.fb = fb ∧
      after.Shows (overPicture (fun _ => 0) fun place => if InFrame 0 0 3 3 1 place then some 0xFFFFFF else none) :=
  have geometry : FramebufferInfo.Geometry ⟨0xFD000000, 16, 4, 4, 32⟩ := ⟨by decide, by decide, by decide⟩
  @outline_shows_frame 0 0 3 3 1 (by decide) (by decide) (by decide) (by decide) (blackScreen _) _ geometry rfl
    (blackScreen_shows geometry) 0xFFFFFF

end MiraOS
