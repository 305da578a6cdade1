import MiraOS.Machine.Slots

/-! The windows of ui/widgets/window.c, and where a window is after a click raised it. -/

namespace MiraOS

open Machine

/-- Limit of the table of windows. -/
def maxWindows : Nat := 8

/-- A rectangle on the screen. -/
structure UiRect where
  x : UInt32
  y : UInt32
  w : UInt32
  h : UInt32
  deriving DecidableEq

/-- A window. -/
structure UiWindow where
  bounds : UiRect
  fill : UInt32
  border : UInt32
  titleBg : UInt32
  -- A window without a title is painted without a bar.
  title : Option (List UInt8)
  visible : Bool
  focused : Bool
  dragging : Bool
  dragOffsetX : Int32
  dragOffsetY : Int32
  deriving DecidableEq

/-- The table of windows, with the slots of the window in focus and of the one that is dragged. -/
structure Windows where
  windows : Nat → UiWindow
  numWindows : Nat
  focusedWindow : Nat
  dragWindowIdx : Int

/-- The state at the start, over whatever is in the table. -/
def windowInit (windows : Nat → UiWindow) : Windows := ⟨windows, 0, 0, -1⟩

/-- Take the mark of the focus from every window. -/
def clearFocus (state : Windows) (i : Nat) : UiWindow :=
  if i < state.numWindows then { state.windows i with focused := false } else state.windows i

/-- Move a window to the first slot and give it the focus. -/
def windowBringToFront (state : Windows) (index : Nat) : Windows :=
  if index < state.numWindows then
    -- The window is copied before the others move up over its slot.
    let temp := clearFocus state index
    { state with
      windows := Function.update (shiftUp (clearFocus state) index) 0 { temp with focused := true }
      focusedWindow := 0 }
  else state

/-- A window as it is made, before it gets the focus. -/
def windowNew (title : Option (List UInt8)) (x y w h : UInt32) : UiWindow :=
  { bounds := ⟨x, y, w, h⟩
    fill := 0x16213E
    border := 0x533483
    titleBg := 0x0F3460
    title := title
    visible := true
    focused := false
    dragging := false
    dragOffsetX := 0
    dragOffsetY := 0 }

/-- Make a window in the first free slot and bring it to the front, unless the table is full. -/
def windowCreate (state : Windows) (title : Option (List UInt8)) (x y w h : UInt32) : Windows :=
  if state.numWindows < maxWindows then
    let idx := state.numWindows
    windowBringToFront
      { state with
        windows := Function.update state.windows idx (windowNew title x y w h)
        numWindows := state.numWindows + 1 } idx
  else state

/-- Take a window out of the table. -/
def windowClose (state : Windows) (index : Nat) : Windows :=
  if index < state.numWindows then
    let numWindows := state.numWindows - 1
    { state with
      -- The windows behind the closed one move down by one slot.
      windows := shiftDown state.windows index (numWindows - index)
      numWindows := numWindows
      -- The slot in focus is only kept inside the table, whichever window is in it now.
      focusedWindow :=
        if numWindows ≤ state.focusedWindow then (if 0 < numWindows then numWindows - 1 else 0)
        else state.focusedWindow }
  else state

/-- A call that draws. -/
inductive DrawCall where
  | gfxDrawRect (x y w h color : UInt32)
  | gfxDrawRectOutline (x y w h color thickness : UInt32)
  | textDraw (x y : UInt32) (text : List UInt8) (fg bg : UInt32)
  deriving DecidableEq

/-- The calls that draw one window. -/
def drawWindow (win : UiWindow) : List DrawCall :=
  let b := win.bounds
  let frame := [.gfxDrawRect b.x b.y b.w b.h win.fill, .gfxDrawRectOutline b.x b.y b.w b.h win.border 2]
  match win.title with
  | some title =>
    frame ++ [.gfxDrawRect (b.x + 2) (b.y + 2) (b.w - 4) 24 win.titleBg,
      .textDraw (b.x + 10) (b.y + 6) title 0xFFFFFF win.titleBg]
  | none => frame

/-- The slots of the visible windows in the order in which they are painted. -/
def renderOrder (state : Windows) : List Nat :=
  (List.range state.numWindows).filter fun i => (state.windows i).visible

/-- The calls that paint the windows, one window over the other. -/
def windowRender (fbReady : Bool) (state : Windows) : List DrawCall :=
  if fbReady then (renderOrder state).flatMap fun i => drawWindow (state.windows i) else []

/-- A window can be seen and a point is inside of it. -/
def UiWindow.hitBy (win : UiWindow) (x y : UInt32) : Bool :=
  win.visible && (win.bounds.x ≤ x && x < win.bounds.x + win.bounds.w &&
    (win.bounds.y ≤ y && y < win.bounds.y + win.bounds.h))

/-- The slot of the window that a point hits, which is looked for from the last slot on. -/
def windowHit (state : Windows) (x y : UInt32) : Option Nat :=
  lastSlot (fun i => (state.windows i).hitBy x y) state.numWindows

/-- Bring the window at a point to the front, and begin to drag it at its title. -/
def windowHandleClick (state : Windows) (x y : UInt32) : Windows × Bool :=
  match windowHit state x y with
  | some i =>
    let state := windowBringToFront state i
    let win := state.windows 0
    -- The title takes the first 26 rows of a window.
    if y < win.bounds.y + 26 then
      let win :=
        { win with
          dragging := true
          dragOffsetX := x.toInt32 - win.bounds.x.toInt32
          dragOffsetY := y.toInt32 - win.bounds.y.toInt32 }
      ({ state with windows := Function.update state.windows 0 win, dragWindowIdx := 0 }, true)
    else (state, true)
  | none => (state, false)

/-- Move the window that is dragged to a point. -/
def windowHandleDrag (state : Windows) (x y : UInt32) : Windows × Bool :=
  if state.dragWindowIdx < 0 ∨ (state.numWindows : Int) ≤ state.dragWindowIdx then (state, false)
  else
    let index := state.dragWindowIdx.toNat
    let win := state.windows index
    -- A window that came into the slot since then is not dragged.
    if win.dragging then
      let win :=
        { win with
          bounds := { win.bounds with
            x := x - win.dragOffsetX.toUInt32
            y := y - win.dragOffsetY.toUInt32 } }
      ({ state with windows := Function.update state.windows index win }, true)
    else (state, false)

/-- Give a window the focus. -/
def windowSetFocused (state : Windows) (index : Nat) : Windows :=
  if index < state.numWindows then windowBringToFront state index else state

/-- The number of windows. -/
def windowCount (state : Windows) : Nat := state.numWindows

/-- A window apart from the marks of the focus and of a drag. -/
def UiWindow.unmarked (win : UiWindow) : UiWindow :=
  { win with focused := false, dragging := false, dragOffsetX := 0, dragOffsetY := 0 }

/-- The slot of a window after the window of another slot came to the front. -/
def raisedSlot (index k : Nat) : Nat := if k = index then 0 else if k < index then k + 1 else k

theorem UiWindow.unmarked_visible (win : UiWindow) : win.unmarked.visible = win.visible := rfl

/-- The marks have no part in what a point hits. -/
theorem UiWindow.unmarked_hitBy (win : UiWindow) (x y : UInt32) : win.unmarked.hitBy x y = win.hitBy x y := rfl

/-- Losing the focus is only a change of a mark. -/
theorem clearFocus_unmarked (state : Windows) (i : Nat) :
    (clearFocus state i).unmarked = (state.windows i).unmarked := by
  rw [clearFocus]
  split_ifs <;> rfl

/-- The mark of the focus is gone from the slots in use. -/
theorem clearFocus_focused {state : Windows} {i : Nat} (inside : i < state.numWindows) :
    (clearFocus state i).focused = false := by
  rw [clearFocus, if_pos inside]

/-- The mark of a drag stays. -/
theorem clearFocus_dragging (state : Windows) (i : Nat) :
    (clearFocus state i).dragging = (state.windows i).dragging := by
  rw [clearFocus]
  split_ifs <;> rfl

/-- The window that comes to the front has the focus. -/
theorem windowBringToFront_first {state : Windows} {index : Nat} (inside : index < state.numWindows) :
    (windowBringToFront state index).windows 0 = { state.windows index with focused := true } := by
  rw [windowBringToFront, if_pos inside]
  dsimp only
  rw [Function.update_self, clearFocus, if_pos inside]

/-- The other windows make room for it in their order. -/
theorem windowBringToFront_other {state : Windows} {index k : Nat} (inside : index < state.numWindows)
    (other : k ≠ index) :
    (windowBringToFront state index).windows (raisedSlot index k) = clearFocus state k := by
  -- None of the others goes to the first slot.
  have behind : raisedSlot index k ≠ 0 := by
    rw [raisedSlot, if_neg other]
    split_ifs <;> omega
  rw [windowBringToFront, if_pos inside]
  dsimp only
  rw [Function.update_of_ne behind, shiftUp_apply, raisedSlot, if_neg other]
  -- Those in front of the window move up by one slot, and those behind it stay.
  by_cases before : k < index
  · rw [if_pos before, if_pos (by omega), Nat.add_sub_cancel]
  · rw [if_neg before, if_neg (by omega)]

@[simp] theorem windowBringToFront_numWindows (state : Windows) (index : Nat) :
    (windowBringToFront state index).numWindows = state.numWindows := by
  rw [windowBringToFront]
  split_ifs <;> rfl

/-- Every slot in use holds a window that was in use before. -/
theorem raisedSlot_surjective {count index slot : Nat} (inside : index < count) (used : slot < count) :
    ∃ k, k < count ∧ raisedSlot index k = slot := by
  -- The first slot holds the window itself, and up to its old slot all are moved.
  by_cases first : slot = 0
  · exact ⟨index, inside, by rw [raisedSlot, if_pos rfl, first]⟩
  · by_cases before : slot ≤ index
    · refine ⟨slot - 1, by omega, ?_⟩
      rw [raisedSlot, if_neg (by omega), if_pos (by omega)]
      omega
    · refine ⟨slot, used, ?_⟩
      rw [raisedSlot, if_neg (by omega), if_neg (by omega)]

/-- A window stays in use where it goes. -/
theorem raisedSlot_lt {count index k : Nat} (inside : index < count) (used : k < count) :
    raisedSlot index k < count := by
  rw [raisedSlot]
  -- Raising moves the window to the front and the others up by one.
  split_ifs <;> omega

/-- Only the window that comes to the front is in the first slot. -/
theorem raisedSlot_pos {index k : Nat} : 0 < raisedSlot index k ↔ k ≠ index := by
  rw [raisedSlot]
  -- Only the raised window is in front.
  split_ifs <;> omega

/-- A window that a click hits. -/
theorem windowHit_lt {state : Windows} {x y : UInt32} {i : Nat} (hit : windowHit state x y = some i) :
    i < state.numWindows := (lastSlot_eq_some.mp hit).1

section

variable {state : Windows} {x y : UInt32} {i : Nat} (hit : windowHit state x y = some i)

include hit

/-- A click moves no other windows than bringing the window that it hits to the front. -/
theorem windowHandleClick_windows {slot : Nat} (behind : slot ≠ 0) :
    (windowHandleClick state x y).1.windows slot = (windowBringToFront state i).windows slot := by
  rw [windowHandleClick, hit]
  dsimp only
  -- At its title the window itself is changed once more, but no other.
  split_ifs
  · exact Function.update_of_ne behind _ _
  · rfl

theorem windowHandleClick_numWindows :
    (windowHandleClick state x y).1.numWindows = state.numWindows := by
  rw [windowHandleClick, hit]
  dsimp only
  split_ifs <;> exact windowBringToFront_numWindows _ _

/-- A click gives the window that it hits the first slot and moves the others behind it. -/
theorem windowHandleClick_unmarked (k : Nat) :
    ((windowHandleClick state x y).1.windows (raisedSlot i k)).unmarked = (state.windows k).unmarked := by
  have inside := windowHit_lt hit
  by_cases here : k = i
  · -- Beginning to drag the window sets marks only.
    rw [raisedSlot, if_pos here, here, windowHandleClick, hit]
    dsimp only
    split_ifs
    · dsimp only
      rw [Function.update_self, windowBringToFront_first inside]
      rfl
    · rw [windowBringToFront_first inside]
      rfl
  · -- The others lose the focus at most.
    rw [windowHandleClick_windows hit (Nat.pos_iff_ne_zero.mp (raisedSlot_pos.mpr here)),
      windowBringToFront_other inside here, clearFocus_unmarked]

/--
A click raises the window that it hits exactly when no other window is visible.

The window goes to the first slot, which is painted first and asked last about a click.
-/
theorem windowHandleClick_raises_iff :
    (∀ k, ((windowHandleClick state x y).1.windows (raisedSlot i k)).unmarked = (state.windows k).unmarked) ∧
      ((renderOrder (windowHandleClick state x y).1).getLast? = some (raisedSlot i i) ∧
          windowHit (windowHandleClick state x y).1 x y = some (raisedSlot i i) ↔
        ∀ k, k < state.numWindows → k ≠ i → (state.windows k).visible = false) := by
  have inside := windowHit_lt hit
  have count := windowHandleClick_numWindows hit
  have moved := windowHandleClick_unmarked hit
  -- Where a window goes it is as visible as before.
  have seen : ∀ k, ((windowHandleClick state x y).1.windows (raisedSlot i k)).visible =
      (state.windows k).visible := by
    intro k
    rw [← UiWindow.unmarked_visible, moved, UiWindow.unmarked_visible]
  have here : (state.windows i).hitBy x y := (lastSlot_eq_some.mp hit).2.1
  have front : raisedSlot i i = 0 := by rw [raisedSlot, if_pos rfl]
  refine ⟨moved, ?_⟩
  -- Painting and looking for a click both ask for the last slot of a kind.
  rw [renderOrder, getLast?_filter_range, windowHit, lastSlot_eq_some, lastSlot_eq_some, count, front]
  constructor
  · -- A visible window behind the first slot is painted later.
    rintro ⟨⟨-, -, last⟩, -⟩ k used other
    have hidden := last (raisedSlot i k) (raisedSlot_pos.mpr other) (raisedSlot_lt inside used)
    rw [seen k] at hidden
    simpa using hidden
  · intro alone
    -- Behind the first slot there is nothing to see.
    have hidden : ∀ slot, 0 < slot → slot < state.numWindows →
        ((windowHandleClick state x y).1.windows slot).visible = false := by
      intro slot behind used
      obtain ⟨k, among, rfl⟩ := raisedSlot_surjective inside used
      rw [seen k, alone k among (raisedSlot_pos.mp behind)]
    -- The window answers as before, since the click changed its marks only.
    have again : ((windowHandleClick state x y).1.windows 0).hitBy x y := by
      have same := moved i
      rw [front] at same
      rwa [← UiWindow.unmarked_hitBy, same, UiWindow.unmarked_hitBy]
    have visible : ((windowHandleClick state x y).1.windows 0).visible := by
      rw [UiWindow.hitBy, Bool.and_eq_true] at again
      exact again.1
    refine ⟨⟨by omega, visible, fun slot behind used => ?_⟩, by omega, again, fun slot behind used => ?_⟩
    · rw [hidden slot behind used]
      exact Bool.false_ne_true
    · rw [UiWindow.hitBy, hidden slot behind used]
      exact Bool.false_ne_true

end

/-- Two windows over each other. -/
def stackedWindows : Windows :=
  let empty := windowInit fun _ => windowNew none 0 0 0 0
  windowCreate (windowCreate empty none 0 0 100 100) none 0 0 80 80

/-- The same two windows, of which the one in the first slot cannot be seen. -/
def hiddenFront : Windows :=
  { stackedWindows with
    windows := Function.update stackedWindows.windows 0 { stackedWindows.windows 0 with visible := false } }

/-- A click on the window behind a hidden one raises it, and a click on one behind a visible one does not. -/
theorem windowHandleClick_raises_behind :
    (windowHit hiddenFront 50 50 = some 1 ∧
      (renderOrder (windowHandleClick hiddenFront 50 50).1).getLast? = some (raisedSlot 1 1) ∧
      windowHit (windowHandleClick hiddenFront 50 50).1 50 50 = some (raisedSlot 1 1) ∧
      ((windowHandleClick hiddenFront 50 50).1.windows 1).bounds = ⟨0, 0, 80, 80⟩) ∧
    windowHit stackedWindows 50 50 = some 1 ∧
      ¬ ((renderOrder (windowHandleClick stackedWindows 50 50).1).getLast? = some (raisedSlot 1 1) ∧
        windowHit (windowHandleClick stackedWindows 50 50).1 50 50 = some (raisedSlot 1 1)) := by
  have hidden : windowHit hiddenFront 50 50 = some 1 := by decide
  have stacked : windowHit stackedWindows 50 50 = some 1 := by decide
  obtain ⟨moved, raised⟩ := windowHandleClick_raises_iff hidden
  obtain ⟨last, first⟩ := raised.mpr (by decide)
  refine ⟨⟨hidden, last, first, ?_⟩, stacked, fun kept => ?_⟩
  · -- The hidden window went to the second slot with its bounds.
    have front := congrArg UiWindow.bounds (moved 0)
    exact front
  · exact absurd ((windowHandleClick_raises_iff stacked).2.mp kept 0 (by decide) (by decide)) (by decide)

/-- Of two windows over each other, the one that a click hits is painted below the other. -/
theorem windowHandleClick_lowers :
    ¬ ∀ (state : Windows) (x y : UInt32) (i : Nat), windowHit state x y = some i →
      (renderOrder (windowHandleClick state x y).1).getLast? = some (raisedSlot i i) ∧
        windowHit (windowHandleClick state x y).1 x y = some (raisedSlot i i) := by
  intro all
  -- The window made first is behind the other one and is hit first.
  have raised := all stackedWindows 50 50 1 (by decide)
  exact absurd raised.1 (by decide)

end MiraOS
