import MiraOS.Machine.Histories
import MiraOS.Ui.Windows

/-! The focus and the drag of the windows of ui/widgets/window.c over whole histories. -/

namespace MiraOS

open Machine

/-- A use of the windows. -/
inductive WindowUse where
  | create (title : Option (List UInt8)) (x y w h : UInt32)
  | close (index : Nat)
  | bringToFront (index : Nat)
  | setFocused (index : Nat)
  | click (x y : UInt32)
  | drag (x y : UInt32)

/-- The windows after a use. -/
def windowStep (state : Windows) : WindowUse → Windows
  | .create title x y w h => windowCreate state title x y w h
  | .close index => windowClose state index
  | .bringToFront index => windowBringToFront state index
  | .setFocused index => windowSetFocused state index
  | .click x y => (windowHandleClick state x y).1
  | .drag x y => (windowHandleDrag state x y).1

/-- The windows after uses one after another. -/
def windowRun (state : Windows) (uses : List WindowUse) : Windows := uses.foldl windowStep state

/-- Exactly the window in focus is marked so, and no window but the one that is dragged. -/
structure Windows.MarksHold (state : Windows) : Prop where
  focus : 0 < state.numWindows → state.focusedWindow < state.numWindows ∧
    ∀ i, i < state.numWindows → ((state.windows i).focused ↔ i = state.focusedWindow)
  drag : ∀ i, i < state.numWindows → (state.windows i).dragging → (i : Int) = state.dragWindowIdx

/-- No drag would be lost when the window of a slot comes to the front. -/
def Windows.MayRaise (state : Windows) (index : Nat) : Prop :=
  index = 0 ∨ (state.windows 0).dragging = false

/-- A use that keeps the marks: the first window is closed only when it is the last one left, and
another window comes before it only when it is not dragged. -/
def WindowUse.Safe (state : Windows) : WindowUse → Prop
  | .create .. => state.numWindows < maxWindows → state.MayRaise state.numWindows
  | .close index => index < state.numWindows → index = 0 → state.numWindows = 1
  | .bringToFront index => index < state.numWindows → state.MayRaise index
  | .setFocused index => index < state.numWindows → state.MayRaise index
  | .click x y => ∀ i, windowHit state x y = some i → state.MayRaise i
  | .drag _ _ => True

/-- The slots that the state names are the first one in every history. -/
structure Windows.Anchored (state : Windows) : Prop where
  focused : state.focusedWindow = 0
  dragged : state.dragWindowIdx = -1 ∨ state.dragWindowIdx = 0

/-- A slot that is dragged is the first one. -/
theorem Windows.Anchored.slot {state : Windows} (anchored : state.Anchored) {i : Nat}
    (dragged : (i : Int) = state.dragWindowIdx) : i = 0 ∧ state.dragWindowIdx = 0 := by
  -- No slot has the number that stands for no drag.
  rcases anchored.dragged with none | first
  · omega
  · omega

/-- Bringing a window to the front leaves the named slots first. -/
theorem Windows.Anchored.bringToFront {state : Windows} (anchored : state.Anchored) (index : Nat) :
    (windowBringToFront state index).Anchored := by
  rw [windowBringToFront]
  -- The raised window takes the focus, or nothing was raised.
  split_ifs
  · exact ⟨rfl, anchored.dragged⟩
  · exact anchored

/-- So does every use. -/
theorem Windows.Anchored.step {state : Windows} (anchored : state.Anchored) (use : WindowUse) :
    (windowStep state use).Anchored := by
  -- One case for each call; those that do nothing leave the state.
  cases use with
  | create title x y w h =>
    rw [windowStep, windowCreate]
    split_ifs
    · refine Windows.Anchored.bringToFront ?_ state.numWindows
      exact ⟨anchored.focused, anchored.dragged⟩
    · exact anchored
  | close index =>
    rw [windowStep, windowClose]
    split_ifs
    · -- The focus is at the first slot, so it is not moved unless that is the only one.
      refine ⟨?_, anchored.dragged⟩
      have first := anchored.focused
      dsimp only
      split_ifs <;> omega
    · exact anchored
  | bringToFront index => exact anchored.bringToFront index
  | setFocused index =>
    rw [windowStep, windowSetFocused]
    split_ifs
    · exact anchored.bringToFront index
    · exact anchored
  | click x y =>
    rw [windowStep, windowHandleClick]
    cases windowHit state x y with
    | none => exact anchored
    | some i =>
      dsimp only
      split_ifs
      · -- A drag begins in the first slot.
        exact ⟨(anchored.bringToFront i).focused, .inr rfl⟩
      · exact anchored.bringToFront i
  | drag x y =>
    rw [windowStep, windowHandleDrag]
    dsimp only
    split_ifs <;> exact ⟨anchored.focused, anchored.dragged⟩

/-- A window comes to the front with its marks right exactly when no drag is lost. -/
theorem bringToFront_marksHold_iff {state : Windows} {index : Nat} (anchored : state.Anchored)
    (inside : index < state.numWindows)
    (drag : ∀ i, i < state.numWindows → (state.windows i).dragging → (i : Int) = state.dragWindowIdx) :
    (windowBringToFront state index).MarksHold ↔ state.MayRaise index := by
  have count := windowBringToFront_numWindows state index
  have first := windowBringToFront_first inside
  have slots := (anchored.bringToFront index).focused
  -- Bringing a window to the front leaves the slot of the drag.
  have idx : (windowBringToFront state index).dragWindowIdx = state.dragWindowIdx := by
    rw [windowBringToFront, if_pos inside]
  constructor
  · intro holds
    by_cases front : index = 0
    · exact .inl front
    · -- The first window would be dragged in the second slot.
      refine .inr (Bool.eq_false_iff.mpr fun dragged => ?_)
      have second := windowBringToFront_other inside (Ne.symm front)
      have slot : raisedSlot index 0 = 1 := by
        rw [raisedSlot, if_neg (Ne.symm front), if_pos (by omega)]
      rw [slot] at second
      have moved := holds.drag 1 (by omega) (by rw [second, clearFocus_dragging, dragged])
      rw [idx] at moved
      have := anchored.slot moved
      omega
  · intro may
    -- Every slot is that of a window before, so the marks are asked of that one.
    refine ⟨fun _ => ⟨by omega, ?_⟩, ?_⟩
    · intro slot used
      obtain ⟨k, among, rfl⟩ := raisedSlot_surjective inside (count ▸ used)
      rw [slots]
      by_cases here : k = index
      · rw [raisedSlot, if_pos here, first]
        simp
      · have behind := raisedSlot_pos.mpr here
        rw [windowBringToFront_other inside here, clearFocus_focused among]
        simp only [Bool.false_eq_true, false_iff]
        omega
    · intro slot used dragged
      obtain ⟨k, among, rfl⟩ := raisedSlot_surjective inside (count ▸ used)
      rw [idx]
      by_cases here : k = index
      · -- The window was dragged before, so it is the first one and stays there.
        rw [raisedSlot, if_pos here, first] at dragged
        obtain ⟨-, zero⟩ := anchored.slot (drag index inside dragged)
        rw [raisedSlot, if_pos here, zero]
        rfl
      · -- Another window was the first one, which is not dragged or not moved.
        rw [windowBringToFront_other inside here, clearFocus_dragging] at dragged
        obtain ⟨zero, -⟩ := anchored.slot (drag k among dragged)
        rcases may with front | free
        · omega
        · rw [zero, free] at dragged
          exact absurd dragged Bool.false_ne_true

/-- Closing a window keeps the marks exactly when the first one is closed last. -/
theorem close_marksHold_iff {state : Windows} {index : Nat} (anchored : state.Anchored)
    (holds : state.MarksHold) :
    (windowClose state index).MarksHold ↔ (index < state.numWindows → index = 0 → state.numWindows = 1) := by
  -- Outside of the table nothing is closed.
  by_cases inside : index < state.numWindows
  · have after := anchored.step (.close index)
    have count : (windowClose state index).numWindows = state.numWindows - 1 := by
      rw [windowClose, if_pos inside]
    have idx : (windowClose state index).dragWindowIdx = state.dragWindowIdx := by
      rw [windowClose, if_pos inside]
    -- From the closed window on, a slot has the window of the next one.
    have shifted : ∀ i, (windowClose state index).windows i =
        if index ≤ i ∧ i < index + (state.numWindows - 1 - index) then state.windows (i + 1)
        else state.windows i := by
      intro i
      rw [windowClose, if_pos inside]
      exact shiftDown_apply _ _ _ _
    obtain ⟨-, focused⟩ := holds.focus (by omega)
    rw [anchored.focused] at focused
    constructor
    · intro kept _ front
      by_contra more
      -- The second window takes the first slot without the focus.
      have mark := ((kept.focus (by omega)).2 0 (by omega)).mpr after.focused.symm
      rw [shifted, if_pos (by omega), focused 1 (by omega)] at mark
      omega
    · intro last
      have next := last inside
      -- With more windows left the first one was not closed, so it is in its slot still.
      refine ⟨fun more => ⟨?_, fun i used => ?_⟩, fun i used dragged => ?_⟩
      · exact after.focused ▸ more
      · rw [show (windowClose state index).focusedWindow = 0 from after.focused, shifted]
        split_ifs
        · rw [focused (i + 1) (by omega)]
          omega
        · exact focused i (by omega)
      · rw [idx]
        rw [shifted] at dragged
        split_ifs at dragged
        · have := anchored.slot (holds.drag (i + 1) (by omega) dragged)
          omega
        · exact holds.drag i (by omega) dragged
  · rw [windowClose, if_neg inside]
    simp [holds, inside]

/-- Beginning to drag the first window changes nothing about the marks being right. -/
theorem startDrag_marksHold_iff {state : Windows} {win : UiWindow} (anchored : state.Anchored)
    (focused : win.focused = (state.windows 0).focused)
    (front : 0 < state.numWindows → (state.windows 0).dragging → state.dragWindowIdx = 0) :
    { state with windows := Function.update state.windows 0 win, dragWindowIdx := 0 : Windows }.MarksHold ↔
      state.MarksHold := by
  -- The window keeps its mark of the focus.
  have marks : ∀ i, (Function.update state.windows 0 win i).focused = (state.windows i).focused :=
    update_field focused
  constructor
  · intro holds
    refine ⟨fun more => ⟨(holds.focus more).1, fun i used => ?_⟩, fun i used dragged => ?_⟩
    · rw [← marks i]
      exact (holds.focus more).2 i used
    · by_cases first : i = 0
      · rw [first] at used dragged
        rw [first, front used dragged]
        rfl
      · -- A dragged window behind the first one would be a second one.
        have moved := holds.drag i used (by dsimp only; rwa [Function.update_of_ne first])
        exact absurd (Int.ofNat_eq_zero.mp moved) first
  · intro holds
    refine ⟨fun more => ⟨(holds.focus more).1, fun i used => ?_⟩, fun i used dragged => ?_⟩
    · rw [marks i]
      exact (holds.focus more).2 i used
    · by_cases first : i = 0
      · rw [first]
        rfl
      · dsimp only at dragged
        rw [Function.update_of_ne first] at dragged
        exact absurd (anchored.slot (holds.drag i used dragged)).1 first

/-- A click keeps the marks exactly when no drag is lost by the window that it hits. -/
theorem click_marksHold_iff {state : Windows} {x y : UInt32} (anchored : state.Anchored)
    (holds : state.MarksHold) :
    (windowHandleClick state x y).1.MarksHold ↔
      ∀ i, windowHit state x y = some i → state.MayRaise i := by
  -- A click beside all windows does nothing.
  cases hit : windowHit state x y with
  | none =>
    rw [windowHandleClick, hit]
    simp [holds]
  | some i =>
    have inside := windowHit_lt hit
    have raised := bringToFront_marksHold_iff anchored inside holds.drag
    have front := anchored.bringToFront i
    have single : (∀ k, some i = some k → state.MayRaise k) ↔ state.MayRaise i := by simp
    rw [single, ← raised, windowHandleClick, hit]
    dsimp only
    split_ifs
    · -- The click begins a drag of the window that it brought to the first slot.
      refine startDrag_marksHold_iff front rfl fun _ dragged => ?_
      rw [windowBringToFront_first inside] at dragged
      rw [windowBringToFront, if_pos inside]
      exact (anchored.slot (holds.drag i inside dragged)).2
    · rfl

/-- A window that is made comes before the others, like one that was there. -/
theorem create_marksHold_iff {state : Windows} {title : Option (List UInt8)} {x y w h : UInt32}
    (anchored : state.Anchored) (holds : state.MarksHold) :
    (windowCreate state title x y w h).MarksHold ↔
      (state.numWindows < maxWindows → state.MayRaise state.numWindows) := by
  rw [windowCreate]
  by_cases room : state.numWindows < maxWindows
  · rw [if_pos room]
    set added : Windows :=
      { state with
        windows := Function.update state.windows state.numWindows (windowNew title x y w h)
        numWindows := state.numWindows + 1 } with addedIs
    -- Before it comes to the front the new window is in the last slot.
    have drag : ∀ i, i < added.numWindows → (added.windows i).dragging → (i : Int) = added.dragWindowIdx := by
      intro i used dragged
      by_cases last : i = state.numWindows
      · -- The new window is not dragged.
        rw [addedIs, last] at dragged
        simp [windowNew] at dragged
      · have older : i < state.numWindows := by
          have : i < state.numWindows + 1 := used
          omega
        rw [addedIs] at dragged
        dsimp only at dragged
        rw [Function.update_of_ne last] at dragged
        exact holds.drag i older dragged
    have first : added.Anchored := ⟨anchored.focused, anchored.dragged⟩
    have raised := bringToFront_marksHold_iff first (Nat.lt_succ_self state.numWindows) drag
    rw [raised]
    simp only [room, forall_const, Windows.MayRaise]
    -- The new window is the first one only in an empty table.
    by_cases empty : state.numWindows = 0
    · simp [empty]
    · rw [show added.windows 0 = state.windows 0 from Function.update_of_ne (Ne.symm empty) _ _]
  · rw [if_neg room]
    simp [holds, room]

/-- Storing a window with the marks of the one before. -/
theorem Windows.MarksHold.update {state : Windows} (holds : state.MarksHold) {index : Nat} {win : UiWindow}
    (focused : win.focused = (state.windows index).focused)
    (dragging : win.dragging = (state.windows index).dragging) :
    { state with windows := Function.update state.windows index win : Windows }.MarksHold := by
  -- Both marks are the same in every slot.
  have focuses : ∀ i, (Function.update state.windows index win i).focused = (state.windows i).focused :=
    update_field focused
  have drags : ∀ i, (Function.update state.windows index win i).dragging = (state.windows i).dragging :=
    update_field dragging
  refine ⟨fun more => ⟨(holds.focus more).1, fun i used => ?_⟩, fun i used dragged => ?_⟩
  · rw [focuses i]
    exact (holds.focus more).2 i used
  · exact holds.drag i used ((drags i).symm.trans dragged)

/-- A drag moves a window and leaves its marks. -/
theorem drag_marksHold {state : Windows} {x y : UInt32} (holds : state.MarksHold) :
    (windowHandleDrag state x y).1.MarksHold := by
  rw [windowHandleDrag]
  dsimp only
  -- Only a window that is marked as dragged is moved.
  split_ifs
  · exact holds
  · exact holds.update rfl rfl
  · exact holds

/-- From right marks, a use leads to right marks exactly when it is safe. -/
theorem windowStep_marksHold_iff {state : Windows} (anchored : state.Anchored) (holds : state.MarksHold)
    (use : WindowUse) : (windowStep state use).MarksHold ↔ use.Safe state := by
  -- Two of the calls only bring a window to the front if there is one.
  have raise : ∀ index, (windowBringToFront state index).MarksHold ↔
      (index < state.numWindows → state.MayRaise index) := by
    intro index
    by_cases inside : index < state.numWindows
    · rw [bringToFront_marksHold_iff anchored inside holds.drag]
      simp [inside]
    · rw [windowBringToFront, if_neg inside]
      simp [holds, inside]
  cases use with
  | create title x y w h => exact create_marksHold_iff anchored holds
  | close index => exact close_marksHold_iff anchored holds
  | bringToFront index => exact raise index
  | setFocused index =>
    have same : windowSetFocused state index = windowBringToFront state index := by
      rw [windowSetFocused, windowBringToFront]
      split_ifs <;> rfl
    rw [windowStep, same]
    exact raise index
  | click x y => exact click_marksHold_iff anchored holds
  | drag x y => exact iff_of_true (drag_marksHold holds) trivial

/--
The marks of the focus and of a drag are right throughout a history exactly when all its uses are safe.

Closing the first of several windows leaves them without focus, and a window that comes before the one
that is dragged leaves a drag in the second slot.
-/
theorem windows_marksHold_iff (windows : Nat → UiWindow) (uses : List WindowUse) :
    (∀ before, before <+: uses → (windowRun (windowInit windows) before).MarksHold) ↔
      ∀ before use, before ++ [use] <+: uses → use.Safe (windowRun (windowInit windows) before) := by
  have start : (windowInit windows).Anchored := ⟨rfl, .inl rfl⟩
  -- Without windows there is no mark that could be wrong.
  have fine : (windowInit windows).MarksHold := by
    refine ⟨fun more => ?_, fun i used => ?_⟩
    · exact absurd more (Nat.lt_irrefl 0)
    · exact absurd used (Nat.not_lt_zero i)
  -- The named slots are an invariant of all uses, and the marks of the safe ones.
  refine @history_good_iff _ _ windowStep _ uses Windows.Anchored Windows.MarksHold
    (fun state use => use.Safe state) start fine ?_ ?_
  · intro state use _ anchored
    exact anchored.step use
  · intro state use _ anchored holds
    exact windowStep_marksHold_iff anchored holds use

/-- Two windows of which the first is closed leave one without focus. -/
theorem windows_focus_lost :
    ¬ ∀ (windows : Nat → UiWindow) (uses : List WindowUse),
      (windowRun (windowInit windows) uses).MarksHold := by
  intro all
  -- The second window is made last and has the focus in the first slot.
  have holds := all (fun _ => windowNew none 0 0 0 0)
    [.create none 0 0 80 80, .create none 0 0 100 100, .close 0]
  have focused := ((holds.focus (by decide)).2 0 (by decide)).mpr (by decide)
  exact absurd focused (by decide)

end MiraOS
