import MiraOS.Machine.Run
import MiraOS.Machine.Threaded
import MiraOS.Ui.Windows

/-! The tree of widgets of ui/ui.c: making widgets, attaching them and taking them off. -/

namespace MiraOS

open Machine

/-- A widget; zero is no pointer. -/
structure UiWidget where
  bounds : UiRect
  absoluteBounds : UiRect
  parent : Nat
  -- The first child, and the neighbours among the children of the parent.
  children : Nat
  next : Nat
  prev : Nat
  visible : Bool
  enabled : Bool
  focused : Bool
  -- What belongs to the user, and the handlers.
  userData : Nat
  onPaint : Nat
  onEvent : Nat
  onFocus : Nat

/-- The memory of the widgets. -/
abbrev WidgetHeap : Type := Nat → UiWidget

/-- A rectangle moved by the origin of another one. -/
def UiRect.movedBy (rect origin : UiRect) : UiRect :=
  { rect with x := rect.x + origin.x, y := rect.y + origin.y }

/-- Add the origins of the ancestors to the place of a child, one after another. -/
def ancestorLoop (child : Nat) : Nat → Nat → WidgetHeap → Except Halt WidgetHeap
  | 0, _, _ => .error .outOfFuel
  | fuel + 1, ancestor, heap =>
    if ancestor = 0 then .ok heap
    else
      let moved := (heap child).absoluteBounds.movedBy (heap ancestor).bounds
      let heap := Function.update heap child { heap child with absoluteBounds := moved }
      ancestorLoop child fuel (heap ancestor).parent heap

/-- Put a child in front of the children of its new parent. -/
def linkChild (heap : WidgetHeap) (parent child : Nat) : WidgetHeap :=
  let heap := Function.update heap child
    { heap child with parent := parent, next := (heap parent).children, prev := 0 }
  -- The child that was the first one gets the new one before it.
  let first := (heap parent).children
  let heap := if first ≠ 0 then Function.update heap first { heap first with prev := child } else heap
  Function.update heap parent { heap parent with children := child }

/-- Attach a child to a parent. -/
def uiAddChild (fuel : Nat) (heap : WidgetHeap) (parent child : Nat) : Except Halt WidgetHeap :=
  if parent = 0 ∨ child = 0 then .ok heap
  else ancestorLoop child fuel parent (linkChild heap parent child)

/-- A widget as it is made. -/
def newWidget (parent : Nat) (bounds : UiRect) : UiWidget :=
  { bounds := bounds
    absoluteBounds := bounds
    parent := parent
    children := 0
    next := 0
    prev := 0
    visible := true
    enabled := true
    focused := false
    userData := 0
    onPaint := 0
    onEvent := 0
    onFocus := 0 }

/-- Make a widget in the memory that is given for it, and return its pointer. -/
def uiCreateWidget (fuel : Nat) (heap : WidgetHeap) (parent : Nat) (bounds : UiRect) (widget : Nat) :
    Except Halt (WidgetHeap × Nat) :=
  if widget = 0 then .ok (heap, 0)
  else
    let heap := Function.update heap widget (newWidget parent bounds)
    if parent ≠ 0 then do
      let heap ← uiAddChild fuel heap parent widget
      return (heap, widget)
    else .ok (heap, widget)

/-- Take a child off its parent. -/
def uiRemoveChild (heap : WidgetHeap) (parent child : Nat) : WidgetHeap :=
  if parent = 0 ∨ child = 0 ∨ (heap child).parent ≠ parent then heap
  else
    let prev := (heap child).prev
    let heap :=
      -- The place of the child is not touched.
      if prev ≠ 0 then Function.update heap prev { heap prev with next := (heap child).next }
      else Function.update heap parent { heap parent with children := (heap child).next }
    let next := (heap child).next
    let heap :=
      if next ≠ 0 then Function.update heap next { heap next with prev := (heap child).prev } else heap
    Function.update heap child { heap child with parent := 0, next := 0, prev := 0 }

/-- The widgets that were made, and their memory. -/
structure Widgets where
  heap : WidgetHeap
  live : List Nat

/-- A use of the widgets. -/
inductive WidgetUse where
  | create (parent : Nat) (bounds : UiRect) (widget : Nat)
  | addChild (parent child : Nat)
  | removeChild (parent child : Nat)

/-- The widgets after a use. -/
def widgetStep (fuel : Nat) (widgets : Widgets) : WidgetUse → Except Halt Widgets
  | .create parent bounds widget => do
    let (heap, made) ← uiCreateWidget fuel widgets.heap parent bounds widget
    -- Without memory there is no new widget.
    return ⟨heap, if made = 0 then widgets.live else made :: widgets.live⟩
  | .addChild parent child => do
    let heap ← uiAddChild fuel widgets.heap parent child
    return { widgets with heap := heap }
  | .removeChild parent child => .ok { widgets with heap := uiRemoveChild widgets.heap parent child }

/-- A direction on the screen. -/
inductive Axis where
  | x
  | y

/-- Where a rectangle starts in a direction. -/
def UiRect.along (rect : UiRect) : Axis → UInt32
  | .x => rect.x
  | .y => rect.y

/-- The links to the parents. -/
def parentOf (heap : WidgetHeap) (widget : Nat) : Nat := (heap widget).parent

/-- The origins of widgets added up. -/
def originSum (heap : WidgetHeap) (axis : Axis) : List Nat → UInt32
  | [] => 0
  | widget :: rest => (heap widget).bounds.along axis + originSum heap axis rest

theorem UiRect.movedBy_along (rect origin : UiRect) (axis : Axis) :
    (rect.movedBy origin).along axis = rect.along axis + origin.along axis := by
  cases axis with
  | x => rfl
  | y => rfl

/-- The origins of two lists of widgets. -/
theorem originSum_append (heap : WidgetHeap) (axis : Axis) (front back : List Nat) :
    originSum heap axis (front ++ back) = originSum heap axis front + originSum heap axis back := by
  -- Induction on the front.
  induction front with
  | nil => exact (UInt32.zero_add _).symm
  | cons widget rest ih => rw [List.cons_append, originSum, originSum, ih, UInt32.add_assoc]

/-- Origins depend on the bounds of the widgets only. -/
theorem originSum_congr {heap other : WidgetHeap} {widgets : List Nat}
    (same : ∀ widget ∈ widgets, (other widget).bounds = (heap widget).bounds) (axis : Axis) :
    originSum other axis widgets = originSum heap axis widgets := by
  -- Induction on the ancestors: only their bounds are read.
  induction widgets with
  | nil => rfl
  | cons widget rest ih =>
    rw [originSum, originSum, same widget List.mem_cons_self,
      ih fun other among => same other (List.mem_cons_of_mem _ among)]

/-- What the place of a widget depends on: its bounds and where it is attached. -/
structure SamePlace (one two : UiWidget) : Prop where
  bounds : two.bounds = one.bounds
  absoluteBounds : two.absoluteBounds = one.absoluteBounds
  parent : two.parent = one.parent

theorem SamePlace.refl (widget : UiWidget) : SamePlace widget widget := ⟨rfl, rfl, rfl⟩

/-- Storing a widget that has the place of the one before keeps the places of all. -/
theorem samePlace_update {heap : WidgetHeap} {address : Nat} {widget : UiWidget}
    (same : SamePlace (heap address) widget) (other : Nat) :
    SamePlace (heap other) (Function.update heap address widget other) := by
  -- One widget is written, and it keeps its place.
  by_cases here : other = address
  · rw [here, Function.update_self]
    exact same
  · rw [Function.update_of_ne here]
    exact .refl _

theorem SamePlace.trans {one two three : UiWidget} (first : SamePlace one two) (second : SamePlace two three) :
    SamePlace one three :=
  ⟨second.bounds.trans first.bounds, second.absoluteBounds.trans first.absoluteBounds,
    second.parent.trans first.parent⟩

/-- Only one widget got another parent, and its place moved by some distance. -/
structure Relinked (heap after : WidgetHeap) (child parent : Nat) (distance : Axis → UInt32) : Prop where
  others : ∀ other, other ≠ child → SamePlace (heap other) (after other)
  bounds : (after child).bounds = (heap child).bounds
  parent : (after child).parent = parent
  moved : ∀ axis, (after child).absoluteBounds.along axis =
    (heap child).absoluteBounds.along axis + distance axis

/-- Bounds never change. -/
theorem Relinked.bounds_all {heap after : WidgetHeap} {child parent : Nat} {distance : Axis → UInt32}
    (relinked : Relinked heap after child parent distance) (widget : Nat) :
    (after widget).bounds = (heap widget).bounds := by
  -- The child keeps its bounds, and only its parent and its absolute bounds change.
  by_cases same : widget = child
  · rw [same, relinked.bounds]
  · exact (relinked.others widget same).bounds

/-- The loop over the ancestors ends, and the child has moved by their origins. -/
theorem ancestorLoop_settles {heap : WidgetHeap} {child ancestor : Nat} {ancestors : List Nat}
    (linked : Visits (parentOf heap) ancestor ancestors) (apart : child ∉ ancestors) :
    ∃ after, Settles (fun fuel => ancestorLoop child fuel ancestor heap) after ∧
      Relinked heap after child (heap child).parent (fun axis => originSum heap axis ancestors) := by
  -- The loop takes one turn for each ancestor, over a heap in which the child has moved.
  induction ancestors generalizing ancestor heap with
  | nil =>
    obtain rfl : ancestor = 0 := linked
    refine ⟨heap, Settles.after 1 fun fuel => rfl, fun other _ => .refl _, rfl, rfl, fun axis => ?_⟩
    exact (UInt32.add_zero _).symm
  | cons first rest ih =>
    obtain ⟨rfl, some, tail⟩ := linked
    have differs : ancestor ≠ child := fun same => apart (same ▸ List.mem_cons_self)
    -- The first turn moves the child, which changes no links and no bounds.
    set moved := Function.update heap child
      { heap child with absoluteBounds := (heap child).absoluteBounds.movedBy (heap ancestor).bounds }
      with movedIs
    have here : moved child =
        { heap child with absoluteBounds := (heap child).absoluteBounds.movedBy (heap ancestor).bounds } := by
      rw [movedIs, Function.update_self]
    have elsewhere : ∀ other, other ≠ child → moved other = heap other := fun other apart =>
      Function.update_of_ne apart _ _
    have links : ∀ other, parentOf moved other = parentOf heap other := by
      intro other
      by_cases same : other = child
      · rw [parentOf, parentOf, same, here]
      · rw [parentOf, parentOf, elsewhere other same]
    have bounds : ∀ other, (moved other).bounds = (heap other).bounds := by
      intro other
      by_cases same : other = child
      · rw [same, here]
      · rw [elsewhere other same]
    -- The rest of the line is what the loop goes on with.
    have onward : Visits (parentOf moved) (parentOf moved ancestor) rest := by
      rw [links ancestor]
      exact tail.congr fun other _ => links other
    obtain ⟨after, settles, relinked⟩ := ih onward fun among => apart (List.mem_cons_of_mem _ among)
    refine ⟨after, settles.later fun fuel => ?_, ?_, ?_, ?_, fun axis => ?_⟩
    · rw [ancestorLoop, if_neg some]
      rfl
    · intro other apart
      have same := relinked.others other apart
      rwa [elsewhere other apart] at same
    · exact relinked.bounds.trans (bounds child)
    · exact relinked.parent.trans (links child)
    · rw [relinked.moved axis, here, UiRect.movedBy_along, originSum,
        originSum_congr (fun other _ => bounds other), UInt32.add_assoc]

/-- Linking a child changes no place but the parent of the child. -/
theorem linkChild_relinked (heap : WidgetHeap) (parent child : Nat) :
    Relinked heap (linkChild heap parent child) child parent fun _ => 0 := by
  rw [linkChild]
  dsimp only
  set placed := Function.update heap child
    { heap child with parent := parent, next := (heap parent).children, prev := 0 } with placedIs
  set chained := if (placed parent).children ≠ 0 then
    Function.update placed (placed parent).children { placed (placed parent).children with prev := child }
    else placed with chainedIs
  -- Behind the first store, only links between siblings change.
  have first : ∀ other, SamePlace (placed other) (chained other) := by
    intro other
    rw [chainedIs]
    split_ifs
    · refine samePlace_update ?_ other
      exact ⟨rfl, rfl, rfl⟩
    · exact .refl _
  have second : ∀ other, SamePlace (placed other)
      (Function.update chained parent { chained parent with children := child } other) := by
    intro other
    refine (first other).trans (samePlace_update ?_ other)
    exact ⟨rfl, rfl, rfl⟩
  have here : placed child = { heap child with parent := parent, next := (heap parent).children, prev := 0 } := by
    rw [placedIs, Function.update_self]
  -- What the first store does is all that can be seen.
  refine ⟨fun other apart => ?_, ?_, ?_, fun axis => ?_⟩
  · have same : placed other = heap other := Function.update_of_ne apart _ _
    rw [← same]
    exact second other
  · rw [(second child).bounds, here]
  · rw [(second child).parent, here]
  · rw [(second child).absoluteBounds, here, UInt32.add_zero]

/-- Attaching a child to a parent that it does not lead to. -/
theorem uiAddChild_settles {heap : WidgetHeap} {parent child : Nat} {ancestors : List Nat} (real : parent ≠ 0)
    (given : child ≠ 0) (linked : Visits (parentOf heap) parent ancestors) (apart : child ∉ ancestors) :
    ∃ after, Settles (fun fuel => uiAddChild fuel heap parent child) after ∧
      Relinked heap after child parent (fun axis => originSum heap axis ancestors) := by
  have link := linkChild_relinked heap parent child
  -- The ancestors of the parent are those before, since the child is none of them.
  have same : Visits (parentOf (linkChild heap parent child)) parent ancestors :=
    linked.congr fun other among => (link.others other fun here => apart (here ▸ among)).parent
  -- The loop runs over the heap in which the child is linked.
  obtain ⟨after, settles, relinked⟩ := ancestorLoop_settles same apart
  refine ⟨after, ?_, fun other apart => (link.others other apart).trans (relinked.others other apart),
    relinked.bounds.trans link.bounds, relinked.parent.trans link.parent, fun axis => ?_⟩
  · have attached : ∀ fuel, uiAddChild fuel heap parent child =
        ancestorLoop child fuel parent (linkChild heap parent child) := fun fuel =>
      if_neg (not_or.mpr ⟨real, given⟩)
    simpa only [attached] using settles
  · rw [relinked.moved axis, link.moved axis, UInt32.add_zero,
      originSum_congr fun other _ => link.bounds_all other]

/-- Taking a child off its parent leaves it where it was. -/
theorem uiRemoveChild_relinked {heap : WidgetHeap} {parent child : Nat} (real : parent ≠ 0) (given : child ≠ 0)
    (attached : (heap child).parent = parent) :
    Relinked heap (uiRemoveChild heap parent child) child 0 fun _ => 0 := by
  have taken : ¬ (parent = 0 ∨ child = 0 ∨ (heap child).parent ≠ parent) := by
    simp [real, given, attached]
  rw [uiRemoveChild, if_neg taken]
  dsimp only
  set unlinked := if (heap child).prev ≠ 0 then
    Function.update heap (heap child).prev { heap (heap child).prev with next := (heap child).next }
    else Function.update heap parent { heap parent with children := (heap child).next } with unlinkedIs
  set closed := if (unlinked child).next ≠ 0 then
    Function.update unlinked (unlinked child).next
      { unlinked (unlinked child).next with prev := (unlinked child).prev } else unlinked with closedIs
  -- The stores before the last one change links between siblings only.
  have first : ∀ other, SamePlace (heap other) (unlinked other) := by
    intro other
    rw [unlinkedIs]
    split_ifs
    · refine samePlace_update ?_ other
      exact ⟨rfl, rfl, rfl⟩
    · refine samePlace_update ?_ other
      exact ⟨rfl, rfl, rfl⟩
  -- The second store is a link between siblings as well.
  have second : ∀ other, SamePlace (heap other) (closed other) := by
    intro other
    refine (first other).trans ?_
    rw [closedIs]
    split_ifs
    · refine samePlace_update ?_ other
      exact ⟨rfl, rfl, rfl⟩
    · exact .refl _
  -- The last store gives the child its parent and its place, and the others keep theirs.
  refine ⟨fun other apart => ?_, ?_, ?_, fun axis => ?_⟩
  · rw [Function.update_of_ne apart]
    exact second other
  · rw [Function.update_self]
    exact (second child).bounds
  · rw [Function.update_self]
  · rw [Function.update_self, UInt32.add_zero, (second child).absoluteBounds]

/-- Making a widget in memory that no ancestor of it uses. -/
theorem uiCreateWidget_settles {heap : WidgetHeap} {parent widget : Nat} {ancestors : List Nat} (bounds : UiRect)
    (some : widget ≠ 0) (linked : Visits (parentOf heap) parent ancestors) (apart : widget ∉ ancestors) :
    ∃ after, Settles (fun fuel => uiCreateWidget fuel heap parent bounds widget) (after, widget) ∧
      (∀ other, other ≠ widget → SamePlace (heap other) (after other)) ∧
      (after widget).bounds = bounds ∧ (after widget).parent = parent ∧
      ∀ axis, (after widget).absoluteBounds.along axis = bounds.along axis + originSum heap axis ancestors := by
  set made := Function.update heap widget (newWidget parent bounds) with madeIs
  have here : made widget = newWidget parent bounds := by rw [madeIs, Function.update_self]
  have elsewhere : ∀ other, other ≠ widget → made other = heap other := fun other differs =>
    Function.update_of_ne differs _ _
  -- There is memory, so what happens depends on the parent.
  have start : ∀ fuel, uiCreateWidget fuel heap parent bounds widget =
      if parent ≠ 0 then uiAddChild fuel made parent widget >>= fun heap => pure (heap, widget)
      else .ok (made, widget) := fun fuel => if_neg some
  by_cases root : parent = 0
  · -- A widget without a parent has no ancestors.
    subst root
    obtain rfl : ancestors = [] := linked.unique rfl
    refine ⟨made, Settles.now fun fuel => start fuel, fun other differs => ?_, ?_, ?_, fun axis => ?_⟩
    · rw [elsewhere other differs]
      exact .refl _
    · rw [here, newWidget]
    · rw [here, newWidget]
    · rw [here, newWidget, originSum, UInt32.add_zero]
  · -- The new widget is none of its ancestors, so their line is the same.
    have old : ∀ other ∈ ancestors, made other = heap other := fun other among =>
      elsewhere other fun same => apart (same ▸ among)
    have madeLine : Visits (parentOf made) parent ancestors :=
      linked.congr fun other among => by rw [parentOf, parentOf, old other among]
    have sums : ∀ axis, originSum made axis ancestors = originSum heap axis ancestors :=
      originSum_congr fun other among => by rw [old other among]
    obtain ⟨after, settles, relinked⟩ := uiAddChild_settles root some madeLine apart
    have attached : ∀ fuel, uiCreateWidget fuel heap parent bounds widget =
        uiAddChild fuel made parent widget >>= fun heap => pure (heap, widget) := fun fuel =>
      (start fuel).trans (if_pos root)
    refine ⟨after, ?_, fun other differs => ?_, ?_, relinked.parent, fun axis => ?_⟩
    · simp only [attached]
      exact settles.bind (Settles.now fun _ => rfl)
    · rw [← elsewhere other differs]
      exact relinked.others other differs
    · rw [relinked.bounds, here, newWidget]
    · rw [relinked.moved axis, here, newWidget, sums]

end MiraOS
