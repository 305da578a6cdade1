import MiraOS.Machine.Regions
import MiraOS.Machine.Traced
import MiraOS.Ui.Widgets
import Mathlib.Algebra.GroupWithZero.Nat

/-! Which widget of a tree is offered an event by ui/ui.c. -/

namespace MiraOS

open Machine

/-- The kinds of events. -/
inductive UiEventType where
  | none
  | mouseMove
  | mouseDown
  | mouseUp
  | keyDown
  | keyUp
  | focus
  | blur
  deriving DecidableEq

/-- An event. -/
structure UiEvent where
  type : UiEventType
  x : UInt32
  y : UInt32
  button : UInt32
  keycode : UInt32
  handled : Bool
  deriving DecidableEq

/-- A point is in a rectangle, with sums that wrap. -/
def uiRectContains (r : UiRect) (px py : UInt32) : Bool :=
  decide (r.x ≤ px) && decide (px < r.x + r.w) && decide (r.y ≤ py) && decide (py < r.y + r.h)

/-- The first child from one on that contains a point, or none. -/
def childAt (heap : WidgetHeap) (px py : UInt32) : Nat → Nat → Except Halt Nat
  | 0, _ => .error .outOfFuel
  | fuel + 1, child =>
    if child = 0 then .ok 0
    else if uiRectContains (heap child).absoluteBounds px py then .ok child
    else childAt heap px py fuel (heap child).next

/-- What the handlers do: from the handler, the widget and the event to the answer, and to the widgets after it. -/
abbrev EventHandlers : Type := Nat → Nat → UiEvent → WidgetHeap → Bool × WidgetHeap

/-- Call the handler of a widget, and log the widget. -/
def offerEvent (handle : EventHandlers) (event : UiEvent) (target : Nat) : Traced WidgetHeap Nat Bool :=
  fun heap => ([target], .ok (handle (heap target).onEvent target event heap))

/-- The widget that is asked: a child that contains the point, or else the widget itself. -/
def eventTarget (heap : WidgetHeap) (event : UiEvent) (fuel target : Nat) : Except Halt Nat := do
  let child ← childAt heap event.x event.y fuel (heap target).children
  return if child = 0 then target else child

/-- The loop over the widgets; the widget that was asked is the one whose siblings come next. -/
def postEventLoop (handle : EventHandlers) (event : UiEvent) : Nat → Nat → Traced WidgetHeap Nat Bool
  | 0, _ => .stop .outOfFuel
  | fuel + 1, target => do
    if target = 0 then return false
    let heap ← Traced.look
    if uiRectContains (heap target).absoluteBounds event.x event.y then
      -- From here on the widget that was asked stands in for the one whose turn it was.
      let target ← Traced.lift (eventTarget heap event fuel target)
      if (heap target).onEvent ≠ 0 then
        let handled ← offerEvent handle event target
        if handled then return true
        -- The handler may have changed the widgets.
        let heap ← Traced.look
        postEventLoop handle event fuel (heap target).next
      else postEventLoop handle event fuel (heap target).next
    else postEventLoop handle event fuel (heap target).next

/-- Handlers that turn every event down. -/
def turnDown : EventHandlers := fun _ _ _ heap => (false, heap)

/-- Post an event to the widgets below the root. -/
def uiPostEvent (fuel : Nat) (handle : EventHandlers) (root : Nat) (event : Option UiEvent) :
    Traced WidgetHeap Nat Bool :=
  match event with
  | some event => postEventLoop handle event fuel root
  | none => pure false

/-- A widget is offered an event. -/
def Offered (handle : EventHandlers) (heap : WidgetHeap) (root : Nat) (event : UiEvent) (widget : Nat) : Prop :=
  ∃ fuel, widget ∈ (uiPostEvent fuel handle root (some event) heap).1

/-- The points of a rectangle, with sums that do not wrap. -/
def UiRect.points (rect : UiRect) : Set (UInt32 × UInt32) :=
  {point | (rect.x ≤ point.1 ∧ point.1.toNat < rect.x.toNat + rect.w.toNat) ∧
    rect.y ≤ point.2 ∧ point.2.toNat < rect.y.toNat + rect.h.toNat}

/-- A rectangle that ends in front of the largest coordinates. -/
def UiRect.Ends (rect : UiRect) : Prop :=
  rect.x.toNat + rect.w.toNat < 2 ^ 32 ∧ rect.y.toNat + rect.h.toNat < 2 ^ 32

instance (rect : UiRect) : Decidable rect.Ends := inferInstanceAs (Decidable (_ ∧ _))

/-- The points of a widget on the screen. -/
def widgetRegion (heap : WidgetHeap) (widget : Nat) : Set (UInt32 × UInt32) := (heap widget).absoluteBounds.points

/-- The links to the next siblings. -/
def nextOf (heap : WidgetHeap) (widget : Nat) : Nat := (heap widget).next

/-- The widgets of a tree are linked as it says. -/
inductive Represents (heap : WidgetHeap) : RoseTree Nat → Prop where
  | node {widget : Nat} {children : List (RoseTree Nat)} (some : widget ≠ 0)
      (linked : Visits (nextOf heap) (heap widget).children (children.map RoseTree.value))
      (each : ∀ child ∈ children, Represents heap child) : Represents heap (.node widget children)

/-- The code finds a point in a rectangle exactly when it is there and no sum wraps. -/
theorem uiRectContains_iff {rect : UiRect} {px py : UInt32} :
    uiRectContains rect px py = true ↔ rect.Ends ∧ (px, py) ∈ rect.points := by
  -- With the far edge below 2^32 the sums of the source do not wrap.
  have column := rect.x.toNat_lt
  have width := rect.w.toNat_lt
  have row := rect.y.toNat_lt
  have height := rect.h.toNat_lt
  simp only [uiRectContains, Bool.and_eq_true, decide_eq_true_eq, UiRect.Ends, UiRect.points, Set.mem_ofPred_eq,
    UInt32.lt_iff_toNat_lt, UInt32.le_iff_toNat_le, UInt32.toNat_add]
  omega

/-- A part with a point in a rectangle that ends in time ends in time itself. -/
theorem UiRect.Ends.inside {outer inner : UiRect} (ends : outer.Ends) (within : inner.points ⊆ outer.points)
    {point : UInt32 × UInt32} (there : point ∈ inner.points) : inner.Ends := by
  -- A sum that wraps would put the largest coordinate into the inner rectangle, but not into the outer one.
  obtain ⟨⟨left, right⟩, top, bottom⟩ := there
  obtain ⟨wide, high⟩ := ends
  have column := UInt32.le_iff_toNat_le.mp left
  have row := UInt32.le_iff_toNat_le.mp top
  -- The last column and the last row with points of the inner one are in the outer one.
  have words : ∀ n : Nat, (UInt32.ofNat (min n (2 ^ 32 - 1))).toNat = min n (2 ^ 32 - 1) := fun n =>
    UInt32.toNat_ofNat_of_lt (show _ < 2 ^ 32 by omega)
  have lastColumn : (UInt32.ofNat (min (inner.x.toNat + inner.w.toNat - 1) (2 ^ 32 - 1)), point.2) ∈ inner.points := by
    refine ⟨⟨?_, ?_⟩, top, bottom⟩
    · rw [UInt32.le_iff_toNat_le, words]
      have := inner.x.toNat_lt
      omega
    · rw [words]
      omega
  have lastRow : (point.1, UInt32.ofNat (min (inner.y.toNat + inner.h.toNat - 1) (2 ^ 32 - 1))) ∈ inner.points := by
    refine ⟨⟨left, right⟩, ?_, ?_⟩
    · rw [UInt32.le_iff_toNat_le, words]
      have := inner.y.toNat_lt
      omega
    · rw [words]
      omega
  obtain ⟨⟨-, rightmost⟩, -⟩ := within lastColumn
  obtain ⟨-, -, lowest⟩ := within lastRow
  rw [words] at rightmost lowest
  exact ⟨by omega, by omega⟩

section

variable {heap : WidgetHeap} {event : UiEvent} {start : Nat} {siblings : List Nat}

/-- Among siblings the first one that contains the point is found. -/
theorem childAt_ok {fuel found : Nat} (linked : Visits (nextOf heap) start siblings)
    (ran : childAt heap event.x event.y fuel start = .ok found) :
    found = (siblings.find? fun child => uiRectContains (heap child).absoluteBounds event.x event.y).getD 0 := by
  induction siblings generalizing start fuel with
  | nil =>
    obtain rfl : start = 0 := linked
    cases fuel with
    | zero => exact absurd ran (by simp [childAt])
    | succ fuel => exact (Except.ok.inj ran).symm
  -- The search ends at the first child, or goes on behind it.
  | cons first rest ih =>
    obtain ⟨rfl, some, behind⟩ := linked
    cases fuel with
    | zero => exact absurd ran (by simp [childAt])
    | succ fuel =>
      rw [childAt, if_neg some] at ran
      rw [List.find?_cons]
      split_ifs at ran with contains
      · rw [contains]
        exact (Except.ok.inj ran).symm
      · rw [Bool.not_eq_true] at contains
        rw [contains]
        exact ih behind ran

/-- It is found with one turn for each of them. -/
theorem childAt_enough {fuel : Nat} (linked : Visits (nextOf heap) start siblings) (enough : siblings.length < fuel) :
    ∃ found, childAt heap event.x event.y fuel start = .ok found := by
  -- Induction on the sibling list: every call of the loop uses one unit of fuel for one sibling.
  induction siblings generalizing start fuel with
  | nil =>
    obtain rfl : start = 0 := linked
    obtain ⟨less, rfl⟩ : ∃ less, fuel = less + 1 := ⟨fuel - 1, by omega⟩
    exact ⟨0, rfl⟩
  | cons first rest ih =>
    obtain ⟨rfl, some, behind⟩ := linked
    rw [List.length_cons] at enough
    obtain ⟨less, rfl⟩ : ∃ less, fuel = less + 1 := ⟨fuel - 1, by omega⟩
    rw [childAt, if_neg some]
    split_ifs
    · -- The first sibling that contains the point is the answer.
      exact ⟨start, rfl⟩
    · exact ih behind (by omega)

end

section

variable {handle : EventHandlers} {event : UiEvent} {heap : WidgetHeap} {fuel target : Nat}

/-- A widget without the point is passed over. -/
theorem postEventLoop_outside (some : target ≠ 0)
    (outside : uiRectContains (heap target).absoluteBounds event.x event.y ≠ true) :
    postEventLoop handle event (fuel + 1) target heap = postEventLoop handle event fuel (heap target).next heap := by
  rw [postEventLoop, if_neg some]
  -- The loop reads the bounds, and a point outside them sends it to the next sibling.
  show ((Traced.look >>= _ : Traced WidgetHeap Nat Bool) heap) = _
  rw [Traced.bind_ok (show (Traced.look heap : List Nat × _).2 = .ok (heap, heap) from rfl), if_neg outside]
  rfl

/-- Of a widget with the point, the one that is asked decides. -/
theorem postEventLoop_inside (some : target ≠ 0)
    (inside : uiRectContains (heap target).absoluteBounds event.x event.y = true) {asked : Nat}
    (found : eventTarget heap event fuel target = .ok asked) :
    postEventLoop handle event (fuel + 1) target heap =
      (if (heap asked).onEvent ≠ 0 then do
          let handled ← offerEvent handle event asked
          if handled then return true
          let heap ← Traced.look
          postEventLoop handle event fuel (heap asked).next
        else postEventLoop handle event fuel (heap asked).next : Traced WidgetHeap Nat Bool) heap := by
  rw [postEventLoop, if_neg some]
  -- The loop reads the bounds, and a point inside them asks for the target.
  show ((Traced.look >>= _ : Traced WidgetHeap Nat Bool) heap) = _
  rw [Traced.bind_ok (show (Traced.look heap : List Nat × _).2 = .ok (heap, heap) from rfl), if_pos inside, found]
  rfl

/-- Where the loop asks no one, it stopped in front of a widget. -/
theorem postEventLoop_stopped (some : target ≠ 0)
    (inside : uiRectContains (heap target).absoluteBounds event.x event.y = true) {halt : Halt}
    (stopped : eventTarget heap event fuel target = .error halt) :
    (postEventLoop handle event (fuel + 1) target heap).1 = [] := by
  rw [postEventLoop, if_neg some]
  -- The loop reads the bounds, and the search for the target has no fuel left.
  show ((Traced.look >>= _ : Traced WidgetHeap Nat Bool) heap).1 = _
  rw [Traced.bind_ok (show (Traced.look heap : List Nat × _).2 = .ok (heap, heap) from rfl), if_pos inside, stopped]
  rfl

/-- Siblings without the point are offered nothing. -/
theorem postEventLoop_siblings {siblings : List Nat} (linked : Visits (nextOf heap) target siblings)
    (outside : ∀ widget ∈ siblings, uiRectContains (heap widget).absoluteBounds event.x event.y ≠ true) :
    (postEventLoop handle event fuel target heap).1 = [] := by
  -- Induction on the sibling list: a sibling that does not contain the point is passed over without a call.
  induction siblings generalizing target fuel with
  | nil =>
    obtain rfl : target = 0 := linked
    cases fuel with
    | zero => rfl
    | succ fuel => rfl
  | cons first rest ih =>
    obtain ⟨rfl, some, behind⟩ := linked
    cases fuel with
    -- Without fuel the walk has stopped and asked nobody.
    | zero => rfl
    | succ fuel =>
      rw [postEventLoop_outside some (outside target List.mem_cons_self)]
      exact ih behind fun widget among => outside widget (List.mem_cons_of_mem target among)

end

section

variable {heap : WidgetHeap} {tree part : RoseTree Nat} {depth : Nat}

/-- The root of a tree of widgets is a widget. -/
theorem Represents.real (screen : Represents heap tree) : tree.value ≠ 0 := by
  obtain ⟨some, -, -⟩ := screen
  exact some

/-- Its children are linked to each other. -/
theorem Represents.linked (screen : Represents heap tree) :
    Visits (nextOf heap) (heap tree.value).children (tree.children.map RoseTree.value) := by
  obtain ⟨-, linked, -⟩ := screen
  exact linked

/-- Each of its children is a tree of widgets. -/
theorem Represents.child (screen : Represents heap tree) {child : RoseTree Nat} (among : child ∈ tree.children) :
    Represents heap child := by
  obtain ⟨-, -, each⟩ := screen
  exact each child among

/-- The parts of a tree of widgets are linked as they say. -/
theorem Represents.within (screen : Represents heap tree) (below : PartAt tree depth part) : Represents heap part := by
  -- Induction on the path down to the part.
  induction below with
  | here => exact screen
  | under among _ ih => exact ih (screen.child among)

/-- A widget is the root of one tree only. -/
theorem Represents.unique {one two : RoseTree Nat} (first : Represents heap one) (second : Represents heap two)
    (same : one.value = two.value) : one = two := by
  induction first generalizing two with
  | node some linked each ih =>
    obtain ⟨-, others, all⟩ := second
    obtain rfl := same
    congr 1
    have values := linked.unique others
    -- The children have the same values in the same order.
    refine List.ext_getElem (by simpa using congrArg List.length values) fun i inside also => ?_
    have child := List.getElem_of_eq values (by rw [List.length_map]; exact inside)
    rw [List.getElem_map, List.getElem_map] at child
    exact ih _ (List.getElem_mem inside) (all _ (List.getElem_mem also)) child

end

/-- The events that reach their widget: those for a widget without a handler, or for the root or a child of it where
the rectangle of the root does not wrap. -/
def EventReaches (heap : WidgetHeap) (tree : RoseTree Nat) (event : UiEvent) : Prop :=
  ∀ depth part, Deepest (widgetRegion heap) (event.x, event.y) tree depth part → (heap part.value).onEvent ≠ 0 →
    depth ≤ 1 ∧ (heap tree.value).absoluteBounds.Ends

section

variable {heap : WidgetHeap} {tree : RoseTree Nat} {event : UiEvent} (screen : Represents heap tree)
  (nested : Nested (widgetRegion heap) tree)

include nested

/-- The code finds the children with the point. -/
theorem child_contains_iff (ends : (heap tree.value).absoluteBounds.Ends) {child : RoseTree Nat}
    (among : child ∈ tree.children) :
    uiRectContains (heap child.value).absoluteBounds event.x event.y = true ↔
      (event.x, event.y) ∈ widgetRegion heap child.value := by
  rw [uiRectContains_iff]
  exact ⟨fun both => both.2, fun there => ⟨ends.inside (nested.child_within among) there, there⟩⟩

include screen

/-- The widget that is asked is the child with the point. -/
theorem eventTarget_child (ends : (heap tree.value).absoluteBounds.Ends) {child : RoseTree Nat}
    (among : child ∈ tree.children) (there : (event.x, event.y) ∈ widgetRegion heap child.value) {fuel asked : Nat}
    (found : eventTarget heap event fuel tree.value = .ok asked) : asked = child.value := by
  have contains := fun other => @child_contains_iff heap tree event nested ends other
  -- The search among the children ends at this one.
  have search : tree.children.find? (fun other => uiRectContains (heap other.value).absoluteBounds event.x event.y) =
      some child := by
    have ends : (tree.children.find? fun other =>
        uiRectContains (heap other.value).absoluteBounds event.x event.y).isSome = true :=
      List.find?_isSome.mpr ⟨child, among, (contains child among).mpr there⟩
    obtain ⟨other, first⟩ := Option.isSome_iff_exists.mp ends
    have member := List.mem_of_find?_eq_some first
    have found := @List.find?_some _
      (fun other : RoseTree Nat => uiRectContains (heap other.value).absoluteBounds event.x event.y) other _ first
    rw [first, nested.child_unique member among ((contains other member).mp found) there]
  obtain ⟨first, ran, rest⟩ := bind_eq_ok.mp found
  obtain rfl := Except.ok.inj rest
  -- The links lead through the children of the tree in their order.
  have place := childAt_ok screen.linked ran
  rw [List.find?_map] at place
  have value : first = child.value :=
    place.trans (congrArg (fun found => (Option.map RoseTree.value found).getD 0) search)
  have real : first ≠ 0 := by
    rw [value]
    exact (screen.child among).real
  rw [if_neg real]
  exact value

/-- Without such a child it is the root. -/
theorem eventTarget_root (ends : (heap tree.value).absoluteBounds.Ends)
    (none : ∀ child ∈ tree.children, (event.x, event.y) ∉ widgetRegion heap child.value) {fuel asked : Nat}
    (found : eventTarget heap event fuel tree.value = .ok asked) : asked = tree.value := by
  obtain ⟨first, ran, rest⟩ := bind_eq_ok.mp found
  obtain rfl := Except.ok.inj rest
  -- No child contains the point, so the search among the children answers null.
  have search : first = 0 := by
    rw [childAt_ok screen.linked ran, List.find?_eq_none.mpr]
    · rfl
    · intro widget listed there
      obtain ⟨child, among, rfl⟩ := List.mem_map.mp listed
      exact none child among ((child_contains_iff nested ends among).mp there)
  -- A null answer leaves the event with the root itself.
  exact if_pos search

omit nested in
/-- The widget that is asked first is offered the event. -/
theorem offered_first (handle : EventHandlers)
    (inside : uiRectContains (heap tree.value).absoluteBounds event.x event.y = true) {widget : Nat}
    (asked : ∀ fuel other, eventTarget heap event fuel tree.value = .ok other → other = widget)
    (handler : (heap widget).onEvent ≠ 0) : Offered handle heap tree.value event widget := by
  -- With a turn for each child, and one for the end of the list, the search ends.
  obtain ⟨child, ran⟩ := @childAt_enough heap event _ _ (tree.children.length + 1) screen.linked
    (by rw [List.length_map]; exact Nat.lt_succ_self _)
  have found : eventTarget heap event (tree.children.length + 1) tree.value =
      .ok (if child = 0 then tree.value else child) := bind_eq_ok.mpr ⟨child, ran, rfl⟩
  rw [← asked _ _ found] at handler ⊢
  refine ⟨tree.children.length + 2, ?_⟩
  rw [uiPostEvent, postEventLoop_inside screen.real inside found, if_pos handler]
  exact Traced.mem_bind List.mem_cons_self

/-- With handlers that turn every event down, a child with the point is the only widget that may be asked. -/
theorem turnDown_offers {fuel : Nat} {child : RoseTree Nat} (ends : (heap tree.value).absoluteBounds.Ends)
    (inside : uiRectContains (heap tree.value).absoluteBounds event.x event.y = true) (among : child ∈ tree.children)
    (there : (event.x, event.y) ∈ widgetRegion heap child.value) :
    ∀ widget ∈ (postEventLoop turnDown event fuel tree.value heap).1, widget = child.value := by
  -- The siblings behind the child do not contain the point.
  have behind : ∀ fuel, (postEventLoop turnDown event fuel (heap child.value).next heap).1 = [] := by
    intro fuel
    obtain ⟨front, back, parts⟩ := List.append_of_mem among
    have linked := screen.linked
    have apart := nested.apart
    rw [parts, List.map_append, List.map_cons] at linked
    rw [parts] at apart
    refine postEventLoop_siblings linked.behind fun widget listed also => ?_
    obtain ⟨other, later, rfl⟩ := List.mem_map.mp listed
    have member : other ∈ tree.children := by
      rw [parts]
      exact List.mem_append_right _ (List.mem_cons_of_mem _ later)
    have disjoint := (List.pairwise_cons.mp (List.pairwise_append.mp apart).2.1).1 other later
    exact Set.disjoint_left.mp disjoint there ((child_contains_iff nested ends member).mp also)
  -- The log has the child first, and then what the siblings behind it are offered.
  intro widget offered
  cases fuel with
  | zero => exact absurd offered List.not_mem_nil
  | succ fuel =>
    cases found : eventTarget heap event fuel tree.value with
    | error halt =>
      rw [postEventLoop_stopped screen.real inside found] at offered
      exact absurd offered List.not_mem_nil
    | ok asked =>
      obtain rfl := eventTarget_child screen nested ends among there found
      rw [postEventLoop_inside screen.real inside found] at offered
      split_ifs at offered with handler
      · rw [Traced.bind_ok (show (offerEvent turnDown event child.value heap).2 = .ok (false, heap) from rfl)]
          at offered
        rcases List.mem_append.mp offered with first | later
        · exact List.mem_singleton.mp first
        · rw [if_neg Bool.false_ne_true,
            Traced.bind_ok (show (Traced.look heap : List Nat × _).2 = .ok (heap, heap) from rfl), behind] at later
          exact absurd later List.not_mem_nil
      · rw [behind] at offered
        exact absurd offered List.not_mem_nil

/--
An event is offered to the innermost widget around its point just when that is the root or a child of the root, or
has no handler.

The loop goes down one level only, and goes on with the siblings of the widget that it asked.
-/
theorem event_offered_iff (alone : (heap tree.value).next = 0) :
    (∀ handle depth part, Deepest (widgetRegion heap) (event.x, event.y) tree depth part →
        (heap part.value).onEvent ≠ 0 → Offered handle heap tree.value event part.value) ↔
      EventReaches heap tree event := by
  constructor
  · intro every depth part innermost handler
    -- Handlers that turn everything down never end the loop, and even then no widget this deep is asked.
    obtain ⟨fuel, offered⟩ := every turnDown depth part innermost handler
    rw [uiPostEvent] at offered
    have within := (nested.within innermost.below).2 innermost.inside
    have ends : (heap tree.value).absoluteBounds.Ends := by
      by_contra wraps
      -- A root that wraps does not contain the point for the code, and has no siblings.
      have single : Visits (nextOf heap) tree.value [tree.value] := ⟨rfl, screen.real, alone⟩
      rw [postEventLoop_siblings single] at offered
      · exact absurd offered List.not_mem_nil
      · intro widget listed contains
        rw [List.mem_singleton.mp listed] at contains
        exact wraps (uiRectContains_iff.mp contains).1
    refine ⟨?_, ends⟩
    by_contra deep
    obtain ⟨more, rfl⟩ : ∃ more, depth = more + 1 + 1 := ⟨depth - 2, by omega⟩
    obtain ⟨child, among, there, below⟩ := innermost.inChild nested
    have same := turnDown_offers screen nested ends (uiRectContains_iff.mpr ⟨ends, within⟩) among there _ offered
    -- A widget below the child is another one.
    have whole := screen.child among
    have smaller := below.smaller
    rw [(whole.within below).unique whole same] at smaller
    omega
  · intro reaches handle depth part innermost handler
    obtain ⟨shallow, ends⟩ := reaches depth part innermost handler
    have within := (nested.within innermost.below).2 innermost.inside
    have inside := uiRectContains_iff.mpr ⟨ends, within⟩
    refine offered_first screen handle inside (fun fuel other found => ?_) handler
    rcases Nat.le_one_iff_eq_zero_or_eq_one.mp shallow with rfl | rfl
    · -- Around the point there is no child: the root is asked.
      obtain ⟨rfl, none⟩ := innermost.no_child
      exact eventTarget_root screen nested ends none found
    · -- There is a child, and it is the innermost one.
      obtain ⟨child, among, there, below⟩ := innermost.inChild nested
      cases below
      exact eventTarget_child screen nested ends among there found

end

/-- Three widgets inside each other, of which the innermost one has a handler. -/
def nestedWidgets : WidgetHeap := fun widget =>
  { newWidget 0 ⟨0, 0, UInt32.ofNat (8 - 2 * widget), 4⟩ with
    children := if widget = 1 then 2 else if widget = 2 then 3 else 0
    onEvent := if widget = 3 then 7 else 0 }

/-- A press of a button on the innermost widget. -/
def innerPress : UiEvent := ⟨.mouseDown, 1, 1, 1, 0, false⟩

/-- Each of the widgets lies inside the one before. -/
theorem nestedWidgets_within (widget : Nat) (few : widget < 3) :
    widgetRegion nestedWidgets (widget + 1) ⊆ widgetRegion nestedWidgets widget := by
  rintro ⟨px, py⟩ ⟨⟨left, right⟩, top, bottom⟩
  refine ⟨⟨left, ?_⟩, top, bottom⟩
  -- Each widget is two pixels narrower than the one around it.
  have wider : ∀ widget < 3, (UInt32.ofNat (8 - 2 * (widget + 1))).toNat ≤ (UInt32.ofNat (8 - 2 * widget)).toNat := by
    decide
  exact Nat.lt_of_lt_of_le right (Nat.add_le_add_left (wider widget few) _)

/-- The tree of the two inner widgets. -/
theorem innerWidgets_tree : Represents nestedWidgets (.node 2 [.node 3 []]) ∧
    Nested (widgetRegion nestedWidgets) (.node 2 [.node 3 []]) := by
  have leaf : Represents nestedWidgets (.node 3 []) := .node (by decide) rfl fun _ none => absurd none List.not_mem_nil
  have alone : Nested (widgetRegion nestedWidgets) (.node 3 []) :=
    .node (fun _ none => absurd none List.not_mem_nil) .nil fun _ none => absurd none List.not_mem_nil
  -- The innermost widget has no children; its parent contains it and nothing else.
  constructor
  · refine .node (by decide) ⟨rfl, by decide, rfl⟩ fun child among => ?_
    rw [List.mem_singleton.mp among]
    exact leaf
  · refine .node (fun child among => ?_) (List.pairwise_singleton _ _) fun child among => ?_
    · rw [List.mem_singleton.mp among]
      exact nestedWidgets_within 2 (by decide)
    · rw [List.mem_singleton.mp among]
      exact alone

/-- The press is on the innermost widget, which lies one level below the root of this tree. -/
theorem innerPress_deepest :
    Deepest (widgetRegion nestedWidgets) (innerPress.x, innerPress.y) (.node 2 [.node 3 []]) 1 (.node 3 []) := by
  -- Below widget 2 stands only widget 3, so no widget containing the point lies deeper.
  refine ⟨.under List.mem_cons_self .here, ⟨by decide, by decide⟩, fun level other below _ => ?_⟩
  cases below with
  | here => decide
  | under among below =>
    obtain rfl := List.mem_singleton.mp among
    cases below with
    | here => exact Nat.le_refl 1
    | under among _ => exact absurd among List.not_mem_nil

/-- Below a root that is its parent the innermost widget is offered the press. -/
theorem press_below_root : Offered turnDown nestedWidgets 2 innerPress 3 := by
  -- From the inner root the grandchild is a child, so it is the one asked.
  obtain ⟨screen, nested⟩ := innerWidgets_tree
  refine (@event_offered_iff nestedWidgets _ innerPress screen nested rfl).mpr ?_ turnDown 1 (.node 3 [])
    innerPress_deepest (by decide)
  intro depth part innermost _
  exact ⟨innerPress_deepest.deepest depth part innermost.below innermost.inside, by decide⟩

/-- One level further down it is not. -/
theorem press_two_levels_down :
    ¬ ∀ (heap : WidgetHeap) (tree : RoseTree Nat) (event : UiEvent) (handle : EventHandlers), Represents heap tree →
      Nested (widgetRegion heap) tree → (heap tree.value).next = 0 →
      ∀ depth part, Deepest (widgetRegion heap) (event.x, event.y) tree depth part →
        (heap part.value).onEvent ≠ 0 → Offered handle heap tree.value event part.value := by
  intro claim
  -- The pressed point lies in all three boxes, and the deepest is the grandchild.
  obtain ⟨inner, around⟩ := innerWidgets_tree
  have screen : Represents nestedWidgets (.node 1 [.node 2 [.node 3 []]]) := by
    refine .node (by decide) ⟨rfl, by decide, rfl⟩ fun child among => ?_
    rw [List.mem_singleton.mp among]
    exact inner
  have nested : Nested (widgetRegion nestedWidgets) (.node 1 [.node 2 [.node 3 []]]) := by
    refine .node (fun child among => ?_) (List.pairwise_singleton _ _) fun child among => ?_
    · rw [List.mem_singleton.mp among]
      exact nestedWidgets_within 1 (by decide)
    · rw [List.mem_singleton.mp among]
      exact around
  -- Two levels down: the path through widget 2 is the only one that leads further.
  have deepest : Deepest (widgetRegion nestedWidgets) (innerPress.x, innerPress.y)
      (.node 1 [.node 2 [.node 3 []]]) 2 (.node 3 []) := by
    refine ⟨.under List.mem_cons_self innerPress_deepest.below, innerPress_deepest.inside,
      fun level other below there => ?_⟩
    cases below with
    | here => decide
    | under among below =>
      obtain rfl := List.mem_singleton.mp among
      exact Nat.succ_le_succ (innerPress_deepest.deepest _ other below there)
  obtain ⟨fuel, offered⟩ := claim _ _ innerPress turnDown screen nested rfl 2 _ deepest (by decide)
  -- Handlers that turn the press down show who is asked: the child of the root, and nobody below it.
  have asked :=
    turnDown_offers screen nested (by decide) (by decide) List.mem_cons_self ⟨by decide, by decide⟩ 3 offered
  exact absurd asked (by decide)

end MiraOS
