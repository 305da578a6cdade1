import MiraOS.Ui.WidgetHistories

/-! Which widgets of ui/ui.c are painted, and in which order. -/

namespace MiraOS

open Machine

/-- What the painting handlers do: from the handler and the widget to the widgets after it. -/
abbrev PaintHandlers : Type := Nat → Nat → WidgetHeap → WidgetHeap

/-- The memory of the widgets, and the widgets that were painted, one after another. -/
structure Painting where
  heap : WidgetHeap
  painted : List Nat

/-- Call the painting handler of a widget. -/
def Painting.call (state : Painting) (paint : PaintHandlers) (widget : Nat) : Painting :=
  ⟨paint (state.heap widget).onPaint widget state.heap, state.painted ++ [widget]⟩

mutual

/-- Paint a widget behind its children, if it is visible. -/
def uiPaintWidget (paint : PaintHandlers) : Nat → Nat → Painting → Except Halt Painting
  | 0, _, _ => .error .outOfFuel
  | fuel + 1, widget, state =>
    if widget = 0 ∨ (state.heap widget).visible = false then .ok state
    else do
      let state ← paintChildren paint fuel (state.heap widget).children state
      -- The handlers of the children have run by now.
      return if (state.heap widget).onPaint ≠ 0 then state.call paint widget else state

/-- Paint the widgets from a child on. -/
def paintChildren (paint : PaintHandlers) : Nat → Nat → Painting → Except Halt Painting
  | 0, _, _ => .error .outOfFuel
  | fuel + 1, child, state =>
    if child = 0 then .ok state
    else do
      let state ← uiPaintWidget paint fuel child state
      paintChildren paint fuel (state.heap child).next state

end

/-- Two widgets are the same for painting. -/
structure SamePaint (one two : UiWidget) : Prop where
  children : two.children = one.children
  next : two.next = one.next
  visible : two.visible = one.visible
  onPaint : two.onPaint = one.onPaint

theorem SamePaint.trans {one two three : UiWidget} (first : SamePaint one two) (second : SamePaint two three) :
    SamePaint one three :=
  ⟨second.children.trans first.children, second.next.trans first.next, second.visible.trans first.visible,
    second.onPaint.trans first.onPaint⟩

/-- Handlers that leave alone what painting goes by. -/
def OnlyPaints (paint : PaintHandlers) : Prop :=
  ∀ handler widget heap other, SamePaint (heap other) (paint handler widget heap other)

/-- The children that are painted with a widget: those of a visible one. -/
def shownKids (heap : WidgetHeap) (kids : Nat → List Nat) (widget : Nat) : List Nat :=
  if (heap widget).visible then kids widget else []

mutual

/-- The widgets of a tree that are painted. -/
def paintedIn (heap : WidgetHeap) : RoseTree Nat → List Nat
  | .node widget children =>
    if (heap widget).visible then
      paintedAmong heap children ++ if (heap widget).onPaint ≠ 0 then [widget] else []
    else []

/-- The widgets of several trees that are painted. -/
def paintedAmong (heap : WidgetHeap) : List (RoseTree Nat) → List Nat
  | [] => []
  | tree :: rest => paintedIn heap tree ++ paintedAmong heap rest

end

section

variable {heap : WidgetHeap} {paint : PaintHandlers} {tree : RoseTree Nat}

/-- Painting the widgets from a child on, when each of them can be painted. -/
theorem paintChildren_settles {children : List (RoseTree Nat)} {child : Nat}
    (linked : Visits (nextOf heap) child (children.map RoseTree.value))
    (each : ∀ tree ∈ children, ∀ state : Painting, (∀ other, SamePaint (heap other) (state.heap other)) →
      ∃ after : WidgetHeap, (∀ other, SamePaint (heap other) (after other)) ∧
        Settles (fun fuel => uiPaintWidget paint fuel tree.value state) ⟨after, state.painted ++ paintedIn heap tree⟩)
    (state : Painting) (same : ∀ other, SamePaint (heap other) (state.heap other)) :
    ∃ after : WidgetHeap, (∀ other, SamePaint (heap other) (after other)) ∧
      Settles (fun fuel => paintChildren paint fuel child state)
        ⟨after, state.painted ++ paintedAmong heap children⟩ := by
  induction children generalizing child state with
  | nil =>
    obtain rfl : child = 0 := linked
    refine ⟨state.heap, same, Settles.after 1 fun fuel => ?_⟩
    rw [paintChildren, if_pos rfl, paintedAmong, List.append_nil]
  | cons first rest ih =>
    obtain ⟨rfl, real, behind⟩ := linked
    -- The first widget is painted, and its link to the next one is still there.
    obtain ⟨middle, kept, ran⟩ := each first List.mem_cons_self state same
    have link : (middle first.value).next = nextOf heap first.value := (kept first.value).next
    obtain ⟨after, final, ends⟩ := ih behind (fun tree among => each tree (List.mem_cons_of_mem _ among))
      ⟨middle, state.painted ++ paintedIn heap first⟩ kept
    refine ⟨after, final, ?_⟩
    have turn : ∀ fuel, paintChildren paint (fuel + 1) first.value state =
        uiPaintWidget paint fuel first.value state >>= fun state =>
          paintChildren paint fuel (state.heap first.value).next state := by
      intro fuel
      rw [paintChildren, if_neg real]
    rw [paintedAmong, ← List.append_assoc]
    apply Settles.later turn
    rw [← link] at ends
    exact ran.bind ends

/-- Painting a tree of widgets. -/
theorem uiPaintWidget_settles (only : OnlyPaints paint) (represents : Represents heap tree) (state : Painting)
    (same : ∀ other, SamePaint (heap other) (state.heap other)) :
    ∃ after : WidgetHeap, (∀ other, SamePaint (heap other) (after other)) ∧
      Settles (fun fuel => uiPaintWidget paint fuel tree.value state)
        ⟨after, state.painted ++ paintedIn heap tree⟩ := by
  induction tree using RoseTree.fromChildren generalizing state with
  | node widget children ih =>
    obtain ⟨real, linked, each⟩ := represents
    rw [paintedIn]
    by_cases visible : (heap widget).visible
    · -- The children come first, and then the widget if it has a handler.
      rw [← (same widget).children] at linked
      obtain ⟨middle, kept, ran⟩ := paintChildren_settles linked
        (fun tree among => ih tree among (each tree among)) state same
      have shown : ¬ (widget = 0 ∨ (state.heap widget).visible = false) := by
        rw [(same widget).visible, visible]
        simp [real]
      have turn : ∀ fuel, uiPaintWidget paint (fuel + 1) widget state =
          paintChildren paint fuel (state.heap widget).children state >>= fun state =>
            pure (if (state.heap widget).onPaint ≠ 0 then state.call paint widget else state) := by
        intro fuel
        rw [uiPaintWidget, if_neg shown]
      have handler := (kept widget).onPaint
      rw [if_pos visible, ← List.append_assoc]
      -- With a handler the widget is painted last, and otherwise nothing is added.
      by_cases some : (heap widget).onPaint ≠ 0
      · refine ⟨paint (middle widget).onPaint widget middle,
          fun other => (kept other).trans (only (middle widget).onPaint widget middle other), ?_⟩
        apply Settles.later turn
        refine ran.bind (Settles.now fun _ => ?_)
        rw [if_pos some, if_pos (handler ▸ some)]
        rfl
      · refine ⟨middle, kept, ?_⟩
        apply Settles.later turn
        refine ran.bind (Settles.now fun _ => ?_)
        rw [if_neg some, if_neg (handler ▸ some), List.append_nil]
        rfl
    · -- A hidden widget hides everything below it.
      refine ⟨state.heap, same, Settles.after 1 fun fuel => ?_⟩
      have hidden : (state.heap widget).visible = false := by
        rw [(same widget).visible]
        exact Bool.eq_false_iff.mpr visible
      rw [RoseTree.value, uiPaintWidget, if_pos (.inr hidden), if_neg visible, List.append_nil]

/-- A widget of one of several trees is painted. -/
theorem mem_paintedAmong {trees : List (RoseTree Nat)} {widget : Nat} :
    widget ∈ paintedAmong heap trees ↔ ∃ tree ∈ trees, widget ∈ paintedIn heap tree := by
  -- Induction on the trees.
  induction trees with
  | nil => simp [paintedAmong]
  | cons tree rest ih => simp [paintedAmong, ih]

/-- The widgets that are painted are those with a handler that are visible with everything above them. -/
theorem mem_paintedIn {kids : Nat → List Nat} (grows : Unfolds kids tree) {widget : Nat} :
    widget ∈ paintedIn heap tree ↔
      Descends (shownKids heap kids) tree.value widget ∧ (heap widget).visible ∧ (heap widget).onPaint ≠ 0 := by
  induction tree using RoseTree.fromChildren with
  | node value children ih =>
    obtain ⟨shown, each⟩ := grows
    rw [paintedIn, descends_iff, RoseTree.value]
    by_cases visible : (heap value).visible
    · have same : shownKids heap kids value = children.map RoseTree.value := by
        rw [shownKids, if_pos visible, shown]
      rw [if_pos visible, List.mem_append, mem_paintedAmong, same]
      -- Below the widget the children answer, by the induction.
      have children : (∃ tree ∈ children, widget ∈ paintedIn heap tree) ↔
          (∃ child ∈ children.map RoseTree.value, Descends (shownKids heap kids) child widget) ∧
            (heap widget).visible ∧ (heap widget).onPaint ≠ 0 := by
        simp only [List.mem_map, exists_exists_and_eq_and]
        constructor
        · rintro ⟨tree, among, inside⟩
          obtain ⟨below, rest⟩ := (ih tree among (each tree among)).mp inside
          exact ⟨⟨tree, among, below⟩, rest⟩
        · rintro ⟨⟨tree, among, below⟩, rest⟩
          exact ⟨tree, among, (ih tree among (each tree among)).mpr ⟨below, rest⟩⟩
      -- The widget itself is painted if it has a handler.
      have own : (widget ∈ if (heap value).onPaint ≠ 0 then [value] else []) ↔
          widget = value ∧ (heap value).onPaint ≠ 0 := by
        split_ifs with some <;> simp [some]
      rw [children, own]
      constructor
      · rintro (⟨below, rest⟩ | ⟨rfl, some⟩)
        · exact ⟨.inr below, rest⟩
        · exact ⟨.inl rfl, visible, some⟩
      · rintro ⟨rfl | below, rest⟩
        · exact .inr ⟨rfl, rest.2⟩
        · exact .inl ⟨below, rest⟩
    · -- Below a hidden widget nothing is shown, and the widget itself is not.
      rw [if_neg visible]
      refine iff_of_false List.not_mem_nil ?_
      rintro ⟨rfl | ⟨child, among, -⟩, rest⟩
      · exact visible rest.1
      · rw [shownKids, if_neg visible] at among
        cases among

/-- The widgets that are painted are nodes of the tree in its order. -/
theorem paintedIn_sublist (heap : WidgetHeap) (tree : RoseTree Nat) :
    List.Sublist (paintedIn heap tree) tree.postorder := by
  -- Induction on the tree: an invisible widget paints nothing below itself.
  induction tree using RoseTree.fromChildren with
  | node value children ih =>
    rw [paintedIn, RoseTree.postorder]
    by_cases visible : (heap value).visible
    · rw [if_pos visible]
      -- The children paint in the order the walk visits them.
      have below : List.Sublist (paintedAmong heap children) (postorders children) := by
        clear visible
        induction children with
        | nil => exact List.Sublist.slnil
        | cons first rest more =>
          exact (ih first List.mem_cons_self).append (more fun tree among => ih tree (List.mem_cons_of_mem _ among))
      apply below.append
      split_ifs
      · exact List.Sublist.refl _
      · exact List.nil_sublist _
    · rw [if_neg visible]
      exact List.nil_sublist _

/-- Links in both directions are links in one. -/
theorem twoWay_visits {next prev : Nat → Nat} {before : Nat} {nodes : List Nat}
    (linked : TwoWay next prev 0 before nodes) (solid : 0 ∉ nodes) : Visits next (nodes.headD 0) nodes := by
  -- Induction on the list: the forward links alone lead through it.
  induction nodes generalizing before with
  | nil => rfl
  | cons node rest ih =>
    obtain ⟨-, forward, others⟩ := linked
    refine ⟨rfl, fun none => solid (none ▸ List.mem_cons_self), ?_⟩
    rw [forward]
    exact ih others fun among => solid (List.mem_cons_of_mem _ among)

/-- A planted tree is the one that the links represent. -/
theorem Planted.represents (planted : Planted heap tree) : Represents heap tree := by
  -- The links in both directions lead through the children once.
  induction planted with
  | node real first list _ _ each =>
    refine .node real ?_ each
    rw [first]
    exact twoWay_visits list.linked list.solid

/--
Painting from a widget on paints, over every history, exactly the widgets below it that have a handler and are
visible with everything above them, each once and children in front of their parents.
-/
theorem paints_visible_once (only : OnlyPaints paint) {acts : List WidgetAct} {last : Widgets}
    (run : Run WidgetChange ⟨heap, []⟩ acts last) {widget : Nat} (member : widget ∈ last.live) :
    ∃ after painted, Settles (fun fuel => uiPaintWidget paint fuel widget ⟨last.heap, []⟩) ⟨after, painted⟩ ∧
      (∀ other, other ∈ painted ↔ Descends (shownKids last.heap (familyAfter acts).kids) widget other ∧
        (last.heap other).visible ∧ (last.heap other).onPaint ≠ 0) ∧
      painted.Pairwise fun earlier later => ¬ Descends (familyAfter acts).kids earlier later := by
  have mirrors := history_mirrors run (nothing_mirrors heap)
  have family := mirrors.shows.family mirrors.rooted
  -- The history leaves the widget at the root of a tree of the family, which the heap represents.
  obtain ⟨tree, rfl, grows⟩ := family.exists_tree member
  have represents := (mirrors.shows.planted grows member).represents
  obtain ⟨after, -, settles⟩ :=
    uiPaintWidget_settles only represents ⟨last.heap, []⟩ fun other => ⟨rfl, rfl, rfl, rfl⟩
  refine ⟨after, _, settles, fun other => ?_, ?_⟩
  · rw [List.nil_append]
    exact mem_paintedIn grows
  · -- A widget is painted after everything below it, as it is visited.
    exact (family.postorder_pairwise grows member).sublist (paintedIn_sublist last.heap tree)

/-- Two widgets with handlers are painted one after the other. -/
theorem nested_widgets_painted : ∃ last : Widgets, last.live = [2, 1] ∧ ∃ after painted,
    Settles (fun fuel => uiPaintWidget (fun _ _ heap => heap) fuel 1 ⟨last.heap, []⟩) ⟨after, painted⟩ := by
  obtain ⟨last, run, live⟩ := nested_run
  have only : OnlyPaints fun _ _ heap => heap := fun _ _ _ _ => ⟨rfl, rfl, rfl, rfl⟩
  -- Handlers that leave the widgets alone are among those that only paint.
  obtain ⟨after, painted, settles, -⟩ := paints_visible_once only run (show 1 ∈ last.live by rw [live]; decide)
  exact ⟨last, live, after, painted, settles⟩

end

end MiraOS
