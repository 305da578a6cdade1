import MiraOS.Machine.Histories
import MiraOS.Ui.Widgets

/-! The absolute bounds of the widgets of ui/ui.c over whole histories. -/

namespace MiraOS

open Machine

/-- Every widget lies where its own bounds and those of its ancestors put it. -/
def Widgets.Follow (widgets : Widgets) : Prop :=
  ∀ widget ∈ widgets.live, ∀ ancestors,
    Visits (parentOf widgets.heap) (widgets.heap widget).parent ancestors → ∀ axis,
      (widgets.heap widget).absoluteBounds.along axis =
        (widgets.heap widget).bounds.along axis + originSum widgets.heap axis ancestors

/-- The pointers of a use are those of widgets or none; memory for a widget is not in use; a child that is
attached has no parent and is not among the new parent and its ancestors. -/
def WidgetUse.Allowed (widgets : Widgets) : WidgetUse → Prop
  | .create parent _ widget => (parent = 0 ∨ parent ∈ widgets.live) ∧ widget ∉ widgets.live
  | .addChild parent child =>
    (parent = 0 ∨ parent ∈ widgets.live) ∧ (child = 0 ∨ child ∈ widgets.live) ∧
      (child ≠ 0 → (widgets.heap child).parent = 0) ∧
      ∀ ancestors, Visits (parentOf widgets.heap) parent ancestors → child ∉ ancestors
  | .removeChild _ child => child = 0 ∨ child ∈ widgets.live

/-- A use that the code allows and comes back from. -/
def WidgetCall (widgets : Widgets) (use : WidgetUse) (after : Widgets) : Prop :=
  use.Allowed widgets ∧ Settles (fun fuel => widgetStep fuel widgets use) after

/-- A use that keeps the places right: a child that is taken off, or that is attached with children of its
own, has a parent at the origin of the screen. -/
def WidgetUse.Safe (widgets : Widgets) : WidgetUse → Prop
  | .create .. => True
  | .addChild parent child =>
    parent = 0 ∨ child = 0 ∨ (∀ widget ∈ widgets.live, (widgets.heap widget).parent ≠ child) ∨
      ∀ axis, (widgets.heap parent).absoluteBounds.along axis = 0
  | .removeChild parent child =>
    parent = 0 ∨ child = 0 ∨ (widgets.heap child).parent ≠ parent ∨
      ∀ axis, (widgets.heap parent).absoluteBounds.along axis = 0

/-- The parents of every widget lead over widgets to the root. -/
structure Widgets.Rooted (widgets : Widgets) : Prop where
  real : 0 ∉ widgets.live
  rooted : ∀ widget ∈ widgets.live, ∃ line, Visits (parentOf widgets.heap) widget line ∧
    ∀ other ∈ line, other ∈ widgets.live

section

variable {heap after : WidgetHeap} {live : List Nat} {child parent : Nat} {distance : Axis → UInt32}
  {old new : List Nat}

/-- The line of a widget starts with itself. -/
theorem Widgets.Rooted.line (rooted : Widgets.Rooted ⟨heap, live⟩) {widget : Nat} (member : widget ∈ live) :
    ∃ ancestors, Visits (parentOf heap) widget (widget :: ancestors) ∧
      Visits (parentOf heap) (heap widget).parent ancestors ∧
      widget ∈ live ∧ ∀ other ∈ ancestors, other ∈ live := by
  obtain ⟨line, linked, lives⟩ := rooted.rooted widget member
  -- A widget is not the null pointer, so its line is not empty.
  obtain ⟨ancestors, rfl, above⟩ := linked.cons_of_ne fun none => rooted.real (none ▸ member)
  exact ⟨ancestors, linked, above, member, fun other among => lives other (List.mem_cons_of_mem _ among)⟩

/-- A widget that follows lies at the sum of the origins of its line. -/
theorem Widgets.Follow.line (follow : Widgets.Follow ⟨heap, live⟩) {widget : Nat} (member : widget ∈ live)
    {line : List Nat} (linked : Visits (parentOf heap) widget line) (some : widget ≠ 0) (axis : Axis) :
    (heap widget).absoluteBounds.along axis = originSum heap axis line := by
  -- The line of a widget starts with the widget itself.
  obtain ⟨ancestors, rfl, above⟩ := linked.cons_of_ne some
  exact follow widget member ancestors above axis

/-- The links to other parents than that of the child stay. -/
theorem Relinked.links (relinked : Relinked heap after child parent distance) (widget : Nat)
    (apart : widget ≠ child) : parentOf after widget = parentOf heap widget :=
  (relinked.others widget apart).parent

/-- Widgets follow when each lies at the sum of the origins of its line. -/
theorem follow_iff_lines (real : 0 ∉ live) :
    Widgets.Follow ⟨heap, live⟩ ↔ ∀ widget ∈ live, ∀ line, Visits (parentOf heap) widget line →
      ∀ axis, (heap widget).absoluteBounds.along axis = originSum heap axis line := by
  -- A line is the widget in front of its ancestors, and the sum over it starts with its own origin.
  constructor
  · intro follow widget member line linked
    exact follow.line member linked fun none => real (none ▸ member)
  · intro lines widget member ancestors linked
    exact lines widget member (widget :: ancestors) ⟨rfl, fun none => real (none ▸ member), linked⟩

section

variable (rooted : Widgets.Rooted ⟨heap, live⟩) (member : child ∈ live)
  (relinked : Relinked heap after child parent distance)
  (before : Visits (parentOf heap) (heap child).parent old) (behind : Visits (parentOf after) parent new)

include relinked before behind

/-- The line of a widget after a child got another parent. -/
theorem Relinked.line {widget : Nat} {line : List Nat} (linked : Visits (parentOf heap) widget line) :
    (child ∉ line ∧ Visits (parentOf after) widget line) ∨
      ∃ front, line = front ++ child :: old ∧ Visits (parentOf after) widget (front ++ child :: new) := by
  -- Behind the child the line is the one of its new parent.
  refine linked.relink before ?_ relinked.links
  rw [parentOf, relinked.parent]
  exact behind

include rooted member

/-- The widgets are rooted as before, if the new ancestors are widgets. -/
theorem Relinked.keepsRoots (lives : ∀ other ∈ new, other ∈ live) : Widgets.Rooted ⟨after, live⟩ := by
  refine ⟨rooted.real, fun widget listed => ?_⟩
  obtain ⟨line, linked, inside⟩ := rooted.rooted widget listed
  -- A line that passes the child goes on over the new ancestors.
  rcases relinked.line before behind linked with ⟨-, same⟩ | ⟨front, rfl, other⟩
  · exact ⟨line, same, inside⟩
  · refine ⟨_, other, fun ancestor among => ?_⟩
    rcases List.mem_append.mp among with early | late
    · exact inside ancestor (List.mem_append_left _ early)
    · rcases List.mem_cons.mp late with rfl | above
      · exact member
      · exact lives ancestor above

/-- After a child got another parent, the places are right exactly when its own move and the place that its
descendants keep both match the change of its ancestors. -/
theorem Relinked.follow_iff (follow : Widgets.Follow ⟨heap, live⟩) :
    Widgets.Follow ⟨after, live⟩ ↔ ∀ axis,
      originSum heap axis old + distance axis = originSum heap axis new ∧
        ((∃ widget ∈ live, widget ≠ child ∧ ∃ line, Visits (parentOf heap) widget line ∧ child ∈ line) →
          originSum heap axis old = originSum heap axis new) := by
  -- Bounds do not change, so a sum of origins is the same before and after.
  have sums : ∀ line axis, originSum after axis line = originSum heap axis line := fun line axis =>
    originSum_congr (fun widget _ => relinked.bounds_all widget) axis
  have lines := (follow_iff_lines rooted.real).mp follow
  have real : child ≠ 0 := fun none => rooted.real (none ▸ member)
  have own : Visits (parentOf heap) child (child :: old) := ⟨rfl, real, before⟩
  have ownAfter : Visits (parentOf after) child (child :: new) := by
    refine ⟨rfl, real, ?_⟩
    rw [parentOf, relinked.parent]
    exact behind
  rw [follow_iff_lines rooted.real]
  constructor
  · intro after axis
    constructor
    · -- The child lies at its old place moved by the distance.
      have place := after child member _ ownAfter axis
      rw [relinked.moved axis, lines child member _ own axis, sums, originSum, originSum,
        UInt32.add_assoc] at place
      exact (UInt32.add_right_inj _).mp place
    · -- A descendant keeps its place while the end of its line is another one.
      rintro ⟨widget, listed, apart, line, linked, among⟩
      rcases relinked.line before behind linked with ⟨absent, -⟩ | ⟨front, rfl, other⟩
      · exact absurd among absent
      · have place := after widget listed _ other axis
        rw [(relinked.others widget apart).absoluteBounds, lines widget listed _ linked axis, sums,
          originSum_append, originSum_append, originSum, originSum] at place
        exact (UInt32.add_right_inj _).mp ((UInt32.add_right_inj _).mp place)
  · intro match_ widget listed line linked axis
    -- The line before the change decides which of the three cases a widget is in.
    obtain ⟨early, earlier, -⟩ := rooted.rooted widget listed
    obtain ⟨moves, keeps⟩ := match_ axis
    rw [sums]
    rcases relinked.line before behind earlier with ⟨absent, same⟩ | ⟨front, rfl, other⟩
    · -- The child is not among the ancestors, and not the widget.
      have apart : widget ≠ child := by
        rintro rfl
        obtain ⟨rest, rfl, -⟩ := earlier.cons_of_ne real
        exact absent List.mem_cons_self
      rw [linked.unique same, (relinked.others widget apart).absoluteBounds]
      exact lines widget listed _ earlier axis
    · rw [linked.unique other]
      by_cases here : widget = child
      · -- The child itself moved.
        rw [here] at other ⊢
        rw [other.unique ownAfter, relinked.moved axis, lines child member _ own axis, originSum, originSum,
          UInt32.add_assoc, moves]
      · -- A descendant has the front of its line as before, and equal sums behind the child.
        have sum := keeps ⟨widget, listed, here, _, earlier, by simp⟩
        rw [(relinked.others widget here).absoluteBounds, lines widget listed _ earlier axis,
          originSum_append, originSum_append, originSum, originSum, sum]

end

/-- A descendant of a widget has a child of the widget among its line. -/
theorem exists_child {next : Nat → Nat} {widget : Nat} {front rest : List Nat}
    (linked : Visits next widget (front ++ child :: rest)) (apart : widget ≠ child) :
    ∃ between ∈ front, next between = child := by
  -- The last widget of the line in front of the widget is its child.
  induction front generalizing widget with
  | nil => exact absurd linked.1 apart
  | cons first more ih =>
    obtain ⟨rfl, -, tail⟩ := linked
    by_cases here : next widget = child
    · exact ⟨widget, List.mem_cons_self, here⟩
    · obtain ⟨between, among, same⟩ := ih tail here
      exact ⟨between, List.mem_cons_of_mem _ among, same⟩

end

section

variable {widgets : Widgets}

/-- Taking a child off its parent keeps the places exactly when the parent is at the origin. -/
theorem removeChild_steps (rooted : widgets.Rooted) {parent child : Nat}
    (allowed : (WidgetUse.removeChild parent child).Allowed widgets) :
    ∃ after, Settles (fun fuel => widgetStep fuel widgets (.removeChild parent child)) after ∧ after.Rooted ∧
      (widgets.Follow → (after.Follow ↔ (WidgetUse.removeChild parent child).Safe widgets)) := by
  obtain ⟨heap, live⟩ := widgets
  refine ⟨_, Settles.now fun _ => rfl, ?_⟩
  dsimp only
  by_cases idle : parent = 0 ∨ child = 0 ∨ (heap child).parent ≠ parent
  · -- Nothing is taken off.
    rw [uiRemoveChild, if_pos idle]
    refine ⟨rooted, fun follow => iff_of_true follow ?_⟩
    rcases idle with none | none | other
    · exact .inl none
    · exact .inr (.inl none)
    · exact .inr (.inr (.inl other))
  · simp only [not_or, not_not] at idle
    obtain ⟨real, given, attached⟩ := idle
    have member : child ∈ live := allowed.resolve_left given
    obtain ⟨old, -, before, -, lives⟩ := rooted.line member
    have relinked := uiRemoveChild_relinked real given attached
    have behind : Visits (parentOf (uiRemoveChild heap parent child)) 0 [] := rfl
    refine ⟨relinked.keepsRoots rooted member before behind fun _ none => absurd none List.not_mem_nil,
      fun follow => ?_⟩
    -- The parent lies at the sum of the origins that the child loses.
    have place : ∀ axis, (heap parent).absoluteBounds.along axis = originSum heap axis old := by
      rw [attached] at before
      obtain ⟨rest, rfl, -⟩ := before.cons_of_ne real
      exact follow.line (lives parent List.mem_cons_self) before real
    -- The child has no ancestors afterwards and is not moved, so the lost sum has to be zero.
    rw [relinked.follow_iff rooted member before behind follow, WidgetUse.Safe]
    simp only [originSum, UInt32.add_zero, place, real, given, attached, ne_eq, not_true_eq_false, false_or]
    exact ⟨fun both axis => (both axis).1, fun zero axis => ⟨zero axis, fun _ => zero axis⟩⟩

/-- Attaching a child keeps the places exactly when it has no children or its parent is at the origin. -/
theorem addChild_steps (rooted : widgets.Rooted) {parent child : Nat}
    (allowed : (WidgetUse.addChild parent child).Allowed widgets) :
    ∃ after, Settles (fun fuel => widgetStep fuel widgets (.addChild parent child)) after ∧ after.Rooted ∧
      (widgets.Follow → (after.Follow ↔ (WidgetUse.addChild parent child).Safe widgets)) := by
  obtain ⟨heap, live⟩ := widgets
  obtain ⟨parentGiven, childGiven, free, apart⟩ := allowed
  dsimp only at parentGiven childGiven free apart
  by_cases idle : parent = 0 ∨ child = 0
  · -- Nothing is attached.
    have same : ∀ fuel, widgetStep fuel ⟨heap, live⟩ (.addChild parent child) = .ok ⟨heap, live⟩ := by
      intro fuel
      rw [widgetStep, uiAddChild, if_pos idle]
      rfl
    refine ⟨_, Settles.now same, rooted, fun follow => iff_of_true follow ?_⟩
    rcases idle with none | none
    · exact .inl none
    · exact .inr (.inl none)
  · rw [not_or] at idle
    obtain ⟨real, given⟩ := idle
    have member : child ∈ live := childGiven.resolve_left given
    have parentMember : parent ∈ live := parentGiven.resolve_left real
    obtain ⟨new, newLinked, lives⟩ := rooted.rooted parent parentMember
    have absent := apart new newLinked
    -- The child had no parent, and its new line is the one of the parent.
    obtain ⟨after, settles, relinked⟩ := uiAddChild_settles real given newLinked absent
    have before : Visits (parentOf heap) (heap child).parent [] := free given
    have behind : Visits (parentOf after) parent new :=
      newLinked.congr fun other among => relinked.links other fun same => absent (same ▸ among)
    refine ⟨⟨after, live⟩, settles.bind (Settles.now fun _ => rfl),
      relinked.keepsRoots rooted member before behind lives, fun follow => ?_⟩
    have place : ∀ axis, (heap parent).absoluteBounds.along axis = originSum heap axis new :=
      follow.line parentMember newLinked real
    rw [relinked.follow_iff rooted member before behind follow, WidgetUse.Safe]
    simp only [originSum, UInt32.zero_add, true_and, place, real, given, false_or]
    -- A widget with the child among its ancestors shows a child of the child, and the other way round.
    have descends : (∃ widget ∈ live, widget ≠ child ∧
        ∃ line, Visits (parentOf heap) widget line ∧ child ∈ line) ↔
        ¬ ∀ widget ∈ live, (heap widget).parent ≠ child := by
      constructor
      · rintro ⟨widget, listed, apart, line, linked, among⟩ none
        obtain ⟨all, whole, inside⟩ := rooted.rooted widget listed
        obtain rfl := linked.unique whole
        obtain ⟨front, rest, rfl⟩ := List.append_of_mem among
        obtain ⟨between, early, same⟩ := exists_child linked apart
        exact none between (inside between (List.mem_append_left _ early)) same
      · intro some
        simp only [ne_eq, not_forall, not_not] at some
        obtain ⟨widget, listed, same⟩ := some
        obtain ⟨ancestors, linked, above, -⟩ := rooted.line listed
        rw [same] at above
        obtain ⟨rest, rfl, -⟩ := above.cons_of_ne given
        refine ⟨widget, listed, ?_, _, linked, by simp⟩
        rintro rfl
        exact given (same.symm.trans (free given))
    simp only [descends]
    -- The child moved with its ancestors; only its own children may be left behind.
    by_cases childless : ∀ widget ∈ live, (heap widget).parent ≠ child
    · exact iff_of_true (fun _ some => absurd childless some) (.inl childless)
    · constructor
      · intro sums
        exact .inr fun axis => (sums axis childless).symm
      · rintro (none | zero) axis _
        · exact absurd none childless
        · exact (zero axis).symm

/-- A widget that is made lies where its bounds and its ancestors put it, and moves no other one. -/
theorem create_steps (rooted : widgets.Rooted) {parent widget : Nat} {bounds : UiRect}
    (allowed : (WidgetUse.create parent bounds widget).Allowed widgets) :
    ∃ after, Settles (fun fuel => widgetStep fuel widgets (.create parent bounds widget)) after ∧ after.Rooted ∧
      (widgets.Follow → (after.Follow ↔ (WidgetUse.create parent bounds widget).Safe widgets)) := by
  obtain ⟨heap, live⟩ := widgets
  obtain ⟨parentGiven, fresh⟩ := allowed
  dsimp only at parentGiven fresh
  by_cases none : widget = 0
  · -- There is no memory for the widget.
    have same : ∀ fuel, widgetStep fuel ⟨heap, live⟩ (.create parent bounds widget) = .ok ⟨heap, live⟩ := by
      intro fuel
      rw [widgetStep, uiCreateWidget, if_pos none]
      rfl
    exact ⟨_, Settles.now same, rooted, fun follow => iff_of_true follow trivial⟩
  · -- The new widget is in nobody's line.
    obtain ⟨ancestors, linked, lives⟩ : ∃ ancestors, Visits (parentOf heap) parent ancestors ∧
        ∀ other ∈ ancestors, other ∈ live := by
      rcases parentGiven with none | member
      · exact ⟨[], none, fun other among => absurd among List.not_mem_nil⟩
      · exact rooted.rooted parent member
    have apart : widget ∉ ancestors := fun among => fresh (lives widget among)
    obtain ⟨after, settles, places, own, up, place⟩ := uiCreateWidget_settles bounds none linked apart
    -- Lines without the new widget have the sums and the links that they had.
    have bounded : ∀ line axis, widget ∉ line → originSum after axis line = originSum heap axis line :=
      fun line axis absent => originSum_congr
        (fun other among => (places other fun same => absent (same ▸ among)).bounds) axis
    have kept : ∀ node line, Visits (parentOf heap) node line → widget ∉ line →
        Visits (parentOf after) node line := fun node line linked absent =>
      linked.congr fun other among => (places other fun same => absent (same ▸ among)).parent
    have newLine : Visits (parentOf after) widget (widget :: ancestors) := by
      refine ⟨rfl, none, ?_⟩
      rw [parentOf, up]
      exact kept parent ancestors linked apart
    have real : 0 ∉ widget :: live := fun zero =>
      (List.mem_cons.mp zero).elim (fun same => none same.symm) rooted.real
    refine ⟨⟨after, widget :: live⟩, ?_, ⟨real, fun other listed => ?_⟩, fun follow => iff_of_true ?_ trivial⟩
    · refine settles.bind (Settles.now fun fuel => ?_)
      dsimp only
      rw [if_neg none]
      rfl
    · -- The line of the new widget is that of its parent behind itself; the others keep theirs.
      rcases List.mem_cons.mp listed with rfl | older
      · refine ⟨_, newLine, fun ancestor among => ?_⟩
        rcases List.mem_cons.mp among with rfl | above
        · exact List.mem_cons_self
        · exact List.mem_cons_of_mem _ (lives ancestor above)
      · obtain ⟨line, linked, inside⟩ := rooted.rooted other older
        exact ⟨line, kept other line linked fun among => fresh (inside widget among),
          fun ancestor among => List.mem_cons_of_mem _ (inside ancestor among)⟩
    · rw [follow_iff_lines real]
      intro other listed line linked axis
      rcases List.mem_cons.mp listed with rfl | older
      · rw [linked.unique newLine, place axis, originSum, own, bounded ancestors axis apart]
      · obtain ⟨early, earlier, inside⟩ := rooted.rooted other older
        have absent : widget ∉ early := fun among => fresh (inside widget among)
        rw [linked.unique (kept other early earlier absent), bounded early axis absent,
          (places other fun same => fresh (same ▸ older)).absoluteBounds]
        exact (follow_iff_lines rooted.real).mp follow other older early earlier axis

/-- Every use that the code allows ends, keeps the widgets rooted and keeps the places exactly when it is
safe. -/
theorem widgetStep_settles (rooted : widgets.Rooted) {use : WidgetUse} (allowed : use.Allowed widgets) :
    ∃ after, Settles (fun fuel => widgetStep fuel widgets use) after ∧ after.Rooted ∧
      (widgets.Follow → (after.Follow ↔ use.Safe widgets)) := by
  -- One lemma for each of the three calls.
  cases use with
  | create parent bounds widget => exact create_steps rooted allowed
  | addChild parent child => exact addChild_steps rooted allowed
  | removeChild parent child => exact removeChild_steps rooted allowed

end

/--
Absolute bounds follow the tree throughout a history exactly when every use is safe.

The place of a widget is added up when it is attached: it keeps the place when it is taken off, and its
children keep theirs when it is attached.
-/
theorem widgets_follow_iff {heap : WidgetHeap} {uses : List WidgetUse} {last : Widgets}
    (run : Run WidgetCall ⟨heap, []⟩ uses last) :
    ((∀ before widgets, before <+: uses → Run WidgetCall ⟨heap, []⟩ before widgets → widgets.Follow) ↔
        ∀ before use widgets, before ++ [use] <+: uses → Run WidgetCall ⟨heap, []⟩ before widgets →
          use.Safe widgets) ∧
      ∀ use : WidgetUse, use.Allowed last → ∃ after, WidgetCall last use after := by
  -- A call has one outcome, however much fuel it is given.
  have certain : ∀ widgets use one two, WidgetCall widgets use one → WidgetCall widgets use two → one = two :=
    fun _ _ _ _ first second => first.2.unique second.2
  have start : Widgets.Rooted ⟨heap, []⟩ :=
    ⟨List.not_mem_nil, fun widget listed => absurd listed List.not_mem_nil⟩
  have empty : Widgets.Follow ⟨heap, []⟩ := fun widget listed => absurd listed List.not_mem_nil
  have kept : ∀ widgets use next, widgets.Rooted → WidgetCall widgets use next → next.Rooted := by
    rintro widgets use next rooted ⟨allowed, settles⟩
    obtain ⟨after, ends, kept, -⟩ := widgetStep_settles rooted allowed
    rwa [settles.unique ends]
  constructor
  · -- Being rooted is kept by every call, and the places by the safe ones.
    refine run_good_iff certain run start empty kept ?_
    rintro widgets use next rooted follow ⟨allowed, settles⟩
    obtain ⟨after, ends, -, right⟩ := widgetStep_settles rooted allowed
    rw [settles.unique ends]
    exact right follow
  · -- A history of allowed uses can go on with every other one.
    intro use allowed
    have rooted := run.preserves Widgets.Rooted (fun here stepped => kept _ _ _ here stepped) start
    obtain ⟨after, ends, -⟩ := widgetStep_settles rooted allowed
    exact ⟨after, allowed, ends⟩

/-- A widget inside another one lies at the sum of their origins. -/
theorem widgets_follow_nested :
    ∃ last, Run WidgetCall ⟨fun _ => newWidget 0 ⟨0, 0, 0, 0⟩, []⟩
        [.create 0 ⟨10, 20, 100, 100⟩ 1, .create 1 ⟨5, 5, 10, 10⟩ 2] last ∧ last.Follow := by
  obtain ⟨last, run⟩ : ∃ last, Run WidgetCall ⟨fun _ => newWidget 0 ⟨0, 0, 0, 0⟩, []⟩
      [.create 0 ⟨10, 20, 100, 100⟩ 1, .create 1 ⟨5, 5, 10, 10⟩ 2] last := by
    exact ⟨_, .cons ⟨⟨.inl rfl, List.not_mem_nil⟩, Settles.now fun _ => rfl⟩ <|
      .cons ⟨⟨.inr List.mem_cons_self, by decide⟩, Settles.after 2 fun _ => rfl⟩ <| .nil _⟩
  -- Making widgets is always safe.
  refine ⟨last, run, (widgets_follow_iff run).1.mpr ?_ _ _ List.prefix_rfl run⟩
  intro before use widgets inside _
  have listed : use ∈ [WidgetUse.create 0 ⟨10, 20, 100, 100⟩ 1, .create 1 ⟨5, 5, 10, 10⟩ 2] :=
    inside.subset (by simp)
  simp only [List.mem_cons, List.not_mem_nil, or_false] at listed
  rcases listed with rfl | rfl
  · trivial
  · trivial

/-- A widget that is taken off its parent stays where the parent had put it. -/
theorem removed_widget_stays :
    ¬ ∀ (heap : WidgetHeap) (uses : List WidgetUse) (last : Widgets),
      Run WidgetCall ⟨heap, []⟩ uses last → last.Follow := by
  intro all
  -- The widget has no parent, and lies at the sum of its origin and the one of its parent before.
  obtain ⟨last, run, listed, free, place⟩ : ∃ last, Run WidgetCall ⟨fun _ => newWidget 0 ⟨0, 0, 0, 0⟩, []⟩
        [.create 0 ⟨10, 20, 100, 100⟩ 1, .create 1 ⟨5, 5, 10, 10⟩ 2, .removeChild 1 2] last ∧
      2 ∈ last.live ∧ (last.heap 2).parent = 0 ∧
      (last.heap 2).absoluteBounds.along .x ≠ (last.heap 2).bounds.along .x + 0 := by
    exact ⟨_, .cons ⟨⟨.inl rfl, List.not_mem_nil⟩, Settles.now fun _ => rfl⟩ <|
      .cons ⟨⟨.inr List.mem_cons_self, by decide⟩, Settles.after 2 fun _ => rfl⟩ <|
      .cons ⟨.inr List.mem_cons_self, Settles.now fun _ => rfl⟩ <| .nil _, by decide, rfl, by decide⟩
  exact place (all _ _ last run 2 listed [] free .x)

end MiraOS
