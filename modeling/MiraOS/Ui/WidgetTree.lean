import MiraOS.Machine.DoublyLinked
import MiraOS.Machine.Families
import MiraOS.Ui.EventRouting
import MiraOS.Ui.WidgetBounds

/-! The ordered children of the widgets of ui/ui.c, and what the links between widgets say of them. -/

namespace MiraOS

open Machine

/-- The links to the siblings before. -/
def prevOf (heap : WidgetHeap) (widget : Nat) : Nat := (heap widget).prev

/-- Two widgets have the same links. -/
structure SameKin (one two : UiWidget) : Prop where
  parent : two.parent = one.parent
  children : two.children = one.children
  next : two.next = one.next
  prev : two.prev = one.prev

theorem SameKin.refl (widget : UiWidget) : SameKin widget widget := ⟨rfl, rfl, rfl, rfl⟩

theorem SameKin.trans {one two three : UiWidget} (first : SameKin one two) (second : SameKin two three) :
    SameKin one three :=
  ⟨second.parent.trans first.parent, second.children.trans first.children, second.next.trans first.next,
    second.prev.trans first.prev⟩

/-- Storing a widget that has the links of the one before keeps all links. -/
theorem sameKin_update {heap : WidgetHeap} {address : Nat} {widget : UiWidget}
    (same : SameKin (heap address) widget) (other : Nat) :
    SameKin (heap other) (Function.update heap address widget other) := by
  -- One widget is written, and it keeps its kin.
  by_cases here : other = address
  · rw [here, Function.update_self]
    exact same
  · rw [Function.update_of_ne here]
    exact .refl _

/--
The links of the widgets in use show the children of each of them.

One widget may be left out: it is on no list, and its links to a parent and to siblings say nothing.
-/
structure Shows (heap : WidgetHeap) (live : List Nat) (kids : Nat → List Nat) (loose : Nat) : Prop where
  real : 0 ∉ live
  listed : ∀ widget ∈ live, DList 0 (nextOf heap) (prevOf heap) (kids widget)
  first : ∀ widget ∈ live, (heap widget).children = (kids widget).headD 0
  kid : ∀ widget ∈ live, ∀ child, child ∈ kids widget ↔ child ∈ live ∧ child ≠ loose ∧ (heap child).parent = widget
  alone : ∀ widget ∈ live, widget ≠ loose → (heap widget).parent = 0 →
    (heap widget).next = 0 ∧ (heap widget).prev = 0

section

variable {heap after : WidgetHeap} {live : List Nat} {kids : Nat → List Nat} {loose parent child : Nat}

/-- Only the links count, and only the children of the widgets in use. -/
theorem Shows.congr {other : Nat → List Nat} (shows : Shows heap live kids loose)
    (same : ∀ widget ∈ live, SameKin (heap widget) (after widget))
    (alike : ∀ widget ∈ live, other widget = kids widget) : Shows after live other loose where
  real := shows.real
  listed widget member := by
    rw [alike widget member]
    -- The children of a widget in use are in use.
    have inside : ∀ child ∈ kids widget, child ∈ live := fun child among => ((shows.kid widget member child).mp among).1
    apply (shows.listed widget member).frame
    · exact fun child among => (same child (inside child among)).next
    · exact fun child among => (same child (inside child among)).prev
  first widget member := by
    rw [alike widget member, (same widget member).children]
    exact shows.first widget member
  kid widget member child := by
    rw [alike widget member, shows.kid widget member child]
    apply and_congr_right
    intro among
    rw [(same child among).parent]
  alone widget member apart := by
    rw [(same widget member).parent, (same widget member).next, (same widget member).prev]
    exact shows.alone widget member apart

/-- The links after a child was put in front of the children of a parent. -/
structure PutFirst (heap after : WidgetHeap) (parent child : Nat) : Prop where
  parents : ∀ widget, (after widget).parent = if widget = child then parent else (heap widget).parent
  childrens : ∀ widget, (after widget).children = if widget = parent then child else (heap widget).children
  nexts : ∀ widget, (after widget).next = if widget = child then (heap parent).children else (heap widget).next
  prevs : ∀ widget, (after widget).prev =
    if widget = (heap parent).children ∧ widget ≠ 0 then child
    else if widget = child then 0 else (heap widget).prev

/-- A field of the widgets after a store. -/
theorem field_update (field : UiWidget → Nat) (heap : WidgetHeap) (address : Nat) (stored : UiWidget) (widget : Nat) :
    field (Function.update heap address stored widget) =
      if widget = address then field stored else field (heap widget) := by
  rw [Function.update_apply]
  exact apply_ite field _ _ _

/-- A field that the stored widget does not change. -/
theorem field_kept (field : UiWidget → Nat) {heap : WidgetHeap} {address : Nat} {stored : UiWidget}
    (same : field stored = field (heap address)) (widget : Nat) :
    field (Function.update heap address stored widget) = field (heap widget) := by
  rw [field_update field, same]
  -- One widget is written, and it keeps the field.
  split_ifs with here
  · rw [here]
  · rfl

/-- Linking a child. -/
theorem linkChild_linked (heap : WidgetHeap) (parent child : Nat) :
    PutFirst heap (linkChild heap parent child) parent child := by
  rw [linkChild]
  dsimp only
  set placed := Function.update heap child
    { heap child with parent := parent, next := (heap parent).children, prev := 0 } with placedIs
  -- The first store writes the parent and the siblings of the child.
  have childrens : ∀ widget, (placed widget).children = (heap widget).children := by
    intro widget
    rw [placedIs, field_kept UiWidget.children]
    rfl
  set chained := if (placed parent).children ≠ 0 then
    Function.update placed (placed parent).children { placed (placed parent).children with prev := child }
    else placed with chainedIs
  -- The second one writes the link back from the child that was the first one.
  have kept : ∀ field : UiWidget → Nat, (∀ widget, field { placed widget with prev := child } = field (placed widget)) →
      ∀ widget, field (chained widget) = field (placed widget) := by
    intro field blind widget
    rw [chainedIs]
    split_ifs
    · exact field_kept field (blind _) widget
    · rfl
  -- The third one writes the first child of the parent.
  refine ⟨fun widget => ?_, fun widget => ?_, fun widget => ?_, fun widget => ?_⟩
  · rw [field_kept UiWidget.parent, kept UiWidget.parent fun _ => rfl, placedIs, field_update UiWidget.parent]
    rfl
  · rw [field_update UiWidget.children, kept UiWidget.children fun _ => rfl, childrens]
  · rw [field_kept UiWidget.next, kept UiWidget.next fun _ => rfl, placedIs, field_update UiWidget.next]
    rfl
  · have back : (placed widget).prev = if widget = child then 0 else (heap widget).prev := by
      rw [placedIs, field_update UiWidget.prev]
    rw [field_kept UiWidget.prev, chainedIs, childrens parent]
    · -- Without a first child there is no link back to write.
      by_cases some : (heap parent).children = 0
      · have none : ¬ (widget = (heap parent).children ∧ widget ≠ 0) := fun both => both.2 (both.1.trans some)
        rw [if_neg (not_not.mpr some), if_neg none, back]
      · rw [if_pos some, field_update UiWidget.prev, back]
        by_cases here : widget = (heap parent).children
        · rw [if_pos here, if_pos ⟨here, here ▸ some⟩]
        · have other : ¬ (widget = (heap parent).children ∧ widget ≠ 0) := fun both => here both.1
          rw [if_neg here, if_neg other]
    · rfl

/-- A child in front of the children of a parent is shown there. -/
theorem Shows.attach (shows : Shows heap live kids child) (linked : PutFirst heap after parent child)
    (above : parent ∈ live) (below : child ∈ live) :
    Shows after live (Function.update kids parent (child :: kids parent)) 0 := by
  have real : child ≠ 0 := fun none => shows.real (none ▸ below)
  have first := shows.first parent above
  -- No list has the child on it, and only one has its first child.
  have absent : ∀ widget ∈ live, child ∉ kids widget := fun widget member among =>
    ((shows.kid widget member child).mp among).2.1 rfl
  have apart : ∀ widget ∈ live, ∀ one ∈ kids widget, one = (heap parent).children → widget = parent := by
    intro widget member one among same
    have some : one ≠ 0 := fun none => (shows.listed widget member).solid (none ▸ among)
    have front : one ∈ kids parent := by
      apply List.mem_of_head?
      rw [head?_eq_some_iff (shows.listed parent above).solid]
      exact ⟨some, same.trans first⟩
    exact ((shows.kid widget member one).mp among).2.2.symm.trans ((shows.kid parent above one).mp front).2.2
  have nexts : ∀ widget ∈ live, ∀ one ∈ kids widget, nextOf after one = nextOf heap one := by
    intro widget member one among
    rw [nextOf, linked.nexts, if_neg]
    · rfl
    · rintro rfl
      exact absent widget member among
  refine ⟨shows.real, ?_, ?_, ?_, ?_⟩
  · intro widget member
    by_cases here : widget = parent
    · -- The child comes in front of the children of the parent.
      subst here
      rw [Function.update_self]
      apply (shows.listed widget member).pushFront (absent widget member) real
      · rw [nextOf, linked.nexts, if_pos rfl, first]
      · rw [prevOf, linked.prevs, if_neg, if_pos rfl]
        rintro ⟨same, -⟩
        have front : child ∈ kids widget := by
          apply List.mem_of_head?
          rw [head?_eq_some_iff (shows.listed widget member).solid]
          exact ⟨real, same.trans first⟩
        exact absent widget member front
      · -- The old first child now has the new one in front of it.
        intro one head
        rw [head?_eq_some_iff (shows.listed widget member).solid] at head
        rw [prevOf, linked.prevs, if_pos ⟨head.2.trans first.symm, head.1⟩]
      · intro one among head
        rw [prevOf, linked.prevs, if_neg, if_neg]
        · rfl
        · rintro rfl
          exact absent widget member among
        · rintro ⟨same, some⟩
          exact head ((head?_eq_some_iff (shows.listed widget member).solid).mpr ⟨some, same.trans first⟩)
      · exact nexts widget member
    · -- The other lists keep their links.
      rw [Function.update_of_ne here]
      apply (shows.listed widget member).frame (nexts widget member)
      intro one among
      rw [prevOf, linked.prevs, if_neg, if_neg]
      · rfl
      · rintro rfl
        exact absent widget member among
      · rintro ⟨same, -⟩
        exact here (apart widget member one among same)
  · intro widget member
    rw [linked.childrens]
    split_ifs with here
    · rw [here, Function.update_self]
      rfl
    · rw [Function.update_of_ne here]
      exact shows.first widget member
  · intro widget member one
    rw [linked.parents]
    have before := shows.kid widget member one
    by_cases own : one = child
    · -- The child is a child of the parent alone.
      subst own
      rw [if_pos rfl]
      by_cases here : widget = parent
      · rw [here, Function.update_self]
        exact iff_of_true List.mem_cons_self ⟨below, real, rfl⟩
      · rw [Function.update_of_ne here]
        exact iff_of_false (absent widget member) fun all => here all.2.2.symm
    · rw [if_neg own]
      have same : one ∈ Function.update kids parent (child :: kids parent) widget ↔ one ∈ kids widget := by
        by_cases here : widget = parent
        · rw [here, Function.update_self, List.mem_cons, or_iff_right own]
        · rw [Function.update_of_ne here]
      rw [same, before]
      have solid : one ∈ live → one ≠ 0 := fun among none => shows.real (none ▸ among)
      tauto
  · intro widget member some root
    -- Nothing else lost its parent, and the child has one.
    rw [linked.parents] at root
    split_ifs at root with own
    · exact absurd (root ▸ above) shows.real
    · obtain ⟨next, prev⟩ := shows.alone widget member own root
      rw [linked.nexts, if_neg own, linked.prevs, if_neg own, if_neg]
      · exact ⟨next, prev⟩
      · rintro ⟨same, solid⟩
        have front : widget ∈ kids parent := by
          apply List.mem_of_head?
          rw [head?_eq_some_iff (shows.listed parent above).solid]
          exact ⟨solid, same.trans first⟩
        have up := ((shows.kid parent above widget).mp front).2.2
        exact shows.real ((up.symm.trans root) ▸ above)

/-- The links after a child was taken off its parent. -/
structure Unlinked (heap after : WidgetHeap) (parent child : Nat) : Prop where
  parents : ∀ widget, (after widget).parent = if widget = child then 0 else (heap widget).parent
  childrens : ∀ widget, (after widget).children =
    if widget = parent ∧ (heap child).prev = 0 then (heap child).next else (heap widget).children
  nexts : ∀ widget, (after widget).next =
    if widget = child then 0
    else if widget = (heap child).prev ∧ widget ≠ 0 then (heap child).next else (heap widget).next
  prevs : ∀ widget, (after widget).prev =
    if widget = child then 0
    else if widget = (heap child).next ∧ widget ≠ 0 then (heap child).prev else (heap widget).prev
  others : ∀ widget, widget ≠ child → widget ≠ parent → ¬ (widget = (heap child).prev ∧ widget ≠ 0) →
    ¬ (widget = (heap child).next ∧ widget ≠ 0) → after widget = heap widget

/-- Taking a child off. -/
theorem uiRemoveChild_unlinked (real : parent ≠ 0) (given : child ≠ 0) (attached : (heap child).parent = parent) :
    Unlinked heap (uiRemoveChild heap parent child) parent child := by
  have taken : ¬ (parent = 0 ∨ child = 0 ∨ (heap child).parent ≠ parent) := by simp [real, given, attached]
  rw [uiRemoveChild, if_neg taken]
  dsimp only
  set unlinked := if (heap child).prev ≠ 0 then
    Function.update heap (heap child).prev { heap (heap child).prev with next := (heap child).next }
    else Function.update heap parent { heap parent with children := (heap child).next } with unlinkedIs
  -- The first store goes past the child, from the sibling before it or from the parent.
  have kept : ∀ field : UiWidget → Nat,
      (∀ widget, field { heap widget with next := (heap child).next } = field (heap widget)) →
      (∀ widget, field { heap widget with children := (heap child).next } = field (heap widget)) →
      ∀ widget, field (unlinked widget) = field (heap widget) := by
    intro field blind also widget
    rw [unlinkedIs]
    split_ifs
    · exact field_kept field (blind _) widget
    · exact field_kept field (also _) widget
  -- The parent's list starts with the next sibling if the child was its first.
  have childrens : ∀ widget, (unlinked widget).children =
      if widget = parent ∧ (heap child).prev = 0 then (heap child).next else (heap widget).children := by
    intro widget
    rw [unlinkedIs]
    by_cases none : (heap child).prev = 0
    · rw [if_neg (not_not.mpr none), field_update UiWidget.children]
      simp only [none, and_true]
    · rw [if_pos none, field_kept UiWidget.children]
      · simp only [none, and_false, if_false]
      · rfl
  -- The sibling in front leads past the child.
  have nexts : ∀ widget, (unlinked widget).next =
      if widget = (heap child).prev ∧ widget ≠ 0 then (heap child).next else (heap widget).next := by
    intro widget
    rw [unlinkedIs]
    by_cases none : (heap child).prev = 0
    · have never : ¬ (widget = (heap child).prev ∧ widget ≠ 0) := fun both => both.2 (both.1.trans none)
      rw [if_neg (not_not.mpr none), if_neg never, field_kept UiWidget.next]
      rfl
    · rw [if_pos none, field_update UiWidget.next]
      by_cases here : widget = (heap child).prev
      · rw [if_pos here, if_pos ⟨here, here ▸ none⟩]
      · have other : ¬ (widget = (heap child).prev ∧ widget ≠ 0) := fun both => here both.1
        rw [if_neg here, if_neg other]
  -- The child still has its own links, which say where the second store goes.
  have after : (unlinked child).next = (heap child).next := by
    rw [nexts]
    split_ifs <;> rfl
  have before : (unlinked child).prev = (heap child).prev :=
    kept UiWidget.prev (fun _ => rfl) (fun _ => rfl) child
  set closed := if (unlinked child).next ≠ 0 then
    Function.update unlinked (unlinked child).next
      { unlinked (unlinked child).next with prev := (unlinked child).prev } else unlinked with closedIs
  -- The second store writes the link back of the next sibling, and no other field.
  have same : ∀ field : UiWidget → Nat,
      (∀ widget, field { unlinked widget with prev := (unlinked child).prev } = field (unlinked widget)) →
      ∀ widget, field (closed widget) = field (unlinked widget) := by
    intro field blind widget
    rw [closedIs]
    split_ifs
    · exact field_kept field (blind _) widget
    · rfl
  have prevs : ∀ widget, (closed widget).prev =
      if widget = (heap child).next ∧ widget ≠ 0 then (heap child).prev else (heap widget).prev := by
    intro widget
    have old : (unlinked widget).prev = (heap widget).prev := kept UiWidget.prev (fun _ => rfl) (fun _ => rfl) widget
    rw [closedIs, after, before]
    by_cases none : (heap child).next = 0
    · have never : ¬ (widget = (heap child).next ∧ widget ≠ 0) := fun both => both.2 (both.1.trans none)
      rw [if_neg (not_not.mpr none), if_neg never, old]
    · rw [if_pos none, field_update UiWidget.prev, old]
      by_cases here : widget = (heap child).next
      · rw [if_pos here, if_pos ⟨here, here ▸ none⟩]
      · have other : ¬ (widget = (heap child).next ∧ widget ≠ 0) := fun both => here both.1
        rw [if_neg here, if_neg other]
  -- The last store clears the links of the child.
  refine ⟨fun widget => ?_, fun widget => ?_, fun widget => ?_, fun widget => ?_, fun widget own high left right => ?_⟩
  · rw [field_update UiWidget.parent, same UiWidget.parent fun _ => rfl,
      kept UiWidget.parent (fun _ => rfl) fun _ => rfl]
  · rw [field_kept UiWidget.children, same UiWidget.children fun _ => rfl, childrens]
    rfl
  · rw [field_update UiWidget.next, same UiWidget.next fun _ => rfl, nexts]
  · rw [field_update UiWidget.prev, prevs]
  · -- No store is about another widget.
    have first : unlinked widget = heap widget := by
      rw [unlinkedIs]
      split_ifs with some
      · exact Function.update_of_ne (fun here => left ⟨here, here ▸ some⟩) _ _
      · exact Function.update_of_ne high _ _
    rw [Function.update_of_ne own, closedIs, after]
    split_ifs with some
    · rw [Function.update_of_ne fun here => right ⟨here, here ▸ some⟩, first]
    · exact first

/-- A child that is taken off its parent is on no list any more. -/
theorem Shows.detach (shows : Shows heap live kids 0) (unlinked : Unlinked heap after parent child)
    (above : parent ∈ live) (below : child ∈ live) (attached : (heap child).parent = parent) :
    Shows after live (fun widget => (kids widget).erase child) 0 := by
  have solid : ∀ {widget}, widget ∈ live → widget ≠ 0 := fun among none => shows.real (none ▸ among)
  have kid : child ∈ kids parent := (shows.kid parent above child).mpr ⟨below, solid below, attached⟩
  obtain ⟨front, back, split⟩ := List.append_of_mem kid
  have list := shows.listed parent above
  rw [split] at list
  have next : (heap child).next = back.headD 0 := list.next_eq
  have prev : (heap child).prev = front.getLastD 0 := list.prev_eq
  -- The siblings beside the child are children of the parent.
  have frontReal : 0 ∉ front := fun among => list.solid (List.mem_append_left _ among)
  have backReal : 0 ∉ back := fun among => list.solid (List.mem_append_right _ (List.mem_cons_of_mem _ among))
  have only : ∀ widget ∈ live, ∀ one ∈ kids widget, one ∈ kids parent → widget = parent := by
    intro widget member one among also
    exact ((shows.kid widget member one).mp among).2.2.symm.trans ((shows.kid parent above one).mp also).2.2
  have beside : ∀ one, one ∈ front ∨ one ∈ back → one ∈ kids parent := by
    rintro one (among | among)
    · exact split ▸ List.mem_append_left _ among
    · exact split ▸ List.mem_append_right _ (List.mem_cons_of_mem _ among)
  have early : ∀ one, one = (heap child).prev ∧ one ≠ 0 → front.getLast? = some one := fun one both =>
    (getLast?_eq_some_iff frontReal).mpr ⟨both.2, both.1.trans prev⟩
  have late : ∀ one, one = (heap child).next ∧ one ≠ 0 → back.head? = some one := fun one both =>
    (head?_eq_some_iff backReal).mpr ⟨both.2, both.1.trans next⟩
  -- The child stands once on the list of its parent, and on no other one.
  have absent : child ∉ front ++ back := by
    have distinct := list.nodup
    rw [List.nodup_middle] at distinct
    exact (List.nodup_cons.mp distinct).1
  -- Leaving the child out joins the two parts of its list.
  have erased : (kids parent).erase child = front ++ back := by
    rw [split, List.erase_append_right _ fun among => absent (List.mem_append_left _ among), List.erase_cons_head]
  -- The child hangs below its own parent only.
  have elsewhere : ∀ widget ∈ live, widget ≠ parent → child ∉ kids widget := fun widget member apart among =>
    apart (only widget member child among kid)
  refine ⟨shows.real, ?_, ?_, ?_, ?_⟩
  · intro widget member
    by_cases here : widget = parent
    · subst here
      rw [erased]
      have differ : ∀ one ∈ front ++ back, one ≠ child := fun one among same => absent (same ▸ among)
      apply list.unlink
      · intro one last
        have among := List.mem_append_left back (List.mem_of_getLast? last)
        rw [nextOf, unlinked.nexts, if_neg (differ one among), if_pos, next]
        rw [prev]
        exact ((getLast?_eq_some_iff frontReal).mp last).symm
      · intro one first
        have among := List.mem_append_right front (List.mem_of_head? first)
        rw [prevOf, unlinked.prevs, if_neg (differ one among), if_pos, prev]
        rw [next]
        exact ((head?_eq_some_iff backReal).mp first).symm
      · intro one among inner
        rw [nextOf, unlinked.nexts, if_neg (differ one among), if_neg fun both => inner (early one both)]
        rfl
      · intro one among inner
        rw [prevOf, unlinked.prevs, if_neg (differ one among), if_neg fun both => inner (late one both)]
        rfl
    · -- The other lists keep their links.
      have apart := elsewhere widget member here
      rw [List.erase_of_not_mem apart]
      apply (shows.listed widget member).frame
      · intro one among
        have differ : one ≠ child := fun same => apart (same ▸ among)
        rw [nextOf, unlinked.nexts, if_neg differ, if_neg]
        · rfl
        · intro both
          exact here (only widget member one among (beside one (.inl (List.mem_of_getLast? (early one both)))))
      · intro one among
        have differ : one ≠ child := fun same => apart (same ▸ among)
        rw [prevOf, unlinked.prevs, if_neg differ, if_neg]
        · rfl
        · intro both
          exact here (only widget member one among (beside one (.inr (List.mem_of_head? (late one both)))))
  · intro widget member
    rw [unlinked.childrens]
    by_cases here : widget = parent
    · subst here
      rw [erased, shows.first widget member, split, next, prev]
      -- The first child changes only when the one taken off was the first.
      simp only [true_and, getLastD_eq_null frontReal]
      cases front with
      | nil => rfl
      | cons start rest => rfl
    · rw [if_neg fun both => here both.1, List.erase_of_not_mem (elsewhere widget member here)]
      exact shows.first widget member
  · intro widget member one
    rw [unlinked.parents, (shows.listed widget member).nodup.mem_erase_iff, shows.kid widget member one]
    by_cases own : one = child
    · rw [if_pos own]
      exact iff_of_false (fun all => all.1 own) fun all => solid member all.2.2.symm
    · rw [if_neg own]
      exact and_iff_right own
  · intro widget member some root
    by_cases own : widget = child
    · rw [unlinked.nexts, unlinked.prevs, if_pos own, if_pos own]
      exact ⟨rfl, rfl⟩
    · rw [unlinked.parents, if_neg own] at root
      -- A widget without a parent has no siblings, so it is not beside the child.
      have away : widget ∉ kids parent := fun among =>
        solid above (((shows.kid parent above widget).mp among).2.2.symm.trans root)
      rw [unlinked.nexts, if_neg own, if_neg, unlinked.prevs, if_neg own, if_neg]
      · exact shows.alone widget member some root
      · exact fun both => away (beside widget (.inr (List.mem_of_head? (late widget both))))
      · exact fun both => away (beside widget (.inl (List.mem_of_getLast? (early widget both))))

end

end MiraOS
