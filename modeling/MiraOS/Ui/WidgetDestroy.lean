import MiraOS.Ui.WidgetTree

/-! Destroying a widget of ui/ui.c with everything below it. -/

namespace MiraOS

open Machine

/-- The memory of the widgets, and the widgets that were given back, one after another. -/
structure Releases where
  heap : WidgetHeap
  freed : List Nat

/-- Give back the memory of a widget, which is overwritten. -/
def Releases.kfree (state : Releases) (rubbish : Nat → UiWidget) (widget : Nat) : Releases :=
  ⟨Function.update state.heap widget (rubbish widget), state.freed ++ [widget]⟩

/-- The first step of destroying a widget: take it off its parent. -/
def cutOff (heap : WidgetHeap) (widget : Nat) : WidgetHeap :=
  if (heap widget).parent ≠ 0 then uiRemoveChild heap (heap widget).parent widget else heap

mutual

/-- Destroy a widget and its children. -/
def uiDestroyWidget (rubbish : Nat → UiWidget) : Nat → Nat → Releases → Except Halt Releases
  | 0, _, _ => .error .outOfFuel
  | fuel + 1, widget, state =>
    if widget = 0 then .ok state
    else do
      let state ← destroyChildren rubbish fuel widget { state with heap := cutOff state.heap widget }
      return state.kfree rubbish widget

/-- Destroy the first child as long as there is one. -/
def destroyChildren (rubbish : Nat → UiWidget) : Nat → Nat → Releases → Except Halt Releases
  | 0, _, _ => .error .outOfFuel
  | fuel + 1, widget, state =>
    if (state.heap widget).children = 0 then .ok state
    else do
      let state ← uiDestroyWidget rubbish fuel (state.heap widget).children state
      destroyChildren rubbish fuel widget state

end

/-- The links from the root of a tree downwards are those that the tree says. -/
inductive Planted (heap : WidgetHeap) : RoseTree Nat → Prop where
  | node {widget : Nat} {children : List (RoseTree Nat)} (real : widget ≠ 0)
      (first : (heap widget).children = (children.map RoseTree.value).headD 0)
      (list : DList 0 (nextOf heap) (prevOf heap) (children.map RoseTree.value))
      (up : ∀ child ∈ children, (heap child.value).parent = widget)
      (each : ∀ child ∈ children, Planted heap child) : Planted heap (.node widget children)

section

variable {heap after : WidgetHeap} {tree : RoseTree Nat}

/-- The root of a tree is one of its nodes. -/
theorem value_mem_postorder (tree : RoseTree Nat) : tree.value ∈ tree.postorder := by
  -- A node stands behind its children.
  cases tree with
  | node value children => exact List.mem_append_right _ (List.mem_singleton.mpr rfl)

/-- Trees without a common node: the one that is not the first, and what is in it. -/
theorem postorders_nodup_cons {first : RoseTree Nat} {rest : List (RoseTree Nat)}
    (distinct : (postorders (first :: rest)).Nodup) :
    first.postorder.Nodup ∧ (postorders rest).Nodup ∧ ∀ node ∈ first.postorder, node ∉ postorders rest := by
  -- The trees of a forest share no node.
  obtain ⟨one, more, apart⟩ := List.nodup_append.mp distinct
  exact ⟨one, more, fun node among also => apart node among node also rfl⟩

/-- A child of a tree without a node twice. -/
theorem child_nodup {children : List (RoseTree Nat)} {child : RoseTree Nat} (distinct : (postorders children).Nodup)
    (among : child ∈ children) : child.postorder.Nodup := by
  -- Induction on the children: each is visited in a stretch of its own.
  induction children with
  | nil => cases among
  | cons first rest ih =>
    obtain ⟨one, more, -⟩ := postorders_nodup_cons distinct
    rcases List.mem_cons.mp among with rfl | later
    · exact one
    · exact ih more later

/-- Trees without a common node are told apart by each of their nodes. -/
theorem tree_unique {trees : List (RoseTree Nat)} {one two : RoseTree Nat} {node : Nat}
    (distinct : (postorders trees).Nodup) (first : one ∈ trees) (second : two ∈ trees) (inside : node ∈ one.postorder)
    (also : node ∈ two.postorder) : one = two := by
  -- Induction on the trees: a node of the first is in none of the others.
  induction trees with
  | nil => cases first
  | cons tree rest ih =>
    obtain ⟨-, more, apart⟩ := postorders_nodup_cons distinct
    rcases List.mem_cons.mp first with rfl | late
    · -- Both are the first one, or one of them lies later and shares the node with it.
      rcases List.mem_cons.mp second with rfl | later
      · rfl
      · exact absurd (mem_postorders.mpr ⟨two, later, also⟩) (apart node inside)
    · rcases List.mem_cons.mp second with rfl | later
      · exact absurd (mem_postorders.mpr ⟨one, late, inside⟩) (apart node also)
      · exact ih more late later

section

variable {widget : Nat} {children : List (RoseTree Nat)}

theorem Planted.real (planted : Planted heap (.node widget children)) : widget ≠ 0 := by
  cases planted
  assumption

theorem Planted.first (planted : Planted heap (.node widget children)) :
    (heap widget).children = (children.map RoseTree.value).headD 0 := by
  cases planted
  assumption

theorem Planted.list (planted : Planted heap (.node widget children)) :
    DList 0 (nextOf heap) (prevOf heap) (children.map RoseTree.value) := by
  cases planted
  assumption

end

/-- A tree stays planted while the root keeps its first child and the other nodes keep their links. -/
theorem Planted.congr (planted : Planted heap tree) (distinct : tree.postorder.Nodup)
    (root : (after tree.value).children = (heap tree.value).children)
    (inner : ∀ node ∈ tree.postorder, node ≠ tree.value → SameKin (heap node) (after node)) : Planted after tree := by
  induction tree using RoseTree.fromChildren with
  | node value children ih =>
    obtain ⟨real, first, list, up, each⟩ := planted
    obtain ⟨below, -, apart⟩ := List.nodup_append.mp distinct
    -- No child is the root, so the children keep all of their links.
    have kept : ∀ child ∈ children, ∀ node ∈ child.postorder, SameKin (heap node) (after node) := by
      intro child among node inside
      have under := mem_postorders.mpr ⟨child, among, inside⟩
      apply inner node (List.mem_append_left _ under)
      exact apart node under value (List.mem_singleton.mpr rfl)
    have links : ∀ node ∈ children.map RoseTree.value, SameKin (heap node) (after node) := by
      intro node among
      obtain ⟨child, kid, rfl⟩ := List.mem_map.mp among
      exact kept child kid _ (value_mem_postorder child)
    refine ⟨real, ?_, ?_, ?_, ?_⟩
    · exact root.trans first
    · exact list.frame (fun node among => (links node among).next) fun node among => (links node among).prev
    · intro child among
      rw [(links _ (List.mem_map_of_mem among)).parent]
      exact up child among
    · intro child among
      apply ih child among (each child among) (child_nodup below among)
      · exact (links _ (List.mem_map_of_mem among)).children
      · exact fun node inside _ => kept child among node inside

/-- When the first child of a widget is cut off, its tree is planted; whatever happens to the nodes of that tree then,
the rest is planted as well, and nothing else has changed. -/
theorem Planted.cutFirst {widget : Nat} {child : RoseTree Nat} {rest : List (RoseTree Nat)}
    (planted : Planted heap (.node widget (child :: rest)))
    (distinct : (RoseTree.node widget (child :: rest)).postorder.Nodup) :
    Planted (cutOff heap child.value) child ∧
      ∀ middle : WidgetHeap, (∀ node ∉ child.postorder, middle node = cutOff heap child.value node) →
        Planted middle (.node widget rest) ∧
          ∀ node ∉ postorders (child :: rest), node ≠ widget → middle node = heap node := by
  obtain ⟨real, first, list, up, whole⟩ := planted
  obtain ⟨below, -, root⟩ := List.nodup_append.mp distinct
  obtain ⟨own, others, apart⟩ := postorders_nodup_cons below
  have differ : ∀ node ∈ postorders (child :: rest), node ≠ widget := fun node among =>
    root node among widget (List.mem_singleton.mpr rfl)
  have behind : ∀ one ∈ rest.map RoseTree.value, one ∈ postorders rest := by
    intro one among
    obtain ⟨tree, kid, rfl⟩ := List.mem_map.mp among
    exact mem_postorders.mpr ⟨tree, kid, value_mem_postorder tree⟩
  -- The first child is taken off its parent.
  have solid : child.value ≠ 0 := fun none => list.solid (none ▸ List.mem_cons_self)
  have attached := up child List.mem_cons_self
  have cut : cutOff heap child.value = uiRemoveChild heap widget child.value := by
    rw [cutOff, attached, if_pos real]
  have unlinked := uiRemoveChild_unlinked real solid attached
  rw [← cut] at unlinked
  have prev : (heap child.value).prev = 0 := list.linked.1
  have next : (heap child.value).next = (rest.map RoseTree.value).headD 0 := list.linked.2.1
  have nowhere : ∀ node, ¬ (node = (heap child.value).prev ∧ node ≠ 0) := fun node both =>
    both.2 (both.1.trans prev)
  have second : ∀ node, node = (heap child.value).next ∧ node ≠ 0 → (rest.map RoseTree.value).head? = some node := by
    intro node both
    rw [head?_eq_some_iff fun among => list.solid (List.mem_cons_of_mem _ among)]
    exact ⟨both.2, both.1.trans next⟩
  -- All links stay but those of the child, of the widget and of the second child.
  have linked : ∀ node, node ≠ child.value → node ≠ widget → (rest.map RoseTree.value).head? ≠ some node →
      SameKin (heap node) (cutOff heap child.value node) := by
    intro node other high inner
    refine ⟨?_, ?_, ?_, ?_⟩
    · rw [unlinked.parents, if_neg other]
    · rw [unlinked.childrens, if_neg fun both => high both.1]
    · rw [unlinked.nexts, if_neg other, if_neg (nowhere node)]
    · rw [unlinked.prevs, if_neg other, if_neg fun both => inner (second node both)]
  have early : ∀ node ∈ child.postorder, node ≠ widget ∧ (rest.map RoseTree.value).head? ≠ some node := by
    intro node among
    refine ⟨differ node (List.mem_append_left _ among), fun head => ?_⟩
    exact apart node among (behind node (List.mem_of_head? head))
  -- Its own tree is still planted.
  have ready : Planted (cutOff heap child.value) child := by
    apply (whole child List.mem_cons_self).congr own
    · rw [unlinked.childrens, if_neg]
      exact fun both => (early _ (value_mem_postorder child)).1 both.1
    · exact fun node among other => linked node other (early node among).1 (early node among).2
  refine ⟨ready, fun middle same => ?_⟩
  -- The others come up to the front, where nothing in the tree of the first one can reach them.
  have late : ∀ node ∈ postorders rest, node ∉ child.postorder := fun node among also => apart node also among
  have after : ∀ node ∈ postorders rest, middle node = cutOff heap child.value node := fun node among =>
    same node (late node among)
  have other : ∀ node ∈ postorders rest, node ≠ child.value := fun node among here =>
    late node among (here ▸ value_mem_postorder child)
  have stays : Planted middle (.node widget rest) := by
    have parent : middle widget = cutOff heap child.value widget :=
      same widget fun among => differ widget (List.mem_append_left _ among) rfl
    refine ⟨real, ?_, ?_, ?_, ?_⟩
    · rw [parent, unlinked.childrens, if_pos ⟨rfl, prev⟩, next]
    · have whole : DList 0 (nextOf heap) (prevOf heap)
          ([] ++ child.value :: rest.map RoseTree.value) := list
      apply whole.unlink
      · intro one last
        cases last
      · intro one head
        have among := behind one (List.mem_of_head? head)
        rw [prevOf, after one among, unlinked.prevs, if_neg (other one among), if_pos, prev]
        · rfl
        · rw [next]
          exact (head?_eq_some_iff fun zero => list.solid (List.mem_cons_of_mem _ zero)).mp head |>.symm
      · intro one among inner
        have inside := behind one among
        rw [nextOf, after one inside, unlinked.nexts, if_neg (other one inside), if_neg (nowhere one)]
        rfl
      · intro one among inner
        have inside := behind one among
        rw [prevOf, after one inside]
        exact (linked one (other one inside) (differ one (List.mem_append_right _ inside)) inner).prev
    · intro tree kid
      have inside := behind tree.value (List.mem_map_of_mem kid)
      rw [after _ inside, unlinked.parents, if_neg (other _ inside)]
      exact up tree (List.mem_cons_of_mem _ kid)
    · intro tree kid
      apply (whole tree (List.mem_cons_of_mem _ kid)).congr (child_nodup others kid)
      · have inside := behind tree.value (List.mem_map_of_mem kid)
        rw [after _ inside, unlinked.childrens, if_neg fun both => differ _ (List.mem_append_right _ inside) both.1]
      · intro node among inner
        have inside := mem_postorders.mpr ⟨tree, kid, among⟩
        rw [after node inside]
        apply linked node (other node inside) (differ node (List.mem_append_right _ inside))
        -- The second child is the root of its own tree, and in no other one.
        intro head
        obtain ⟨root, front, rfl⟩ := List.mem_map.mp (List.mem_of_head? head)
        exact inner (congrArg _ (tree_unique others front kid (value_mem_postorder root) among))
  refine ⟨stays, fun node away high => ?_⟩
  rw [postorders, List.mem_append, not_or] at away
  -- The cut is about the child, its parent and the second child only.
  apply (same node away.1).trans
  apply unlinked.others node (fun here => away.1 (here ▸ value_mem_postorder child)) high (nowhere node)
  exact fun both => away.2 (behind node (List.mem_of_head? (second node both)))

/-- Destroying the children of a widget, when each of them can be destroyed: they are given back one tree after
another, and nothing else changes but the widget. -/
theorem destroyChildren_settles {rubbish : Nat → UiWidget} {widget : Nat} {children : List (RoseTree Nat)}
    (each : ∀ child ∈ children, ∀ state : Releases, Planted (cutOff state.heap child.value) child →
      child.postorder.Nodup → ∃ after : WidgetHeap,
        Settles (fun fuel => uiDestroyWidget rubbish fuel child.value state) ⟨after, state.freed ++ child.postorder⟩ ∧
          ∀ node ∉ child.postorder, after node = cutOff state.heap child.value node)
    (state : Releases) (planted : Planted state.heap (.node widget children))
    (distinct : (RoseTree.node widget children).postorder.Nodup) :
    ∃ after : WidgetHeap,
      Settles (fun fuel => destroyChildren rubbish fuel widget state) ⟨after, state.freed ++ postorders children⟩ ∧
        ∀ node ∉ postorders children, node ≠ widget → after node = state.heap node := by
  induction children generalizing state with
  | nil =>
    -- Without children the loop ends at once.
    obtain ⟨-, first, -, -, -⟩ := planted
    refine ⟨state.heap, Settles.after 1 fun fuel => ?_, fun _ _ _ => rfl⟩
    rw [destroyChildren, if_pos (show _ = 0 from first), postorders, List.append_nil]
  | cons child rest ih =>
    have real := planted.real
    have first : (state.heap widget).children = child.value := planted.first
    have solid : child.value ≠ 0 := fun none => planted.list.solid (none ▸ List.mem_cons_self)
    obtain ⟨below, -, -⟩ := List.nodup_append.mp distinct
    obtain ⟨own, -, -⟩ := postorders_nodup_cons below
    -- The first child is cut off and destroyed, which leaves the rest of the tree planted.
    obtain ⟨ready, behind⟩ := planted.cutFirst distinct
    obtain ⟨middle, ran, same⟩ := each child List.mem_cons_self state ready own
    obtain ⟨stays, others⟩ := behind middle same
    have fewer : List.Sublist (RoseTree.node widget rest).postorder (RoseTree.node widget (child :: rest)).postorder :=
      (List.sublist_append_right _ _).append_right [widget]
    obtain ⟨last, ends, kept⟩ := ih (fun tree kid => each tree (List.mem_cons_of_mem _ kid))
      ⟨middle, state.freed ++ child.postorder⟩ stays (distinct.sublist fewer)
    refine ⟨last, ?_, ?_⟩
    · -- One turn of the loop destroys the first child, and the others follow.
      have turn : ∀ fuel, destroyChildren rubbish (fuel + 1) widget state =
          uiDestroyWidget rubbish fuel child.value state >>= destroyChildren rubbish fuel widget := by
        intro fuel
        rw [destroyChildren, show (state.heap widget).children = child.value from first, if_neg solid]
      have both := ran.bind ends
      rw [List.append_assoc] at both
      exact both.later turn
    · intro node away high
      rw [← others node away high]
      exact kept node (fun among => away (List.mem_append_right _ among)) high

/-- Destroying a widget gives back the nodes of its tree, each behind those below it, and changes nothing else but
what taking it off its parent does. -/
theorem uiDestroyWidget_settles (rubbish : Nat → UiWidget) (tree : RoseTree Nat) (state : Releases)
    (planted : Planted (cutOff state.heap tree.value) tree) (distinct : tree.postorder.Nodup) :
    ∃ after : WidgetHeap,
      Settles (fun fuel => uiDestroyWidget rubbish fuel tree.value state) ⟨after, state.freed ++ tree.postorder⟩ ∧
        ∀ node ∉ tree.postorder, after node = cutOff state.heap tree.value node := by
  induction tree using RoseTree.fromChildren generalizing state with
  | node value children ih =>
    have real : value ≠ 0 := by
      obtain ⟨real, -, -, -, -⟩ := planted
      exact real
    -- The children are destroyed first, in the heap in which the widget has been cut off.
    obtain ⟨after, ran, same⟩ :=
      destroyChildren_settles ih { state with heap := cutOff state.heap value } planted distinct
    refine ⟨Function.update after value (rubbish value), ?_, ?_⟩
    · have turn : ∀ fuel, uiDestroyWidget rubbish (fuel + 1) value state =
          destroyChildren rubbish fuel value { state with heap := cutOff state.heap value } >>=
            fun state => pure (state.kfree rubbish value) := by
        intro fuel
        rw [uiDestroyWidget, if_neg real]
      rw [RoseTree.postorder, ← List.append_assoc]
      apply Settles.later turn
      exact ran.bind (Settles.now fun _ => rfl)
    · intro node away
      rw [RoseTree.postorder, List.mem_append, List.mem_singleton, not_or] at away
      rw [Function.update_of_ne away.2]
      exact same node away.1 away.2

end

end MiraOS
