import MiraOS.Ui.WidgetDestroy
import Mathlib.Data.List.Perm.Subperm

/-! Histories of the widgets of ui/ui.c that are made, moved and destroyed, against an ordered forest. -/

namespace MiraOS

open Machine

/-- What the widgets are: those that there are, and the children of each, the newest first. -/
structure WidgetFamily where
  members : List Nat
  kids : Nat → List Nat

/-- What can be done with widgets. -/
inductive WidgetAct where
  | use (call : WidgetUse)
  | destroy (widget : Nat)
  | setVisible (widget : Nat) (visible : Bool)
  | setEnabled (widget : Nat) (enabled : Bool)
  -- The fields that belong to the user of a widget.
  | equip (widget userData onPaint onEvent onFocus : Nat)

/-- Show or hide a widget. -/
def uiSetVisible (heap : WidgetHeap) (widget : Nat) (visible : Bool) : WidgetHeap :=
  if widget ≠ 0 then Function.update heap widget { heap widget with visible := visible } else heap

/-- Enable or disable a widget. -/
def uiSetEnabled (heap : WidgetHeap) (widget : Nat) (enabled : Bool) : WidgetHeap :=
  if widget ≠ 0 then Function.update heap widget { heap widget with enabled := enabled } else heap

/-- Give a widget its data and its handlers. -/
def equipWidget (heap : WidgetHeap) (widget userData onPaint onEvent onFocus : Nat) : WidgetHeap :=
  Function.update heap widget
    { heap widget with userData := userData, onPaint := onPaint, onEvent := onEvent, onFocus := onFocus }

/-- The pointers of an act are those of widgets or none, and its use is allowed. -/
def WidgetAct.Allowed (widgets : Widgets) : WidgetAct → Prop
  | .use call => call.Allowed widgets
  | .destroy widget => widget = 0 ∨ widget ∈ widgets.live
  | .setVisible widget _ => widget = 0 ∨ widget ∈ widgets.live
  | .setEnabled widget _ => widget = 0 ∨ widget ∈ widgets.live
  | .equip widget .. => widget ∈ widgets.live

/-- The widgets after an act that the code comes back from; the memory of a widget that was given back holds
anything. -/
def WidgetChange (widgets : Widgets) (act : WidgetAct) (after : Widgets) : Prop :=
  act.Allowed widgets ∧
    match act with
    | .use call => Settles (fun fuel => widgetStep fuel widgets call) after
    | .destroy widget => ∃ rubbish state,
      Settles (fun fuel => uiDestroyWidget rubbish fuel widget ⟨widgets.heap, []⟩) state ∧
        after = ⟨state.heap, widgets.live.filter (· ∉ state.freed)⟩
    | .setVisible widget visible => after = { widgets with heap := uiSetVisible widgets.heap widget visible }
    | .setEnabled widget enabled => after = { widgets with heap := uiSetEnabled widgets.heap widget enabled }
    | .equip widget userData onPaint onEvent onFocus =>
      after = { widgets with heap := equipWidget widgets.heap widget userData onPaint onEvent onFocus }

open Classical in
/-- What an act means for the family. -/
noncomputable def WidgetFamily.step (family : WidgetFamily) : WidgetAct → WidgetFamily
  | .use (.create parent _ widget) =>
    if widget = 0 then family
    else
      let kids := Function.update family.kids widget []
      ⟨widget :: family.members,
        if parent = 0 then kids else Function.update kids parent (widget :: family.kids parent)⟩
  | .use (.addChild parent child) =>
    if parent = 0 ∨ child = 0 then family
    else { family with kids := Function.update family.kids parent (child :: family.kids parent) }
  | .use (.removeChild parent child) =>
    if parent ∈ family.members ∧ child ∈ family.kids parent then
      { family with kids := fun widget => (family.kids widget).erase child }
    else family
  | .destroy widget =>
    if widget = 0 then family
    else ⟨family.members.filter fun other => ¬ Descends family.kids widget other,
      fun other => (family.kids other).erase widget⟩
  | _ => family

/-- The family after some acts, from no widgets on. -/
noncomputable def familyAfter (acts : List WidgetAct) : WidgetFamily := acts.foldl WidgetFamily.step ⟨[], fun _ => []⟩

/-- The widgets in use are those of the family, and their links show it. -/
structure Widgets.Mirrors (widgets : Widgets) (family : WidgetFamily) : Prop where
  members : family.members = widgets.live
  shows : Shows widgets.heap widgets.live family.kids 0
  rooted : widgets.Rooted

section

variable {heap after : WidgetHeap} {live : List Nat} {kids : Nat → List Nat} {parent child widget : Nat}

/-- Moving a child on the screen keeps all links. -/
theorem ancestorLoop_links {fuel ancestor : Nat} (ran : ancestorLoop child fuel ancestor heap = .ok after)
    (widget : Nat) : SameKin (heap widget) (after widget) := by
  induction fuel generalizing ancestor heap with
  | zero => cases ran
  | succ fuel ih =>
    rw [ancestorLoop] at ran
    split_ifs at ran with root
    · obtain rfl := Except.ok.inj ran
      exact .refl _
    · -- One turn stores a place only.
      refine (sameKin_update ?_ widget).trans (ih ran)
      exact ⟨rfl, rfl, rfl, rfl⟩

/-- Links that are read the same way afterwards. -/
theorem PutFirst.congr {middle : WidgetHeap} (linked : PutFirst heap middle parent child)
    (same : ∀ widget, SameKin (middle widget) (after widget)) : PutFirst heap after parent child where
  parents widget := (same widget).parent.trans (linked.parents widget)
  childrens widget := (same widget).children.trans (linked.childrens widget)
  nexts widget := (same widget).next.trans (linked.nexts widget)
  prevs widget := (same widget).prev.trans (linked.prevs widget)

/-- Attaching a child links it. -/
theorem uiAddChild_linked {fuel : Nat} (real : parent ≠ 0) (given : child ≠ 0)
    (ran : uiAddChild fuel heap parent child = .ok after) : PutFirst heap after parent child := by
  rw [uiAddChild, if_neg (not_or.mpr ⟨real, given⟩)] at ran
  exact (linkChild_linked heap parent child).congr (ancestorLoop_links ran)

/-- A widget without a parent may be left out. -/
theorem Shows.loosen (shows : Shows heap live kids 0) (root : (heap child).parent = 0) :
    Shows heap live kids child where
  real := shows.real
  listed := shows.listed
  first := shows.first
  kid widget member other := by
    rw [shows.kid widget member other]
    have solid : widget ≠ 0 := fun none => shows.real (none ▸ member)
    -- It is no child, whether left out or not.
    constructor
    · rintro ⟨among, -, up⟩
      exact ⟨among, fun same => solid (up.symm.trans (same ▸ root)), up⟩
    · rintro ⟨among, -, up⟩
      exact ⟨among, fun none => shows.real (none ▸ among), up⟩
  alone widget member _ := shows.alone widget member fun none => shows.real (none ▸ member)

/-- A widget that was left out is like the others when it has neither a parent nor siblings. -/
theorem Shows.settle (shows : Shows heap live kids child) (root : (heap child).parent = 0)
    (next : (heap child).next = 0) (prev : (heap child).prev = 0) : Shows heap live kids 0 where
  real := shows.real
  listed := shows.listed
  first := shows.first
  -- The loose child joins the widgets without a parent: it has none and hangs in no list.
  kid widget member other := by
    rw [shows.kid widget member other]
    have solid : widget ≠ 0 := fun none => shows.real (none ▸ member)
    constructor
    · rintro ⟨among, -, up⟩
      exact ⟨among, fun none => shows.real (none ▸ among), up⟩
    · rintro ⟨among, -, up⟩
      exact ⟨among, fun same => solid (up.symm.trans (same ▸ root)), up⟩
  alone widget member _ up := by
    -- The child itself was taken out of its list, the others were alone before.
    by_cases own : widget = child
    · rw [own]
      exact ⟨next, prev⟩
    · exact shows.alone widget member own up

/-- The parent of a widget in use is in use. -/
theorem Widgets.Rooted.above (rooted : Widgets.Rooted ⟨heap, live⟩) (member : widget ∈ live)
    (some : (heap widget).parent ≠ 0) : (heap widget).parent ∈ live := by
  -- The parent is the second widget of the line, and the whole line is alive.
  obtain ⟨ancestors, -, above, -, lives⟩ := rooted.line member
  obtain ⟨rest, rfl, -⟩ := above.cons_of_ne some
  exact lives _ List.mem_cons_self

/-- Roots depend on the links to the parents only. -/
theorem Widgets.Rooted.congr (rooted : Widgets.Rooted ⟨heap, live⟩)
    (same : ∀ widget, (after widget).parent = (heap widget).parent) : Widgets.Rooted ⟨after, live⟩ := by
  -- The line up to the root is read from the parents alone.
  refine ⟨rooted.real, fun widget member => ?_⟩
  obtain ⟨line, linked, lives⟩ := rooted.rooted widget member
  exact ⟨line, linked.congr fun other _ => same other, lives⟩

/-- A new widget is shown without children, and left out otherwise. -/
theorem Shows.made (shows : Shows heap live kids 0) (rooted : Widgets.Rooted ⟨heap, live⟩) (real : widget ≠ 0)
    (fresh : widget ∉ live) (parent : Nat) (bounds : UiRect) :
    Shows (Function.update heap widget (newWidget parent bounds)) (widget :: live) (Function.update kids widget [])
      widget := by
  have here : Function.update heap widget (newWidget parent bounds) widget = newWidget parent bounds :=
    Function.update_self ..
  have older : ∀ {other}, other ∈ live → other ≠ widget := fun among same => fresh (same ▸ among)
  have elsewhere : ∀ {other}, other ∈ live →
      Function.update heap widget (newWidget parent bounds) other = heap other := fun among =>
    Function.update_of_ne (older among) _ _
  refine ⟨?_, ?_, ?_, ?_, ?_⟩
  · intro among
    rcases List.mem_cons.mp among with none | old
    · exact real none.symm
    · exact shows.real old
  · intro other member
    rcases List.mem_cons.mp member with rfl | old
    · rw [Function.update_self]
      exact dList_nil
    · rw [Function.update_of_ne (older old)]
      have inside : ∀ one ∈ kids other, one ∈ live := fun one among => ((shows.kid other old one).mp among).1
      apply (shows.listed other old).frame
      · intro one among
        rw [nextOf, elsewhere (inside one among)]
        rfl
      · intro one among
        rw [prevOf, elsewhere (inside one among)]
        rfl
  · intro other member
    rcases List.mem_cons.mp member with rfl | old
    · rw [here, Function.update_self]
      rfl
    · rw [elsewhere old, Function.update_of_ne (older old)]
      exact shows.first other old
  · intro other member one
    rcases List.mem_cons.mp member with rfl | old
    · -- Nobody has a parent that was not in use.
      rw [Function.update_self]
      refine iff_of_false List.not_mem_nil fun all => ?_
      obtain ⟨among, differ, up⟩ := all
      have older := (List.mem_cons.mp among).resolve_left differ
      rw [elsewhere older] at up
      exact fresh (up ▸ rooted.above older (up ▸ real))
    · rw [Function.update_of_ne (older old), shows.kid other old one]
      constructor
      · rintro ⟨among, -, up⟩
        exact ⟨List.mem_cons_of_mem _ among, older among, by rw [elsewhere among, up]⟩
      · rintro ⟨among, differ, up⟩
        have older := (List.mem_cons.mp among).resolve_left differ
        rw [elsewhere older] at up
        exact ⟨older, fun none => shows.real (none ▸ older), up⟩
  · intro other member differ root
    have old := (List.mem_cons.mp member).resolve_left differ
    rw [elsewhere old] at root ⊢
    exact shows.alone other old (fun none => shows.real (none ▸ old)) root

/-- The children that the links show make up a family. -/
theorem Shows.family (shows : Shows heap live kids 0) (rooted : Widgets.Rooted ⟨heap, live⟩) :
    Kindred kids {widget | widget ∈ live} where
  closed widget member child among := ((shows.kid widget member child).mp among).1
  single one first two second child among also :=
    ((shows.kid one first child).mp among).2.2.symm.trans ((shows.kid two second child).mp also).2.2
  distinct widget member := (shows.listed widget member).nodup
  grounded := by
    -- The further a widget is from its root, the fewer widgets can be below it.
    have lines : ∀ widget ∈ live, ∃ depth, ∃ line, Visits (parentOf heap) widget line ∧ line.length = depth ∧
        depth ≤ live.length := by
      intro widget member
      obtain ⟨line, linked, lives⟩ := rooted.rooted widget member
      exact ⟨_, line, linked, rfl, (linked.nodup.subperm lives).length_le⟩
    choose! depth line linked length bounded using lines
    refine Subrelation.wf ?_ (measure fun widget => live.length - depth widget).wf
    rintro child widget ⟨member, among⟩
    obtain ⟨inside, -, rfl⟩ := (shows.kid widget member child).mp among
    have solid : child ≠ 0 := fun none => shows.real (none ▸ inside)
    obtain ⟨rest, split, above⟩ := (linked child inside).cons_of_ne solid
    have same := above.unique (linked (heap child).parent member)
    have deeper := length child inside
    rw [split, List.length_cons, same, length _ member] at deeper
    have enough := bounded child inside
    show live.length - depth child < live.length - depth (heap child).parent
    omega

/-- A widget is below everything on its way to the root. -/
theorem Shows.below_line (shows : Shows heap live kids 0) {line : List Nat} {other : Nat}
    (linked : Visits (parentOf heap) widget line) (lives : ∀ other ∈ line, other ∈ live) (among : other ∈ line) :
    Descends kids other widget := by
  induction line generalizing widget with
  | nil => cases among
  | cons first rest ih =>
    obtain ⟨rfl, some, tail⟩ := linked
    rcases List.mem_cons.mp among with rfl | later
    · exact .here
    · -- The parent is on the way, and the widget is one of its children.
      have above := ih tail (fun other later => lives other (List.mem_cons_of_mem _ later)) later
      obtain ⟨more, rfl, -⟩ := tail.cons_of_ne fun none => by
        rw [none] at tail
        rw [tail.unique (show Visits (parentOf heap) 0 [] from rfl)] at later
        cases later
      have member := lives _ (List.mem_cons_of_mem _ List.mem_cons_self)
      exact .under above ((shows.kid _ member widget).mpr ⟨lives widget List.mem_cons_self, some, rfl⟩)

/-- A tree of the children that the links show is planted. -/
theorem Shows.planted (shows : Shows heap live kids 0) {tree : RoseTree Nat} (grows : Unfolds kids tree)
    (member : tree.value ∈ live) : Planted heap tree := by
  -- Induction on the tree: the list of the node is the list of its children, each planted itself.
  induction tree using RoseTree.fromChildren with
  | node value children ih =>
    obtain ⟨shown, each⟩ := grows
    replace member : value ∈ live := member
    -- A child on the list is alive and names the node as its parent.
    have kid : ∀ child ∈ children, child.value ∈ live ∧ (heap child.value).parent = value := by
      intro child among
      have inside : child.value ∈ kids value := shown ▸ List.mem_map_of_mem among
      have both := (shows.kid value member child.value).mp inside
      exact ⟨both.1, both.2.2⟩
    refine ⟨fun none => shows.real (none ▸ member), ?_, ?_, ?_, ?_⟩
    · rw [shown]
      exact shows.first value member
    · rw [shown]
      exact shows.listed value member
    · exact fun child among => (kid child among).2
    · exact fun child among => ih child among (each child among) (kid child among).1

/-- Cutting a widget off its parent takes it off the lists of children. -/
theorem Shows.cut (shows : Shows heap live kids 0) (rooted : Widgets.Rooted ⟨heap, live⟩) (member : widget ∈ live) :
    Shows (cutOff heap widget) live (fun other => (kids other).erase widget) 0 ∧
      Widgets.Rooted ⟨cutOff heap widget, live⟩ ∧ (cutOff heap widget widget).parent = 0 := by
  have solid : widget ≠ 0 := fun none => shows.real (none ▸ member)
  by_cases root : (heap widget).parent = 0
  · -- A widget without a parent is on no list.
    have same : cutOff heap widget = heap := if_neg (not_not.mpr root)
    rw [same]
    refine ⟨shows.congr (fun _ _ => .refl _) fun other inside => ?_, rooted, root⟩
    apply List.erase_of_not_mem
    intro among
    have up := ((shows.kid other inside widget).mp among).2.2
    exact shows.real ((up.symm.trans root) ▸ inside)
  · have cut : cutOff heap widget = uiRemoveChild heap (heap widget).parent widget := if_pos root
    have unlinked := uiRemoveChild_unlinked root solid rfl
    rw [cut]
    refine ⟨shows.detach unlinked (rooted.above member root) member rfl, ?_, ?_⟩
    · have allowed : (WidgetUse.removeChild (heap widget).parent widget).Allowed ⟨heap, live⟩ := .inr member
      obtain ⟨after, settles, roots, -⟩ := removeChild_steps rooted allowed
      rwa [settles.unique (Settles.now fun _ => rfl)] at roots
    · rw [unlinked.parents, if_pos rfl]

/-- Below a widget of a family there is the same when the widget is taken off the lists of children. -/
theorem below_erase {members : Set Nat} (family : Kindred kids members) (member : widget ∈ members) {other : Nat} :
    Descends (fun other => (kids other).erase widget) widget other ↔ Descends kids widget other := by
  constructor
  · intro below
    induction below with
    | here => exact .here
    | under _ among ih => exact .under ih (List.mem_of_mem_erase among)
  · intro below
    induction below with
    | here => exact .here
    | @under node child above among ih =>
      -- The widget is no child of one below it.
      have differ : child ≠ widget := by
        rintro rfl
        exact family.acyclic (family.below member above) among above
      exact .under ih ((List.mem_erase_of_ne differ).mpr among)

/-- Destroying a widget in use gives back exactly the widgets below it, children in front of their parents, and does
nothing else but cut the widget off. -/
theorem Shows.destroy (shows : Shows heap live kids 0) (rooted : Widgets.Rooted ⟨heap, live⟩) (member : widget ∈ live) :
    ∃ freed : List Nat, (∀ other, other ∈ freed ↔ Descends kids widget other) ∧
      freed.Pairwise (fun earlier later => ¬ Descends kids earlier later) ∧
      ∀ rubbish : Nat → UiWidget, ∃ after,
        Settles (fun fuel => uiDestroyWidget rubbish fuel widget ⟨heap, []⟩) ⟨after, freed⟩ ∧
          ∀ other ∉ freed, after other = cutOff heap widget other := by
  obtain ⟨shows', rooted', -⟩ := shows.cut rooted member
  have family := shows.family rooted
  have family' := shows'.family rooted'
  -- The tree of the widget is the same before the cut and after it.
  obtain ⟨tree, rfl, grows⟩ := family.exists_tree member
  have stays : ∀ {part : RoseTree Nat}, Unfolds kids part → (∀ node ∈ part.postorder, Descends kids tree.value node) →
      Unfolds (fun other => (kids other).erase tree.value) part := by
    intro part grows inside
    induction part using RoseTree.fromChildren with
    | node value children ih =>
      obtain ⟨shown, each⟩ := grows
      refine ⟨?_, fun child among => ih child among (each child among) fun node below => ?_⟩
      · rw [shown, List.erase_of_not_mem]
        intro among
        have below := inside value (value_mem_postorder (.node value children))
        exact family.acyclic (family.below member below) among below
      · exact inside node (List.mem_append_left _ (mem_postorders.mpr ⟨child, among, below⟩))
  have grows' := stays grows fun node among => grows.mem_postorder.mp among
  have ordered := family.postorder_pairwise grows member
  have distinct : tree.postorder.Nodup := by
    apply ordered.imp
    rintro one two apart rfl
    exact apart .here
  refine ⟨tree.postorder, fun other => grows.mem_postorder, ordered, fun rubbish => ?_⟩
  exact uiDestroyWidget_settles rubbish tree ⟨heap, []⟩ (shows'.planted grows' member) distinct

/-- The widgets that are left show the children that are left. -/
theorem Shows.left (shows : Shows heap live kids 0) (rooted : Widgets.Rooted ⟨heap, live⟩) (member : widget ∈ live)
    {freed : List Nat} (gone : ∀ other, other ∈ freed ↔ Descends kids widget other)
    (same : ∀ other ∉ freed, after other = cutOff heap widget other) :
    Shows after (live.filter (· ∉ freed)) (fun other => (kids other).erase widget) 0 ∧
      Widgets.Rooted ⟨after, live.filter (· ∉ freed)⟩ := by
  obtain ⟨cut, roots, top⟩ := shows.cut rooted member
  have family := cut.family roots
  have left : ∀ {other}, other ∈ live.filter (· ∉ freed) ↔ other ∈ live ∧ other ∉ freed := by simp
  have below : ∀ other, other ∈ freed ↔ Descends (fun other => (kids other).erase widget) widget other := fun other =>
    (gone other).trans (below_erase (shows.family rooted) member).symm
  -- A widget that is left has no child below the destroyed one.
  have apart : ∀ other ∈ live, other ∉ freed → ∀ child ∈ (kids other).erase widget, child ∉ freed := by
    intro other inside stays child among again
    have up := (cut.kid other inside child).mp among
    rcases (below child).mp again with _ | @⟨parent, _, above, kid⟩
    · exact cut.real ((up.2.2.symm.trans top) ▸ inside)
    · have parentInside := family.below member above
      have same := family.single parent parentInside other inside child kid among
      exact stays ((below other).mpr (same ▸ above))
  refine ⟨⟨fun none => cut.real (left.mp none).1, ?_, ?_, ?_, ?_⟩, fun none => cut.real (left.mp none).1, ?_⟩
  · -- The lists of the widgets that are left hold none of the freed ones.
    intro other among
    obtain ⟨inside, stays⟩ := left.mp among
    apply (cut.listed other inside).frame
    · intro child kid
      rw [nextOf, same child (apart other inside stays child kid)]
      rfl
    · intro child kid
      rw [prevOf, same child (apart other inside stays child kid)]
      rfl
  · intro other among
    obtain ⟨inside, stays⟩ := left.mp among
    rw [same other stays]
    exact cut.first other inside
  · -- A child of a widget that is left is left as well.
    intro other among child
    obtain ⟨inside, stays⟩ := left.mp among
    rw [left]
    constructor
    · intro kid
      obtain ⟨member, real, up⟩ := (cut.kid other inside child).mp kid
      have left := apart other inside stays child kid
      exact ⟨⟨member, left⟩, real, by rw [same child left, up]⟩
    · rintro ⟨⟨member, left⟩, real, up⟩
      rw [same child left] at up
      exact (cut.kid other inside child).mpr ⟨member, real, up⟩
  · intro other among real root
    obtain ⟨inside, stays⟩ := left.mp among
    rw [same other stays] at root ⊢
    exact cut.alone other inside real root
  · intro other among
    obtain ⟨inside, stays⟩ := left.mp among
    obtain ⟨line, linked, lives⟩ := roots.rooted other inside
    -- Whoever is on the way up from a widget that is left is left as well.
    have clear : ∀ high ∈ line, high ∉ freed := fun high up again =>
      stays ((below other).mpr (((below high).mp again).trans (cut.below_line linked lives up)))
    refine ⟨line, linked.congr fun high up => ?_, fun high up => left.mpr ⟨lives high up, clear high up⟩⟩
    exact congrArg UiWidget.parent (same high (clear high up))

/-- Acts that change no links. -/
theorem Widgets.Mirrors.congr {widgets : Widgets} {family : WidgetFamily} (mirrors : widgets.Mirrors family)
    (same : ∀ widget, SameKin (widgets.heap widget) (after widget)) :
    Widgets.Mirrors { widgets with heap := after } family where
  members := mirrors.members
  shows := mirrors.shows.congr (fun widget _ => same widget) fun _ _ => rfl
  rooted := mirrors.rooted.congr fun widget => (same widget).parent

end

section

variable {widgets after : Widgets} {family : WidgetFamily}

/-- What the links show after a widget was made. -/
theorem Widgets.Mirrors.create (mirrors : widgets.Mirrors family) {parent widget : Nat} {bounds : UiRect}
    (allowed : (WidgetUse.create parent bounds widget).Allowed widgets)
    (settles : Settles (fun fuel => widgetStep fuel widgets (.create parent bounds widget)) after) :
    (family.step (.use (.create parent bounds widget))).members = after.live ∧
      Shows after.heap after.live (family.step (.use (.create parent bounds widget))).kids 0 := by
  obtain ⟨heap, live⟩ := widgets
  obtain ⟨above, fresh⟩ := allowed
  obtain ⟨fuel, ran⟩ := settles
  replace ran := ran fuel le_rfl
  rw [WidgetFamily.step]
  simp only [widgetStep, uiCreateWidget] at ran
  by_cases none : widget = 0
  · -- Without memory nothing is made.
    rw [if_pos none] at ran ⊢
    obtain rfl := Except.ok.inj ran
    exact ⟨mirrors.members, mirrors.shows⟩
  · rw [if_neg none] at ran ⊢
    have made := mirrors.shows.made mirrors.rooted none fresh parent bounds
    by_cases root : parent = 0
    · -- A widget without a parent is on no list.
      rw [if_neg (not_not.mpr root)] at ran
      obtain rfl := Except.ok.inj ran
      simp only [if_neg none, if_pos root]
      refine ⟨congrArg _ mirrors.members, made.settle ?_ ?_ ?_⟩
      · rw [Function.update_self]
        exact root
      · rw [Function.update_self]
        rfl
      · rw [Function.update_self]
        rfl
    · rw [if_pos root] at ran
      obtain ⟨⟨next, pointer⟩, made', ran⟩ := bind_eq_ok.mp ran
      obtain ⟨heap', attached, same⟩ := bind_eq_ok.mp made'
      obtain ⟨rfl, rfl⟩ := Prod.mk.inj (Except.ok.inj same)
      obtain rfl := Except.ok.inj ran
      simp only [if_neg none, if_neg root]
      have up : parent ∈ live := above.resolve_left root
      have differ : parent ≠ widget := fun same => fresh (same ▸ up)
      have shows := made.attach (uiAddChild_linked root none attached) (List.mem_cons_of_mem _ up) List.mem_cons_self
      rw [Function.update_of_ne differ] at shows
      exact ⟨congrArg _ mirrors.members, shows⟩

/-- What the links show after a child was attached. -/
theorem Widgets.Mirrors.addChild (mirrors : widgets.Mirrors family) {parent child : Nat}
    (allowed : (WidgetUse.addChild parent child).Allowed widgets)
    (settles : Settles (fun fuel => widgetStep fuel widgets (.addChild parent child)) after) :
    (family.step (.use (.addChild parent child))).members = after.live ∧
      Shows after.heap after.live (family.step (.use (.addChild parent child))).kids 0 := by
  obtain ⟨heap, live⟩ := widgets
  obtain ⟨above, below, root, -⟩ := allowed
  obtain ⟨fuel, ran⟩ := settles
  obtain ⟨next, attached, same⟩ := bind_eq_ok.mp (ran fuel le_rfl)
  obtain rfl := Except.ok.inj same
  rw [WidgetFamily.step]
  -- Null on either side changes nothing.
  by_cases none : parent = 0 ∨ child = 0
  · rw [uiAddChild, if_pos none] at attached
    obtain rfl := Except.ok.inj attached
    rw [if_pos none]
    exact ⟨mirrors.members, mirrors.shows⟩
  · rw [if_neg none]
    obtain ⟨real, given⟩ := not_or.mp none
    refine ⟨mirrors.members, ?_⟩
    -- The child was loose before, so it can be put at the end of the parent's list.
    apply (mirrors.shows.loosen (root given)).attach (uiAddChild_linked real given attached)
    · exact above.resolve_left real
    · exact below.resolve_left given

/-- What the links show after a child was taken off its parent. -/
theorem Widgets.Mirrors.removeChild (mirrors : widgets.Mirrors family) {parent child : Nat}
    (allowed : (WidgetUse.removeChild parent child).Allowed widgets) :
    Shows (uiRemoveChild widgets.heap parent child) widgets.live
      (family.step (.use (.removeChild parent child))).kids 0 := by
  obtain ⟨heap, live⟩ := widgets
  obtain ⟨members, shows, rooted⟩ := mirrors
  rw [WidgetFamily.step, members]
  by_cases taken : parent ∈ live ∧ child ∈ family.kids parent
  · -- The child is on the list of the parent exactly when it says so itself.
    obtain ⟨inside, among⟩ := taken
    obtain ⟨member, given, attached⟩ := (shows.kid parent inside child).mp among
    have real : parent ≠ 0 := fun none => shows.real (none ▸ inside)
    rw [if_pos ⟨inside, among⟩]
    exact shows.detach (uiRemoveChild_unlinked real given attached) inside member attached
  · rw [if_neg taken, uiRemoveChild, if_pos]
    · exact shows
    · by_contra some
      simp only [not_or, not_not] at some
      obtain ⟨real, given, attached⟩ := some
      have member : child ∈ live := allowed.resolve_left given
      have inside : parent ∈ live := attached ▸ rooted.above member (attached ▸ real)
      exact taken ⟨inside, (shows.kid parent inside child).mpr ⟨member, given, attached⟩⟩

/-- What one act does to the widgets is what it means for the family. -/
theorem WidgetChange.mirrors {act : WidgetAct} (change : WidgetChange widgets act after)
    (mirrors : widgets.Mirrors family) : after.Mirrors (family.step act) := by
  obtain ⟨allowed, done⟩ := change
  cases act with
  | use call =>
    -- Every call keeps the widgets rooted.
    have rooted : after.Rooted := by
      obtain ⟨other, settles, rooted, -⟩ := widgetStep_settles mirrors.rooted allowed
      rwa [settles.unique done] at rooted
    cases call with
    | create parent bounds widget =>
      obtain ⟨members, shows⟩ := mirrors.create allowed done
      exact ⟨members, shows, rooted⟩
    | addChild parent child =>
      obtain ⟨members, shows⟩ := mirrors.addChild allowed done
      exact ⟨members, shows, rooted⟩
    | removeChild parent child =>
      obtain rfl := Settles.unique done (Settles.now fun _ => rfl)
      refine ⟨?_, mirrors.removeChild allowed, rooted⟩
      rw [WidgetFamily.step]
      split_ifs <;> exact mirrors.members
  | destroy widget =>
    obtain ⟨rubbish, state, settles, rfl⟩ := done
    rw [WidgetFamily.step]
    by_cases none : widget = 0
    · -- Destroying nothing does nothing.
      have same : ∀ fuel, uiDestroyWidget rubbish (fuel + 1) widget ⟨widgets.heap, []⟩ = .ok ⟨widgets.heap, []⟩ := by
        intro fuel
        rw [uiDestroyWidget, if_pos none]
      obtain rfl := settles.unique (Settles.after 1 same)
      rw [if_pos none]
      simpa using mirrors
    · -- The subtree is freed, and the family loses exactly its members.
      have member : widget ∈ widgets.live := allowed.resolve_left none
      obtain ⟨freed, gone, -, destroys⟩ := mirrors.shows.destroy mirrors.rooted member
      obtain ⟨heap, ends, same⟩ := destroys rubbish
      obtain rfl := settles.unique ends
      obtain ⟨shows, rooted⟩ := mirrors.shows.left mirrors.rooted member gone same
      rw [if_neg none]
      refine ⟨?_, shows, rooted⟩
      rw [mirrors.members]
      apply List.filter_congr
      intro other _
      exact decide_eq_decide.mpr (not_congr (gone other).symm)
  -- Showing and hiding write no link.
  | setVisible widget visible =>
    subst done
    refine mirrors.congr fun other => ?_
    rw [uiSetVisible]
    split_ifs
    · refine sameKin_update ?_ other
      exact ⟨rfl, rfl, rfl, rfl⟩
    · exact .refl _
  -- Neither does enabling, nor setting the handlers.
  | setEnabled widget enabled =>
    subst done
    refine mirrors.congr fun other => ?_
    rw [uiSetEnabled]
    split_ifs
    · refine sameKin_update ?_ other
      exact ⟨rfl, rfl, rfl, rfl⟩
    · exact .refl _
  | equip widget userData onPaint onEvent onFocus =>
    subst done
    refine mirrors.congr fun other => sameKin_update ?_ other
    exact ⟨rfl, rfl, rfl, rfl⟩

/-- An act that is allowed comes back. -/
theorem exists_widgetChange (mirrors : widgets.Mirrors family) {act : WidgetAct} (allowed : act.Allowed widgets) :
    ∃ after, WidgetChange widgets act after := by
  cases act with
  | use call =>
    obtain ⟨after, settles, -⟩ := widgetStep_settles mirrors.rooted allowed
    exact ⟨after, allowed, settles⟩
  | destroy widget =>
    -- Destroying null frees nobody.
    by_cases none : widget = 0
    · refine ⟨_, allowed, fun _ => newWidget 0 ⟨0, 0, 0, 0⟩, ⟨widgets.heap, []⟩, Settles.after 1 fun fuel => ?_, rfl⟩
      rw [uiDestroyWidget, if_pos none]
    · -- The subtree is taken down to its last widget, whatever the handlers write.
      obtain ⟨freed, -, -, destroys⟩ := mirrors.shows.destroy mirrors.rooted (allowed.resolve_left none)
      obtain ⟨heap, settles, -⟩ := destroys fun _ => newWidget 0 ⟨0, 0, 0, 0⟩
      exact ⟨_, allowed, _, _, settles, rfl⟩
  | setVisible widget visible => exact ⟨_, allowed, rfl⟩
  | setEnabled widget enabled => exact ⟨_, allowed, rfl⟩
  | equip widget userData onPaint onEvent onFocus => exact ⟨_, allowed, rfl⟩

/-- Over every history the widgets mirror the family that the acts make. -/
theorem history_mirrors {first : Widgets} {acts : List WidgetAct} {last : Widgets}
    (run : Run WidgetChange first acts last) {family : WidgetFamily} (mirrors : first.Mirrors family) :
    last.Mirrors (acts.foldl WidgetFamily.step family) := by
  -- Induction on the history, one act at a time.
  induction run generalizing family with
  | nil => exact mirrors
  | cons head _ ih => exact ih (head.mirrors mirrors)

/-- Without widgets there is nothing to show. -/
theorem nothing_mirrors (heap : WidgetHeap) : Widgets.Mirrors ⟨heap, []⟩ ⟨[], fun _ => []⟩ where
  members := rfl
  shows := by
    -- There is no widget to say anything about.
    refine ⟨List.not_mem_nil, ?_, ?_, ?_, ?_⟩ <;> simp
  rooted := ⟨List.not_mem_nil, fun _ none => absurd none List.not_mem_nil⟩

/--
Over every history of making, moving, changing and destroying widgets, the links between the widgets in use show
exactly the ordered forest that the acts make, and every further act that is allowed comes back.

The children of a widget are linked both ways from the newest to the oldest, each of them points to its parent, and
what is left in memory that was given back does not matter.
-/
theorem widgets_refine_forest {heap : WidgetHeap} {acts : List WidgetAct} {last : Widgets}
    (run : Run WidgetChange ⟨heap, []⟩ acts last) :
    last.Mirrors (familyAfter acts) ∧ Kindred (familyAfter acts).kids {widget | widget ∈ last.live} ∧
      ∀ act : WidgetAct, act.Allowed last → ∃ after, WidgetChange last act after := by
  have mirrors := history_mirrors run (nothing_mirrors heap)
  exact ⟨mirrors, mirrors.shows.family mirrors.rooted, fun act allowed => exists_widgetChange mirrors allowed⟩

/-- A root with a child is made. -/
theorem nested_run : ∃ last, Run WidgetChange ⟨fun _ => newWidget 0 ⟨0, 0, 0, 0⟩, []⟩
    [.use (.create 0 ⟨0, 0, 9, 9⟩ 1), .use (.create 1 ⟨1, 1, 2, 2⟩ 2)] last ∧ last.live = [2, 1] := by
  refine ⟨_, .cons ⟨⟨.inl rfl, List.not_mem_nil⟩, Settles.now fun _ => rfl⟩ <|
    .cons ⟨⟨.inr List.mem_cons_self, by decide⟩, Settles.after 2 fun _ => rfl⟩ <| .nil _, rfl⟩

/-- A root with a child shows the child. -/
theorem nested_widgets_mirror : ∃ last : Widgets, last.Mirrors
    (familyAfter [.use (.create 0 ⟨0, 0, 9, 9⟩ 1), .use (.create 1 ⟨1, 1, 2, 2⟩ 2)]) := by
  obtain ⟨last, run, -⟩ := nested_run
  exact ⟨last, (widgets_refine_forest run).1⟩

/--
Destroying a widget gives back the widget and everything below it, each once and children in front of their parents.

No memory is read after it was given back: the result is the same whatever is written there.
-/
theorem destroy_frees_subtree {heap : WidgetHeap} {acts : List WidgetAct} {last : Widgets}
    (run : Run WidgetChange ⟨heap, []⟩ acts last) {widget : Nat} (member : widget ∈ last.live) :
    ∃ freed : List Nat, (∀ other, other ∈ freed ↔ Descends (familyAfter acts).kids widget other) ∧
      freed.Pairwise (fun earlier later => ¬ Descends (familyAfter acts).kids earlier later) ∧
      ∀ rubbish : Nat → UiWidget, ∃ after,
        Settles (fun fuel => uiDestroyWidget rubbish fuel widget ⟨last.heap, []⟩) ⟨after, freed⟩ ∧
          ∀ other ∉ freed, after other = cutOff last.heap widget other := by
  have mirrors := history_mirrors run (nothing_mirrors heap)
  exact mirrors.shows.destroy mirrors.rooted member

/-- The root of two widgets is given back with the other one. -/
theorem nested_widgets_freed : ∃ last : Widgets, last.live = [2, 1] ∧
    ∃ freed : List Nat, ∀ rubbish : Nat → UiWidget, ∃ after,
      Settles (fun fuel => uiDestroyWidget rubbish fuel 1 ⟨last.heap, []⟩) ⟨after, freed⟩ := by
  obtain ⟨last, run, live⟩ := nested_run
  -- The nested widget hangs below the first, so both are freed.
  obtain ⟨freed, -, -, destroys⟩ := destroy_frees_subtree run (show 1 ∈ last.live by rw [live]; decide)
  refine ⟨last, live, freed, fun rubbish => ?_⟩
  obtain ⟨after, settles, -⟩ := destroys rubbish
  exact ⟨after, settles⟩

end

end MiraOS
