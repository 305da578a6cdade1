import Mathlib.Data.List.Induction
import Mathlib.Data.List.InsertIdx
import MiraOS.Machine.Run
import MiraOS.Machine.Slots
import MiraOS.Machine.Threaded

/-! The linked lists of lib/common/ds.c, and the sequences that they stand for. -/

namespace MiraOS

open Machine

/-- A node: a pointer to data and one to the next node. -/
structure DsListNode where
  data : Nat
  next : Nat

/-- A list, over the memory of its nodes. -/
structure DsList where
  nodes : Nat → DsListNode
  head : Nat
  tail : Nat
  count : Nat

/-- Make a list in the memory that is given for it. -/
def dsListCreate (list : Bool) (nodes : Nat → DsListNode) : Option DsList :=
  if list then some ⟨nodes, 0, 0, 0⟩ else none

/-- Link a node to another one. -/
def linkNode (nodes : Nat → DsListNode) (node next : Nat) : Nat → DsListNode :=
  Function.update nodes node { nodes node with next := next }

/-- Push data behind the others, in the node that memory is given for, where zero is no pointer. -/
def dsListPush (list : DsList) (data node : Nat) : DsList :=
  if data = 0 then list
  else if node = 0 then list
  else
    let nodes := Function.update list.nodes node ⟨data, 0⟩
    -- The first node is head and tail at once.
    if list.tail = 0 then ⟨nodes, node, node, list.count + 1⟩
    else ⟨linkNode nodes list.tail node, list.head, node, list.count + 1⟩

/-- Take the first node out and return its data. -/
def dsListPop (list : DsList) : DsList × Nat :=
  if list.head = 0 then (list, 0)
  else
    let node := list.nodes list.head
    -- The last node leaves a list without a tail.
    let tail := if node.next = 0 then 0 else list.tail
    ({ list with head := node.next, tail := tail, count := list.count - 1 }, node.data)

/-- The node at a pointer, which must be one. -/
def loadNode (list : DsList) (node : Nat) : Except Halt DsListNode :=
  if node = 0 then .error .outOfBounds else .ok (list.nodes node)

/-- Follow a number of links, and remember the node before the one that is reached. -/
def nodeLoop (list : DsList) : Nat → Nat → Nat → Except Halt (Nat × Nat)
  | 0, prev, node => .ok (prev, node)
  | turns + 1, _, node => do
    let cell ← loadNode list node
    nodeLoop list turns node cell.next

/-- The data at an index. -/
def dsListGet (list : DsList) (index : Nat) : Except Halt Nat :=
  -- An index out of range gives no pointer.
  if list.count ≤ index then .ok 0
  else do
    let (_, node) ← nodeLoop list index 0 list.head
    let cell ← loadNode list node
    return cell.data

/-- Take the node at an index out. -/
def dsListRemove (list : DsList) (index : Nat) : Except Halt DsList :=
  if list.count ≤ index then .ok list
  else do
    let (prev, node) ← nodeLoop list index 0 list.head
    let cell ← loadNode list node
    -- The node before the last one becomes the tail.
    let tail := if node = list.tail then prev else list.tail
    if prev ≠ 0 then return ⟨linkNode list.nodes prev cell.next, list.head, tail, list.count - 1⟩
    else return ⟨list.nodes, cell.next, tail, list.count - 1⟩

/-- A use of a list. -/
inductive DsListUse where
  | push (data node : Nat)
  | pop
  | get (index : Nat)
  | remove (index : Nat)

/-- The list after a use. -/
def dsListStep (list : DsList) : DsListUse → Except Halt DsList
  | .push data node => .ok (dsListPush list data node)
  | .pop => .ok (dsListPop list).1
  | .get _ => .ok list
  | .remove index => dsListRemove list index

/-- The list after uses one after another. -/
def dsListRun (list : DsList) (uses : List DsListUse) : Except Halt DsList := uses.foldlM dsListStep list

/-- An item of the sequence that a list stands for: its data, and the node that holds it. -/
structure ListItem where
  node : Nat
  data : Nat

/-- The sequence after a use. -/
def itemsStep (items : List ListItem) : DsListUse → List ListItem
  | .push data node => if data = 0 ∨ node = 0 then items else items ++ [⟨node, data⟩]
  | .pop => items.tail
  | .get _ => items
  | .remove index => items.eraseIdx index

/-- The sequence after uses one after another. -/
def itemsRun (uses : List DsListUse) : List ListItem := uses.foldl itemsStep []

/-- The list stands for the sequence: its links lead along the nodes of the items up to the tail. -/
structure DsList.Represents (list : DsList) (items : List ListItem) : Prop where
  threaded : Threaded (fun node => (list.nodes node).next) list.head list.tail (items.map (·.node))
  data : ∀ item ∈ items, (list.nodes item.node).data = item.data
  count : list.count = items.length

/-- Memory that is given for a node is not in use for another one. -/
def FreshNodes (uses : List DsListUse) : Prop :=
  ∀ before data node, before ++ [.push data node] <+: uses → node ∉ (itemsRun before).map (·.node)

@[simp] theorem linkNode_self (nodes : Nat → DsListNode) (node next : Nat) :
    (linkNode nodes node next node).next = next := by
  rw [linkNode, Function.update_self]

theorem linkNode_other {nodes : Nat → DsListNode} {node next other : Nat} (apart : other ≠ node) :
    linkNode nodes node next other = nodes other := Function.update_of_ne apart _ _

@[simp] theorem linkNode_data (nodes : Nat → DsListNode) (node next other : Nat) :
    (linkNode nodes node next other).data = (nodes other).data :=
  @update_field _ _ DsListNode.data nodes node { nodes node with next := next } rfl other

section

variable {list : DsList} {items : List ListItem}

/-- A push that gets data and memory appends an item. -/
theorem dsListPush_represents (holds : list.Represents items) {data node : Nat} (given : data ≠ 0)
    (granted : node ≠ 0) (fresh : node ∉ items.map (·.node)) :
    (dsListPush list data node).Represents (items ++ [⟨node, data⟩]) := by
  have threaded := holds.threaded
  -- The new node is stored over none of the old ones.
  have unstored : ∀ item ∈ items, item.node ≠ node := fun item listed same =>
    fresh (same ▸ List.mem_map_of_mem listed)
  rw [dsListPush, if_neg given, if_neg granted]
  by_cases empty : list.tail = 0
  · have none : items = [] := List.map_eq_nil_iff.mp (threaded.tail_eq_zero.mp empty)
    rw [if_pos empty]
    refine ⟨?_, ?_, ?_⟩
    · have pushed : Threaded (fun other => (Function.update list.nodes node ⟨data, 0⟩ other).next) _ _ _ :=
        threaded.push fresh granted (by simp) (by simp [none]) (by simp [none])
      rw [if_pos empty] at pushed
      rw [List.map_append]
      exact pushed
    · simp [none]
    · simp [holds.count]
  · rw [if_neg empty]
    -- The tail is a node of the list, so it is not the new one.
    have apart : list.tail ≠ node := by
      have some : 0 < (items.map (·.node)).length :=
        List.length_pos_iff.mpr fun none => empty (threaded.tail_eq_zero.mpr none)
      rw [threaded.tail]
      exact fun same => fresh (same ▸ nodeAt_mem (by omega))
    -- The data are stored first, and then the link of the old tail.
    set stored := Function.update list.nodes node (⟨data, 0⟩ : DsListNode) with storedIs
    have old : ∀ other, other ≠ node → stored other = list.nodes other := fun other differs =>
      Function.update_of_ne differs _ _
    refine ⟨?_, ?_, ?_⟩
    · have pushed : Threaded (fun other => (linkNode stored list.tail node other).next)
          (if list.tail = 0 then node else list.head) node (items.map (·.node) ++ [node]) := by
        refine threaded.push fresh granted ?_ (fun _ => linkNode_self _ _ _) ?_
        · rw [linkNode_other (Ne.symm apart), storedIs, Function.update_self]
        · intro other member differs
          rw [linkNode_other differs, old other fun same => fresh (same ▸ member)]
      rw [if_neg empty] at pushed
      rw [List.map_append]
      exact pushed
    · intro item listed
      dsimp only
      rw [linkNode_data]
      rcases List.mem_append.mp listed with older | newer
      · rw [old _ (unstored item older)]
        exact holds.data item older
      · rw [List.mem_singleton.mp newer, storedIs, Function.update_self]
    · simp [holds.count]

/-- A pop takes the first item and returns its data. -/
theorem dsListPop_represents (holds : list.Represents items) :
    (dsListPop list).1.Represents items.tail ∧ (dsListPop list).2 = (items.head?.map (·.data)).getD 0 := by
  have threaded := holds.threaded
  cases items with
  | nil =>
    have none : list.head = 0 := threaded.head
    rw [dsListPop, if_pos none]
    exact ⟨holds, rfl⟩
  | cons item rest =>
    have first : list.head = item.node := threaded.head
    have real : list.head ≠ 0 := fun none => threaded.real (by rw [← none, first]; exact List.mem_cons_self)
    rw [dsListPop, if_neg real]
    have inside : 0 < ((item :: rest).map (·.node)).length := Nat.succ_pos _
    -- A pop unlinks the node at the first place.
    have erased := threaded.erase inside (fun some => absurd some (Nat.lt_irrefl 0)) fun _ _ _ => rfl
    rw [if_neg (Nat.lt_irrefl 0), if_neg (Nat.lt_irrefl 0)] at erased
    -- The first node is the last one exactly when it has no next one.
    have second : (list.nodes list.head).next = nodeAt ((item :: rest).map (·.node)) 1 := by
      rw [threaded.head]
      exact threaded.next 0 inside
    have ends : nodeAt ((item :: rest).map (·.node)) 0 = list.tail ↔ (list.nodes list.head).next = 0 := by
      rw [threaded.tail, nodeAt_inj threaded.distinct inside (Nat.sub_lt inside Nat.one_pos), second]
      constructor
      · intro single
        exact nodeAt_past (by omega)
      · intro none
        by_contra more
        exact threaded.real (none ▸ nodeAt_mem (by omega))
    -- The test of the code asks for the next node instead of the tail.
    refine ⟨⟨?_, ?_, ?_⟩, ?_⟩
    · rw [if_congr ends rfl rfl, ← threaded.head] at erased
      exact erased
    · exact fun other listed => holds.data other (List.mem_cons_of_mem item listed)
    · simp [holds.count]
    · rw [first]
      exact holds.data item List.mem_cons_self

/-- A node of the items can be loaded. -/
theorem loadNode_eq (holds : list.Represents items) {index : Nat} (inside : index < items.length) :
    loadNode list (nodeAt (items.map (·.node)) index) =
      .ok (list.nodes (nodeAt (items.map (·.node)) index)) := by
  have member : nodeAt (items.map (·.node)) index ∈ items.map (·.node) :=
    nodeAt_mem (by rwa [List.length_map])
  -- The place holds a node of the list, and none of them is null.
  have real : nodeAt (items.map (·.node)) index ≠ 0 := fun none => holds.threaded.real (none ▸ member)
  rw [loadNode, if_neg real]

/-- Following links in the code leads along the nodes of the items. -/
theorem nodeLoop_eq (holds : list.Represents items) {index : Nat} (inside : index < items.length) :
    nodeLoop list index 0 list.head =
      .ok (if 0 < index then nodeAt (items.map (·.node)) (index - 1) else 0,
        nodeAt (items.map (·.node)) index) := by
  have threaded := holds.threaded
  -- From any node on, the node before the last one is the one of the turn before.
  have along : ∀ turns start prev, start + turns < items.length →
      nodeLoop list turns prev (nodeAt (items.map (·.node)) start) =
        .ok (if 0 < turns then nodeAt (items.map (·.node)) (start + turns - 1) else prev,
          nodeAt (items.map (·.node)) (start + turns)) := by
    intro turns
    induction turns with
    | zero =>
      intro start prev _
      rfl
    | succ turns ih =>
      intro start prev more
      have next := threaded.next start (by rw [List.length_map]; omega)
      rw [nodeLoop, loadNode_eq holds (by omega), ok_bind, next, ih (start + 1) _ (by omega)]
      have places : start + 1 + turns = start + (turns + 1) := by omega
      rw [places, if_pos (Nat.succ_pos turns)]
      by_cases some : 0 < turns
      · rw [if_pos some]
      · rw [if_neg some, show start + (turns + 1) - 1 = start by omega]
  rw [threaded.head, along index 0 0 (by omega), Nat.zero_add]

/-- The data at an index of the sequence. -/
theorem dsListGet_represents (holds : list.Represents items) (index : Nat) :
    dsListGet list index = .ok ((items[index]?.map (·.data)).getD 0) := by
  rw [dsListGet, holds.count]
  -- Inside of the list the loop ends at the node of the item.
  by_cases inside : index < items.length
  · have node : nodeAt (items.map (·.node)) index = items[index].node := by
      rw [nodeAt, List.getElem?_map, List.getElem?_eq_getElem inside]
      rfl
    rw [if_neg (by omega), nodeLoop_eq holds inside, ok_bind]
    dsimp only
    rw [loadNode_eq holds inside, ok_bind, node, holds.data _ (List.getElem_mem inside),
      List.getElem?_eq_getElem inside]
    rfl
  · rw [if_pos (by omega), List.getElem?_eq_none (by omega)]
    rfl

/-- A removal takes the item at an index out of the sequence. -/
theorem dsListRemove_represents (holds : list.Represents items) (index : Nat) :
    ∃ after, dsListRemove list index = .ok after ∧ after.Represents (items.eraseIdx index) := by
  have threaded := holds.threaded
  rw [dsListRemove, holds.count]
  by_cases inside : index < items.length
  · have among : index < (items.map (·.node)).length := by rwa [List.length_map]
    rw [if_neg (by omega), nodeLoop_eq holds inside, ok_bind]
    dsimp only
    rw [loadNode_eq holds inside, ok_bind]
    -- What is left of the items keeps its data, and there is one item less.
    have kept : ∀ item ∈ items.eraseIdx index, (list.nodes item.node).data = item.data := fun item listed =>
      holds.data item ((List.eraseIdx_sublist items index).subset listed)
    have less : items.length - 1 = (items.eraseIdx index).length := (List.length_eraseIdx_of_lt inside).symm
    have names : (items.eraseIdx index).map (·.node) = (items.map (·.node)).eraseIdx index :=
      (List.eraseIdx_map _ _ _).symm
    -- Behind the first node the one before is linked again; else the head moves.
    by_cases first : 0 < index
    · rw [if_pos first]
      have before : nodeAt (items.map (·.node)) (index - 1) ∈ items.map (·.node) := nodeAt_mem (by omega)
      have real : nodeAt (items.map (·.node)) (index - 1) ≠ 0 := fun none => threaded.real (none ▸ before)
      rw [if_pos real]
      refine ⟨_, rfl, ?_, ?_, less⟩
      · -- The node before the removed one is linked to the one behind it.
        have erased : Threaded (fun node => (linkNode list.nodes (nodeAt (items.map (·.node)) (index - 1))
            (list.nodes (nodeAt (items.map (·.node)) index)).next node).next) _ _ _ :=
          threaded.erase among (fun _ => linkNode_self _ _ _) fun other _ apart => by
            rw [linkNode_other (apart first)]
        rw [if_pos first, if_pos first] at erased
        rw [names]
        exact erased
      · intro item listed
        dsimp only
        rw [linkNode_data]
        exact kept item listed
    · rw [if_neg first]
      refine ⟨_, rfl, ?_, kept, less⟩
      rw [names]
      -- The first node is removed by moving the head.
      have erased := threaded.erase among (fun some => absurd some first) (fun _ _ _ => rfl)
      rw [if_neg first, if_neg first] at erased
      exact erased
  · rw [if_pos (by omega), List.eraseIdx_of_length_le (by omega)]
    exact ⟨list, rfl, holds⟩

/-- Every use takes a list to one that stands for the sequence after the use. -/
theorem dsListStep_represents (holds : list.Represents items) {use : DsListUse}
    (fresh : ∀ data node, use = .push data node → node ∉ items.map (·.node)) :
    ∃ after, dsListStep list use = .ok after ∧ after.Represents (itemsStep items use) := by
  -- Only a push and a removal change what the list stands for in more than its front.
  cases use with
  | push data node =>
    refine ⟨_, rfl, ?_⟩
    rw [itemsStep]
    by_cases refused : data = 0 ∨ node = 0
    · rw [if_pos refused, dsListPush]
      rcases refused with none | none
      · rwa [if_pos none]
      · rw [if_pos none]
        split_ifs <;> exact holds
    · rw [if_neg refused]
      rw [not_or] at refused
      exact dsListPush_represents holds refused.1 refused.2 (fresh data node rfl)
  | pop => exact ⟨_, rfl, (dsListPop_represents holds).1⟩
  | get index => exact ⟨list, rfl, holds⟩
  | remove index => exact dsListRemove_represents holds index

/-- A history of uses takes a list to one that stands for the sequence at its end. -/
theorem dsListRun_represents (start : list.Represents []) {uses : List DsListUse} (fresh : FreshNodes uses) :
    ∃ after, dsListRun list uses = .ok after ∧ after.Represents (itemsRun uses) := by
  -- From the last use backwards, since fresh nodes are asked of the sequence before each push.
  induction uses using List.reverseRecOn with
  | nil => exact ⟨list, rfl, start⟩
  | append_singleton front last ih =>
    obtain ⟨middle, ran, stands⟩ := ih fun before data node inside =>
      fresh before data node (inside.trans (List.prefix_append _ _))
    have unused : ∀ data node, last = .push data node → node ∉ (itemsRun front).map (·.node) := by
      rintro data node rfl
      exact fresh front data node List.prefix_rfl
    obtain ⟨after, stepped, final⟩ := dsListStep_represents stands unused
    refine ⟨after, ?_, ?_⟩
    · rw [dsListRun, List.foldlM_append]
      refine bind_eq_ok.mpr ⟨middle, ran, ?_⟩
      rw [List.foldlM_cons, stepped]
      rfl
    · rw [itemsRun, List.foldl_append]
      exact final

end

end MiraOS
