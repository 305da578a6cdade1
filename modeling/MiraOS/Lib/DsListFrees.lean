import Mathlib.Data.List.Perm.Basic
import MiraOS.Lib.DsList
import MiraOS.Machine.Traced

/-! The memory that the linked lists of lib/common/ds.c give back, over their whole life. -/

namespace MiraOS

open Machine

/-- What a pop frees: the first node. Its data go to the caller. -/
def dsListPopFrees (list : DsList) : List Nat := if list.head = 0 then [] else [list.head]

/-- What a removal frees: the data and the node at an index. -/
def dsListRemoveFrees (list : DsList) (index : Nat) : Except Halt (List Nat) :=
  if list.count ≤ index then .ok []
  else do
    let (_, node) ← nodeLoop list index 0 list.head
    let cell ← loadNode list node
    return [cell.data, node]

/-- What a use frees, in order. -/
def dsListFrees (list : DsList) : DsListUse → Except Halt (List Nat)
  | .pop => .ok (dsListPopFrees list)
  | .remove index => dsListRemoveFrees list index
  | _ => .ok []

/-- The list after uses one after another, with all that they free. -/
def dsListLedger : DsList → List DsListUse → Except Halt (DsList × List Nat)
  | list, [] => .ok (list, [])
  | list, use :: rest => do
    let freed ← dsListFrees list use
    let after ← dsListStep list use
    let (final, later) ← dsListLedger after rest
    return (final, freed ++ later)

/-- The loop that frees all nodes with their data. What is freed may be written over. -/
def dsListDestroyLoop (scribble : Nat → (Nat → DsListNode) → Nat → DsListNode) :
    Nat → (Nat → DsListNode) → Nat → Except Halt (List Nat)
  | 0, _, _ => .error .outOfFuel
  | fuel + 1, nodes, node =>
    if node = 0 then .ok []
    else do
      let data := (nodes node).data
      let next := (nodes node).next
      let rest ← dsListDestroyLoop scribble fuel (scribble node (scribble data nodes)) next
      return data :: node :: rest

/-- Free a list with all of its nodes and their data; the list itself is the last block. -/
def dsListDestroy (scribble : Nat → (Nat → DsListNode) → Nat → DsListNode) (fuel self : Nat) (list : DsList) :
    Except Halt (List Nat) := do
  if self = 0 then return []
  let freed ← dsListDestroyLoop scribble fuel list.nodes list.head
  return freed ++ [self]

/-- The blocks that an item holds. -/
def ListItem.blocks (item : ListItem) : List Nat := [item.data, item.node]

/-- The blocks that a use takes over: the data, and the memory that is given for the node. -/
def DsListUse.taken : DsListUse → List Nat
  | .push data node => if data = 0 ∨ node = 0 then [] else [data, node]
  | _ => []

/-- The data that a use hands back to the caller. -/
def DsListUse.returned (items : List ListItem) : DsListUse → List Nat
  | .pop => items.head?.toList.map (·.data)
  | _ => []

/-- The blocks that a use frees, read off the sequence. -/
def DsListUse.freed (items : List ListItem) : DsListUse → List Nat
  | .pop => items.head?.toList.map (·.node)
  | .remove index => items[index]?.toList.flatMap ListItem.blocks
  | _ => []

/-- What is read off the sequence along uses. -/
def alongItems (reads : List ListItem → DsListUse → List Nat) : List ListItem → List DsListUse → List Nat
  | _, [] => []
  | items, use :: rest => reads items use ++ alongItems reads (itemsStep items use) rest

/-- Memory given for a node is no node in use, and the data are no node of the list. -/
def OwnBlocks : List ListItem → List DsListUse → Prop
  | _, [] => True
  | items, use :: rest =>
    (∀ data node, use = .push data node → node ∉ items.map (·.node) ∧ data ≠ node ∧
      data ∉ items.map (·.node) ∧ node ∉ items.map (·.data)) ∧ OwnBlocks (itemsStep items use) rest

section

variable {list : DsList} {items : List ListItem}

/-- Each block that a use takes over is in the sequence, is freed or is handed back. -/
theorem blocks_balance (items : List ListItem) (use : DsListUse) :
    (use.freed items ++ use.returned items ++ (itemsStep items use).flatMap ListItem.blocks).Perm
      (use.taken ++ items.flatMap ListItem.blocks) := by
  -- What is freed, handed back and still there is what was there, with what was taken over.
  cases use with
  | push data node =>
    rw [itemsStep, DsListUse.taken]
    split_ifs with refused
    · exact List.Perm.refl _
    · rw [List.flatMap_append]
      show (items.flatMap ListItem.blocks ++ [data, node]).Perm _
      exact List.perm_append_comm
  | pop =>
    cases items with
    | nil => exact List.Perm.refl _
    | cons item rest => exact List.Perm.swap _ _ _
  | get index => exact List.Perm.refl _
  -- The item at the index is freed and is no longer there; behind the end nothing is.
  | remove index =>
    show (items[index]?.toList.flatMap ListItem.blocks ++ [] ++ (items.eraseIdx index).flatMap ListItem.blocks).Perm _
    rw [List.append_nil]
    by_cases inside : index < items.length
    · rw [List.getElem?_eq_getElem inside]
      have perm : (items[index] :: items.eraseIdx index).Perm items := List.getElem_cons_eraseIdx_perm inside
      exact perm.flatMap_right ListItem.blocks
    · rw [List.getElem?_eq_none (by omega), List.eraseIdx_of_length_le (by omega)]
      exact List.Perm.refl _

/-- What a use frees is read off the sequence. -/
theorem dsListFrees_represents (holds : list.Represents items) (use : DsListUse) :
    dsListFrees list use = .ok (use.freed items) := by
  cases use with
  | push => rfl
  | get => rfl
  -- The head of a list with items is not null, and it is the node that is freed.
  | pop =>
    have head := holds.threaded.head
    rw [dsListFrees, dsListPopFrees]
    cases items with
    | nil =>
      rw [if_pos (show list.head = 0 from head)]
      rfl
    | cons item rest =>
      have first : list.head = item.node := head
      have real : item.node ≠ 0 := fun none => holds.threaded.real (by rw [← none]; exact List.mem_cons_self)
      rw [first, if_neg real]
      rfl
  -- The loop stands at the node of the index, which holds the data of its item.
  | remove index =>
    rw [dsListFrees, dsListRemoveFrees, holds.count, DsListUse.freed]
    by_cases inside : index < items.length
    · have node : nodeAt (items.map (·.node)) index = items[index].node := by
        rw [nodeAt, List.getElem?_map, List.getElem?_eq_getElem inside]
        rfl
      rw [if_neg (by omega), nodeLoop_eq holds inside, ok_bind]
      dsimp only
      rw [loadNode_eq holds inside, ok_bind, node, holds.data _ (List.getElem_mem inside),
        List.getElem?_eq_getElem inside]
      rfl
    · rw [if_pos (by omega), List.getElem?_eq_none (by omega)]
      rfl

/-- What is freed changes nothing but itself. -/
def Scribbles (scribble : Nat → (Nat → DsListNode) → Nat → DsListNode) : Prop :=
  ∀ block nodes other, other ≠ block → scribble block nodes other = nodes other

/-- No data are a node. -/
def Unshared (items : List ListItem) : Prop := ∀ one ∈ items, ∀ other ∈ items, one.data ≠ other.node

/-- The loop frees all items in order, whatever becomes of the freed ones. -/
theorem dsListDestroyLoop_eq {scribble : Nat → (Nat → DsListNode) → Nat → DsListNode} (scribbles : Scribbles scribble)
    {nodes : Nat → DsListNode} {node fuel : Nat} (distinct : (items.map (·.node)).Nodup) (apart : Unshared items)
    (linked : Visits (fun node => (nodes node).next) node (items.map (·.node)))
    (data : ∀ item ∈ items, (nodes item.node).data = item.data) (enough : items.length < fuel) :
    dsListDestroyLoop scribble fuel nodes node = .ok (items.flatMap ListItem.blocks) := by
  induction items generalizing nodes node fuel with
  | nil =>
    obtain ⟨fuel, rfl⟩ : ∃ less, fuel = less + 1 := ⟨fuel - 1, by simp at enough; omega⟩
    rw [dsListDestroyLoop, if_pos (show node = 0 from linked)]
    rfl
  | cons item rest ih =>
    obtain ⟨fuel, rfl⟩ : ∃ less, fuel = less + 1 := ⟨fuel - 1, by simp at enough; omega⟩
    obtain ⟨rfl, real, onward⟩ := linked
    obtain ⟨absent, others⟩ := List.nodup_cons.mp distinct
    -- The nodes behind this one are neither freed data nor the freed node.
    have kept : ∀ other ∈ rest, scribble item.node (scribble (nodes item.node).data nodes) other.node =
        nodes other.node := by
      intro other among
      have behind : other.node ≠ item.node := fun same => absent (List.mem_map.mpr ⟨other, among, same⟩)
      have beside : other.node ≠ (nodes item.node).data := fun same =>
        apart item List.mem_cons_self other (List.mem_cons_of_mem item among)
          ((data item List.mem_cons_self).symm.trans same.symm)
      rw [scribbles _ _ _ behind, scribbles _ _ _ beside]
    have behind := @ih (scribble item.node (scribble (nodes item.node).data nodes)) (nodes item.node).next fuel others
      (fun one among other with_it => apart one (List.mem_cons_of_mem item among) other
        (List.mem_cons_of_mem item with_it))
      (onward.congr fun other among => by
        obtain ⟨found, listed, rfl⟩ := List.mem_map.mp among
        rw [kept found listed])
      (fun other among => by rw [kept other among, data other (List.mem_cons_of_mem item among)])
      (by simpa using enough)
    rw [dsListDestroyLoop, if_neg real]
    simp only [behind]
    rw [data item List.mem_cons_self]
    rfl

/-- The nodes of a list are visited in the order of its items. -/
theorem DsList.Represents.visits (holds : list.Represents items) :
    Visits (fun node => (list.nodes node).next) list.head (items.map (·.node)) := by
  have threaded := holds.threaded
  -- From any place on, the links lead along the nodes that are left.
  have along : ∀ (rest : List Nat) (place : Nat), (items.map (·.node)).drop place = rest →
      Visits (fun node => (list.nodes node).next) (nodeAt (items.map (·.node)) place) rest := by
    intro rest
    induction rest with
    | nil =>
      intro place none
      exact nodeAt_past (List.drop_eq_nil_iff.mp none)
    -- The node at the place is the first of the rest, and its link leads to the next place.
    | cons node rest ih =>
      intro place split
      have inside : place < (items.map (·.node)).length := by
        by_contra past
        rw [List.drop_eq_nil_of_le (by omega)] at split
        cases split
      rw [List.drop_eq_getElem_cons inside] at split
      obtain ⟨here, later⟩ := List.cons.inj split
      have same : nodeAt (items.map (·.node)) place = node := by
        rw [nodeAt, List.getElem?_eq_getElem inside, here]
        rfl
      refine ⟨same, fun none => threaded.real (by rw [← none, ← same]; exact nodeAt_mem inside), ?_⟩
      have next : (list.nodes (nodeAt (items.map (·.node)) place)).next = nodeAt (items.map (·.node)) (place + 1) :=
        threaded.next place inside
      rw [same] at next
      show Visits _ (list.nodes node).next rest
      rw [next]
      exact ih (place + 1) later
  rw [threaded.head]
  exact along _ 0 rfl

/-- Uses with blocks of their own keep data and nodes apart. -/
theorem Unshared.step (apart : Unshared items) {use : DsListUse}
    (own : ∀ data node, use = .push data node → node ∉ items.map (·.node) ∧ data ≠ node ∧
      data ∉ items.map (·.node) ∧ node ∉ items.map (·.data)) : Unshared (itemsStep items use) := by
  -- Uses that take over nothing keep what is apart, and a push adds one item with blocks of its own.
  cases use with
  | push data node =>
    rw [itemsStep]
    split_ifs with refused
    · exact apart
    · obtain ⟨-, differ, stranger, alien⟩ := own data node rfl
      -- Either item may be the new one.
      intro one among other listed
      rcases List.mem_append.mp among with old | new
      · rcases List.mem_append.mp listed with older | newer
        · exact apart one old other older
        · obtain rfl := List.mem_singleton.mp newer
          exact fun same => alien (List.mem_map.mpr ⟨one, old, same⟩)
      · obtain rfl := List.mem_singleton.mp new
        rcases List.mem_append.mp listed with older | newer
        · exact fun same => stranger (List.mem_map.mpr ⟨other, older, same.symm⟩)
        · obtain rfl := List.mem_singleton.mp newer
          exact differ
  | pop =>
    exact fun one among other listed => apart one (List.mem_of_mem_tail among) other (List.mem_of_mem_tail listed)
  | get index => exact apart
  | remove index =>
    have fewer := (List.eraseIdx_sublist items index).subset
    exact fun one among other listed => apart one (fewer among) other (fewer listed)

/-- Over a history of uses, what they free is read off the sequence, and the list stands for it at the end. -/
theorem dsListLedger_represents (holds : list.Represents items) (apart : Unshared items) {uses : List DsListUse}
    (own : OwnBlocks items uses) :
    ∃ after, dsListLedger list uses = .ok (after, alongItems (fun items use => use.freed items) items uses) ∧
      after.Represents (uses.foldl itemsStep items) ∧ Unshared (uses.foldl itemsStep items) := by
  -- Induction on the uses: each step frees what the items say, and keeps the list.
  induction uses generalizing list items with
  | nil => exact ⟨list, rfl, holds, apart⟩
  | cons use rest ih =>
    obtain ⟨here, later⟩ := own
    obtain ⟨middle, stepped, stands⟩ := dsListStep_represents holds fun data node pushed => (here data node pushed).1
    obtain ⟨after, ran, last, still⟩ := ih stands (apart.step here) later
    refine ⟨after, ?_, last, still⟩
    rw [dsListLedger, dsListFrees_represents holds, ok_bind, stepped, ok_bind, ran]
    rfl

/-- Over a history of uses, each block that was taken over is in the sequence at the end, was freed or handed back. -/
theorem history_balance (items : List ListItem) (uses : List DsListUse) :
    (alongItems (fun items use => use.freed items) items uses ++
        alongItems (fun items use => use.returned items) items uses ++
        (uses.foldl itemsStep items).flatMap ListItem.blocks).Perm
      (uses.flatMap DsListUse.taken ++ items.flatMap ListItem.blocks) := by
  -- The balance of each step, added up.
  induction uses generalizing items with
  | nil => exact List.Perm.refl _
  | cons use rest ih =>
    have here := blocks_balance items use
    have later := ih (itemsStep items use)
    rw [List.perm_iff_count] at here later ⊢
    intro block
    have one := here block
    have others := later block
    simp only [alongItems, List.foldl_cons, List.flatMap_cons, List.count_append] at one others ⊢
    omega

end

end MiraOS
