import Mathlib.Data.List.Find
import Mathlib.Logic.Relation
import MiraOS.Fs.VfsTree

/-! How a file tree grows: one node at a time, each below a parent that has no child of its name. -/

namespace MiraOS

open Machine

/-- A name that a path can give to a node. -/
structure Component (name : List UInt8) : Prop where
  some : name ≠ []
  short : name.length ≤ vfsNameMax
  -- No slash is part of a name.
  plain : 0x2F ∉ name

/-- The child of a node with a name, zero if there is none. -/
def Vfs.Child (vfs : Vfs) (dir : Nat) (name : List UInt8) (child : Nat) : Prop :=
  Settles (fun fuel => vfsFindChild fuel dir name vfs) child

/--
One change on the way to more nodes.

The parents that may get a child are a parameter, as are the bytes of a new file.
-/
inductive Grow (allowed : VfsNode → Prop) (size : Nat) (vfs : Vfs) : Vfs → Prop where
  -- A node that is linked in below a parent that has no child of its name.
  | linked {parent child : Nat} {node : VfsNode} (inside : parent ∈ vfs.linked)
      (may : allowed (vfs.nodes parent)) (new : child ∉ vfs.linked) (real : child ≠ 0) (fits : NewNode vfs node)
      (bare : node.childCount = 0) (bytes : size = 0 → node.data = 0) (named : Component node.name)
      (missing : vfs.Child parent node.name 0) :
      Grow allowed size vfs (vfsAddChild parent child (vfs.withNode child node))
  -- Memory outside the tree that is written or given back.
  | spareNode {child : Nat} (new : child ∉ vfs.linked) (node : VfsNode) :
      Grow allowed size vfs (vfs.withNode child node)
  | spareBlock {block : Nat} (unused : ∀ other ∈ vfs.linked, (vfs.nodes other).data ≠ block)
      (bytes : List UInt8) : Grow allowed size vfs (vfs.withBlock block bytes)
  | freed (pointer : Nat) : Grow allowed size vfs (vfs.kfree pointer)

/-- Any number of changes, one after the other. -/
def Growth (allowed : VfsNode → Prop) (size : Nat) : Vfs → Vfs → Prop :=
  Relation.ReflTransGen (Grow allowed size)

/-- The bytes of a component are no slashes, and no more than asked for. -/
theorem takeComponent_plain (limit : Nat) (path : List UInt8) :
    (takeComponent limit path).1.length ≤ limit ∧ 0x2F ∉ (takeComponent limit path).1 := by
  -- The component ends at the limit, at the end of the path or in front of a slash.
  induction limit generalizing path with
  | zero => exact ⟨Nat.le_refl _, List.not_mem_nil⟩
  | succ limit ih =>
    cases path with
    | nil => exact ⟨Nat.zero_le _, List.not_mem_nil⟩
    | cons byte path =>
      rw [takeComponent]
      by_cases slash : byte = 0x2F
      · rw [if_pos slash]
        exact ⟨Nat.zero_le _, List.not_mem_nil⟩
      · rw [if_neg slash]
        obtain ⟨short, plain⟩ := ih path
        refine ⟨Nat.succ_le_succ short, fun among => ?_⟩
        rcases List.mem_cons.mp among with same | among
        · exact slash same.symm
        · exact plain among

/-- A component that is not empty can be a name. -/
theorem takeComponent_component {path component rest : List UInt8}
    (taken : takeComponent vfsNameMax path = (component, rest)) (some : component ≠ []) :
    Component component := by
  -- The copied component is shorter than the buffer and holds no slash.
  obtain ⟨short, plain⟩ := takeComponent_plain vfsNameMax path
  rw [taken] at short plain
  exact ⟨some, short, plain⟩

section

variable {vfs next : Vfs} {dir child : Nat} {kids : List Nat} {name : List UInt8}

/-- No sibling is null. -/
theorem Siblings.solid {head : Nat} (siblings : Siblings vfs head kids) : 0 ∉ kids := by
  -- Every node of a list of siblings is real by the definition, and zero ends the list.
  induction kids generalizing head with
  | nil => exact List.not_mem_nil
  | cons kid rest ih =>
    obtain ⟨-, real, others⟩ := siblings
    intro null
    rcases List.mem_cons.mp null with same | among
    · exact real same.symm
    · exact ih others among

/-- The child with a name is the first one that has it. -/
theorem child_iff (siblings : Siblings vfs (vfs.nodes dir).children kids) :
    vfs.Child dir name child ↔
      (kids.find? fun kid => name = (vfs.nodes kid).name).getD 0 = child := by
  -- The walk along the children has one result.
  have settles : vfs.Child dir name ((kids.find? fun kid => name = (vfs.nodes kid).name).getD 0) :=
    ⟨kids.length, fun fuel enough => findChildLoop_siblings siblings enough⟩
  constructor
  · intro found
    exact settles.unique found
  · intro same
    rw [← same]
    exact settles

/-- A name is missing exactly when no child has it. -/
theorem child_missing_iff (siblings : Siblings vfs (vfs.nodes dir).children kids) :
    vfs.Child dir name 0 ↔ ∀ kid ∈ kids, (vfs.nodes kid).name ≠ name := by
  rw [child_iff siblings]
  constructor
  · intro none kid among same
    cases found : kids.find? fun kid => name = (vfs.nodes kid).name with
    | none =>
      have differ := List.find?_eq_none.mp found kid among
      exact differ (by simpa using same.symm)
    | some first =>
      -- What is found is a child, and no child is null.
      rw [found] at none
      have null : first = 0 := none
      exact siblings.solid (null ▸ List.mem_of_find?_eq_some found)
  · intro differ
    have none : (kids.find? fun kid => name = (vfs.nodes kid).name) = none := by
      apply List.find?_eq_none.mpr
      intro kid among same
      have equal : name = (vfs.nodes kid).name := by simpa using same
      exact differ kid among equal.symm
    rw [none]
    rfl

/-- A child is found through the nodes of the directory and of its children only. -/
theorem Vfs.Child.frame (found : vfs.Child dir name child)
    (siblings : Siblings vfs (vfs.nodes dir).children kids)
    (kept : Siblings next (next.nodes dir).children kids)
    (names : ∀ kid ∈ kids, (next.nodes kid).name = (vfs.nodes kid).name) :
    next.Child dir name child := by
  -- The child is the first one of the name among the siblings, and their names are the same.
  rw [child_iff kept]
  rw [child_iff siblings] at found
  rw [← found]
  apply congrArg (Option.getD · 0)
  apply List.find?_congr
  intro kid among
  rw [names kid among]

end

/-- The nodes that were there keep their names, types and bytes, and each other's company. -/
structure Kept (vfs next : Vfs) : Prop where
  root : next.rootNode = vfs.rootNode
  linked : ∀ node ∈ vfs.linked, node ∈ next.linked
  name : ∀ node ∈ vfs.linked, (next.nodes node).name = (vfs.nodes node).name
  type : ∀ node ∈ vfs.linked, (next.nodes node).type = (vfs.nodes node).type
  size : ∀ node ∈ vfs.linked, (next.nodes node).size = (vfs.nodes node).size
  data : ∀ node ∈ vfs.linked, (next.nodes node).data = (vfs.nodes node).data
  -- A child that is found goes on being found.
  child : ∀ dir ∈ vfs.linked, ∀ name child, child ≠ 0 → vfs.Child dir name child →
    next.Child dir name child

/-- Nothing changes. -/
theorem Kept.refl (vfs : Vfs) : Kept vfs vfs :=
  ⟨rfl, fun _ among => among, fun _ _ => rfl, fun _ _ => rfl, fun _ _ => rfl, fun _ _ => rfl,
    fun _ _ _ _ _ found => found⟩

/-- One change after another. -/
theorem Kept.trans {vfs middle next : Vfs} (first : Kept vfs middle) (second : Kept middle next) :
    Kept vfs next := by
  have inside := first.linked
  -- What is true of every node of the tree goes on to be, as the first step keeps it in the tree.
  refine ⟨second.root.trans first.root, fun node among => second.linked node (inside node among),
    fun node among => ?_, fun node among => ?_, fun node among => ?_, fun node among => ?_,
    fun dir among name child real found => ?_⟩
  · exact (second.name node (inside node among)).trans (first.name node among)
  · exact (second.type node (inside node among)).trans (first.type node among)
  · exact (second.size node (inside node among)).trans (first.size node among)
  · exact (second.data node (inside node among)).trans (first.data node among)
  · exact second.child dir (inside dir among) name child real (first.child dir among name child real found)

/-- Changes outside the tree keep it. -/
theorem VfsHolds.kept_of_nodes {vfs next : Vfs} (holds : VfsHolds vfs)
    (root : next.rootNode = vfs.rootNode) (linked : next.linked = vfs.linked)
    (same : ∀ node ∈ vfs.linked, next.nodes node = vfs.nodes node) : Kept vfs next := by
  refine ⟨root, fun node among => linked ▸ among, fun node among => ?_, fun node among => ?_,
    fun node among => ?_, fun node among => ?_, fun dir among name child real found => ?_⟩
  · rw [same node among]
  · rw [same node among]
  · rw [same node among]
  · rw [same node among]
  · -- The children of a directory are nodes of the tree.
    obtain ⟨kids, siblings, inTree⟩ := holds.kids dir among
    refine found.frame siblings ?_ fun kid member => by rw [same kid (inTree kid member)]
    rw [same dir among]
    exact siblings.frame fun kid member => by rw [same kid (inTree kid member)]

section

variable {vfs : Vfs} {parent child : Nat} {node : VfsNode}

/-- A node of the tree keeps its name and its type when another one is linked in. -/
theorem added_label (inside : parent ∈ vfs.linked) (new : child ∉ vfs.linked) {other : Nat}
    (among : other ∈ vfs.linked) :
    ((vfsAddChild parent child (vfs.withNode child node)).nodes other).name = (vfs.nodes other).name ∧
    ((vfsAddChild parent child (vfs.withNode child node)).nodes other).type = (vfs.nodes other).type := by
  -- The parent gains a child, and no other label is written.
  by_cases first : other = parent
  · rw [added_nodes inside new, if_pos first, first]
    exact ⟨rfl, rfl⟩
  · rw [added_other inside new among first]
    exact ⟨rfl, rfl⟩

/-- The node that was linked in is found by its name. -/
theorem VfsHolds.added_found (holds : VfsHolds vfs) (inside : parent ∈ vfs.linked)
    (new : child ∉ vfs.linked) (real : child ≠ 0) :
    (vfsAddChild parent child (vfs.withNode child node)).Child parent node.name child := by
  -- It is the first child of its parent.
  obtain ⟨kids, siblings, inTree⟩ := holds.kids parent inside
  rw [child_iff (added_parent_kids siblings inTree inside new real), List.find?_cons_of_pos]
  · rfl
  · rw [added_new inside new]
    simp

/-- Linking a node in below a parent that has no child of its name keeps the others. -/
theorem VfsHolds.kept_added (holds : VfsHolds vfs) (inside : parent ∈ vfs.linked)
    (new : child ∉ vfs.linked) (real : child ≠ 0) (missing : vfs.Child parent node.name 0) :
    Kept vfs (vfsAddChild parent child (vfs.withNode child node)) := by
  refine ⟨rfl, fun other among => List.mem_cons_of_mem _ among,
    fun other among => (added_label inside new among).1, fun other among => (added_label inside new among).2,
    fun other among => (added_old inside new among).2.1, fun other among => (added_old inside new among).1,
    fun dir among name kid some found => ?_⟩
  obtain ⟨kids, siblings, inTree⟩ := holds.kids dir among
  have names : ∀ kid ∈ kids,
      ((vfsAddChild parent child (vfs.withNode child node)).nodes kid).name = (vfs.nodes kid).name :=
    fun kid member => (added_label inside new (inTree kid member)).1
  by_cases first : dir = parent
  · subst first
    -- The new first child has another name, as that name was missing before.
    have differ : name ≠ node.name := by
      rintro rfl
      exact some (found.unique missing)
    rw [child_iff (added_parent_kids siblings inTree inside new real), List.find?_cons_of_neg]
    · rw [child_iff siblings] at found
      rw [← found]
      apply congrArg (Option.getD · 0)
      apply List.find?_congr
      intro kid member
      rw [names kid member]
    · rw [added_new inside new]
      simpa using differ
  · refine found.frame siblings ?_ names
    rw [added_other inside new among first]
    exact siblings.added inTree inside new

end

/-- The tree has more nodes than before, without bytes if none were given. -/
structure Grown (vfs next : Vfs) (size : Nat) : Prop where
  holds : VfsHolds next
  openTable : next.openTable = vfs.openTable
  linked : ∀ node ∈ vfs.linked, node ∈ next.linked
  content : ∀ node ∈ vfs.linked, next.content node = vfs.content node
  empty : size = 0 → ∀ node ∈ next.linked, node ∉ vfs.linked → next.content node = []

section

variable {vfs middle next : Vfs} {answers : Nat → Nat} {data : Nat → UInt8} {name : List UInt8}
  {size parent requests : Nat}

/-- No node more. -/
theorem Grown.refl (holds : VfsHolds vfs) (size : Nat) : Grown vfs vfs size :=
  ⟨holds, rfl, fun _ among => among, fun _ _ => rfl, fun _ _ among new => absurd among new⟩

/-- More nodes, and then more. -/
theorem Grown.trans (first : Grown vfs middle size) (second : Grown middle next size) :
    Grown vfs next size := by
  refine ⟨second.holds, second.openTable.trans first.openTable, fun node among => ?_,
    fun node among => ?_, fun none node among new => ?_⟩
  · exact second.linked node (first.linked node among)
  · exact (second.content node (first.linked node among)).trans (first.content node among)
  · -- A new node came with the first nodes or with the second.
    by_cases before : node ∈ middle.linked
    · exact (second.content node before).trans (first.empty none node before new)
    · exact second.empty none node among before

/-- One node more. -/
theorem grown_added {child : Nat} {node : VfsNode} (holds : VfsHolds vfs) (inside : parent ∈ vfs.linked)
    (new : child ∉ vfs.linked) (real : child ≠ 0) (fits : NewNode vfs node)
    (bytes : size = 0 → node.data = 0) :
    Grown vfs (vfsAddChild parent child (vfs.withNode child node)) size := by
  refine ⟨holds.added inside new real fits, rfl, fun other among => List.mem_cons_of_mem _ among,
    fun other among => added_content inside new among, fun none other among fresh => ?_⟩
  -- The only fresh node is the new one, and without bytes it has no block.
  rcases List.mem_cons.mp among with rfl | old
  · rw [Vfs.content, added_new inside new]
    exact if_pos (bytes none)
  · exact absurd old fresh

/-- Giving memory back keeps the tree. -/
theorem VfsHolds.kfree (holds : VfsHolds vfs) (pointer : Nat) : VfsHolds (vfs.kfree pointer) := by
  refine ⟨holds.root, holds.solid, fun node among => ?_, holds.size, holds.word, holds.apart, holds.files⟩
  -- Freeing a block leaves every node of the tree as it was.
  obtain ⟨kids, siblings, inTree⟩ := holds.kids node among
  exact ⟨kids, siblings.frame fun _ _ => rfl, inTree⟩

/-- A change on the way to more nodes leaves those that were there. -/
theorem Grow.grown {allowed : VfsNode → Prop} (holds : VfsHolds vfs)
    (grow : Grow allowed size vfs next) : Grown vfs next size ∧ Kept vfs next := by
  -- Only a node that is linked in changes the tree; the rest of the memory is outside of it.
  cases grow with
  | linked inside may new real fits bare bytes named missing =>
    exact ⟨grown_added holds inside new real fits bytes, holds.kept_added inside new real missing⟩
  | @spareNode child new node =>
    obtain ⟨kept, content⟩ := holds.withNode new node
    refine ⟨⟨kept, rfl, fun _ among => among, content, fun _ _ among fresh => absurd among fresh⟩,
      holds.kept_of_nodes rfl rfl fun other among => ?_⟩
    have apart : other ≠ child := fun same => new (same ▸ among)
    exact Function.update_of_ne apart ..
  | spareBlock unused bytes =>
    obtain ⟨kept, content⟩ := holds.withBlock bytes unused
    exact ⟨⟨kept, rfl, fun _ among => among, content, fun _ _ among fresh => absurd among fresh⟩,
      holds.kept_of_nodes rfl rfl fun _ _ => rfl⟩
  | freed pointer =>
    exact ⟨⟨holds.kfree pointer, rfl, fun _ among => among, fun _ _ => rfl,
      fun _ _ among fresh => absurd among fresh⟩, holds.kept_of_nodes rfl rfl fun _ _ => rfl⟩

/-- Any number of changes leave the nodes that were there. -/
theorem Growth.grown {allowed : VfsNode → Prop} (holds : VfsHolds vfs)
    (growth : Growth allowed size vfs next) : Grown vfs next size ∧ Kept vfs next := by
  -- Induction on the growth, one created node at a time.
  induction growth with
  | refl => exact ⟨.refl holds size, .refl vfs⟩
  | tail _ grow ih =>
    obtain ⟨grown, kept⟩ := grow.grown ih.1.holds
    exact ⟨ih.1.trans grown, ih.2.trans kept⟩

/-- A directory that was linked in leaves the other answers of the heap unused. -/
theorem FreshFrom.added (fresh : FreshFrom vfs answers requests) (inside : parent ∈ vfs.linked)
    (real : answers requests ≠ 0) :
    FreshFrom (vfsAddChild parent (answers requests) (vfs.withNode (answers requests)
      { name := name, type := .directory })) answers (requests + 1) := by
  -- The directory took the first answer, and it has no block of its own.
  have new := fresh.nodes requests (Nat.le_refl _)
  refine ⟨fun i j first second => fresh.distinct i j (by omega) (by omega), fun i more among => ?_,
    fun i more filled node among => ?_⟩
  · rcases List.mem_cons.mp among with same | old
    · exact fresh.distinct requests i (Nat.le_refl _) (by omega) (by omega) real same.symm
    · exact fresh.nodes i (by omega) old
  · rcases List.mem_cons.mp among with rfl | old
    · rw [added_new inside new]
      exact filled.symm
    · rw [(added_old inside new old).1]
      exact fresh.blocks i (by omega) filled node old

/-- Making a file ends with one more node, or with none for want of memory. -/
theorem makeFile_growth {allowed : VfsNode → Prop} (holds : VfsHolds vfs) (inside : parent ∈ vfs.linked)
    (fresh : FreshFrom vfs answers requests) (real : answers requests ≠ 0) (word : size < 2 ^ 64)
    (named : Component name) (missing : vfs.Child parent name 0)
    (may : allowed (vfs.nodes parent) ∨ 0 < size ∧ answers (requests + 1) = 0) :
    ∃ node next, makeFile answers requests name data size parent vfs = .ok (node, next) ∧
      Growth allowed size vfs next ∧ (node ≠ 0 → next.Child parent name node) := by
  have new := fresh.nodes requests (Nat.le_refl _)
  unfold makeFile
  by_cases filled : 0 < size
  · simp only [if_pos filled]
    by_cases full : answers (requests + 1) = 0
    · -- Without a block the node is given back before it is linked in.
      refine ⟨_, _, if_pos full, .tail (.single (.spareNode new _)) (.freed _), fun some => ?_⟩
      exact absurd rfl some
    -- The block is filled first; it belongs to no node until the new one is linked in.
    · have unused := fresh.blocks (requests + 1) (Nat.le_succ _) full
      have copied := @storeLoop_fits (List.replicate size 0) 0 0 size (fun i => .ok (data i)) data
        (by simp) (fun _ _ _ => rfl)
      have length : (overlay (List.replicate size 0) (0 + 0) ((List.range' 0 size).map data)).length =
          size := by
        rw [overlay_length (Nat.zero_le _)]
        simp
      generalize overlay _ _ _ = bytes at copied length
      have kept := (holds.withBlock bytes unused).1
      have node : NewNode (vfs.withBlock (answers (requests + 1)) bytes)
          { name := name, type := .file, size := size, data := answers (requests + 1) } := by
        refine ⟨rfl, ?_, word, fun _ => unused⟩
        have here : (vfs.withBlock (answers (requests + 1)) bytes).blocks (answers (requests + 1)) =
            bytes := Function.update_self ..
        simp only [if_neg full, here, length]
      have absent : (vfs.withBlock (answers (requests + 1)) bytes).Child parent name 0 := by
        obtain ⟨kids, siblings, -⟩ := holds.kids parent inside
        exact missing.frame siblings (siblings.frame fun _ _ => rfl) fun _ _ => rfl
      have stands : allowed ((vfs.withBlock (answers (requests + 1)) bytes).nodes parent) :=
        may.resolve_right fun failed => full failed.2
      -- The node is written twice, with and without its block.
      have once : ((vfs.withNode (answers requests) { name := name, type := .file, size := size }).withBlock
          (answers (requests + 1)) bytes).withNode (answers requests)
            { name := name, type := .file, size := size, data := answers (requests + 1) } =
          (vfs.withBlock (answers (requests + 1)) bytes).withNode (answers requests)
            { name := name, type := .file, size := size, data := answers (requests + 1) } := by
        simp [Vfs.withNode, Vfs.withBlock]
      refine ⟨_, _, (if_neg full).trans (bind_eq_ok.mpr ⟨_, copied, rfl⟩), ?_, fun _ => ?_⟩
      · rw [once]
        exact .tail (.single (.spareBlock unused bytes)) (.linked inside stands new real node rfl
          (fun none => by omega) named absent)
      · rw [once]
        exact kept.added_found inside new real
  · simp only [if_neg filled]
    -- A file without bytes needs no block.
    have node : NewNode vfs { name := name, type := .file, size := size } := by
      refine ⟨rfl, ?_, word, fun some => absurd rfl some⟩
      simp only [if_true, List.length_nil]
      omega
    have stands : allowed (vfs.nodes parent) := may.resolve_right fun failed => filled failed.1
    exact ⟨_, _, rfl, .single (.linked inside stands new real node rfl (fun _ => rfl) named missing),
      fun _ => holds.added_found inside new real⟩

end

/-- Where a path first misses a component on its way down the tree, and whether that is the last one. -/
def firstMissing (vfs : Vfs) : Nat → List UInt8 → Nat → Except Halt (Option (Nat × Bool))
  | _, [], _ => .ok none
  | 0, _ :: _, _ => .error .outOfFuel
  | fuel + 1, path, current =>
    let (component, rest) := takeComponent vfsNameMax path
    let rest := skipSlash rest
    if component = [] then firstMissing vfs fuel rest current
    else do
      let child ← vfsFindChild fuel current component vfs
      if child = 0 then return some (current, rest = []) else firstMissing vfs fuel rest child

/-- The first missing component is below a node that may get a child, or there is no memory for it. -/
def MayGrow (allowed : VfsNode → Prop) (vfs : Vfs) (answers : Nat → Nat) (requests size : Nat)
    (path : List UInt8) (current : Nat) : Prop :=
  ∀ dir last, Settles (fun fuel => firstMissing vfs fuel path current) (some (dir, last)) →
    allowed (vfs.nodes dir) ∨ answers requests = 0 ∨
      last = true ∧ 0 < size ∧ answers (requests + 1) = 0

section

variable {vfs next : Vfs} {current : Nat} {byte : UInt8} {path component rest : List UInt8}

/-- One turn on the way to the first missing component. -/
theorem firstMissing_turn (taken : takeComponent vfsNameMax (byte :: path) = (component, rest))
    (fuel : Nat) :
    firstMissing vfs (fuel + 1) (byte :: path) current =
      if component = [] then firstMissing vfs fuel (skipSlash rest) current
      else (do
        let child ← vfsFindChild fuel current component vfs
        if child = 0 then return some (current, (skipSlash rest = []))
        else firstMissing vfs fuel (skipSlash rest) child) := by
  rw [firstMissing, taken]
  exact List.cons_ne_nil byte path

/-- A component that is empty is passed over. -/
theorem firstMissing_empty (taken : takeComponent vfsNameMax (byte :: path) = (component, rest))
    (empty : component = []) (fuel : Nat) :
    firstMissing vfs (fuel + 1) (byte :: path) current = firstMissing vfs fuel (skipSlash rest) current :=
  (firstMissing_turn taken fuel).trans (if_pos empty)

/-- A component that is missing ends the way. -/
theorem firstMissing_stop (taken : takeComponent vfsNameMax (byte :: path) = (component, rest))
    (filled : component ≠ []) (missing : vfs.Child current component 0) :
    Settles (fun fuel => firstMissing vfs fuel (byte :: path) current)
      (some (current, (skipSlash rest = []))) := by
  refine .later (fun fuel => (firstMissing_turn taken fuel).trans (if_neg filled)) (missing.bind ?_)
  exact .now fun _ => rfl

/-- A component that is there leads on. -/
theorem firstMissing_found {child : Nat} {result : Option (Nat × Bool)}
    (taken : takeComponent vfsNameMax (byte :: path) = (component, rest)) (filled : component ≠ [])
    (found : vfs.Child current component child) (real : child ≠ 0)
    (stops : Settles (fun fuel => firstMissing vfs fuel (skipSlash rest) child) result) :
    Settles (fun fuel => firstMissing vfs fuel (byte :: path) current) result := by
  refine .later (fun fuel => (firstMissing_turn taken fuel).trans (if_neg filled)) (found.bind ?_)
  simp only [if_neg real]
  exact stops

/-- From a node without children the way ends at once. -/
theorem firstMissing_childless {dir : Nat} {last : Bool} (childless : (vfs.nodes current).children = 0)
    (stops : Settles (fun fuel => firstMissing vfs fuel path current) (some (dir, last))) :
    dir = current := by
  -- Only empty components are passed over before it ends.
  induction path using path_induction with
  | nil =>
    have none : Settles (fun fuel => firstMissing vfs fuel [] current) none := .now fun fuel => by
      cases fuel <;> rfl
    cases stops.unique none
  | turn byte path component rest taken ih =>
    by_cases empty : component = []
    · exact ih (stops.earlier (firstMissing_empty taken empty))
    · have missing : vfs.Child current component 0 := .now fun fuel => by
        rw [vfsFindChild, childless]
        cases fuel <;> rfl
      cases stops.unique (firstMissing_stop taken empty missing)
      rfl

/-- The walk down the tree passes over an empty component. -/
theorem lookupLoop_empty {node : Nat} (taken : takeComponent vfsNameMax (byte :: path) = (component, rest))
    (empty : component = []) (settles : Settles (fun fuel => lookupLoop vfs fuel (skipSlash rest) current)
      node) : Settles (fun fuel => lookupLoop vfs fuel (byte :: path) current) node :=
  .later (fun fuel => (lookupLoop_turn taken fuel).trans (if_pos empty)) settles

/-- The walk down the tree goes on from a child that is there. -/
theorem lookupLoop_found {child node : Nat}
    (taken : takeComponent vfsNameMax (byte :: path) = (component, rest)) (filled : component ≠ [])
    (found : vfs.Child current component child) (real : child ≠ 0)
    (settles : Settles (fun fuel => lookupLoop vfs fuel (skipSlash rest) child) node) :
    Settles (fun fuel => lookupLoop vfs fuel (byte :: path) current) node := by
  refine .later (fun fuel => (lookupLoop_turn taken fuel).trans (if_neg filled)) (found.bind ?_)
  simp only [if_neg real]
  exact settles

/-- The walk down the tree ends where a component is missing. -/
theorem lookupLoop_missing (taken : takeComponent vfsNameMax (byte :: path) = (component, rest))
    (filled : component ≠ []) (missing : vfs.Child current component 0) :
    Settles (fun fuel => lookupLoop vfs fuel (byte :: path) current) 0 :=
  .later (fun fuel => (lookupLoop_turn taken fuel).trans (if_neg filled)) (missing.bind (.now fun _ => rfl))

/-- An empty path leads nowhere else. -/
theorem lookupLoop_nil : Settles (fun fuel => lookupLoop vfs fuel [] current) current :=
  .now fun fuel => by cases fuel <;> rfl

end

section

variable {vfs : Vfs} {answers : Nat → Nat} {data : Nat → UInt8} {size requests : Nat}

/-- One turn of the walk that makes the nodes that are missing. -/
theorem createLoop_turn {byte : UInt8} {path component rest : List UInt8} {current : Nat}
    (taken : takeComponent vfsNameMax (byte :: path) = (component, rest)) (fuel : Nat) :
    createLoop answers data size (fuel + 1) requests (byte :: path) current vfs =
      if component = [] then createLoop answers data size fuel requests (skipSlash rest) current vfs
      else (do
        let child ← vfsFindChild fuel current component vfs
        if child ≠ 0 then createLoop answers data size fuel requests (skipSlash rest) child vfs
        else if answers requests = 0 then return (0, vfs)
        else if skipSlash rest = [] then makeFile answers requests component data size current vfs
        else
          createLoop answers data size fuel (requests + 1) (skipSlash rest) (answers requests)
            (vfsAddChild current (answers requests) (vfs.withNode (answers requests)
              { name := component, type := .directory }))) := by
  rw [createLoop, taken]
  exact List.cons_ne_nil byte path

/-- A new directory is linked in, and what is missing below it may be made. -/
theorem directory_linked {allowed : VfsNode → Prop} {current : Nat} {component : List UInt8}
    (directories : ∀ node : VfsNode, node.type = .directory → allowed node)
    (inside : current ∈ vfs.linked) (new : answers requests ∉ vfs.linked)
    (full : answers requests ≠ 0) (named : Component component) (missing : vfs.Child current component 0)
    (allowedHere : allowed (vfs.nodes current)) (rest : List UInt8) :
    Grow allowed size vfs (vfsAddChild current (answers requests)
      (vfs.withNode (answers requests) { name := component, type := .directory })) ∧
    MayGrow allowed (vfsAddChild current (answers requests)
      (vfs.withNode (answers requests) { name := component, type := .directory })) answers
      (requests + 1) size rest (answers requests) := by
  have node : NewNode vfs { name := component, type := .directory } :=
    ⟨rfl, rfl, Nat.two_pow_pos 64, fun some => absurd rfl some⟩
  have here := @added_new vfs current (answers requests) { name := component, type := .directory } inside new
  refine ⟨.linked inside allowedHere new full node rfl (fun _ => rfl) named missing, ?_⟩
  -- The new directory has no children, so the next component is missing right below it.
  intro dir last stops
  obtain rfl : dir = answers requests := firstMissing_childless (by rw [here]) stops
  exact .inl (directories _ (by rw [here]))

/--
The walk that makes the missing nodes ends, and all that it did is to let the tree grow.

Where it returns a node, the same path leads to that node afterwards.
-/
theorem createLoop_growth {allowed : VfsNode → Prop}
    (directories : ∀ node : VfsNode, node.type = .directory → allowed node) {current : Nat}
    (holds : VfsHolds vfs) (path : List UInt8) (inside : current ∈ vfs.linked)
    (fresh : FreshFrom vfs answers requests) (word : size < 2 ^ 64)
    (may : MayGrow allowed vfs answers requests size path current) :
    ∃ node next, Settles (fun fuel => createLoop answers data size fuel requests path current vfs)
      (node, next) ∧ Growth allowed size vfs next ∧
      (node ≠ 0 → Settles (fun fuel => lookupLoop next fuel path current) node) := by
  -- The path gets shorter with each turn, while the tree may grow.
  induction path using path_induction generalizing current vfs requests with
  | nil =>
    refine ⟨current, vfs, .now fun fuel => ?_, .refl, fun _ => lookupLoop_nil⟩
    cases fuel with
    | zero => rfl
    | succ fuel => rfl
  | turn byte path component rest taken ih =>
    by_cases empty : component = []
    · obtain ⟨node, next, settles, growth, looked⟩ := ih holds inside fresh
        fun dir last stops => may dir last (.later (firstMissing_empty taken empty) stops)
      exact ⟨node, next, .later (fun fuel => (createLoop_turn taken fuel).trans (if_pos empty)) settles,
        growth, fun real => lookupLoop_empty taken empty (looked real)⟩
    have turn := fun fuel => (@createLoop_turn vfs answers data size requests _ _ _ _ current taken
      fuel).trans (if_neg empty)
    obtain ⟨child, found, below⟩ := holds.findChild inside component
    by_cases there : child ≠ 0
    · -- The component is there already, and it stays there.
      obtain ⟨node, next, settles, growth, looked⟩ := ih holds (below.resolve_left there) fresh
        fun dir last stops => may dir last (firstMissing_found taken empty found there stops)
      have still := (growth.grown holds).2.child current inside component child there found
      refine ⟨node, next, .later turn (found.bind ?_), growth,
        fun real => lookupLoop_found taken empty still there (looked real)⟩
      simp only [if_pos there]
      exact settles
    -- From here on the component is the first one that is missing.
    obtain rfl : child = 0 := not_not.mp there
    have stands := may current _ (firstMissing_stop taken empty found)
    by_cases full : answers requests = 0
    · refine ⟨0, vfs, .later turn (found.bind ?_), .refl, fun real => absurd rfl real⟩
      simp only [if_neg there, if_pos full]
      exact .now fun _ => rfl
    have named := takeComponent_component taken empty
    by_cases last : skipSlash rest = []
    · obtain ⟨node, next, made, growth, child⟩ := @makeFile_growth vfs answers data component size
        current requests allowed holds inside fresh full word named found
        (stands.imp_right fun failed => (failed.resolve_left full).2)
      refine ⟨node, next, .later turn (found.bind ?_), growth, fun real => ?_⟩
      · simp only [if_neg there, if_neg full, if_pos last]
        exact .now fun _ => made
      · refine lookupLoop_found taken empty (child real) real ?_
        rw [last]
        exact lookupLoop_nil
    · -- A directory is linked in, and the walk goes on from there.
      have allowedHere : allowed (vfs.nodes current) := by
        refine stands.resolve_right fun failed => failed.elim full fun block => ?_
        exact last (by simpa using block.1)
      have new := fresh.nodes requests (Nat.le_refl _)
      obtain ⟨first, mayHere⟩ := @directory_linked vfs answers size requests allowed current component
        directories inside new full named found allowedHere (skipSlash rest)
      have holdsHere := (first.grown holds).1.holds
      obtain ⟨node, next, settles, growth, looked⟩ := ih holdsHere List.mem_cons_self
        (fresh.added inside full) mayHere
      have still := (growth.grown holdsHere).2.child current (List.mem_cons_of_mem _ inside) component
        _ full (holds.added_found inside new full)
      refine ⟨node, next, .later turn (found.bind ?_), .head first growth,
        fun real => lookupLoop_found taken empty still full (looked real)⟩
      simp only [if_neg there, if_neg full, if_neg last]
      exact settles

/-- Where the walk down from the root ends, the path leads. -/
theorem vfsLookup_of_walk {node : Nat} {path : List UInt8} (holds : VfsHolds vfs)
    (walked : Settles (fun fuel => lookupLoop vfs fuel (skipSlash path) vfs.rootNode) node) :
    Settles (fun fuel => vfsLookup fuel path vfs) node := by
  have real : vfs.rootNode ≠ 0 := fun null => holds.solid (null ▸ holds.root)
  by_cases slash : path = [0x2F]
  · -- A path that is a slash alone is answered without a walk, and the walk would end at the root.
    rw [slash] at walked ⊢
    cases walked.unique lookupLoop_nil
    exact .now fun fuel => by rw [vfsLookup, if_neg real, if_pos rfl]
  · simp only [vfsLookup, if_neg real, if_neg slash]
    exact walked

/-- Creating a file ends, lets the tree grow and returns the node that the path leads to. -/
theorem vfsCreateFile_growth {allowed : VfsNode → Prop}
    (directories : ∀ node : VfsNode, node.type = .directory → allowed node) (holds : VfsHolds vfs)
    (path : List UInt8) (data : Nat → UInt8) (fresh : FreshFrom vfs answers 0) (word : size < 2 ^ 64)
    (may : MayGrow allowed vfs answers 0 size (skipSlash path) vfs.rootNode) :
    ∃ node next, Settles (fun fuel => vfsCreateFile fuel answers path data size vfs) (node, next) ∧
      Growth allowed size vfs next ∧ (node ≠ 0 → Settles (fun fuel => vfsLookup fuel path next) node) := by
  -- The loop starts at the root, behind the first slash.
  obtain ⟨node, next, settles, growth, walked⟩ := createLoop_growth directories holds (skipSlash path)
    holds.root fresh word may
  obtain ⟨grown, kept⟩ := growth.grown holds
  refine ⟨node, next, settles, growth, fun real => vfsLookup_of_walk grown.holds ?_⟩
  rw [kept.root]
  exact walked real

/-- Any node may get a child. -/
def anyNode (_ : VfsNode) : Prop := True

/-- Creating a file ends, and leaves the nodes that were there. -/
theorem vfsCreateFile_grown (holds : VfsHolds vfs) (path : List UInt8) (data : Nat → UInt8)
    (fresh : FreshFrom vfs answers 0) (word : size < 2 ^ 64) :
    ∃ node next, Settles (fun fuel => vfsCreateFile fuel answers path data size vfs) (node, next) ∧
      Grown vfs next size := by
  -- Any node may grow here, so the guard asks nothing.
  obtain ⟨node, next, settles, growth, -⟩ := @vfsCreateFile_growth vfs answers size anyNode
    (fun _ _ => trivial) holds path data fresh word fun _ _ _ => .inl trivial
  exact ⟨node, next, settles, (growth.grown holds).1⟩

/-- Finding the node for opening a path lets the tree grow at most. -/
theorem openNode_growth {allowed : VfsNode → Prop}
    (directories : ∀ node : VfsNode, node.type = .directory → allowed node) (holds : VfsHolds vfs)
    (path : List UInt8) (flags : Nat) (fresh : FreshFrom vfs answers 0)
    (may : flags &&& vfsOCreat ≠ 0 → MayGrow allowed vfs answers 0 0 (skipSlash path) vfs.rootNode) :
    ∃ node next, Settles (fun fuel => openNode fuel answers path flags vfs) (node, next) ∧
      Settles (fun fuel => vfsLookup fuel path next) node ∧ (node = 0 ∨ node ∈ next.linked) ∧
      Growth allowed 0 vfs next := by
  -- A path that is missing is made without bytes, and looked up again.
  obtain ⟨first, looked, among⟩ := holds.lookup path
  unfold openNode
  by_cases creates : first = 0 ∧ flags &&& vfsOCreat ≠ 0
  · obtain ⟨made, next, created, growth, -⟩ := vfsCreateFile_growth directories holds path (fun _ => 0)
      fresh (by decide) (may creates.2)
    obtain ⟨node, again, inTree⟩ := (growth.grown holds).1.holds.lookup path
    refine ⟨node, next, looked.bind ?_, again, inTree, growth⟩
    simp only [if_pos creates]
    exact created.bind (again.bind (.now fun _ => rfl))
  · refine ⟨first, vfs, looked.bind ?_, looked, among, .refl⟩
    simp only [if_neg creates]
    exact .now fun _ => rfl

/-- What opening a path answers once its node is found or made: it failed, or it is the lowest free entry. -/
theorem vfsOpen_of_node {node flags : Nat} {path : List UInt8} {middle : Vfs}
    (opened : Settles (fun fuel => openNode fuel answers path flags vfs) (node, middle)) :
    ∃ fd last, Settles (fun fuel => vfsOpen fuel answers path flags vfs) (fd, last) ∧
      ((fd = -1 ∧ last = middle ∧
        (node = 0 ∨ (middle.nodes node).type = .directory ∨ middle.unusedFile = none)) ∨
      ∃ entry, fd = (entry : Nat) ∧ node ≠ 0 ∧ (middle.nodes node).type ≠ .directory ∧
        middle.unusedFile = some entry ∧
        last = middle.withFile entry { node := node, offset := 0, flags := flags, used := true }) := by
  unfold vfsOpen
  by_cases null : node = 0
  · refine ⟨-1, middle, opened.bind ?_, .inl ⟨rfl, rfl, .inl null⟩⟩
    simp only [if_pos null]
    exact .now fun _ => rfl
  by_cases directory : (middle.nodes node).type = .directory
  · refine ⟨-1, middle, opened.bind ?_, .inl ⟨rfl, rfl, .inr (.inl directory)⟩⟩
    simp only [if_neg null, if_pos directory]
    exact .now fun _ => rfl
  -- From here on the path leads to a file, and only an entry may be missing.
  cases free : middle.unusedFile with
  | none =>
    refine ⟨-1, middle, opened.bind ?_, .inl ⟨rfl, rfl, .inr (.inr rfl)⟩⟩
    simp only [if_neg null, if_neg directory, free]
    exact .now fun _ => rfl
  | some entry =>
    let file : OpenFile := { node := node, offset := 0, flags := flags, used := true }
    refine ⟨entry, middle.withFile entry file, opened.bind ?_, .inr ⟨entry, rfl, null, directory, rfl, rfl⟩⟩
    simp only [if_neg null, if_neg directory, free]
    exact .now fun _ => rfl

/-- Opening a path lets the tree grow at most, and then stores one entry of the table at most. -/
theorem vfsOpen_growth {allowed : VfsNode → Prop}
    (directories : ∀ node : VfsNode, node.type = .directory → allowed node) (holds : VfsHolds vfs)
    (path : List UInt8) (flags : Nat) (fresh : FreshFrom vfs answers 0)
    (may : flags &&& vfsOCreat ≠ 0 → MayGrow allowed vfs answers 0 0 (skipSlash path) vfs.rootNode) :
    ∃ fd middle openTable, Growth allowed 0 vfs middle ∧
      Settles (fun fuel => vfsOpen fuel answers path flags vfs)
        (fd, { middle with openTable := openTable }) := by
  obtain ⟨node, middle, opened, -, -, growth⟩ := openNode_growth directories holds path flags fresh may
  -- Whether a descriptor is given or not, the nodes are those the lookup or the creation left.
  obtain ⟨fd, last, settled, ⟨-, rfl, -⟩ | ⟨entry, -, -, -, -, rfl⟩⟩ := vfsOpen_of_node opened
  · exact ⟨fd, last, last.openTable, growth, settled⟩
  · exact ⟨fd, middle, _, growth, settled⟩

end

end MiraOS
