import MiraOS.Fs.Vfs

/-! What every reachable file tree keeps: finite lists of children, and a block of its own for each file. -/

namespace MiraOS

open Machine

/-- The nodes from one on, each the next sibling of the one before. -/
def Siblings (vfs : Vfs) : Nat → List Nat → Prop
  | head, [] => head = 0
  | head, kid :: rest => head = kid ∧ kid ≠ 0 ∧ Siblings vfs (vfs.nodes kid).nextSibling rest

/-- The bytes of a node. -/
def Vfs.content (vfs : Vfs) (node : Nat) : List UInt8 :=
  if (vfs.nodes node).data = 0 then [] else vfs.blocks (vfs.nodes node).data

/-- What holds of the nodes of the tree and of the open files. -/
structure VfsHolds (vfs : Vfs) : Prop where
  root : vfs.rootNode ∈ vfs.linked
  solid : 0 ∉ vfs.linked
  kids : ∀ node ∈ vfs.linked, ∃ kids, Siblings vfs (vfs.nodes node).children kids ∧
    ∀ kid ∈ kids, kid ∈ vfs.linked
  size : ∀ node ∈ vfs.linked, (vfs.content node).length = (vfs.nodes node).size
  word : ∀ node ∈ vfs.linked, (vfs.nodes node).size < 2 ^ 64
  -- No two nodes have the same block.
  apart : ∀ one ∈ vfs.linked, ∀ two ∈ vfs.linked, one ≠ two → (vfs.nodes one).data ≠ 0 →
    (vfs.nodes one).data ≠ (vfs.nodes two).data
  files : ∀ fd, fd < vfsMaxOpen → (vfs.openTable fd).used = true →
    (vfs.openTable fd).node ∈ vfs.linked ∧
      (vfs.openTable fd).offset ≤ (vfs.nodes (vfs.openTable fd).node).size

/-- The answers of the heap from a request on are null, or memory that nothing else uses. -/
structure FreshFrom (vfs : Vfs) (answers : Nat → Nat) (requests : Nat) : Prop where
  distinct : ∀ i j, requests ≤ i → requests ≤ j → i ≠ j → answers i ≠ 0 → answers i ≠ answers j
  nodes : ∀ i, requests ≤ i → answers i ∉ vfs.linked
  blocks : ∀ i, requests ≤ i → answers i ≠ 0 → ∀ node ∈ vfs.linked,
    (vfs.nodes node).data ≠ answers i

/-- A heap that refuses every request gives out no memory that is in use. -/
theorem freshFrom_refused {vfs : Vfs} {requests : Nat} (solid : 0 ∉ vfs.linked) :
    FreshFrom vfs (fun _ => 0) requests :=
  ⟨fun _ _ _ _ _ real => absurd rfl real, fun _ _ => solid, fun _ _ real => absurd rfl real⟩

section

variable {vfs other : Vfs} {head fuel : Nat} {kids : List Nat} {name : List UInt8}

/-- A list of siblings stays as it is when no link of them changes. -/
theorem Siblings.frame (siblings : Siblings vfs head kids)
    (same : ∀ kid ∈ kids, (other.nodes kid).nextSibling = (vfs.nodes kid).nextSibling) :
    Siblings other head kids := by
  -- Each node is reached through the link of the one before it.
  induction kids generalizing head with
  | nil => exact siblings
  | cons kid rest ih =>
    obtain ⟨first, real, others⟩ := siblings
    refine ⟨first, real, ?_⟩
    rw [same kid List.mem_cons_self]
    exact ih others fun other among => same other (List.mem_cons_of_mem _ among)

/-- The walk along siblings finds the first one with the name. -/
theorem findChildLoop_siblings (siblings : Siblings vfs head kids) (enough : kids.length ≤ fuel) :
    findChildLoop vfs name fuel head =
      .ok ((kids.find? fun kid => name = (vfs.nodes kid).name).getD 0) := by
  -- The walk takes one sibling off the front, or stops there.
  induction kids generalizing head fuel with
  -- At the end of the list there is nothing to walk to.
  | nil =>
    have null : head = 0 := siblings
    subst null
    cases fuel with
    | zero => rfl
    | succ fuel => rfl
  | cons kid rest ih =>
    obtain ⟨rfl, real, others⟩ := siblings
    obtain ⟨fuel, rfl⟩ : ∃ less, fuel = less + 1 := by
      refine ⟨fuel - 1, ?_⟩
      rw [List.length_cons] at enough
      omega
    have short : rest.length ≤ fuel := by
      rw [List.length_cons] at enough
      omega
    rw [findChildLoop, if_neg real]
    -- The sibling has the name, or the search goes on behind it.
    by_cases same : name = (vfs.nodes head).name
    · rw [if_pos same, List.find?_cons_of_pos (by simpa using same)]
      rfl
    · rw [if_neg same, List.find?_cons_of_neg (by simpa using same)]
      exact ih others short

/-- The child that is found is one of the children, or none. -/
theorem find_among (kids : List Nat) (test : Nat → Bool) :
    (kids.find? test).getD 0 = 0 ∨ (kids.find? test).getD 0 ∈ kids := by
  -- A search that finds nothing answers null.
  cases found : kids.find? test with
  | none => exact .inl rfl
  | some kid => exact .inr (List.mem_of_find?_eq_some found)

end

/-- The nodes after one was linked in. -/
theorem vfsAddChild_nodes {vfs : Vfs} {parent child : Nat} (apart : parent ≠ child) (node : Nat) :
    (vfsAddChild parent child vfs).nodes node =
      if node = parent then
        { vfs.nodes parent with children := child, childCount := (vfs.nodes parent).childCount + 1 }
      else if node = child then
        { vfs.nodes child with parent := parent, nextSibling := (vfs.nodes parent).children }
      else vfs.nodes node := by
  -- The parent is stored last, and it is not the child.
  unfold vfsAddChild Vfs.withNode
  by_cases first : node = parent
  · subst first
    simp [Function.update_of_ne apart]
  · by_cases second : node = child
    · subst second
      simp [first]
    · simp [first, second]

/-- A node for a new file or directory: without children, and with a block of its size. -/
structure NewNode (vfs : Vfs) (node : VfsNode) : Prop where
  children : node.children = 0
  size : (if node.data = 0 then [] else vfs.blocks node.data).length = node.size
  word : node.size < 2 ^ 64
  fresh : node.data ≠ 0 → ∀ other ∈ vfs.linked, (vfs.nodes other).data ≠ node.data

section

variable {vfs : Vfs} {parent child : Nat} {node : VfsNode}

/-- A node that was linked in, and the others as they were. -/
theorem added_nodes (inside : parent ∈ vfs.linked) (new : child ∉ vfs.linked) (other : Nat) :
    (vfsAddChild parent child (vfs.withNode child node)).nodes other =
      if other = parent then
        { vfs.nodes parent with children := child, childCount := (vfs.nodes parent).childCount + 1 }
      else if other = child then
        { node with parent := parent, nextSibling := (vfs.nodes parent).children }
      else vfs.nodes other := by
  -- The node that was stored first is the child of the second store.
  have apart : parent ≠ child := fun same => new (same ▸ inside)
  have here : (vfs.withNode child node).nodes child = node := Function.update_self ..
  have there : (vfs.withNode child node).nodes parent = vfs.nodes parent :=
    Function.update_of_ne apart ..
  rw [vfsAddChild_nodes apart, here, there]
  by_cases first : other = parent
  · rw [if_pos first, if_pos first]
  · by_cases second : other = child
    · rw [if_neg first, if_neg first, if_pos second, if_pos second]
    · rw [if_neg first, if_neg first, if_neg second, if_neg second]
      exact Function.update_of_ne second ..

/-- The nodes that were there keep everything but their list of children. -/
theorem added_old (inside : parent ∈ vfs.linked) (new : child ∉ vfs.linked) {other : Nat}
    (among : other ∈ vfs.linked) :
    ((vfsAddChild parent child (vfs.withNode child node)).nodes other).data = (vfs.nodes other).data ∧
    ((vfsAddChild parent child (vfs.withNode child node)).nodes other).size = (vfs.nodes other).size ∧
    ((vfsAddChild parent child (vfs.withNode child node)).nodes other).nextSibling =
      (vfs.nodes other).nextSibling := by
  -- Among the nodes that were there only the parent changes, in its list of children.
  have apart : other ≠ child := fun same => new (same ▸ among)
  rw [added_nodes inside new]
  by_cases first : other = parent
  · rw [if_pos first, first]
    exact ⟨rfl, rfl, rfl⟩
  · rw [if_neg first, if_neg apart]
    exact ⟨rfl, rfl, rfl⟩

/-- The node that was linked in. -/
theorem added_new (inside : parent ∈ vfs.linked) (new : child ∉ vfs.linked) :
    (vfsAddChild parent child (vfs.withNode child node)).nodes child =
      { node with parent := parent, nextSibling := (vfs.nodes parent).children } := by
  have apart : child ≠ parent := fun same => new (same ▸ inside)
  rw [added_nodes inside new, if_neg apart, if_pos rfl]

/-- The nodes that were there keep their bytes. -/
theorem added_content (inside : parent ∈ vfs.linked) (new : child ∉ vfs.linked) {other : Nat}
    (among : other ∈ vfs.linked) :
    (vfsAddChild parent child (vfs.withNode child node)).content other = vfs.content other := by
  rw [Vfs.content, (added_old inside new among).1]
  rfl

/-- A list of siblings of the tree stays as it is when a node is linked in. -/
theorem Siblings.added {head : Nat} {kids : List Nat} (siblings : Siblings vfs head kids)
    (inTree : ∀ kid ∈ kids, kid ∈ vfs.linked) (inside : parent ∈ vfs.linked) (new : child ∉ vfs.linked) :
    Siblings (vfsAddChild parent child (vfs.withNode child node)) head kids :=
  siblings.frame fun kid member => (added_old inside new (inTree kid member)).2.2

/-- The parent of a node that was linked in has it in front of its other children. -/
theorem added_parent_kids {kids : List Nat} (siblings : Siblings vfs (vfs.nodes parent).children kids)
    (inTree : ∀ kid ∈ kids, kid ∈ vfs.linked) (inside : parent ∈ vfs.linked) (new : child ∉ vfs.linked)
    (real : child ≠ 0) :
    Siblings (vfsAddChild parent child (vfs.withNode child node))
      ((vfsAddChild parent child (vfs.withNode child node)).nodes parent).children (child :: kids) := by
  -- The new child is put in front of the children that were there.
  refine ⟨?_, real, ?_⟩
  · rw [added_nodes inside new, if_pos rfl]
  · rw [added_new inside new]
    exact siblings.added inTree inside new

/-- A node of the tree that is not the parent is left as it was. -/
theorem added_other (inside : parent ∈ vfs.linked) (new : child ∉ vfs.linked) {other : Nat}
    (among : other ∈ vfs.linked) (apart : other ≠ parent) :
    (vfsAddChild parent child (vfs.withNode child node)).nodes other = vfs.nodes other := by
  have differ : other ≠ child := fun same => new (same ▸ among)
  rw [added_nodes inside new, if_neg apart, if_neg differ]

/-- Linking a new node in keeps the tree. -/
theorem VfsHolds.added (holds : VfsHolds vfs) (inside : parent ∈ vfs.linked) (new : child ∉ vfs.linked)
    (real : child ≠ 0) (fits : NewNode vfs node) :
    VfsHolds (vfsAddChild parent child (vfs.withNode child node)) := by
  -- Each condition is asked of the new node and of the old ones in turn.
  have old := fun other among => @added_old vfs parent child node inside new other among
  have here := @added_new vfs parent child node inside new
  have contentHere : (vfsAddChild parent child (vfs.withNode child node)).content child =
      if node.data = 0 then [] else vfs.blocks node.data := by
    rw [Vfs.content, here]
    rfl
  refine ⟨List.mem_cons_of_mem _ holds.root, ?_, fun other among => ?_, fun other among => ?_,
    fun other among => ?_, ?_, fun fd small used => ?_⟩
  · intro null
    rcases List.mem_cons.mp null with same | among
    · exact real same.symm
    · exact holds.solid among
  · rcases List.mem_cons.mp among with rfl | among
    · -- The new node has no children.
      refine ⟨[], ?_, fun kid none => absurd none List.not_mem_nil⟩
      rw [here]
      exact fits.children
    · obtain ⟨kids, siblings, inTree⟩ := holds.kids other among
      by_cases first : other = parent
      · -- The parent has one child more, in front of the others.
        subst first
        refine ⟨child :: kids, added_parent_kids siblings inTree inside new real, fun kid member => ?_⟩
        rcases List.mem_cons.mp member with rfl | member
        · exact List.mem_cons_self
        · exact List.mem_cons_of_mem _ (inTree kid member)
      · refine ⟨kids, ?_, fun kid member => List.mem_cons_of_mem _ (inTree kid member)⟩
        rw [added_other inside new among first]
        exact siblings.added inTree inside new
  · -- The sizes agree with the contents: the new node's by `fits`, the others' as before.
    rcases List.mem_cons.mp among with rfl | among
    · rw [contentHere, here]
      exact fits.size
    · rw [added_content inside new among, (old other among).2.1]
      exact holds.size other among
  · rcases List.mem_cons.mp among with rfl | among
    · rw [here]
      exact fits.word
    · rw [(old other among).2.1]
      exact holds.word other among
  · -- The new node's block belongs to no other node.
    intro one first two second differ filled
    rcases List.mem_cons.mp first with rfl | first
    · rcases List.mem_cons.mp second with rfl | second
      · exact absurd rfl differ
      -- The block of the new node was used by nobody before.
      · rw [here] at filled ⊢
        rw [(old two second).1]
        exact (fits.fresh filled two second).symm
    · rw [(old one first).1] at filled ⊢
      rcases List.mem_cons.mp second with rfl | second
      · rw [here]
        intro same
        have some : node.data ≠ 0 := fun null => filled (same.trans null)
        exact fits.fresh some one first same
      · rw [(old two second).1]
        exact holds.apart one first two second differ filled
  · obtain ⟨inTree, place⟩ := holds.files fd small used
    exact ⟨List.mem_cons_of_mem _ inTree, place.trans_eq (old _ inTree).2.1.symm⟩

/-- A block that no node has can be overwritten. -/
theorem VfsHolds.withBlock (holds : VfsHolds vfs) {block : Nat} (bytes : List UInt8)
    (unused : ∀ other ∈ vfs.linked, (vfs.nodes other).data ≠ block) :
    VfsHolds (vfs.withBlock block bytes) ∧ ∀ other ∈ vfs.linked,
      (vfs.withBlock block bytes).content other = vfs.content other := by
  -- The block belongs to no node, so every file keeps its bytes.
  have same : ∀ other ∈ vfs.linked, (vfs.withBlock block bytes).content other = vfs.content other := by
    intro other among
    unfold Vfs.content
    exact congrArg (fun block => if (vfs.nodes other).data = 0 then [] else block)
      (Function.update_of_ne (unused other among) ..)
  refine ⟨⟨holds.root, holds.solid, fun other among => ?_, fun other among => ?_, holds.word,
    holds.apart, holds.files⟩, same⟩
  · obtain ⟨kids, siblings, inTree⟩ := holds.kids other among
    exact ⟨kids, siblings.frame fun _ _ => rfl, inTree⟩
  · rw [same other among]
    exact holds.size other among

/-- A node that is not in the tree can be overwritten. -/
theorem VfsHolds.withNode (holds : VfsHolds vfs) (new : child ∉ vfs.linked) (node : VfsNode) :
    VfsHolds (vfs.withNode child node) ∧ ∀ other ∈ vfs.linked,
      (vfs.withNode child node).content other = vfs.content other := by
  -- A node outside the tree is no child of another, and no open file is on it.
  have same : ∀ other ∈ vfs.linked, (vfs.withNode child node).nodes other = vfs.nodes other := by
    intro other among
    have apart : other ≠ child := fun equal => new (equal ▸ among)
    exact Function.update_of_ne apart ..
  have content : ∀ other ∈ vfs.linked, (vfs.withNode child node).content other = vfs.content other := by
    intro other among
    rw [Vfs.content, same other among]
    rfl
  refine ⟨⟨holds.root, holds.solid, fun other among => ?_, fun other among => ?_, fun other among => ?_,
    ?_, fun fd small used => ?_⟩, content⟩
  · -- The children keep their chains, since no node of the tree was written.
    obtain ⟨kids, siblings, inTree⟩ := holds.kids other among
    refine ⟨kids, ?_, inTree⟩
    rw [same other among]
    exact siblings.frame fun kid member => by rw [same kid (inTree kid member)]
  · rw [content other among, same other among]
    exact holds.size other among
  · rw [same other among]
    exact holds.word other among
  · intro one first two second
    rw [same one first, same two second]
    exact holds.apart one first two second
  · obtain ⟨inTree, place⟩ := holds.files fd small used
    exact ⟨inTree, place.trans_eq (congrArg VfsNode.size (same _ inTree)).symm⟩

end

/-- The bytes of a component and those after it are the bytes of the path. -/
theorem takeComponent_length (limit : Nat) (path : List UInt8) :
    (takeComponent limit path).1.length + (takeComponent limit path).2.length = path.length := by
  -- Every byte that is looked at goes to one of the two parts.
  induction limit generalizing path with
  | zero => simp [takeComponent]
  | succ limit ih =>
    cases path with
    | nil => rfl
    | cons byte path =>
      rw [takeComponent]
      by_cases slash : byte = 0x2F
      · rw [if_pos slash]
        simp
      · rw [if_neg slash]
        have rest := ih path
        simp only [List.length_cons]
        omega

/-- A path without its first slash is no longer. -/
theorem skipSlash_length (path : List UInt8) : (skipSlash path).length ≤ path.length := by
  -- At most one byte is skipped.
  cases path with
  | nil => exact Nat.le_refl _
  | cons byte path =>
    rw [skipSlash]
    by_cases slash : byte = 0x2F
    · rw [if_pos slash]
      exact Nat.le_succ _
    · rw [if_neg slash]

/-- Each turn of the walk down the tree shortens the path. -/
theorem rest_shorter (byte : UInt8) (path : List UInt8) :
    (skipSlash (takeComponent vfsNameMax (byte :: path)).2).length < (byte :: path).length := by
  have limit : vfsNameMax = 62 + 1 := rfl
  rw [limit, takeComponent]
  by_cases slash : byte = 0x2F
  · -- The slash itself is skipped.
    rw [if_pos slash, skipSlash, if_pos slash]
    exact Nat.lt_succ_self _
  · rw [if_neg slash]
    have taken := takeComponent_length 62 path
    have skipped := skipSlash_length (takeComponent 62 path).2
    simp only [List.length_cons]
    omega

/-- Induction over a path as the walks take it, a component and the slash behind it in each turn. -/
theorem path_induction {motive : List UInt8 → Prop} (path : List UInt8) (nil : motive [])
    (turn : ∀ byte path component rest, takeComponent vfsNameMax (byte :: path) = (component, rest) →
      motive (skipSlash rest) → motive (byte :: path)) : motive path := by
  -- A component takes at least one byte, so that what is left is shorter.
  induction length : path.length using Nat.strong_induction_on generalizing path with
  | _ length ih =>
    cases path with
    | nil => exact nil
    | cons byte path =>
      have shorter := rest_shorter byte path
      rw [length] at shorter
      exact turn byte path _ _ rfl (ih _ shorter _ rfl)

section

variable {vfs : Vfs} {current : Nat}

/-- Looking for a child ends at a child or at none. -/
theorem VfsHolds.findChild (holds : VfsHolds vfs) (inside : current ∈ vfs.linked) (name : List UInt8) :
    ∃ child, Settles (fun fuel => vfsFindChild fuel current name vfs) child ∧
      (child = 0 ∨ child ∈ vfs.linked) := by
  -- As much fuel as there are children is enough.
  obtain ⟨kids, siblings, inTree⟩ := holds.kids current inside
  refine ⟨_, ⟨kids.length, fun fuel enough => findChildLoop_siblings siblings enough⟩, ?_⟩
  rcases find_among kids fun kid => name = (vfs.nodes kid).name with none | among
  · exact .inl none
  · exact .inr (inTree _ among)

/-- One turn of the walk down the tree. -/
theorem lookupLoop_turn {byte : UInt8} {path component rest : List UInt8}
    (taken : takeComponent vfsNameMax (byte :: path) = (component, rest)) (fuel : Nat) :
    lookupLoop vfs (fuel + 1) (byte :: path) current =
      if component = [] then lookupLoop vfs fuel (skipSlash rest) current
      else (do
        let child ← vfsFindChild fuel current component vfs
        if child = 0 then return 0 else lookupLoop vfs fuel (skipSlash rest) child) := by
  rw [lookupLoop, taken]
  exact List.cons_ne_nil byte path

/-- The walk down the tree ends at a node or at none. -/
theorem VfsHolds.lookupLoop (holds : VfsHolds vfs) (path : List UInt8) (inside : current ∈ vfs.linked) :
    ∃ node, Settles (fun fuel => lookupLoop vfs fuel path current) node ∧
      (node = 0 ∨ node ∈ vfs.linked) := by
  -- The path gets shorter with each turn.
  induction path using path_induction generalizing current with
  | nil =>
    refine ⟨current, .now fun fuel => ?_, .inr inside⟩
    cases fuel with
    | zero => rfl
    | succ fuel => rfl
  | turn byte path component rest taken ih =>
    by_cases empty : component = []
    · obtain ⟨node, settles, among⟩ := ih inside
      exact ⟨node, .later (fun fuel => (lookupLoop_turn taken fuel).trans (if_pos empty)) settles, among⟩
    · have turn := fun fuel => (@lookupLoop_turn vfs current _ _ _ _ taken fuel).trans (if_neg empty)
      obtain ⟨child, found, below⟩ := holds.findChild inside component
      by_cases missing : child = 0
      · refine ⟨0, .later turn (found.bind (.now fun fuel => ?_)), .inl rfl⟩
        exact if_pos missing
      · obtain ⟨node, settles, among⟩ := ih (below.resolve_left missing)
        refine ⟨node, .later turn (found.bind ?_), among⟩
        simp only [if_neg missing]
        exact settles

/-- The walk down the tree looks at the nodes only. -/
theorem lookupLoop_congr {other : Vfs} (same : other.nodes = vfs.nodes) (fuel : Nat) (path : List UInt8) :
    MiraOS.lookupLoop other fuel path current = MiraOS.lookupLoop vfs fuel path current := by
  -- The walk along the children reads nodes only, and so does the walk down.
  have found : ∀ fuel child name, findChildLoop other name fuel child =
      findChildLoop vfs name fuel child := by
    intro fuel
    induction fuel with
    | zero => exact fun _ _ => rfl
    | succ fuel ih =>
      intro child name
      rw [findChildLoop, findChildLoop, same, ih]
  induction fuel generalizing path current with
  | zero => cases path <;> rfl
  | succ fuel ih =>
    cases path with
    | nil => rfl
    | cons byte path =>
      generalize taken : takeComponent vfsNameMax (byte :: path) = parts
      obtain ⟨component, rest⟩ := parts
      have children : vfsFindChild fuel current component other =
          vfsFindChild fuel current component vfs := by
        rw [vfsFindChild, vfsFindChild, same, found]
      rw [lookupLoop_turn taken, lookupLoop_turn taken, children]
      simp only [ih]

/-- Looking up a path ends at a node or at none. -/
theorem VfsHolds.lookup (holds : VfsHolds vfs) (path : List UInt8) :
    ∃ node, Settles (fun fuel => vfsLookup fuel path vfs) node ∧ (node = 0 ∨ node ∈ vfs.linked) := by
  -- A path that is a slash alone is answered without a walk.
  have real : vfs.rootNode ≠ 0 := fun null => holds.solid (null ▸ holds.root)
  by_cases slash : path = [0x2F]
  · refine ⟨vfs.rootNode, .now fun fuel => ?_, .inr holds.root⟩
    rw [vfsLookup, if_neg real, if_pos slash]
  · obtain ⟨node, settles, among⟩ := holds.lookupLoop (skipSlash path) holds.root
    refine ⟨node, ?_, among⟩
    simp only [vfsLookup, if_neg real, if_neg slash]
    exact settles

end

/-- An empty directory: no children and no bytes. -/
structure EmptyDirectory (node : VfsNode) : Prop where
  type : node.type = .directory
  size : node.size = 0
  data : node.data = 0
  children : node.children = 0
  childCount : node.childCount = 0

/-- A file system on an empty directory is a tree. -/
theorem vfsInit_holds {root : Nat} (real : root ≠ 0) {memory : Vfs}
    (empty : EmptyDirectory (memory.nodes root)) : VfsHolds (vfsInit root memory) := by
  -- The root is the only node, and it has neither children nor bytes.
  have only : ∀ other ∈ (vfsInit root memory).linked, other = root := fun other among =>
    List.mem_singleton.mp among
  have node : (vfsInit root memory).nodes root = memory.nodes root := rfl
  refine ⟨List.mem_singleton.mpr rfl, fun null => real (only 0 null).symm, fun other among => ?_,
    fun other among => ?_, fun other among => ?_, fun one first two second differ => ?_, ?_⟩
  · rw [only other among, node, empty.children]
    exact ⟨[], rfl, fun kid none => absurd none List.not_mem_nil⟩
  · rw [Vfs.content, only other among, node, if_pos empty.data, empty.size]
    rfl
  · rw [only other among, node, empty.size]
    decide
  · exact absurd ((only one first).trans (only two second).symm) differ
  · intro fd small used
    have unused : ((vfsInit root memory).openTable fd).used = false := by
      simp [vfsInit, small]
    rw [unused] at used
    cases used

/-- The root that is mounted is an empty directory. -/
theorem mountRoot_empty (root : Nat) (vfs : Vfs) :
    EmptyDirectory ((vfs.withNode root { name := [0x2F], type := .directory }).nodes root) := by
  have node : (vfs.withNode root { name := [0x2F], type := .directory }).nodes root =
      -- The new root is an empty directory named by a slash.
      { name := [0x2F], type := .directory } := Function.update_self ..
  rw [node]
  exact ⟨rfl, rfl, rfl, rfl, rfl⟩

/-- An empty root directory is a tree. -/
theorem mountRoot_holds {root : Nat} (real : root ≠ 0) (vfs : Vfs) : VfsHolds (mountRoot root vfs) :=
  vfsInit_holds real (mountRoot_empty root vfs)

end MiraOS
