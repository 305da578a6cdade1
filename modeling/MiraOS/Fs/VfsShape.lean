import Mathlib.Data.Set.Finite.List
import MiraOS.Fs.VfsRefinement

/-! The nodes form a finite tree, in which no two siblings have the same name. -/

namespace MiraOS

open Machine

/-- The nodes that are reached from the root through lists of children. -/
inductive Below (vfs : Vfs) : Nat → Prop where
  | root : Below vfs vfs.rootNode
  | kid {node kid : Nat} {kids : List Nat} (parent : Below vfs node)
      (siblings : Siblings vfs (vfs.nodes node).children kids) (among : kid ∈ kids) : Below vfs kid

/-- What holds of a node and the list of its children. -/
structure Family (vfs : Vfs) (node : Nat) (kids : List Nat) : Prop where
  siblings : Siblings vfs (vfs.nodes node).children kids
  once : kids.Nodup
  count : (vfs.nodes node).childCount = kids.length
  parent : ∀ kid ∈ kids, (vfs.nodes kid).parent = node
  named : ∀ kid ∈ kids, Component (vfs.nodes kid).name
  apart : kids.Pairwise fun one two => (vfs.nodes one).name ≠ (vfs.nodes two).name

/--
A finite tree of nodes.

Each node has a level, and only the root is on the lowest one.
A node on a level has its children on the next, so that no way down leads back.
-/
structure FileTree (vfs : Vfs) : Prop where
  finite : {node | Below vfs node}.Finite
  families : ∀ node, Below vfs node → ∃ kids, Family vfs node kids
  levels : ∃ level : Nat → Nat, level vfs.rootNode = 0 ∧ ∀ node kids, Below vfs node →
    Siblings vfs (vfs.nodes node).children kids → ∀ kid ∈ kids, level kid = level node + 1

/-- Making a file or opening one, with any flags and any answers of the heap. -/
inductive TreeCall : Vfs → List UInt8 → Vfs → Prop where
  | created {vfs next : Vfs} {path : List UInt8} (made : VfsCreate vfs path next) :
      TreeCall vfs path next
  | opened {vfs next : Vfs} {answers : Nat → Nat} {path : List UInt8} {flags : Nat} {fd : Int}
      (fresh : FreshFrom vfs answers 0)
      (ran : Settles (fun fuel => vfsOpen fuel answers path flags vfs) (fd, next)) :
      TreeCall vfs path next

/-- The families of all the nodes that were linked in, with their levels. -/
structure Shaped (level : Nat → Nat) (vfs : Vfs) : Prop where
  holds : VfsHolds vfs
  root : level vfs.rootNode = 0
  families : ∀ node ∈ vfs.linked, ∃ kids, Family vfs node kids ∧
    ∀ kid ∈ kids, kid ∈ vfs.linked ∧ level kid = level node + 1

section

variable {vfs next : Vfs} {node : Nat} {kids : List Nat} {level : Nat → Nat}

/-- There is only one list of siblings from a node on. -/
theorem Siblings.unique {head : Nat} {others : List Nat} (one : Siblings vfs head kids)
    (two : Siblings vfs head others) : kids = others := by
  -- Both lists end where the link is null.
  induction kids generalizing head others with
  | nil =>
    cases others with
    | nil => rfl
    | cons kid rest => exact absurd (two.1.symm.trans one) two.2.1
  | cons kid rest ih =>
    cases others with
    | nil => exact absurd (one.1.symm.trans two) one.2.1
    | cons other more =>
      obtain ⟨rfl, -, tail⟩ := one
      obtain ⟨rfl, -, again⟩ := two
      rw [ih tail again]

/-- A family stays one when neither its list nor the labels of the children change. -/
theorem Family.frame (family : Family vfs node kids)
    (children : (next.nodes node).children = (vfs.nodes node).children)
    (count : (next.nodes node).childCount = (vfs.nodes node).childCount)
    (links : ∀ kid ∈ kids, (next.nodes kid).nextSibling = (vfs.nodes kid).nextSibling)
    (parent : ∀ kid ∈ kids, (next.nodes kid).parent = (vfs.nodes kid).parent)
    (names : ∀ kid ∈ kids, (next.nodes kid).name = (vfs.nodes kid).name) :
    Family next node kids := by
  -- Each field of the family speaks of the kids only, and of these all links and names are kept.
  refine ⟨?_, family.once, count.trans family.count, fun kid among => ?_, fun kid among => ?_, ?_⟩
  · rw [children]
    exact family.siblings.frame links
  · exact (parent kid among).trans (family.parent kid among)
  · rw [names kid among]
    exact family.named kid among
  · refine family.apart.imp_of_mem fun first second differ => ?_
    rw [names _ first, names _ second]
    exact differ

/-- Every node that is reached from the root was linked in. -/
theorem VfsHolds.linked_of_below (holds : VfsHolds vfs) (below : Below vfs node) : node ∈ vfs.linked := by
  -- Induction on the way down from the root, which stays among linked nodes.
  induction below with
  | root => exact holds.root
  | kid _ siblings among inside =>
    obtain ⟨kids, listed, inTree⟩ := holds.kids _ inside
    rw [siblings.unique listed] at among
    exact inTree _ among

/-- Where the shape is right, the nodes form a finite tree. -/
theorem Shaped.fileTree (shaped : Shaped level vfs) : FileTree vfs := by
  -- The tree is finite as only linked nodes are on it, and the level grows along each link.
  refine ⟨?_, fun node below => ?_, level, shaped.root, fun node kids below siblings kid among => ?_⟩
  · exact vfs.linked.finite_toSet.subset fun node below => shaped.holds.linked_of_below below
  · obtain ⟨kids, family, -⟩ := shaped.families node (shaped.holds.linked_of_below below)
    exact ⟨kids, family⟩
  · obtain ⟨others, family, inTree⟩ := shaped.families node (shaped.holds.linked_of_below below)
    rw [siblings.unique family.siblings] at among
    exact (inTree kid among).2

/-- A change outside the tree keeps the shape. -/
theorem Shaped.frame (shaped : Shaped level vfs) (holds : VfsHolds next)
    (root : next.rootNode = vfs.rootNode) (linked : next.linked = vfs.linked)
    (same : ∀ node ∈ vfs.linked, next.nodes node = vfs.nodes node) : Shaped level next := by
  refine ⟨holds, root ▸ shaped.root, fun node among => ?_⟩
  -- A family lies among linked nodes, and these are the same.
  rw [linked] at among ⊢
  obtain ⟨kids, family, inTree⟩ := shaped.families node among
  refine ⟨kids, family.frame ?_ ?_ ?_ ?_ ?_, inTree⟩
  · rw [same node among]
  · rw [same node among]
  · exact fun kid member => by rw [same kid (inTree kid member).1]
  · exact fun kid member => by rw [same kid (inTree kid member).1]
  · exact fun kid member => by rw [same kid (inTree kid member).1]

end

section

variable {vfs next : Vfs} {parent child size : Nat} {node : VfsNode} {level : Nat → Nat}
  {allowed : VfsNode → Prop}

/-- A node of the tree keeps its parent when another one is linked in. -/
theorem added_old_parent (inside : parent ∈ vfs.linked) (new : child ∉ vfs.linked) {other : Nat}
    (among : other ∈ vfs.linked) :
    ((vfsAddChild parent child (vfs.withNode child node)).nodes other).parent =
      (vfs.nodes other).parent := by
  -- The old nodes keep their parents, the parent of the new child among them.
  by_cases first : other = parent
  · rw [added_nodes inside new, if_pos first, first]
  · rw [added_other inside new among first]

/-- The family of the parent has the new node in front. -/
theorem Family.added {kids : List Nat} (family : Family vfs parent kids)
    (inTree : ∀ kid ∈ kids, kid ∈ vfs.linked) (inside : parent ∈ vfs.linked) (new : child ∉ vfs.linked)
    (real : child ≠ 0) (named : Component node.name) (missing : vfs.Child parent node.name 0) :
    Family (vfsAddChild parent child (vfs.withNode child node)) parent (child :: kids) := by
  have here := @added_new vfs parent child node inside new
  refine ⟨added_parent_kids family.siblings inTree inside new real, ?_, ?_, fun kid among => ?_,
    fun kid among => ?_, ?_⟩
  · exact List.nodup_cons.mpr ⟨fun among => new (inTree child among), family.once⟩
  · rw [added_nodes inside new, if_pos rfl, List.length_cons, ← family.count]
  · rcases List.mem_cons.mp among with rfl | among
    · rw [here]
    · rw [added_old_parent inside new (inTree kid among)]
      exact family.parent kid among
  · rcases List.mem_cons.mp among with rfl | among
    · rw [here]
      exact named
    · rw [(added_label inside new (inTree kid among)).1]
      exact family.named kid among
  · -- The new name was missing among the children that were there.
    refine List.pairwise_cons.mpr ⟨fun kid among => ?_, family.apart.imp_of_mem fun first second differ => ?_⟩
    · rw [here, (added_label inside new (inTree kid among)).1]
      exact ((child_missing_iff family.siblings).mp missing kid among).symm
    · rw [(added_label inside new (inTree _ first)).1, (added_label inside new (inTree _ second)).1]
      exact differ

/-- Linking a node in keeps the shape, with the new node on the level after its parent's. -/
theorem Shaped.added (shaped : Shaped level vfs) (inside : parent ∈ vfs.linked)
    (new : child ∉ vfs.linked) (real : child ≠ 0) (fits : NewNode vfs node) (bare : node.childCount = 0)
    (named : Component node.name) (missing : vfs.Child parent node.name 0) :
    Shaped (Function.update level child (level parent + 1))
      (vfsAddChild parent child (vfs.withNode child node)) := by
  -- The nodes that were there keep their levels.
  have old : ∀ other ∈ vfs.linked,
      Function.update level child (level parent + 1) other = level other := by
    intro other among
    have apart : other ≠ child := fun same => new (same ▸ among)
    exact Function.update_of_ne apart ..
  have here := @added_new vfs parent child node inside new
  refine ⟨shaped.holds.added inside new real fits, (old _ shaped.holds.root).trans shaped.root,
    fun other among => ?_⟩
  rcases List.mem_cons.mp among with rfl | among
  · -- The new node has no children yet.
    refine ⟨[], ⟨?_, List.nodup_nil, ?_, ?_, ?_, .nil⟩, fun kid none => absurd none List.not_mem_nil⟩
    · rw [here]
      exact fits.children
    · rw [here]
      exact bare
    · exact fun kid none => absurd none List.not_mem_nil
    · exact fun kid none => absurd none List.not_mem_nil
  -- Every other node has the children it had, and only the parent has one more.
  obtain ⟨kids, family, inTree⟩ := shaped.families other among
  have kidsIn : ∀ kid ∈ kids, kid ∈ vfs.linked := fun kid member => (inTree kid member).1
  have oldKids : ∀ kid ∈ kids, kid ∈ (vfsAddChild parent child (vfs.withNode child node)).linked ∧
      Function.update level child (level parent + 1) kid =
        Function.update level child (level parent + 1) other + 1 := by
    intro kid member
    rw [old kid (kidsIn kid member), old other among]
    exact ⟨List.mem_cons_of_mem _ (kidsIn kid member), (inTree kid member).2⟩
  by_cases first : other = parent
  · subst first
    refine ⟨child :: kids, family.added kidsIn inside new real named missing, fun kid member => ?_⟩
    rcases List.mem_cons.mp member with rfl | member
    · rw [old other among, Function.update_self]
      exact ⟨List.mem_cons_self, rfl⟩
    · exact oldKids kid member
  · refine ⟨kids, family.frame ?_ ?_ (fun kid member => ?_) (fun kid member => ?_) (fun kid member => ?_),
      oldKids⟩
    · rw [added_other inside new among first]
    · rw [added_other inside new among first]
    · exact (added_old inside new (kidsIn kid member)).2.2
    · exact added_old_parent inside new (kidsIn kid member)
    · exact (added_label inside new (kidsIn kid member)).1

/-- Every change on the way to more nodes keeps the shape. -/
theorem Shaped.grow (shaped : Shaped level vfs) (grow : Grow allowed size vfs next) :
    ∃ level, Shaped level next := by
  -- One case for each way to grow: only linking a node adds to a family.
  have holds := (grow.grown shaped.holds).1.holds
  cases grow with
  | linked inside may new real fits bare bytes named missing =>
    exact ⟨_, shaped.added inside new real fits bare named missing⟩
  -- A node that is not linked is on no list.
  | @spareNode child new node =>
    refine ⟨level, shaped.frame holds rfl rfl fun other among => ?_⟩
    have apart : other ≠ child := fun same => new (same ▸ among)
    exact Function.update_of_ne apart ..
  | spareBlock unused bytes => exact ⟨level, shaped.frame holds rfl rfl fun _ _ => rfl⟩
  | freed pointer => exact ⟨level, shaped.frame holds rfl rfl fun _ _ => rfl⟩

/-- Any number of changes keep the shape. -/
theorem Shaped.growth (shaped : ∃ level, Shaped level vfs) (growth : Growth allowed size vfs next) :
    ∃ level, Shaped level next := by
  -- Induction on the growth: each new node takes the level below its parent's.
  induction growth with
  | refl => exact shaped
  | tail _ grow ih =>
    obtain ⟨level, shaped⟩ := ih
    exact shaped.grow grow

/-- Making a file and opening one keep the shape. -/
theorem Shaped.call {path : List UInt8} (shaped : ∃ level, Shaped level vfs)
    (called : TreeCall vfs path next) : ∃ level, Shaped level next := by
  obtain ⟨level, here⟩ := shaped
  cases called with
  | created made =>
    cases made with
    | @made _ answers _ data size node fresh word ran =>
      obtain ⟨found, last, settled, growth, -⟩ := @vfsCreateFile_growth vfs answers size anyNode
        (fun _ _ => trivial) here.holds path data fresh word fun _ _ _ => .inl trivial
      cases ran.unique settled
      exact Shaped.growth ⟨level, here⟩ growth
  | @opened _ answers _ flags fd fresh ran =>
    obtain ⟨descriptor, middle, openTable, growth, settled⟩ := @vfsOpen_growth vfs answers anyNode
      (fun _ _ => trivial) here.holds path flags fresh fun _ _ _ _ => .inl trivial
    obtain ⟨level, there⟩ := Shaped.growth ⟨level, here⟩ growth
    -- The table of open files is no part of the tree.
    obtain ⟨found, last, -, again, -, kept, -⟩ := here.holds.opened path flags fresh
    cases again.unique settled
    cases ran.unique settled
    exact ⟨level, there.frame kept rfl rfl fun _ _ => rfl⟩

/-- An empty root directory has the right shape. -/
theorem vfsInit_shaped {root : Nat} (real : root ≠ 0) {memory : Vfs}
    (empty : EmptyDirectory (memory.nodes root)) : Shaped (fun _ => 0) (vfsInit root memory) := by
  refine ⟨vfsInit_holds real empty, rfl, fun node among => ?_⟩
  -- The root is the only node, and it has no kids.
  obtain rfl : node = root := List.mem_singleton.mp among
  refine ⟨[], ⟨empty.children, List.nodup_nil, empty.childCount, ?_, ?_, .nil⟩,
    fun kid none => absurd none List.not_mem_nil⟩
  · exact fun kid none => absurd none List.not_mem_nil
  · exact fun kid none => absurd none List.not_mem_nil

end

end MiraOS
