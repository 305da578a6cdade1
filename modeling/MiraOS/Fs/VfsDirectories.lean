import MiraOS.Fs.VfsLookup
import MiraOS.Fs.VfsShape

/-! When only directories have children. -/

namespace MiraOS

open Machine

/-- A node that is a directory. -/
def VfsNode.IsDirectory (node : VfsNode) : Prop := node.type = .directory

/-- Every node of the tree with children is a directory. -/
def OnlyDirectories (vfs : Vfs) : Prop :=
  ∀ node, Below vfs node → (vfs.nodes node).children ≠ 0 → (vfs.nodes node).IsDirectory

/-- The root directory with its first two files, with fresh memory for each of them. -/
structure RamfsBoot (root : Nat) (memory start : Vfs) (readme version : Nat → Nat) : Prop where
  ran : Settles (fun fuel => ramfsInit fuel readme version root memory) start
  first : FreshFrom (mountRoot root memory) readme 0
  second : ∀ node middle,
    Settles (fun fuel => createText fuel readme "/readme.txt" "MiraOS ramfs online"
      (mountRoot root memory)) (node, middle) → FreshFrom middle version 0

/--
Making a file or opening one, where the first missing component of the path is below a directory.

A component that there is no memory for may be missing anywhere, as it is not linked in.
-/
inductive GuardedCall : Vfs → List UInt8 → Vfs → Prop where
  | created {vfs next : Vfs} {answers : Nat → Nat} {path : List UInt8} {data : Nat → UInt8}
      {size node : Nat} (fresh : FreshFrom vfs answers 0) (word : size < 2 ^ 64)
      (guard : MayGrow VfsNode.IsDirectory vfs answers 0 size (skipSlash path) vfs.rootNode)
      (ran : Settles (fun fuel => vfsCreateFile fuel answers path data size vfs) (node, next)) :
      GuardedCall vfs path next
  | opened {vfs next : Vfs} {answers : Nat → Nat} {path : List UInt8} {flags : Nat} {fd : Int}
      (fresh : FreshFrom vfs answers 0)
      (guard : flags &&& vfsOCreat ≠ 0 →
        MayGrow VfsNode.IsDirectory vfs answers 0 0 (skipSlash path) vfs.rootNode)
      (ran : Settles (fun fuel => vfsOpen fuel answers path flags vfs) (fd, next)) :
      GuardedCall vfs path next

/-- What the guarded calls keep of every node that was linked in. -/
structure Sorted (vfs : Vfs) : Prop where
  holds : VfsHolds vfs
  root : (vfs.nodes vfs.rootNode).IsDirectory
  parents : ∀ node ∈ vfs.linked, (vfs.nodes node).children ≠ 0 → (vfs.nodes node).IsDirectory

section

variable {vfs next : Vfs} {size : Nat}

/-- Only directories have children, among the nodes that are reached. -/
theorem Sorted.onlyDirectories (sorted : Sorted vfs) : OnlyDirectories vfs :=
  fun node below filled => sorted.parents node (sorted.holds.linked_of_below below) filled

/-- A change outside the tree leaves only directories with children. -/
theorem Sorted.frame (sorted : Sorted vfs) (holds : VfsHolds next)
    (root : next.rootNode = vfs.rootNode) (linked : next.linked = vfs.linked)
    (same : ∀ node ∈ vfs.linked, next.nodes node = vfs.nodes node) : Sorted next := by
  -- Only nodes of the tree count, and these are the same.
  refine ⟨holds, ?_, fun node among => ?_⟩
  · rw [root, same _ sorted.holds.root]
    exact sorted.root
  · rw [linked] at among
    rw [same node among]
    exact sorted.parents node among

/-- A node that is linked in below a directory leaves only directories with children. -/
theorem Sorted.grow (sorted : Sorted vfs) (grow : Grow VfsNode.IsDirectory size vfs next) :
    Sorted next := by
  have holds := (grow.grown sorted.holds).1.holds
  have kept := (grow.grown sorted.holds).2
  cases grow with
  | @linked parent child node inside may new real fits bare bytes named missing =>
    refine ⟨holds, ?_, fun other among filled => ?_⟩
    · rw [VfsNode.IsDirectory, kept.root, kept.type _ sorted.holds.root]
      exact sorted.root
    rcases List.mem_cons.mp among with rfl | among
    · -- The new node has no children.
      rw [added_new inside new] at filled
      exact absurd fits.children filled
    · rw [VfsNode.IsDirectory, kept.type other among]
      by_cases first : other = parent
      · rw [first]
        exact may
      · rw [added_other inside new among first] at filled
        exact sorted.parents other among filled
  | @spareNode child new node =>
    refine sorted.frame holds rfl rfl fun other among => ?_
    have apart : other ≠ child := fun same => new (same ▸ among)
    exact Function.update_of_ne apart ..
  | spareBlock unused bytes => exact sorted.frame holds rfl rfl fun _ _ => rfl
  | freed pointer => exact sorted.frame holds rfl rfl fun _ _ => rfl

/-- Any number of nodes below directories leave only directories with children. -/
theorem Sorted.growth (sorted : Sorted vfs) (growth : Growth VfsNode.IsDirectory size vfs next) :
    Sorted next := by
  -- Induction on the growth: every added node hangs below a directory.
  induction growth with
  | refl => exact sorted
  | tail _ grow ih => exact ih.grow grow

/-- A file that is made below a directory leaves only directories with children. -/
theorem Sorted.create {answers : Nat → Nat} {path : List UInt8} {data : Nat → UInt8} {node : Nat}
    (sorted : Sorted vfs) (fresh : FreshFrom vfs answers 0) (word : size < 2 ^ 64)
    (guard : MayGrow VfsNode.IsDirectory vfs answers 0 size (skipSlash path) vfs.rootNode)
    (ran : Settles (fun fuel => vfsCreateFile fuel answers path data size vfs) (node, next)) :
    Sorted next := by
  -- Creation grows the tree below directories only, which the guard asks.
  obtain ⟨found, last, settled, growth, -⟩ := vfsCreateFile_growth (fun _ directory => directory)
    sorted.holds path data fresh word guard
  cases ran.unique settled
  exact sorted.growth growth

/-- A guarded call leaves only directories with children. -/
theorem Sorted.call {path : List UInt8} (sorted : Sorted vfs) (called : GuardedCall vfs path next) :
    Sorted next := by
  cases called with
  | created fresh word guard ran => exact sorted.create fresh word guard ran
  | @opened _ answers _ flags fd fresh guard ran =>
    obtain ⟨descriptor, middle, openTable, growth, settled⟩ := vfsOpen_growth
      (fun _ directory => directory) sorted.holds path flags fresh guard
    -- The table of open files is no part of the tree.
    obtain ⟨found, last, -, again, -, kept, -⟩ := sorted.holds.opened path flags fresh
    cases again.unique settled
    cases ran.unique settled
    exact (sorted.growth growth).frame kept rfl rfl fun _ _ => rfl

/-- A path of one component is first missed at the root, if at all. -/
theorem firstMissing_single {path component : List UInt8} {byte : UInt8} {dir : Nat} {last : Bool}
    (holds : VfsHolds vfs) (taken : takeComponent vfsNameMax (byte :: path) = (component, []))
    (filled : component ≠ [])
    (stops : Settles (fun fuel => firstMissing vfs fuel (byte :: path) vfs.rootNode)
      (some (dir, last))) : dir = vfs.rootNode := by
  -- Behind the component there is nothing left to miss.
  obtain ⟨child, found, -⟩ := holds.findChild holds.root component
  by_cases missing : child = 0
  · rw [missing] at found
    cases stops.unique (firstMissing_stop taken filled found)
    rfl
  · have ended : Settles (fun fuel => firstMissing vfs fuel (skipSlash []) child) none :=
      .now fun fuel => by cases fuel <;> rfl
    cases stops.unique (firstMissing_found taken filled found missing ended)

/-- A file of the root directory leaves only directories with children. -/
theorem Sorted.createText {answers : Nat → Nat} {path text : String} {byte : UInt8}
    {rest component : List UInt8} {node : Nat} (sorted : Sorted vfs) (fresh : FreshFrom vfs answers 0)
    (single : skipSlash (asciiBytes path) = byte :: rest)
    (taken : takeComponent vfsNameMax (byte :: rest) = (component, [])) (filled : component ≠ [])
    (word : (asciiBytes text).length < 2 ^ 64)
    (ran : Settles (fun fuel => createText fuel answers path text vfs) (node, next)) : Sorted next := by
  refine sorted.create fresh word (fun dir last stops => .inl ?_) ran
  -- The path has one component, so the new node hangs below the root.
  rw [single] at stops
  rw [firstMissing_single sorted.holds taken filled stops]
  exact sorted.root

/-- An empty root directory has no children at all. -/
theorem mountRoot_sorted {root : Nat} (real : root ≠ 0) (memory : Vfs) : Sorted (mountRoot root memory) := by
  have empty := mountRoot_empty root memory
  -- The root alone is in the tree, and it has no children.
  refine ⟨mountRoot_holds real memory, empty.type, fun node among filled => ?_⟩
  obtain rfl : node = root := List.mem_singleton.mp among
  exact absurd empty.children filled

/-- After the start only directories have children. -/
theorem RamfsBoot.sorted {root : Nat} {memory start : Vfs} {readme version : Nat → Nat}
    (real : root ≠ 0) (boot : RamfsBoot root memory start readme version) : Sorted start := by
  -- Both files are made in the root directory itself.
  have mounted := mountRoot_sorted real memory
  obtain ⟨node, middle, first, -⟩ := vfsCreateFile_grown mounted.holds (asciiBytes "/readme.txt")
    (fun i => (asciiBytes "MiraOS ramfs online").getD i 0) boot.first
    (by decide : (asciiBytes "MiraOS ramfs online").length < 2 ^ 64)
  have fresh := boot.second node middle first
  have sorted : Sorted middle := mounted.createText boot.first rfl rfl (by decide) (by decide) first
  obtain ⟨other, last, second, -⟩ := vfsCreateFile_grown sorted.holds (asciiBytes "/version")
    (fun i => (asciiBytes "1.0").getD i 0) fresh (by decide : (asciiBytes "1.0").length < 2 ^ 64)
  have whole : Settles (fun fuel => ramfsInit fuel readme version root memory) last := by
    unfold ramfsInit
    exact first.bind (second.bind (.now fun _ => rfl))
  cases boot.ran.unique whole
  exact sorted.createText fresh rfl rfl (by decide) (by decide) second

end

/-- The start with its first two files. -/
theorem ramfsVfs_boot : RamfsBoot 8 bareVfs ramfsVfs (fileHeap 16) (fileHeap 48) := by
  refine ⟨.after 4 fun _ => rfl, mountRoot_fresh, fun node middle ran => ?_⟩
  -- The file system boots with the one file it is given.
  cases ran.unique readmeVfs_settles
  exact readmeVfs_fresh

/-- The first two files and a third one in a directory of its own. -/
def nestedVfs : Vfs :=
  ((vfsCreateFile 8 (fileHeap 96) (asciiBytes "/bin/sh") (fun _ => 0) 0 ramfsVfs).toOption.getD
    (0, bareVfs)).2

/-- The first two files and a third one below the first. -/
def belowFileVfs : Vfs :=
  ((vfsCreateFile 8 (fileHeap 96) (asciiBytes "/readme.txt/x") (fun _ => 0) 0 ramfsVfs).toOption.getD
    (0, bareVfs)).2

end MiraOS
