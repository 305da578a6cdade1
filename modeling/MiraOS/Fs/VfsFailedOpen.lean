import MiraOS.Fs.VfsCreation

/-! What an open that fails leaves behind. -/

namespace MiraOS

open Machine

/-- The tree has the same nodes as before, and they are as they were. -/
structure SameTree (vfs next : Vfs) : Prop where
  root : next.rootNode = vfs.rootNode
  linked : next.linked = vfs.linked
  nodes : ∀ node ∈ vfs.linked, next.nodes node = vfs.nodes node
  content : ∀ node ∈ vfs.linked, next.content node = vfs.content node

/-- If an open answers that it failed, it changed nothing. -/
def FailsCleanly (vfs : Vfs) (fd : Int) (next : Vfs) : Prop :=
  fd = -1 → SameTree vfs next ∧ next.openTable = vfs.openTable

/-- An open that makes no node, or all that are missing, where nothing behind the creation fails. -/
def LeavesNothing (vfs : Vfs) (answers : Nat → Nat) (path : List UInt8) (flags : Nat) : Prop :=
  flags &&& vfsOCreat = 0 ∨ ∃ count, Lacks vfs (pathPieces path) vfs.rootNode count ∧
    (count = 0 ∨ answers 0 = 0 ∨
      -- The last node is a file and not a directory, and there is an entry for it.
      (∀ i, i < count → answers i ≠ 0) ∧ ¬ DoubleSlash path ∧ vfs.unusedFile ≠ none)

section

variable {vfs next : Vfs} {answers : Nat → Nat} {path : List UInt8} {flags count : Nat}

/-- Nothing changed. -/
theorem FailsCleanly.refl (vfs : Vfs) (fd : Int) : FailsCleanly vfs fd vfs :=
  fun _ => ⟨⟨rfl, rfl, fun _ _ => rfl, fun _ _ => rfl⟩, rfl⟩

/-- In the same tree, each node has the children that it had. -/
theorem SameTree.child (same : SameTree vfs next) (holds : VfsHolds vfs) {dir kid : Nat} {name : List UInt8}
    (inside : dir ∈ vfs.linked) (found : vfs.Child dir name kid) : next.Child dir name kid := by
  obtain ⟨kids, siblings, inTree⟩ := holds.kids dir inside
  -- The list of children and their names are read from nodes that did not change.
  refine found.frame siblings ?_ fun other among => by rw [same.nodes other (inTree other among)]
  rw [same.nodes dir inside]
  exact siblings.frame fun other among => by rw [same.nodes other (inTree other among)]

/-- Only one number of nodes is missing. -/
theorem Lacks.unique {names : List (List UInt8)} {dir other : Nat} (one : Lacks vfs names dir count)
    (two : Lacks vfs names dir other) : count = other := by
  induction names generalizing dir with
  | nil => exact Eq.trans one (Eq.symm two)
  | cons name names ih =>
    obtain ⟨kid, found, rest⟩ := one
    obtain ⟨kidToo, foundToo, restToo⟩ := two
    -- Only one child is found at each name.
    cases found.unique foundToo
    by_cases missing : kid = 0
    · rw [if_pos missing] at rest restToo
      exact rest.trans restToo.symm
    · rw [if_neg missing] at rest restToo
      exact ih rest restToo

/-- The node for opening a path, and what was made for it. -/
theorem Shaped.openNode_made {level : Nat → Nat} (shaped : Shaped level vfs) (flags : Nat)
    (fresh : FreshFrom vfs answers 0) (lacks : Lacks vfs (pathPieces path) vfs.rootNode count) :
    ∃ node next, Settles (fun fuel => openNode fuel answers path flags vfs) (node, next) ∧
      next.openTable = vfs.openTable ∧ (flags &&& vfsOCreat = 0 ∨ count = 0 → next = vfs) ∧
      (flags &&& vfsOCreat ≠ 0 → 0 < count → Made vfs answers 0 count path node next) := by
  have holds := shaped.holds
  obtain ⟨first, looked, -⟩ := holds.lookup path
  obtain ⟨leads, nowhere⟩ := shaped.lookup_leads looked
  -- The path leads to a node exactly when nothing is missing.
  have there : first ≠ 0 ↔ count = 0 := by
    rw [shaped.lacks_zero_iff holds.root lacks]
    constructor
    · exact fun real => ⟨first, leads real⟩
    · rintro ⟨node, way⟩ null
      exact nowhere null node way
  unfold openNode
  -- The creation is asked for and needed, or the first lookup is the answer.
  by_cases creates : first = 0 ∧ flags &&& vfsOCreat ≠ 0
  · obtain ⟨node, next, created, growth, again, made⟩ := @VfsHolds.create_made _ _ (fun _ => 0) _ holds path
      fresh lacks
    refine ⟨node, next, looked.bind ?_, (growth.grown holds).1.openTable, ?_, fun _ _ => made⟩
    · simp only [if_pos creates]
      exact created.bind (again.bind (.now fun _ => rfl))
    · rintro (unasked | none)
      · exact absurd unasked creates.2
      · exact absurd creates.1 (there.mpr none)
  · refine ⟨first, vfs, looked.bind ?_, rfl, fun _ => rfl, fun asked positive => ?_⟩
    · simp only [if_neg creates]
      exact .now fun _ => rfl
    · -- A path that misses something leads nowhere, so the creation would have been asked for.
      refine absurd ⟨not_not.mp fun real => ?_, asked⟩ creates
      have none := there.mp real
      omega

/-- A tree in which a node was made is another one. -/
theorem Made.changed {node : Nat} (made : Made vfs answers 0 count path node next) (holds : VfsHolds vfs)
    (positive : 0 < count) (real : answers 0 ≠ 0) : ¬ SameTree vfs next := by
  intro same
  -- A directory has a child that it did not have.
  obtain ⟨dir, inside, name, missing, found⟩ := made.linked positive real
  exact real (found.unique (same.child holds inside missing))

/-- The creation fails, or it makes a directory, or no entry is left. -/
theorem Made.fails_iff {node : Nat} (made : Made vfs answers 0 count path node next) (positive : 0 < count)
    (table : next.openTable = vfs.openTable) :
    node = 0 ∨ (next.nodes node).type = .directory ∨ next.unusedFile = none ↔
      ¬ ((∀ i, i < count → answers i ≠ 0) ∧ ¬ DoubleSlash path ∧ vfs.unusedFile ≠ none) := by
  -- The creation leaves the table of open files alone.
  have entries : next.unusedFile = vfs.unusedFile := by simp only [Vfs.unusedFile, table]
  rw [entries]
  by_cases all : ∀ i, i < count → answers i ≠ 0
  · obtain ⟨real, made⟩ := made.done positive fun i small => by simpa using all i small
    -- With memory for every node, the slashes decide between a file and a directory.
    rcases made with ⟨file, single⟩ | ⟨directory, double⟩
    · simp only [real, file, single, reduceCtorEq, false_or, not_false_eq_true, true_and, not_and, not_not]
      exact ⟨fun full _ => full, fun full => full all⟩
    · simp [directory, double]
  · -- Without it, the creation returns none.
    have null : node = 0 := by
      apply made.null
      simpa using all
    simp [null, all]

end

/--
When an open that fails leaves the tree and the open files as they were.

It does so exactly when it is not asked to create, when nothing is missing or nothing can be made, or when
everything is made and neither slashes at the end of the path nor a full table let the open fail afterwards.
-/
theorem failed_open_clean_iff {vfs : Vfs} (reached : VfsReached vfs) {answers : Nat → Nat}
    (fresh : FreshFrom vfs answers 0) (path : List UInt8) (flags : Nat) :
    ∃ fd next, Settles (fun fuel => vfsOpen fuel answers path flags vfs) (fd, next) ∧
      (FailsCleanly vfs fd next ↔ LeavesNothing vfs answers path flags) := by
  obtain ⟨level, shaped⟩ := reached.shaped
  have holds := shaped.holds
  obtain ⟨count, lacks⟩ := holds.lacks holds.root (pathPieces path)
  obtain ⟨node, next, opened, table, unchanged, made⟩ := shaped.openNode_made flags fresh lacks
  obtain ⟨fd, last, settled, answer⟩ := vfsOpen_of_node opened
  refine ⟨fd, last, settled, ?_⟩
  -- An open that succeeds is clean, and one that fails without having made a node is clean as well.
  have stored : next = vfs → FailsCleanly vfs fd last := by
    rintro rfl
    rcases answer with ⟨-, rfl, -⟩ | ⟨entry, rfl, -⟩
    · exact .refl last fd
    · exact fun failed => by omega
  by_cases asked : flags &&& vfsOCreat = 0
  · exact ⟨fun _ => .inl asked, fun _ => stored (unchanged (.inl asked))⟩
  rcases Nat.eq_zero_or_pos count with none | positive
  · exact ⟨fun _ => .inr ⟨count, lacks, .inl none⟩, fun _ => stored (unchanged (.inr none))⟩
  -- Something is missing, and the open is asked to make it.
  have made := made asked positive
  by_cases refused : answers 0 = 0
  · exact ⟨fun _ => .inr ⟨count, lacks, .inr (.inl refused)⟩, fun _ => stored (made.refused positive refused)⟩
  have changed := made.changed holds positive refused
  have decides := made.fails_iff positive table
  constructor
  · intro clean
    refine .inr ⟨count, lacks, .inr (.inr ?_)⟩
    -- Then the open has failed with a node that was made.
    by_contra broken
    have fails := decides.mpr broken
    rcases answer with ⟨failed, rfl, -⟩ | ⟨entry, -, real, file, free, -⟩
    · exact changed (clean failed).1
    · simp [real, file, free] at fails
  · rintro (unasked | ⟨other, lacksToo, either⟩)
    · exact absurd unasked asked
    · obtain rfl := lacks.unique lacksToo
      rcases either with none | null | whole
      · omega
      · exact absurd null refused
      · intro failed
        rcases answer with ⟨-, -, fails⟩ | ⟨entry, rfl, -⟩
        · exact absurd whole (decides.mp fails)
        · omega

/-- Without memory for the first node, an open that is asked to create fails and leaves nothing. -/
theorem refused_open_clean : ∃ fd next,
    Settles (fun fuel => vfsOpen fuel (fun _ => 0) (asciiBytes "/x/y") 4 ramfsVfs) (fd, next) ∧
      FailsCleanly ramfsVfs fd next := by
  have holds := ramfsVfs_reached.holds
  -- The allocator refuses the first node, so the open that wants to create it makes none.
  obtain ⟨count, lacks⟩ := holds.lacks holds.root (pathPieces (asciiBytes "/x/y"))
  obtain ⟨fd, next, settled, clean⟩ := failed_open_clean_iff ramfsVfs_reached
    (freshFrom_refused holds.solid) (asciiBytes "/x/y") 4
  exact ⟨fd, next, settled, clean.mpr (.inr ⟨count, lacks, .inr (.inl rfl)⟩)⟩

/-- The first files after a path with two slashes at its end was opened, with a directory for it. -/
def slashedVfs : Vfs :=
  ((vfsOpen 8 (fileHeap 96) (asciiBytes "/x//") 4 ramfsVfs).toOption.getD (0, bareVfs)).2

/-- The open answers that it failed, and the directory is there. -/
theorem failed_open_leaves_directory : VfsReached ramfsVfs ∧ FreshFrom ramfsVfs (fileHeap 96) 0 ∧
    Settles (fun fuel => vfsOpen fuel (fileHeap 96) (asciiBytes "/x//") 4 ramfsVfs) (-1, slashedVfs) ∧
    Settles (fun fuel => vfsLookup fuel (asciiBytes "/x") ramfsVfs) 0 ∧
    Settles (fun fuel => vfsLookup fuel (asciiBytes "/x") slashedVfs) 96 ∧
    ¬ FailsCleanly ramfsVfs (-1) slashedVfs := by
  have opened : ∀ fuel, vfsOpen (fuel + 8) (fileHeap 96) (asciiBytes "/x//") 4 ramfsVfs =
      .ok (-1, slashedVfs) := fun _ => rfl
  have before : ∀ fuel, vfsLookup (fuel + 8) (asciiBytes "/x") ramfsVfs = .ok 0 := fun _ => rfl
  have after : ∀ fuel, vfsLookup (fuel + 8) (asciiBytes "/x") slashedVfs = .ok 96 := fun _ => rfl
  refine ⟨ramfsVfs_reached, ramfsVfs_fresh, .after 8 opened, .after 8 before, .after 8 after, ?_⟩
  intro clean
  -- The root has another first child.
  have root := (clean rfl).1.nodes 8 (by decide)
  exact absurd (congrArg VfsNode.children root) (by decide)

end MiraOS
