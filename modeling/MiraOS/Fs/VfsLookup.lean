import MiraOS.Fs.VfsBounds

/-! Creating a file and looking it up agree, and no path that led to a node before leads elsewhere. -/

namespace MiraOS

open Machine

/-- A node is the same file as before. -/
structure SameFile (vfs next : Vfs) (node : Nat) : Prop where
  name : (next.nodes node).name = (vfs.nodes node).name
  type : (next.nodes node).type = (vfs.nodes node).type
  size : (next.nodes node).size = (vfs.nodes node).size
  data : (next.nodes node).data = (vfs.nodes node).data
  content : next.content node = vfs.content node

section

variable {vfs next : Vfs} {current node : Nat}

/-- A walk down the tree that ends at a node takes the same way in a tree that has grown. -/
theorem Kept.lookupLoop (kept : Kept vfs next) (holds : VfsHolds vfs) (path : List UInt8)
    (inside : current ∈ vfs.linked) (real : node ≠ 0)
    (walked : Settles (fun fuel => lookupLoop vfs fuel path current) node) :
    Settles (fun fuel => MiraOS.lookupLoop next fuel path current) node := by
  -- The path gets shorter with each turn, and each child on the way is still found.
  induction path using path_induction generalizing current with
  | nil =>
    cases walked.unique lookupLoop_nil
    exact lookupLoop_nil
  | turn byte path component rest taken ih =>
    by_cases empty : component = []
    · obtain ⟨last, goesOn, -⟩ := holds.lookupLoop (skipSlash rest) inside
      cases walked.unique (lookupLoop_empty taken empty goesOn)
      exact lookupLoop_empty taken empty (ih inside goesOn)
    · obtain ⟨child, found, below⟩ := holds.findChild inside component
      by_cases missing : child = 0
      · -- Without the child the walk would have ended at none.
        rw [missing] at found
        exact absurd (walked.unique (lookupLoop_missing taken empty found)) real
      · obtain ⟨last, goesOn, -⟩ := holds.lookupLoop (skipSlash rest) (below.resolve_left missing)
        cases walked.unique (lookupLoop_found taken empty found missing goesOn)
        have still := kept.child current inside component child missing found
        exact lookupLoop_found taken empty still missing
          (ih (below.resolve_left missing) goesOn)

/-- A path that led to a node leads there in a tree that has grown. -/
theorem Kept.lookup (kept : Kept vfs next) (holds : VfsHolds vfs) (after : VfsHolds next)
    {path : List UInt8} (real : node ≠ 0) (looked : Settles (fun fuel => vfsLookup fuel path vfs) node) :
    Settles (fun fuel => vfsLookup fuel path next) node := by
  -- Looking a path up is the walk down from the root.
  obtain ⟨last, walked, -⟩ := holds.lookupLoop (skipSlash path) holds.root
  cases looked.unique (vfsLookup_of_walk holds walked)
  apply vfsLookup_of_walk after
  rw [kept.root]
  exact kept.lookupLoop holds _ holds.root real walked

/-- A node of a tree that has grown is the same file as before. -/
theorem Kept.sameFile {size : Nat} (kept : Kept vfs next) (grown : Grown vfs next size)
    (inside : node ∈ vfs.linked) : SameFile vfs next node :=
  ⟨kept.name node inside, kept.type node inside, kept.size node inside, kept.data node inside,
    grown.content node inside⟩

end

/-- The memory behind the first two files is not used by them. -/
theorem ramfsVfs_fresh : FreshFrom ramfsVfs (fileHeap 96) 0 := by
  -- The addresses that the heap gives lie above the three nodes and their two blocks.
  refine ⟨fun i j _ _ differ _ same => ?_, fun i _ among => ?_, fun i _ filled node among same => ?_⟩
  · simp only [fileHeap] at same
    omega
  · have either : fileHeap 96 i ∈ [48, 16, 8] := among
    simp only [fileHeap, List.mem_cons, List.not_mem_nil, or_false] at either
    omega
  · have either : node ∈ [48, 16, 8] := among
    simp only [List.mem_cons, List.not_mem_nil, or_false] at either
    rcases either with rfl | rfl | rfl
    · have block : 64 = fileHeap 96 i := same
      simp only [fileHeap] at block
      omega
    · have block : 32 = fileHeap 96 i := same
      simp only [fileHeap] at block
      omega
    · exact filled same.symm

end MiraOS
