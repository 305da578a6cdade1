import MiraOS.Fs.VfsStore

/-! The calls on open files answer as the store of byte sequences does. -/

namespace MiraOS

open Machine

/-- Making the files of a tree. -/
inductive VfsCreate : Vfs → List UInt8 → Vfs → Prop where
  | made {vfs next : Vfs} {answers : Nat → Nat} {path : List UInt8} {data : Nat → UInt8}
      {size node : Nat} (fresh : FreshFrom vfs answers 0) (word : size < 2 ^ 64)
      (ran : Settles (fun fuel => vfsCreateFile fuel answers path data size vfs) (node, next)) :
      VfsCreate vfs path next

/-- The file that a path leads to, unless it leads to nothing or to a directory. -/
def Vfs.regular? (vfs : Vfs) (node : Nat) : Option Nat :=
  if node = 0 ∨ (vfs.nodes node).type = .directory then none else some node

/-- The end of what a call asks for is small, if its descriptor is in use. -/
def Vfs.Within (vfs : Vfs) (fd : Int) (count : Nat) : Prop :=
  ∀ file, vfs.file? fd = some file → file.offset + count < 2 ^ 63

/-- A block that the heap answers with is one that no file has. -/
def FreshBlock (vfs : Vfs) (newData : Nat) : Prop :=
  newData ≠ 0 → ∀ node ∈ vfs.linked, (vfs.nodes node).data ≠ newData

/-- A call on files, as a call on the store and its answer. -/
inductive VfsCall : Vfs → FileCall Nat × FileAnswer → Vfs → Prop where
  | opened {vfs next : Vfs} {answers : Nat → Nat} {path : List UInt8} {flags node : Nat} {fd : Int}
      (fresh : FreshFrom vfs answers 0)
      (ran : Settles (fun fuel => vfsOpen fuel answers path flags vfs) (fd, next))
      -- The path leads to the file, which is made first where it is missing and that is asked for.
      (named : Settles (fun fuel => vfsLookup fuel path next) node) :
      VfsCall vfs (.open (next.regular? node), ⟨fd, []⟩) next
  | read {vfs next : Vfs} {fd n : Int} {count : Nat} {copied : List UInt8}
      (small : vfs.Within fd count) (ran : vfsRead fd count vfs = .ok (n, copied, next)) :
      VfsCall vfs (.read fd count, ⟨n, copied⟩) next
  | write {vfs next : Vfs} {fd n : Int} {buf : Nat → UInt8} {count newData : Nat}
      (fresh : FreshBlock vfs newData) (small : vfs.Within fd count)
      (ran : vfsWrite newData fd buf count vfs = .ok (n, next)) :
      VfsCall vfs (.write fd ((List.range count).map buf) (newData ≠ 0), ⟨n, []⟩) next
  | seek {vfs next : Vfs} {fd n whence : Int} {offset : Nat} (word : offset < 2 ^ 64)
      (ran : vfsLseek fd offset whence vfs = (n, next)) :
      VfsCall vfs (.seek fd offset whence, ⟨n, []⟩) next
  | close {vfs next : Vfs} {fd n : Int} (ran : vfsClose fd vfs = (n, next)) :
      VfsCall vfs (.close fd, ⟨n, []⟩) next

/-- One call of the store of files, with its answer. -/
def StoreStep (store : FileStore Nat) (action : FileCall Nat × FileAnswer) (next : FileStore Nat) : Prop :=
  store.call vfsMaxOpen action.1 = (action.2, next)

/-- Every call on files has an answer. -/
structure VfsAnswers (vfs : Vfs) : Prop where
  opened : ∀ answers path flags, FreshFrom vfs answers 0 →
    ∃ fd next, Settles (fun fuel => vfsOpen fuel answers path flags vfs) (fd, next)
  read : ∀ fd count, vfs.Within fd count → ∃ n copied next, vfsRead fd count vfs = .ok (n, copied, next)
  write : ∀ newData fd buf count, FreshBlock vfs newData → vfs.Within fd count →
    ∃ n next, vfsWrite newData fd buf count vfs = .ok (n, next)

section

variable {vfs next : Vfs}

/-- The place of an entry bounds the end of what a call on it asks for. -/
theorem within_of_place {i count : Nat} (bound : (vfs.openTable i).offset + count < 2 ^ 63) :
    vfs.Within i count := by
  -- The number names one entry of the table only.
  intro file found
  obtain ⟨j, same, -, rfl, -⟩ := file?_eq_some found
  obtain rfl : i = j := Int.ofNat.inj same
  exact bound

/-- An entry of the table can be stored, if its place is inside the file. -/
theorem VfsHolds.withFile (holds : VfsHolds vfs) {i : Nat} {file : OpenFile}
    (place : file.used = true → file.node ∈ vfs.linked ∧ file.offset ≤ (vfs.nodes file.node).size) :
    VfsHolds (vfs.withFile i file) := by
  -- The tree does not depend on the table, apart from the one entry.
  refine ⟨holds.root, holds.solid, fun node among => ?_, holds.size, holds.word, holds.apart,
    fun fd small used => ?_⟩
  · obtain ⟨kids, siblings, inTree⟩ := holds.kids node among
    exact ⟨kids, siblings.frame fun _ _ => rfl, inTree⟩
  · by_cases same : fd = i
    · have here : (vfs.withFile i file).openTable fd = file := by
        rw [same]
        exact Function.update_self ..
      rw [here] at used ⊢
      exact place used
    · have there : (vfs.withFile i file).openTable fd = vfs.openTable fd := Function.update_of_ne same ..
      rw [there] at used ⊢
      exact holds.files fd small used

/-- Moving on inside the file keeps the tree. -/
theorem VfsHolds.advance (holds : VfsHolds vfs) {i : Nat} {n : Int} {file : OpenFile}
    (inside : file.node ∈ vfs.linked) (place : file.offset + n.toNat ≤ (vfs.nodes file.node).size) :
    VfsHolds (vfs.advance i file n) := by
  -- The new place is inside the file, so the 64-bit sum does not wrap.
  have word := holds.word _ inside
  unfold Vfs.advance
  by_cases some : 0 < n
  · rw [if_pos some]
    refine holds.withFile fun _ => ⟨inside, ?_⟩
    rw [add64_of_lt (by omega)]
    exact place
  · rw [if_neg some]
    exact holds

/-- A read answers as the store does. -/
theorem VfsHolds.read (holds : VfsHolds vfs) {fd : Int} {count : Nat} (small : vfs.Within fd count) :
    ∃ n copied next, vfsRead fd count vfs = .ok (n, copied, next) ∧ VfsHolds next ∧
      vfs.store.read vfsMaxOpen fd count = (⟨n, copied⟩, next.store) := by
  -- The store and the code look up the same descriptor and cut out the same slice.
  unfold vfsRead FileStore.read
  rw [store_handle]
  cases found : vfs.file? fd with
  | none => exact ⟨-1, [], vfs, rfl, holds, rfl⟩
  | some file =>
    obtain ⟨i, rfl, inTable, rfl, used, inTree, place, length⟩ := holds.descriptor found
    have bound := small _ found
    have word := holds.word _ inTree
    have copied := @vfsDefaultRead_fits vfs _ (vfs.openTable i).offset count holds inTree (by omega)
    have bytes : vfs.store.bytes (vfs.openTable i).node = vfs.content (vfs.openTable i).node :=
      if_pos inTree
    generalize taken : ((vfs.content (vfs.openTable i).node).drop (vfs.openTable i).offset).take count =
      slice at copied
    have shorter : slice.length ≤ count ∧ (vfs.openTable i).offset + slice.length ≤
        (vfs.nodes (vfs.openTable i).node).size := by
      rw [← taken, List.length_take, List.length_drop, length]
      omega
    rw [toInt64_of_lt (by omega)] at copied
    refine ⟨slice.length, slice, _, bind_eq_ok.mpr ⟨_, copied, rfl⟩, ?_, ?_⟩
    · -- The new place is inside the file as well.
      apply holds.advance inTree
      rw [Int.toNat_natCast]
      exact shorter.2
    · rw [store_advance inTable used (by omega)]
      simp only [Option.map_some, bytes, taken]

/-- The store after a file got other bytes. -/
theorem Written.store {node : Nat} {bytes : List UInt8} (written : Written vfs next node bytes)
    (inside : node ∈ vfs.linked) :
    next.store = ⟨Function.update vfs.store.bytes node bytes, vfs.store.handles⟩ := by
  -- Only the bytes of one file changed, and no descriptor.
  have contents : next.store.bytes = Function.update vfs.store.bytes node bytes := by
    funext other
    unfold Vfs.store
    simp only [written.linked]
    by_cases same : other = node
    · rw [same, Function.update_self, if_pos inside, written.here]
    · rw [Function.update_of_ne same]
      by_cases among : other ∈ vfs.linked
      · rw [if_pos among, if_pos among, written.others other among same]
      · rw [if_neg among, if_neg among]
  have handles : next.store.handles = vfs.store.handles := by
    unfold Vfs.store
    rw [written.openTable]
  exact FileStore.ext contents handles

/-- A write answers as the store does. -/
theorem VfsHolds.write (holds : VfsHolds vfs) {fd : Int} {buf : Nat → UInt8} {count newData : Nat}
    (fresh : FreshBlock vfs newData) (small : vfs.Within fd count) :
    ∃ n next, vfsWrite newData fd buf count vfs = .ok (n, next) ∧ VfsHolds next ∧
      vfs.store.write vfsMaxOpen fd ((List.range count).map buf) (newData ≠ 0) =
        (⟨n, []⟩, next.store) := by
  -- Whether the heap had a block is the same question on both sides.
  unfold vfsWrite FileStore.write
  rw [store_handle]
  cases found : vfs.file? fd with
  | none => exact ⟨-1, vfs, rfl, holds, rfl⟩
  | some file =>
    obtain ⟨i, rfl, inTable, rfl, used, inTree, place, length⟩ := holds.descriptor found
    have bound := small _ found
    have bytes : vfs.store.bytes (vfs.openTable i).node = vfs.content (vfs.openTable i).node :=
      if_pos inTree
    have stored := @vfsDefaultWrite_fits vfs _ (vfs.openTable i).offset count newData buf holds inTree
      place (by omega) fresh
    simp only [Option.map_some, bytes, length, List.length_map, List.length_range]
    by_cases failed : (vfs.nodes (vfs.openTable i).node).size < (vfs.openTable i).offset + count ∧
        newData = 0
    · -- The heap has no block for the longer file, and nothing changes.
      rw [if_pos failed] at stored
      refine ⟨-1, vfs, bind_eq_ok.mpr ⟨_, stored, rfl⟩, holds, ?_⟩
      exact if_pos ⟨failed.1, by simpa using failed.2⟩
    · rw [if_neg failed] at stored
      obtain ⟨middle, stored, written⟩ := stored
      rw [toInt64_of_lt (by omega)] at stored
      -- The table is as before, so the descriptor moves on from its old place.
      have same : middle.openTable i = vfs.openTable i := by rw [written.openTable]
      have inMiddle : (middle.openTable i).used = true := by rw [same, used]
      have moved := @store_advance middle i count inTable inMiddle (by rw [same]; omega)
      rw [same] at moved
      refine ⟨count, _, bind_eq_ok.mpr ⟨_, stored, rfl⟩, ?_, ?_⟩
      · -- The new place is the end of what was written.
        have inside : (vfs.openTable i).node ∈ middle.linked := by
          rw [written.linked]
          exact inTree
        have total := written.holds.size _ inside
        rw [written.here, overlay_length (by omega), List.length_map, List.length_range] at total
        apply written.holds.advance inside
        rw [Int.toNat_natCast]
        omega
      · rw [moved, written.store inTree]
        refine (if_neg fun both => failed ⟨both.1, by simpa using both.2⟩).trans ?_
        rfl

/-- A seek answers as the store does. -/
theorem VfsHolds.seek (holds : VfsHolds vfs) {fd n whence : Int} {offset : Nat} (word : offset < 2 ^ 64)
    (ran : vfsLseek fd offset whence vfs = (n, next)) :
    VfsHolds next ∧ vfs.store.seek vfsMaxOpen fd offset whence = (⟨n, []⟩, next.store) := by
  -- A seek from the start counts from zero, which adds nothing.
  unfold vfsLseek at ran
  unfold FileStore.seek
  rw [store_handle]
  cases found : vfs.file? fd with
  | none =>
    rw [found] at ran
    cases ran
    exact ⟨holds, rfl⟩
  | some file =>
    rw [found] at ran
    obtain ⟨i, rfl, inTable, rfl, used, inTree, place, length⟩ := holds.descriptor found
    have bytes : vfs.store.bytes (vfs.openTable i).node = vfs.content (vfs.openTable i).node :=
      if_pos inTree
    -- The place is counted from the same base.
    have target : seekTarget (vfs.openTable i).offset (vfs.nodes (vfs.openTable i).node).size offset
        whence = (FileStore.seekBase (vfs.openTable i).offset (vfs.nodes (vfs.openTable i).node).size
          whence).map fun base => add64 base offset := by
      have start : add64 0 offset = offset := by rw [add64_of_lt (by omega), Nat.zero_add]
      unfold seekTarget FileStore.seekBase
      by_cases set : whence = 0
      · simp [set, start]
      · by_cases cur : whence = 1
        · simp [cur]
        · by_cases past : whence = 2
          · simp [past]
          · simp [set, cur, past]
    simp only [target] at ran
    simp only [Option.map_some, bytes, length]
    -- An unknown whence is refused by both sides.
    cases based : FileStore.seekBase (vfs.openTable i).offset
        (vfs.nodes (vfs.openTable i).node).size whence with
    | none =>
      rw [based] at ran
      cases ran
      exact ⟨holds, rfl⟩
    | some base =>
      rw [based] at ran
      simp only [Option.map_some] at ran
      -- A place past the end is refused by both sides.
      by_cases outside : (vfs.nodes (vfs.openTable i).node).size < add64 base offset
      · rw [if_pos outside] at ran
        cases ran
        exact ⟨holds, if_pos outside⟩
      · rw [if_neg outside] at ran
        cases ran
        refine ⟨holds.withFile fun _ => ⟨inTree, Nat.le_of_not_lt outside⟩, ?_⟩
        rw [Int.toNat_natCast, store_withFile inTable]
        refine (if_neg outside).trans ?_
        simp [FileStore.moveTo, used]

/-- Closing a descriptor answers as the store does. -/
theorem VfsHolds.close (holds : VfsHolds vfs) {fd n : Int} (ran : vfsClose fd vfs = (n, next)) :
    VfsHolds next ∧ vfs.store.close vfsMaxOpen fd = (⟨n, []⟩, next.store) := by
  -- The entry is only marked as unused, which takes the descriptor out of the store.
  unfold vfsClose at ran
  unfold FileStore.close
  rw [store_handle]
  cases found : vfs.file? fd with
  | none =>
    rw [found] at ran
    cases ran
    exact ⟨holds, rfl⟩
  | some file =>
    rw [found] at ran
    cases ran
    obtain ⟨i, rfl, inTable, rfl, used⟩ := file?_eq_some found
    refine ⟨holds.withFile fun again => (by cases again), ?_⟩
    rw [Int.toNat_natCast, store_withFile inTable]
    simp

/-- New nodes without bytes do not show in the store. -/
theorem Grown.store (grown : Grown vfs next 0) : next.store = vfs.store := by
  -- The bytes of a file that is not in the tree are none, as are those of a new one.
  have contents : next.store.bytes = vfs.store.bytes := by
    funext other
    unfold Vfs.store
    by_cases old : other ∈ vfs.linked
    · simp only [if_pos old, if_pos (grown.linked other old), grown.content other old]
    · by_cases new : other ∈ next.linked
      · simp only [if_neg old, if_pos new, grown.empty rfl other new old]
      · simp only [if_neg old, if_neg new]
  have handles : next.store.handles = vfs.store.handles := by
    unfold Vfs.store
    rw [grown.openTable]
  exact FileStore.ext contents handles

/-- Looking up a path does not look at the open files. -/
theorem vfsLookup_withFile (fuel : Nat) (path : List UInt8) (i : Nat) (file : OpenFile) :
    vfsLookup fuel path (vfs.withFile i file) = vfsLookup fuel path vfs := by
  -- The walk down the tree reads the nodes and the root only.
  have nodes : (vfs.withFile i file).nodes = vfs.nodes := rfl
  have root : (vfs.withFile i file).rootNode = vfs.rootNode := rfl
  rw [vfsLookup, vfsLookup, root, lookupLoop_congr nodes]

/-- The lowest free descriptor of the store is the lowest entry that is not used. -/
theorem store_unused (vfs : Vfs) : (List.range vfsMaxOpen).find?
    (fun fd => (vfs.store.handles fd).isNone) = vfs.unusedFile := by
  -- The store has a descriptor exactly where the entry is used.
  apply List.find?_congr
  intro fd among
  have small := List.mem_range.mp among
  unfold Vfs.store
  cases used : (vfs.openTable fd).used with
  | false => simp [used]
  | true => simp [used, small]

/-- The node for opening a path is one of the tree, and no byte of a file has changed. -/
theorem VfsHolds.openNode (holds : VfsHolds vfs) {answers : Nat → Nat} (path : List UInt8) (flags : Nat)
    (fresh : FreshFrom vfs answers 0) :
    ∃ node next, Settles (fun fuel => openNode fuel answers path flags vfs) (node, next) ∧
      Settles (fun fuel => vfsLookup fuel path next) node ∧ (node = 0 ∨ node ∈ next.linked) ∧
      VfsHolds next ∧ next.store = vfs.store := by
  -- New nodes are made without bytes, so they do not show in the store.
  obtain ⟨node, next, opened, looked, among, growth⟩ := @openNode_growth vfs answers anyNode
    (fun _ _ => trivial) holds path flags fresh fun _ _ _ _ => .inl trivial
  have grown := (growth.grown holds).1
  exact ⟨node, next, opened, looked, among, grown.holds, grown.store⟩

/-- Opening a path answers as the store does. -/
theorem VfsHolds.opened (holds : VfsHolds vfs) {answers : Nat → Nat} (path : List UInt8) (flags : Nat)
    (fresh : FreshFrom vfs answers 0) :
    ∃ fd next node, Settles (fun fuel => vfsOpen fuel answers path flags vfs) (fd, next) ∧
      Settles (fun fuel => vfsLookup fuel path next) node ∧ VfsHolds next ∧
      vfs.store.openFile vfsMaxOpen (next.regular? node) = (⟨fd, []⟩, next.store) := by
  -- The store is asked about the file that the path leads to in the end.
  obtain ⟨node, middle, opened, looked, among, kept, same⟩ := holds.openNode path flags fresh
  have unused := store_unused middle
  rw [same] at unused
  unfold FileStore.openFile
  rw [unused]
  obtain ⟨fd, last, settled, ⟨rfl, rfl, failed⟩ | ⟨fd, rfl, null, directory, free, rfl⟩⟩ :=
    vfsOpen_of_node opened
  · refine ⟨-1, last, node, settled, looked, kept, ?_⟩
    -- The path leads to no file, or no descriptor is left for it.
    by_cases either : node = 0 ∨ (last.nodes node).type = .directory
    · rw [Vfs.regular?, if_pos either, same]
    · have full : last.unusedFile = none := (or_assoc.mpr failed).resolve_left either
      rw [Vfs.regular?, if_neg either, full, same]
  · have small : fd < vfsMaxOpen := List.mem_range.mp (List.mem_of_find?_eq_some free)
    have regular : middle.regular? node = some node := if_neg fun either => either.elim null directory
    refine ⟨fd, _, node, settled, ?_, ?_, ?_⟩
    · simp only [vfsLookup_withFile]
      exact looked
    · exact kept.withFile fun _ => ⟨among.resolve_left null, Nat.zero_le _⟩
    · have here : (middle.withFile fd ⟨node, 0, flags, true⟩).regular? node = some node := regular
      rw [here, store_withFile small, same, free]
      rfl

/-- A call keeps the tree, and answers as the store does. -/
theorem VfsHolds.call (holds : VfsHolds vfs) {action : FileCall Nat × FileAnswer}
    (called : VfsCall vfs action next) : VfsHolds next ∧ StoreStep vfs.store action next.store := by
  -- Each call returned, so its result is the one that the store answers with.
  cases called with
  | @opened _ answers path flags node fd fresh ran named =>
    obtain ⟨descriptor, last, target, settled, looked, kept, answered⟩ := holds.opened path flags fresh
    cases ran.unique settled
    cases named.unique looked
    exact ⟨kept, answered⟩
  | read small ran =>
    obtain ⟨n, copied, last, again, kept, answered⟩ := holds.read small
    cases ran.symm.trans again
    exact ⟨kept, answered⟩
  | @write _ fd n buf count newData fresh small ran =>
    obtain ⟨n, last, again, kept, answered⟩ := @VfsHolds.write _ holds fd buf count newData fresh small
    cases ran.symm.trans again
    exact ⟨kept, answered⟩
  | seek word ran => exact holds.seek word ran
  | close ran => exact holds.close ran

/-- Every call on the files of a tree has an answer. -/
theorem VfsHolds.answers (holds : VfsHolds vfs) : VfsAnswers vfs := by
  -- Each of the three calls comes back by its own law.
  refine ⟨fun answers path flags fresh => ?_, fun fd count small => ?_,
    fun newData fd buf count fresh small => ?_⟩
  · obtain ⟨fd, next, -, settled, -⟩ := holds.opened path flags fresh
    exact ⟨fd, next, settled⟩
  · obtain ⟨n, copied, next, ran, -⟩ := holds.read small
    exact ⟨n, copied, next, ran⟩
  · obtain ⟨n, next, ran, -⟩ := @VfsHolds.write _ holds fd buf count newData fresh small
    exact ⟨n, next, ran⟩

/-- Making a file keeps the tree. -/
theorem VfsHolds.created (holds : VfsHolds vfs) {path : List UInt8} (created : VfsCreate vfs path next) :
    VfsHolds next := by
  -- A creation is the one run of the code that the frame conditions allow.
  cases created with
  | @made _ answers _ data size node fresh word ran =>
    obtain ⟨found, last, settled, grown⟩ := vfsCreateFile_grown holds path data fresh word
    cases ran.unique settled
    exact grown.holds

end

/-- A file system before anything is mounted. -/
def bareVfs : Vfs where
  rootNode := 0
  openTable := fun _ => {}
  nodes := fun _ => {}
  blocks := fun _ => []
  freed := []
  linked := []

/-- The answers of the heap for a file: its node and its block. -/
def fileHeap (start i : Nat) : Nat := start + 16 * i

/-- The tree with its first file. -/
def readmeVfs : Vfs :=
  ((createText 4 (fileHeap 16) "/readme.txt" "MiraOS ramfs online" (mountRoot 8 bareVfs)).toOption.getD
    (0, bareVfs)).2

/-- The tree with its two files. -/
def ramfsVfs : Vfs := ((ramfsInit 4 (fileHeap 16) (fileHeap 48) 8 bareVfs).toOption.getD bareVfs)

/-- The memory for the first file is not used by the root directory. -/
theorem mountRoot_fresh : FreshFrom (mountRoot 8 bareVfs) (fileHeap 16) 0 := by
  -- The heap gives addresses above the root, a multiple of 16 apart.
  refine ⟨fun i j _ _ differ _ same => ?_, fun i _ among => ?_, fun i _ filled node among same => ?_⟩
  · simp only [fileHeap] at same
    omega
  · have root : fileHeap 16 i = 8 := List.mem_singleton.mp among
    simp only [fileHeap] at root
    omega
  · rw [List.mem_singleton.mp among] at same
    exact filled same.symm

/-- The memory for the second file lies behind that of the first one. -/
theorem readmeVfs_fresh : FreshFrom readmeVfs (fileHeap 48) 0 := by
  -- The same above the two nodes and the block of the file.
  refine ⟨fun i j _ _ differ _ same => ?_, fun i _ among => ?_, fun i _ filled node among same => ?_⟩
  · simp only [fileHeap] at same
    omega
  · have either : fileHeap 48 i ∈ [16, 8] := among
    simp only [fileHeap, List.mem_cons, List.not_mem_nil, or_false] at either
    omega
  · have either : node ∈ [16, 8] := among
    simp only [List.mem_cons, List.not_mem_nil, or_false] at either
    rcases either with rfl | rfl
    · have block : 32 = fileHeap 48 i := same
      simp only [fileHeap] at block
      omega
    · exact filled same.symm

/-- The first file is made. -/
theorem readmeVfs_settles : Settles (fun fuel => createText fuel (fileHeap 16) "/readme.txt"
    "MiraOS ramfs online" (mountRoot 8 bareVfs)) (16, readmeVfs) := .after 4 fun _ => rfl

/-- The second file is made. -/
theorem ramfsVfs_settles : Settles (fun fuel => createText fuel (fileHeap 48) "/version" "1.0" readmeVfs)
    (48, ramfsVfs) := .after 4 fun _ => rfl

/-- The two files are made. -/
theorem ramfsVfs_made : Run VfsCreate (mountRoot 8 bareVfs)
    [asciiBytes "/readme.txt", asciiBytes "/version"] ramfsVfs :=
  .cons (@VfsCreate.made _ _ _ _ _ 19 16 mountRoot_fresh (by decide) readmeVfs_settles)
    (.cons (@VfsCreate.made _ _ _ _ _ 3 48 readmeVfs_fresh (by decide) ramfsVfs_settles) (.nil _))

end MiraOS
