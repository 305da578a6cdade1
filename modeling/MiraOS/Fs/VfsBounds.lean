import MiraOS.Fs.VfsRefinement

/-! Which reads and writes stay inside the file, for every count that a user program can pass. -/

namespace MiraOS

open Machine

/-- Any call on the file system that returns; the counts are any 64-bit words. -/
inductive VfsStep : Vfs → Vfs → Prop where
  | created {vfs next : Vfs} {path : List UInt8} (made : VfsCreate vfs path next) : VfsStep vfs next
  | opened {vfs next : Vfs} {answers : Nat → Nat} {path : List UInt8} {flags : Nat} {fd : Int}
      (fresh : FreshFrom vfs answers 0)
      (ran : Settles (fun fuel => vfsOpen fuel answers path flags vfs) (fd, next)) : VfsStep vfs next
  | read {vfs next : Vfs} {fd n : Int} {count : Nat} {copied : List UInt8} (word : count < 2 ^ 64)
      (ran : vfsRead fd count vfs = .ok (n, copied, next)) : VfsStep vfs next
  | write {vfs next : Vfs} {fd n : Int} {buf : Nat → UInt8} {count newData : Nat} (word : count < 2 ^ 64)
      (fresh : FreshBlock vfs newData) (ran : vfsWrite newData fd buf count vfs = .ok (n, next)) :
      VfsStep vfs next
  | seek {vfs next : Vfs} {fd n whence : Int} {offset : Nat} (word : offset < 2 ^ 64)
      (ran : vfsLseek fd offset whence vfs = (n, next)) : VfsStep vfs next
  | close {vfs next : Vfs} {fd n : Int} (ran : vfsClose fd vfs = (n, next)) : VfsStep vfs next

/-- The states of a file system that starts with an empty root directory. -/
inductive VfsReached : Vfs → Prop where
  | mounted {root : Nat} (real : root ≠ 0) (memory : Vfs) : VfsReached (mountRoot root memory)
  | step {vfs next : Vfs} (reached : VfsReached vfs) (step : VfsStep vfs next) : VfsReached next

/-- A block has as many bytes as its file, so an access inside the block is one below the size. -/
def Exact (vfs : Vfs) (node : Nat) : Prop := (vfs.content node).length = (vfs.nodes node).size

/-- A read and a write of a number of bytes through a descriptor stay inside the file, and the read
returns what it should. -/
structure StaysInside (vfs : Vfs) (fd count : Nat) : Prop where
  read : Exact vfs (vfs.openTable fd).node ∧ ∃ copied next, vfsRead fd count vfs =
    .ok ((min count ((vfs.nodes (vfs.openTable fd).node).size - (vfs.openTable fd).offset) : Nat),
      copied, next)
  write : ∀ newData buf, FreshBlock vfs newData → ∃ n next,
    vfsWrite newData fd buf count vfs = .ok (n, next) ∧ Exact next (vfs.openTable fd).node

section

variable {vfs next : Vfs} {node offset count newData : Nat} {buf : Nat → UInt8}

/-- A read whose end wraps around runs over the end of the file. -/
theorem vfsDefaultRead_wraps (holds : VfsHolds vfs) (inside : node ∈ vfs.linked)
    (place : offset < (vfs.nodes node).size) (word : count < 2 ^ 64) (wraps : 2 ^ 64 ≤ offset + count) :
    vfsDefaultRead node count offset vfs = .error .outOfBounds := by
  have length := holds.size node inside
  have small := holds.word node inside
  obtain ⟨real, block⟩ := holds.hasBlock inside (by omega)
  have wrapped : add64 offset count = offset + count - 2 ^ 64 := by
    simp only [add64]
    omega
  -- The wrapped end is below the size, so the count is not cut down.
  have whole : (if (vfs.nodes node).size < add64 offset count then (vfs.nodes node).size - offset
      else count) = count := if_neg (by omega)
  have more : ¬ ((vfs.nodes node).data = 0 ∨ (vfs.nodes node).size ≤ offset) := by omega
  have stopped := @readLoop_outside (vfs.content node) offset 0 count (by omega) (by omega)
  unfold vfsDefaultRead
  simp only [if_neg more, whole, block]
  rw [stopped]
  rfl

/-- A write whose end wraps around runs over the end of the file. -/
theorem vfsDefaultWrite_wraps (holds : VfsHolds vfs) (inside : node ∈ vfs.linked)
    (place : offset ≤ (vfs.nodes node).size) (word : count < 2 ^ 64) (wraps : 2 ^ 64 ≤ offset + count) :
    vfsDefaultWrite newData node buf count offset vfs = .error .outOfBounds := by
  have length := holds.size node inside
  have small := holds.word node inside
  obtain ⟨real, block⟩ := holds.hasBlock inside (by omega)
  have wrapped : add64 offset count = offset + count - 2 ^ 64 := by
    simp only [add64]
    omega
  -- The wrapped end is below the size, so the file does not grow.
  have same : ¬ (vfs.nodes node).size < add64 offset count := by omega
  have some : count ≠ 0 := by omega
  have stopped := @storeLoop_outside (vfs.content node) offset 0 count (fun j => .ok (buf j)) buf (by omega)
    (by omega) fun _ _ _ => rfl
  unfold vfsDefaultWrite vfsStore
  simp only [if_neg some, if_neg same, block]
  rw [stopped]
  rfl

/-- At the end of a file nothing is read. -/
theorem vfsDefaultRead_end (past : (vfs.nodes node).size ≤ offset) :
    vfsDefaultRead node count offset vfs = .ok (0, []) := if_pos (.inr past)

/-- A read that returns keeps the tree. -/
theorem VfsHolds.readAny (holds : VfsHolds vfs) {fd n : Int} {copied : List UInt8}
    (word : count < 2 ^ 64) (ran : vfsRead fd count vfs = .ok (n, copied, next)) : VfsHolds next := by
  -- A read that returns copied no more than was there, so the place stays inside.
  unfold vfsRead at ran
  cases found : vfs.file? fd with
  | none =>
    rw [found] at ran
    cases ran
    exact holds
  | some file =>
    rw [found] at ran
    obtain ⟨i, rfl, inTable, rfl, used, inTree, place, length⟩ := holds.descriptor found
    obtain ⟨⟨m, slice⟩, copied, ended⟩ := bind_eq_ok.mp ran
    cases ended
    by_cases fits : (vfs.openTable i).offset + count < 2 ^ 64
    · rw [vfsDefaultRead_fits holds inTree fits] at copied
      cases copied
      apply holds.advance inTree
      have moved := toInt64_toNat_le (((vfs.content (vfs.openTable i).node).drop
        (vfs.openTable i).offset).take count).length
      rw [List.length_take, List.length_drop, length] at moved
      rw [List.length_take, List.length_drop, length]
      omega
    · -- Past the wrap only a read at the end of the file returns.
      by_cases past : (vfs.nodes (vfs.openTable i).node).size ≤ (vfs.openTable i).offset
      · rw [vfsDefaultRead_end past] at copied
        cases copied
        exact holds.advance inTree place
      · rw [vfsDefaultRead_wraps holds inTree (by omega) word (by omega)] at copied
        cases copied

/-- Moving on links no node in. -/
theorem advance_linked (fd : Int) (file : OpenFile) (n : Int) :
    (vfs.advance fd file n).linked = vfs.linked := by
  unfold Vfs.advance
  -- Only the offset of the open file moves.
  by_cases some : 0 < n
  · rw [if_pos some]
    rfl
  · rw [if_neg some]

/-- Moving on changes no bytes. -/
theorem advance_content (fd : Int) (file : OpenFile) (n : Int) (node : Nat) :
    (vfs.advance fd file n).content node = vfs.content node := by
  unfold Vfs.advance
  -- Only the offset of the open file moves.
  by_cases some : 0 < n
  · rw [if_pos some]
    rfl
  · rw [if_neg some]

/-- A write that returns keeps the tree, links no node in and changes one file at most. -/
theorem VfsHolds.writeAny (holds : VfsHolds vfs) {fd n : Int} (word : count < 2 ^ 64)
    (fresh : FreshBlock vfs newData) (ran : vfsWrite newData fd buf count vfs = .ok (n, next)) :
    VfsHolds next ∧ next.linked = vfs.linked ∧ ∀ node ∈ vfs.linked,
      (∀ file, vfs.file? fd = some file → file.node ≠ node) → next.content node = vfs.content node := by
  -- A write that returns did not wrap around, so it is one of the two known outcomes.
  unfold vfsWrite at ran
  cases found : vfs.file? fd with
  | none =>
    rw [found] at ran
    cases ran
    exact ⟨holds, rfl, fun _ _ _ => rfl⟩
  | some file =>
    rw [found] at ran
    obtain ⟨i, rfl, inTable, rfl, used, inTree, place, length⟩ := holds.descriptor found
    obtain ⟨⟨m, middle⟩, stored, ended⟩ := bind_eq_ok.mp ran
    cases ended
    by_cases fits : (vfs.openTable i).offset + count < 2 ^ 64
    · have outcome := @vfsDefaultWrite_fits vfs _ _ _ newData buf holds inTree place fits fresh
      -- Without memory for the longer block nothing is written.
      by_cases failed : (vfs.nodes (vfs.openTable i).node).size < (vfs.openTable i).offset + count ∧
          newData = 0
      · rw [if_pos failed, stored] at outcome
        cases outcome
        exact ⟨holds.advance inTree place, advance_linked .., fun _ _ _ => advance_content ..⟩
      · rw [if_neg failed] at outcome
        obtain ⟨last, again, written⟩ := outcome
        rw [stored] at again
        cases again
        -- The bytes written end inside the file, so the new offset does.
        have inside : (vfs.openTable i).node ∈ middle.linked := by
          rw [written.linked]
          exact inTree
        have total := written.holds.size _ inside
        rw [written.here, overlay_length (by omega), List.length_map, List.length_range] at total
        have moved := toInt64_toNat_le count
        refine ⟨written.holds.advance inside ?_, (advance_linked ..).trans written.linked,
          fun node among apart => ?_⟩
        · omega
        · exact (advance_content ..).trans (written.others node among (apart _ rfl).symm)
    · rw [vfsDefaultWrite_wraps holds inTree place word (by omega)] at stored
      cases stored

/-- Every state that is reached is a tree. -/
theorem VfsReached.holds (reached : VfsReached vfs) : VfsHolds vfs := by
  -- Each call that returns keeps the invariant, with whatever counts.
  induction reached with
  | mounted real memory => exact mountRoot_holds real memory
  | step _ step holds =>
    cases step with
    | created made => exact holds.created made
    | @opened answers path flags fd fresh ran =>
      obtain ⟨descriptor, last, -, settled, -, kept, -⟩ := holds.opened path flags fresh
      cases ran.unique settled
      exact kept
    | read word ran => exact holds.readAny word ran
    | write word fresh ran => exact (holds.writeAny word fresh ran).1
    | seek word ran => exact (holds.seek word ran).1
    | close ran => exact (holds.close ran).1

end

/-- An entry of the table that is used is found by its number. -/
theorem file?_of_used {vfs : Vfs} {fd : Nat} (small : fd < vfsMaxOpen)
    (used : (vfs.openTable fd).used = true) : vfs.file? fd = some (vfs.openTable fd) := by
  -- All three tests of the code fail.
  have inUse : ¬ ((fd : Int) < 0 ∨ (vfsMaxOpen : Int) ≤ fd ∨
      (vfs.openTable (fd : Int).toNat).used = false) := by
    rw [Int.toNat_natCast, used]
    simp only [not_or, Bool.true_eq_false, not_false_eq_true, and_true]
    omega
  exact if_neg inUse

/-- What a read delivers is as long as it should be. -/
theorem slice_length (bytes : List UInt8) (offset count : Nat) :
    ((bytes.drop offset).take count).length = min count (bytes.length - offset) := by
  rw [List.length_take, List.length_drop]

/-- Reads and writes stay inside the file exactly when their end does not wrap around, and the read
delivers no more than a signed number can say. -/
theorem VfsHolds.staysInside_iff {vfs : Vfs} {fd count : Nat} (holds : VfsHolds vfs)
    (small : fd < vfsMaxOpen) (used : (vfs.openTable fd).used = true) (word : count < 2 ^ 64) :
    StaysInside vfs fd count ↔ (vfs.openTable fd).offset + count < 2 ^ 64 ∧
      min count ((vfs.nodes (vfs.openTable fd).node).size - (vfs.openTable fd).offset) < 2 ^ 63 := by
  have found := file?_of_used small used
  obtain ⟨inTree, place⟩ := holds.files fd small used
  have length := holds.size _ inTree
  constructor
  · intro stays
    have fits : (vfs.openTable fd).offset + count < 2 ^ 64 := by
      by_contra wraps
      -- A write that wraps around does not return.
      obtain ⟨n, next, ran, -⟩ := stays.write 0 (fun _ => 0) fun real => absurd rfl real
      unfold vfsWrite at ran
      rw [found] at ran
      obtain ⟨result, stored, -⟩ := bind_eq_ok.mp ran
      rw [vfsDefaultWrite_wraps holds inTree place word (by omega)] at stored
      cases stored
    refine ⟨fits, ?_⟩
    -- The answer of a longer read would come out negative.
    obtain ⟨-, copied, next, ran⟩ := stays.read
    unfold vfsRead at ran
    rw [found] at ran
    obtain ⟨⟨n, slice⟩, taken, ended⟩ := bind_eq_ok.mp ran
    rw [vfsDefaultRead_fits holds inTree fits, slice_length, length] at taken
    cases taken
    -- The answer is below the middle of the words, and it is the number of bytes.
    have answer := congrArg Prod.fst (Except.ok.inj ended)
    have below := toInt64_lt (min count ((vfs.nodes (vfs.openTable fd).node).size -
      (vfs.openTable fd).offset))
    simp only at answer
    rw [answer] at below
    exact_mod_cast below
  · intro condition
    obtain ⟨fits, few⟩ := condition
    constructor
    · have taken := vfsDefaultRead_fits holds inTree fits
      rw [slice_length, length, toInt64_of_lt few] at taken
      refine ⟨length, ?_⟩
      unfold vfsRead
      rw [found]
      exact ⟨_, _, bind_eq_ok.mpr ⟨_, taken, rfl⟩⟩
    · intro newData buf fresh
      have outcome := @vfsDefaultWrite_fits vfs _ _ _ newData buf holds inTree place fits fresh
      -- Whether or not there is a block, the write returns.
      have returned : ∃ n next, vfsWrite newData fd buf count vfs = .ok (n, next) := by
        unfold vfsWrite
        rw [found]
        by_cases failed : (vfs.nodes (vfs.openTable fd).node).size < (vfs.openTable fd).offset + count ∧
            newData = 0
        · rw [if_pos failed] at outcome
          exact ⟨_, _, bind_eq_ok.mpr ⟨_, outcome, rfl⟩⟩
        · rw [if_neg failed] at outcome
          obtain ⟨next, stored, -⟩ := outcome
          exact ⟨_, _, bind_eq_ok.mpr ⟨_, stored, rfl⟩⟩
      obtain ⟨n, next, ran⟩ := returned
      -- The bytes of the file are as many as its size after the call as well.
      obtain ⟨kept, linked, -⟩ := holds.writeAny word fresh ran
      exact ⟨n, next, ran, kept.size _ (linked ▸ inTree)⟩

/-- In every reached state, for every open descriptor and every 64-bit count, reads and writes stay
inside the file exactly when their end does not wrap around, and the read delivers fewer than 2^63 bytes. -/
theorem file_access_inside_iff {vfs : Vfs} (reached : VfsReached vfs) {fd count : Nat}
    (small : fd < vfsMaxOpen) (used : (vfs.openTable fd).used = true) (word : count < 2 ^ 64) :
    StaysInside vfs fd count ↔ (vfs.openTable fd).offset + count < 2 ^ 64 ∧
      min count ((vfs.nodes (vfs.openTable fd).node).size - (vfs.openTable fd).offset) < 2 ^ 63 :=
  reached.holds.staysInside_iff small used word

/-- The tree with its first two files is reached. -/
theorem ramfsVfs_reached : VfsReached ramfsVfs :=
  ramfsVfs_made.preserves VfsReached (fun reached step => .step reached (.created step))
    (.mounted (by decide) bareVfs)

/-- The first files with the second one open, after its first byte. -/
def openedVfs : Vfs := (ramfsVfs.withFile 0 ⟨48, 0, 0, true⟩).withFile 0 ⟨48, 1, 0, true⟩

/-- That state is reached by opening the file and reading one byte. -/
theorem openedVfs_reached : VfsReached openedVfs := by
  -- The calls are evaluated with any fuel beyond four units.
  have fresh : FreshFrom ramfsVfs (fun _ => 0) 0 := freshFrom_refused (by decide)
  have opened : ∀ fuel, vfsOpen (fuel + 4) (fun _ => 0) (asciiBytes "/version") 0 ramfsVfs =
      .ok (0, ramfsVfs.withFile 0 ⟨48, 0, 0, true⟩) := fun _ => rfl
  have read : vfsRead 0 1 (ramfsVfs.withFile 0 ⟨48, 0, 0, true⟩) = .ok (1, [0x31], openedVfs) := rfl
  exact .step (.step ramfsVfs_reached (.opened fresh (.after 4 opened))) (.read (by decide) read)

/-- Reading and writing two more bytes stays inside. -/
theorem openedVfs_inside : StaysInside openedVfs 0 2 :=
  (file_access_inside_iff openedVfs_reached (by decide) rfl (by decide)).mpr (by decide)

/-- Neither reading nor writing 2^64 - 1 bytes from there stays inside the file. -/
theorem openedVfs_runs_over : VfsReached openedVfs ∧ (openedVfs.openTable 0).used = true ∧
    vfsRead 0 (2 ^ 64 - 1) openedVfs = .error .outOfBounds ∧
    vfsWrite 0 0 (fun _ => 0) (2 ^ 64 - 1) openedVfs = .error .outOfBounds ∧
    ¬ StaysInside openedVfs 0 (2 ^ 64 - 1) := by
  have holds := openedVfs_reached.holds
  have found : openedVfs.file? 0 = some ⟨48, 1, 0, true⟩ := rfl
  have inTree : 48 ∈ openedVfs.linked := by decide
  refine ⟨openedVfs_reached, rfl, ?_, ?_, fun stays => ?_⟩
  · -- With the offset 1 and a count of 2^64 - 1 the sum wraps to zero, and both tests pass.
    have wraps := @vfsDefaultRead_wraps openedVfs 48 1 (2 ^ 64 - 1) holds inTree (by decide) (by decide)
      (by decide)
    unfold vfsRead
    rw [found]
    exact congrArg (· >>= _) wraps
  · have wraps := @vfsDefaultWrite_wraps openedVfs 48 1 (2 ^ 64 - 1) 0 (fun _ => 0) holds inTree
      (by decide) (by decide) (by decide)
    unfold vfsWrite
    rw [found]
    exact congrArg (· >>= _) wraps
  · have condition := (holds.staysInside_iff (by decide) rfl (by decide)).mp stays
    exact absurd condition.1 (by decide)

end MiraOS
