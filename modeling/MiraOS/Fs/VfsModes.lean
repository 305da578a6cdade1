import MiraOS.Fs.VfsBounds

/-! What the access mode of a descriptor decides: nothing but what is recorded. -/

namespace MiraOS

open Machine

/-- The mode for reading. -/
def vfsORdonly : Nat := 0

/-- The mode for writing. -/
def vfsOWronly : Nat := 1

/-- The mode for both. -/
def vfsORdwr : Nat := 2

/-- The access mode among the flags. -/
def accessMode (flags : Nat) : Nat := flags &&& 3

/-- A mode with writing in it. -/
def MayWrite (flags : Nat) : Prop := accessMode flags = vfsOWronly ∨ accessMode flags = vfsORdwr

/-- The next call through each descriptor does what its mode allows. -/
structure HonoursModes (vfs : Vfs) : Prop where
  writes : ∀ newData fd buf count n next file node, vfs.file? fd = some file →
    vfsWrite newData fd buf count vfs = .ok (n, next) →
    next.content node ≠ vfs.content node ∨ (next.nodes node).size ≠ (vfs.nodes node).size →
    MayWrite file.flags
  reads : ∀ fd count n copied next file, vfs.file? fd = some file →
    accessMode file.flags = vfsOWronly → vfsRead fd count vfs = .ok (n, copied, next) → copied = []

/-- A call, as a write through a descriptor or another one. -/
inductive VfsEvent where
  | write (fd : Int)
  | other
  deriving DecidableEq, Repr

/-- Any call that returns, with what it is. -/
inductive VfsEvents : Vfs → VfsEvent → Vfs → Prop where
  | write {vfs next : Vfs} {fd n : Int} {buf : Nat → UInt8} {count newData : Nat} (word : count < 2 ^ 64)
      (fresh : FreshBlock vfs newData) (ran : vfsWrite newData fd buf count vfs = .ok (n, next)) :
      VfsEvents vfs (.write fd) next
  | created {vfs next : Vfs} {path : List UInt8} (made : VfsCreate vfs path next) :
      VfsEvents vfs .other next
  | opened {vfs next : Vfs} {answers : Nat → Nat} {path : List UInt8} {flags : Nat} {fd : Int}
      (fresh : FreshFrom vfs answers 0)
      (ran : Settles (fun fuel => vfsOpen fuel answers path flags vfs) (fd, next)) :
      VfsEvents vfs .other next
  | read {vfs next : Vfs} {fd n : Int} {count : Nat} {copied : List UInt8} (word : count < 2 ^ 64)
      (ran : vfsRead fd count vfs = .ok (n, copied, next)) : VfsEvents vfs .other next
  | seek {vfs next : Vfs} {fd n whence : Int} {offset : Nat} (word : offset < 2 ^ 64)
      (ran : vfsLseek fd offset whence vfs = (n, next)) : VfsEvents vfs .other next
  | close {vfs next : Vfs} {fd n : Int} (ran : vfsClose fd vfs = (n, next)) : VfsEvents vfs .other next

/-- A file has the bytes and the size that it had. -/
structure Unchanged (vfs next : Vfs) (node : Nat) : Prop where
  linked : node ∈ next.linked
  content : next.content node = vfs.content node
  size : (next.nodes node).size = (vfs.nodes node).size

/-- A descriptor is open on a file. -/
def Vfs.OpenOn (vfs : Vfs) (fd : Int) (node : Nat) : Prop :=
  ∃ file, vfs.file? fd = some file ∧ file.node = node

/-- Other flags are recorded for an entry of the table. -/
def Vfs.withFlags (vfs : Vfs) (fd : Int) (flags : Nat) : Vfs :=
  vfs.withFile fd.toNat { vfs.openTable fd.toNat with flags := flags }

section

variable {vfs next : Vfs} {event : VfsEvent} {node : Nat}

/-- A call that is an event is a call. -/
theorem VfsEvents.step (called : VfsEvents vfs event next) : VfsStep vfs next := by
  -- The events are the steps with names, but for the flags.
  cases called with
  | write word fresh ran => exact .write word fresh ran
  | created made => exact .created made
  | opened fresh ran => exact .opened fresh ran
  | read word ran => exact .read word ran
  | seek word ran => exact .seek word ran
  | close ran => exact .close ran

/-- The bytes of a file that stay the same are as many as before. -/
theorem unchanged_of_content (before : VfsHolds vfs) (after : VfsHolds next) (inside : node ∈ vfs.linked)
    (linked : node ∈ next.linked) (content : next.content node = vfs.content node) :
    Unchanged vfs next node := by
  refine ⟨linked, content, ?_⟩
  rw [← after.size node linked, ← before.size node inside, content]

/-- A read changes no bytes. -/
theorem vfsRead_content {fd n : Int} {count : Nat} {copied : List UInt8}
    (ran : vfsRead fd count vfs = .ok (n, copied, next)) :
    next.linked = vfs.linked ∧ next.content node = vfs.content node := by
  -- Reading moves an offset and touches no node.
  unfold vfsRead at ran
  cases found : vfs.file? fd with
  | none =>
    rw [found] at ran
    cases ran
    exact ⟨rfl, rfl⟩
  | some file =>
    rw [found] at ran
    obtain ⟨⟨m, slice⟩, -, ended⟩ := bind_eq_ok.mp ran
    cases ended
    exact ⟨advance_linked .., advance_content ..⟩

/-- A seek changes no bytes. -/
theorem vfsLseek_content {fd n whence : Int} {offset : Nat}
    (ran : vfsLseek fd offset whence vfs = (n, next)) :
    next.linked = vfs.linked ∧ next.content node = vfs.content node := by
  unfold vfsLseek at ran
  cases found : vfs.file? fd with
  | none =>
    rw [found] at ran
    cases ran
    exact ⟨rfl, rfl⟩
  | some file =>
    simp only [found] at ran
    cases target : seekTarget file.offset (vfs.nodes file.node).size offset whence with
    | none =>
      rw [target] at ran
      cases ran
      exact ⟨rfl, rfl⟩
    | some place =>
      simp only [target] at ran
      -- A place behind the end is refused, and any other one is recorded in the table only.
      by_cases outside : (vfs.nodes file.node).size < place
      · rw [if_pos outside] at ran
        cases ran
        exact ⟨rfl, rfl⟩
      · rw [if_neg outside] at ran
        cases ran
        exact ⟨rfl, rfl⟩

/-- Closing a descriptor changes no bytes. -/
theorem vfsClose_content {fd n : Int} (ran : vfsClose fd vfs = (n, next)) :
    next.linked = vfs.linked ∧ next.content node = vfs.content node := by
  -- Closing frees a slot of the table and touches no node.
  unfold vfsClose at ran
  cases found : vfs.file? fd with
  | none =>
    rw [found] at ran
    cases ran
    exact ⟨rfl, rfl⟩
  | some file =>
    rw [found] at ran
    cases ran
    exact ⟨rfl, rfl⟩

/-- One call leaves a file as it was, unless it is a write through a descriptor that is open on it. -/
theorem VfsEvents.unchanged (reached : VfsReached vfs) (called : VfsEvents vfs event next)
    (inside : node ∈ vfs.linked) :
    Unchanged vfs next node ∨ ∃ fd, event = .write fd ∧ vfs.OpenOn fd node := by
  have holds := reached.holds
  have after := (reached.step called.step).holds
  -- A write is the only call that reaches the bytes of a file that is there.
  cases called with
  | @write _ fd n buf count newData word fresh ran =>
    by_cases here : vfs.OpenOn fd node
    · exact .inr ⟨fd, rfl, here⟩
    · -- A write through another descriptor changes the file of that one.
      obtain ⟨-, linked, others⟩ := holds.writeAny word fresh ran
      refine .inl (unchanged_of_content holds after inside (linked ▸ inside) (others node inside ?_))
      exact fun file found same => here ⟨file, found, same⟩
  -- A created node is new, so this one keeps its content.
  | @created _ path made =>
    cases made with
    | @made _ answers _ data size found fresh word ran =>
      obtain ⟨other, last, settled, grown⟩ := vfsCreateFile_grown holds path data fresh word
      cases ran.unique settled
      exact .inl (unchanged_of_content holds after inside (grown.linked node inside)
        (grown.content node inside))
  -- An open may create a node, and the others keep their content.
  | @opened _ answers path flags fd fresh ran =>
    obtain ⟨descriptor, middle, openTable, growth, settled⟩ := @vfsOpen_growth vfs answers anyNode
      (fun _ _ => trivial) holds path flags fresh fun _ _ _ _ => .inl trivial
    obtain ⟨-, rfl⟩ := Prod.mk.inj (ran.unique settled)
    have grown := (growth.grown holds).1
    exact .inl (unchanged_of_content holds after inside (grown.linked node inside)
      (grown.content node inside))
  -- Reading, seeking and closing write no content.
  | read word ran =>
    obtain ⟨linked, content⟩ := vfsRead_content ran
    exact .inl (unchanged_of_content holds after inside (linked ▸ inside) content)
  | seek word ran =>
    obtain ⟨linked, content⟩ := vfsLseek_content ran
    exact .inl (unchanged_of_content holds after inside (linked ▸ inside) content)
  | close ran =>
    obtain ⟨linked, content⟩ := vfsClose_content ran
    exact .inl (unchanged_of_content holds after inside (linked ▸ inside) content)

/-- A run of calls leaves a file as it was, or one of them is a write through a descriptor on it. -/
theorem run_unchanged {first last : Vfs} {events : List VfsEvent} (run : Run VfsEvents first events last)
    (reached : VfsReached first) (inside : node ∈ first.linked) :
    Unchanged first last node ∨ ∃ before fd after middle,
      events = before ++ .write fd :: after ∧ Run VfsEvents first before middle ∧ middle.OpenOn fd node := by
  -- The first call that changes the file is the write.
  induction run with
  | nil state => exact .inl ⟨inside, rfl, rfl⟩
  | @cons first next last event rest head tail ih =>
    rcases VfsEvents.unchanged reached head inside with same | ⟨fd, rfl, here⟩
    · rcases ih (reached.step head.step) same.linked with still | ⟨before, fd, after, middle, rfl, some, here⟩
      · exact .inl ⟨still.linked, still.content.trans same.content, still.size.trans same.size⟩
      · exact .inr ⟨event :: before, fd, after, middle, rfl, .cons head some, here⟩
    · exact .inr ⟨[], fd, rest, first, rfl, .nil first, here⟩

/-- A descriptor stands for the same entry when other flags are recorded for it. -/
theorem file?_withFlags (vfs : Vfs) (fd : Int) (flags : Nat) :
    (vfs.withFlags fd flags).file? fd = (vfs.file? fd).map fun file => { file with flags := flags } := by
  have entry : (vfs.withFlags fd flags).openTable fd.toNat =
      { vfs.openTable fd.toNat with flags := flags } := Function.update_self ..
  unfold Vfs.file?
  rw [entry]
  -- Whether an entry is used does not depend on its flags.
  by_cases unused : fd < 0 ∨ (vfsMaxOpen : Int) ≤ fd ∨ (vfs.openTable fd.toNat).used = false
  · rw [if_pos unused, if_pos unused]
    rfl
  · rw [if_neg unused, if_neg unused]
    rfl

/-- Moving on leaves the flags that are recorded. -/
theorem advance_withFlags (fd n : Int) (flags : Nat) :
    (vfs.withFlags fd flags).advance fd { vfs.openTable fd.toNat with flags := flags } n =
      (vfs.advance fd (vfs.openTable fd.toNat) n).withFlags fd flags := by
  -- The offset and the flags are two fields of the same slot.
  unfold Vfs.advance
  by_cases some : 0 < n
  · rw [if_pos some, if_pos some]
    simp [Vfs.withFlags, Vfs.withFile]
  · rw [if_neg some, if_neg some]

/-- The entry that a descriptor stands for is the one at its number. -/
theorem file?_entry {fd : Int} {file : OpenFile} (found : vfs.file? fd = some file) :
    file = vfs.openTable fd.toNat := by
  -- An answer names a descriptor of the table.
  obtain ⟨i, rfl, -, same, -⟩ := file?_eq_some found
  exact same.symm

/-- A read delivers the same bytes whatever flags are recorded. -/
theorem vfsRead_withFlags (vfs : Vfs) (fd : Int) (flags count : Nat) :
    vfsRead fd count (vfs.withFlags fd flags) =
      (vfsRead fd count vfs).map fun (n, copied, next) => (n, copied, next.withFlags fd flags) := by
  unfold vfsRead
  rw [file?_withFlags]
  cases found : vfs.file? fd with
  | none => rfl
  | some file =>
    obtain rfl := file?_entry found
    -- The bytes are copied from the blocks, without a look at the table.
    have same : vfsDefaultRead (vfs.openTable fd.toNat).node count (vfs.openTable fd.toNat).offset
        (vfs.withFlags fd flags) = vfsDefaultRead (vfs.openTable fd.toNat).node count
          (vfs.openTable fd.toNat).offset vfs := rfl
    simp only [Option.map_some, same]
    cases vfsDefaultRead (vfs.openTable fd.toNat).node count (vfs.openTable fd.toNat).offset vfs with
    | error halt => rfl
    | ok result =>
      obtain ⟨n, copied⟩ := result
      exact congrArg (fun next => Except.ok (n, copied, next)) (advance_withFlags fd n flags)

/-- Storing bytes does not look at the table of open files. -/
theorem vfsStore_openTable (openTable : Nat → OpenFile) (buf : Nat → UInt8) (count offset : Nat) :
    vfsStore node buf count offset { vfs with openTable := openTable } =
      (vfsStore node buf count offset vfs).map fun (n, next) =>
        (n, { next with openTable := openTable }) := by
  -- The store goes into a block, and the table is not looked at.
  unfold vfsStore
  dsimp only
  cases storeLoop (fun i => .ok (buf i)) offset count 0 (vfs.blocks (vfs.nodes node).data) with
  | error halt => rfl
  | ok bytes => rfl

/-- Moving the bytes of a file does not look at the table of open files. -/
theorem vfsGrow_openTable (openTable : Nat → OpenFile) (newData newSize : Nat) :
    vfsGrow newData newSize node { vfs with openTable := openTable } =
      (vfsGrow newData newSize node vfs).map fun next => { next with openTable := openTable } := by
  -- The same for the block that is replaced by a larger one.
  unfold vfsGrow
  by_cases filled : (vfs.nodes node).data ≠ 0 ∧ 0 < (vfs.nodes node).size
  · simp only [if_pos filled]
    cases storeLoop (loadByte (vfs.blocks (vfs.nodes node).data)) 0 (vfs.nodes node).size 0
        (List.replicate newSize 0) with
    | error halt => rfl
    | ok bytes => rfl
  · simp only [if_neg filled]
    rfl

/-- Writing to a file does not look at the table of open files. -/
theorem vfsDefaultWrite_openTable (openTable : Nat → OpenFile) (newData : Nat) (buf : Nat → UInt8)
    (count offset : Nat) :
    vfsDefaultWrite newData node buf count offset { vfs with openTable := openTable } =
      (vfsDefaultWrite newData node buf count offset vfs).map fun (n, next) =>
        (n, { next with openTable := openTable }) := by
  unfold vfsDefaultWrite
  by_cases none : count = 0
  · simp only [if_pos none]
    rfl
  simp only [if_neg none]
  -- The bytes are moved first if the file has to grow.
  by_cases longer : (vfs.nodes node).size < add64 offset count
  · simp only [if_pos longer]
    by_cases full : newData = 0
    · simp only [if_pos full]
      rfl
    · simp only [if_neg full]
      rw [vfsGrow_openTable]
      cases vfsGrow newData (add64 offset count) node vfs with
      | error halt => rfl
      | ok grown => exact vfsStore_openTable ..
  · simp only [if_neg longer]
    exact vfsStore_openTable ..

/-- Writing to a file leaves the table of open files. -/
theorem vfsDefaultWrite_keeps_table {newData count offset : Nat} {buf : Nat → UInt8} {n : Int}
    (ran : vfsDefaultWrite newData node buf count offset vfs = .ok (n, next)) :
    next.openTable = vfs.openTable := by
  -- Storing the table again changes nothing.
  have again := @vfsDefaultWrite_openTable vfs node vfs.openTable newData buf count offset
  have whole : ({ vfs with openTable := vfs.openTable } : Vfs) = vfs := rfl
  rw [whole, ran] at again
  exact congrArg (fun result => result.2.openTable) (Except.ok.inj again)

/-- A write stores the same bytes whatever flags are recorded. -/
theorem vfsWrite_withFlags (vfs : Vfs) (newData : Nat) (fd : Int) (buf : Nat → UInt8)
    (flags count : Nat) :
    vfsWrite newData fd buf count (vfs.withFlags fd flags) =
      (vfsWrite newData fd buf count vfs).map fun (n, next) => (n, next.withFlags fd flags) := by
  unfold vfsWrite
  rw [file?_withFlags]
  cases found : vfs.file? fd with
  | none => rfl
  | some file =>
    obtain rfl := file?_entry found
    simp only [Option.map_some]
    -- The bytes are stored without a look at the table, so also with other flags in it.
    have stored := @vfsDefaultWrite_openTable vfs (vfs.openTable fd.toNat).node
      (vfs.withFlags fd flags).openTable newData buf count (vfs.openTable fd.toNat).offset
    have shape : ({ vfs with openTable := (vfs.withFlags fd flags).openTable } : Vfs) =
        vfs.withFlags fd flags := rfl
    rw [shape] at stored
    rw [stored]
    cases ran : vfsDefaultWrite newData (vfs.openTable fd.toNat).node buf count
        (vfs.openTable fd.toNat).offset vfs with
    | error halt => rfl
    | ok result =>
      obtain ⟨n, next⟩ := result
      have table := vfsDefaultWrite_keeps_table ran
      -- The table is the old one, so the entry moves on from its old place.
      have middle : ({ next with openTable := (vfs.withFlags fd flags).openTable } : Vfs) =
          next.withFlags fd flags := by
        unfold Vfs.withFlags Vfs.withFile
        rw [table]
      have moved := @advance_withFlags next fd n flags
      rw [table, ← middle] at moved
      exact congrArg (fun last => Except.ok (n, last)) moved

end

/-- The first files with the second one open for writing only. -/
def writingVfs : Vfs := ramfsVfs.withFile 0 ⟨48, 0, vfsOWronly, true⟩

end MiraOS
