import MiraOS.Kernel.HeapBlocks
import MiraOS.Machine.Tiling

/-! The doubly linked list of blocks: what each operation of the heap makes of it. -/

namespace MiraOS

open Machine

/-- A block as the list holds it. -/
structure Block where
  addr : Nat
  size : Nat
  free : Bool
  deriving DecidableEq

/-- The first address after a block. -/
def Block.stop (block : Block) : Nat := block.addr + headerSize + block.size

/-- The header of a block between its neighbours. -/
def Block.header (block : Block) (next prev : Nat) : Header :=
  ⟨block.size, if block.free then 1 else 0, next, prev⟩

/-- The address a link to the rest of the list holds. -/
def firstOf (next : Nat) : List Block → Nat
  | [] => next
  | block :: _ => block.addr

/-- The address of the last block before a place of the list. -/
def lastOf (prev : Nat) : List Block → Nat
  | [] => prev
  | block :: rest => lastOf block.addr rest

/-- Memory links these blocks in both directions, between two given ends. -/
def Linked (mem : Memory) (next : Nat) : Nat → List Block → Prop
  | _, [] => True
  | prev, block :: rest =>
    readHeader mem block.addr = block.header (firstOf next rest) prev ∧
      Linked mem next block.addr rest

/-- The end of two lists one after the other. -/
theorem lastOf_append (prev : Nat) (left right : List Block) :
    lastOf prev (left ++ right) = lastOf (lastOf prev left) right := by
  -- Induction on the left part: the last address read is carried along.
  induction left generalizing prev with
  | nil => rfl
  | cons block rest ih => exact ih block.addr

/-- The start of two lists one after the other. -/
theorem firstOf_append (next : Nat) (left right : List Block) :
    firstOf next (left ++ right) = firstOf (firstOf next right) left := by
  cases left <;> rfl

/-- A list is linked when its two parts are, each up to the other. -/
theorem linked_append {mem : Memory} {next prev : Nat} {left right : List Block} :
    Linked mem next prev (left ++ right) ↔
      Linked mem (firstOf next right) prev left ∧ Linked mem next (lastOf prev left) right := by
  -- Induction on the left part, with the link before it changing on the way.
  induction left generalizing prev with
  | nil => simp [Linked, lastOf]
  | cons block rest ih =>
    simp only [List.cons_append, Linked, lastOf, ih, firstOf_append, and_assoc]

/-- Links depend only on the headers of the blocks. -/
theorem Linked.frame {mem other : Memory} {next prev : Nat} {blocks : List Block}
    (linked : Linked mem next prev blocks)
    (same : ∀ block ∈ blocks, readHeader other block.addr = readHeader mem block.addr) :
    Linked other next prev blocks := by
  -- Each clause reads one header, and that header is the same in both memories.
  induction blocks generalizing prev with
  | nil => trivial
  | cons block rest ih =>
    refine ⟨(same block List.mem_cons_self).trans linked.1, ih linked.2 fun other member => ?_⟩
    exact same other (List.mem_cons_of_mem _ member)

/-- A well-formed block list: linked, in the order of its addresses, and without overlaps. -/
structure BlockList (mem : Memory) (blocks : List Block) : Prop where
  linked : Linked mem 0 0 blocks
  ordered : blocks.Pairwise fun one two => one.stop ≤ two.addr
  bounded : ∀ block ∈ blocks, 0 < block.addr ∧ block.stop < 2 ^ 64

/-- The pointer to the contents of a block leads back to its header. -/
theorem BlockList.of_pointer {mem : Memory} {blocks : List Block} (list : BlockList mem blocks)
    {block : Block} (member : block ∈ blocks) :
    sub64 (block.addr + headerSize) headerSize = block.addr := by
  -- A block ends below 2⁶⁴, so stepping back over its header does not wrap.
  have bound := list.bounded block member
  simp only [Block.stop] at bound
  rw [sub64_of_le (by omega) (by omega)]
  omega

/-- The header of a block, by its place in the list. -/
theorem BlockList.header {mem : Memory} {before after : List Block} {block : Block}
    (list : BlockList mem (before ++ block :: after)) :
    readHeader mem block.addr = block.header (firstOf 0 after) (lastOf 0 before) :=
  (linked_append.mp list.linked).2.1

/-- The blocks before and after a place of the list. -/
theorem BlockList.around {mem : Memory} {before after : List Block} {block : Block}
    (list : BlockList mem (before ++ block :: after)) :
    (∀ other ∈ before, other.stop ≤ block.addr) ∧ ∀ other ∈ after, block.stop ≤ other.addr := by
  -- The order of the addresses is pairwise, so it splits at the block.
  obtain ⟨_, tail, across⟩ := List.pairwise_append.mp list.ordered
  exact ⟨fun other member => across other member block List.mem_cons_self,
    (List.pairwise_cons.mp tail).1⟩

/--
The rule for a change of the list in one place.

The part that is replaced keeps its first address, its new blocks stay below a limit that the rest of
the list respects, and only headers of the part and the backward link behind it are written.
-/
theorem BlockList.replace {mem last : Memory} {before after : List Block} {one new : Block}
    (old added : List Block) (changed : List Nat) (limit : Nat)
    (list : BlockList mem (before ++ (one :: old ++ after)))
    (sameStart : new.addr = one.addr) (fits : limit < 2 ^ 64)
    (respected : ∀ other ∈ after, limit ≤ other.addr)
    (only : OnlyHeaders (changed ++ present (firstOf 0 after)) mem last)
    (within : ∀ address ∈ changed, one.addr ≤ address ∧ address + headerSize ≤ limit)
    (middle : Linked last (firstOf 0 after) (lastOf 0 before) (new :: added))
    (behind : firstOf 0 after ≠ 0 → readHeader last (firstOf 0 after) =
      { readHeader mem (firstOf 0 after) with prev := lastOf 0 (new :: added) })
    (ordered : (new :: added).Pairwise fun one two => one.stop ≤ two.addr)
    (inside : ∀ block ∈ new :: added, one.addr ≤ block.addr ∧ block.stop ≤ limit) :
    BlockList last (before ++ (new :: added ++ after)) := by
  -- The list is cut in three: before the change, the change itself, and the rest.
  obtain ⟨earlier, rest⟩ := linked_append.mp list.linked
  obtain ⟨_, later⟩ := linked_append.mp rest
  obtain ⟨orderedBefore, orderedRest, across⟩ := List.pairwise_append.mp list.ordered
  obtain ⟨_, orderedAfter, _⟩ := List.pairwise_append.mp orderedRest
  have beforeOne : ∀ other ∈ before, other.stop ≤ one.addr :=
    fun other member => across other member one (by simp)
  refine ⟨?_, ?_, ?_⟩
  · rw [linked_append, linked_append]
    refine ⟨?_, middle, ?_⟩
    · -- The blocks before the change are not written, and their links stay.
      have sameLink : firstOf 0 (new :: added ++ after) = firstOf 0 (one :: old ++ after) := sameStart
      rw [sameLink]
      refine earlier.frame fun block member => only.header fun address written => ?_
      have stops := beforeOne block member
      simp only [Block.stop] at stops
      rcases List.mem_append.mp written with written | written
      · have := within address written
        omega
      -- Behind the change, the first block got the new backward link and nothing else moved.
      · cases after with
        | nil => simp [present, firstOf] at written
        | cons next others =>
          have := across block member next (by simp)
          have positive := (list.bounded next (by simp)).1
          rw [firstOf, present, if_neg (by omega), List.mem_singleton] at written
          simp only [Block.stop] at this
          omega
    · -- The part behind the change keeps its headers, apart from the link back of its first block.
      cases after with
      | nil => trivial
      | cons next others =>
        have positive := (list.bounded next (by simp)).1
        have stays := respected next List.mem_cons_self
        have changedNext := behind (by simp only [firstOf]; omega)
        simp only [firstOf] at changedNext
        have onlyNext : OnlyHeaders (changed ++ [next.addr]) mem last := by
          rwa [firstOf, present, if_neg (by omega)] at only
        refine ⟨?_, ?_⟩
        · rw [changedNext, later.1]
          rfl
        · refine later.2.frame fun block member => onlyNext.header fun address written => ?_
          have follows := (List.pairwise_cons.mp orderedAfter).1 block member
          simp only [Block.stop] at follows
          rcases List.mem_append.mp written with written | written
          · have := within address written
            omega
          · rw [List.mem_singleton] at written
            omega
  -- The order holds inside each part, and the limit separates the parts.
  · rw [List.pairwise_append, List.pairwise_append]
    refine ⟨orderedBefore, ⟨ordered, orderedAfter, ?_⟩, ?_⟩
    · intro block member other behindIt
      have := (inside block member).2
      have := respected other behindIt
      omega
    -- Every block is an old one, or lies between the start of the change and its limit.
    · intro block member other ahead
      rcases List.mem_append.mp ahead with ahead | ahead
      · have := beforeOne block member
        have := (inside other ahead).1
        omega
      · exact across block member other (List.mem_append_right _ ahead)
  · intro block member
    rcases List.mem_append.mp member with member | member
    · exact list.bounded block (List.mem_append_left _ member)
    · rcases List.mem_append.mp member with member | member
      · have := (list.bounded one (by simp)).1
        have := inside block member
        omega
      · exact list.bounded block (by simp [member])

/-- The headers of some blocks. -/
def headersOf (blocks : List Block) : List Nat := blocks.map Block.addr

/-- The block behind a link is one of the rest of the list. -/
theorem present_firstOf {after : List Block} {address : Nat}
    (member : address ∈ present (firstOf 0 after)) : address ∈ headersOf after := by
  -- A link of zero stands for no block, and any other one is the head of the rest.
  cases after with
  | nil => simp [present, firstOf] at member
  | cons block rest =>
    by_cases zero : block.addr = 0
    · simp [present, firstOf, zero] at member
    · rw [present, firstOf, if_neg zero, List.mem_singleton] at member
      simp [headersOf, member]

section Changes

attribute [local irreducible] blockSize blockFree blockNext blockPrev setSize setFree setNext setPrev

variable {mem : Memory} {before after : List Block} {block : Block}

/-- The fields of a block, by its place in the list. -/
theorem BlockList.fields (list : BlockList mem (before ++ block :: after)) :
    blockSize mem block.addr = block.size ∧
    blockFree mem block.addr = (if block.free then 1 else 0) ∧
    blockNext mem block.addr = firstOf 0 after ∧ blockPrev mem block.addr = lastOf 0 before :=
  ⟨congrArg Header.size list.header, congrArg Header.free list.header,
    congrArg Header.next list.header, congrArg Header.prev list.header⟩

/-- The backward link behind a block is the address of that block. -/
theorem BlockList.prev_behind (list : BlockList mem (before ++ block :: after))
    (some : firstOf 0 after ≠ 0) : (readHeader mem (firstOf 0 after)).prev = block.addr := by
  -- Seen from the next block, this one is the last of the blocks before.
  cases after with
  | nil => exact absurd rfl some
  | cons next rest =>
    have moved : BlockList mem ((before ++ [block]) ++ next :: rest) := by simpa using list
    have header := moved.header
    rw [lastOf_append] at header
    exact congrArg Header.prev header

/-- Storing the flag of a block changes that flag of the list. -/
theorem BlockList.setFlag (list : BlockList mem (before ++ block :: after)) (free : Bool) :
    BlockList (setFree mem block.addr (if free then 1 else 0))
      (before ++ { block with free := free } :: after) := by
  have bound := list.bounded block (by simp)
  have flag : (if free then 1 else 0) < 2 ^ 32 := by split <;> decide
  have only : OnlyHeaders [block.addr] mem (setFree mem block.addr (if free then 1 else 0)) :=
    onlyHeaders_set.2.1
  -- One block is replaced by one block, and only its own header is written.
  refine BlockList.replace [] [] [block.addr] block.stop list rfl bound.2 list.around.2
    (only.mono (by simp)) ?_ ⟨?_, trivial⟩ ?_ (List.pairwise_singleton _ _) ?_
  · intro address member
    rw [List.mem_singleton.mp member]
    simp only [Block.stop]
    omega
  · rw [readHeader_setFree flag, list.header]
    rfl
  · -- The block behind is not written, and its backward link is right already.
    intro some
    have unchanged : readHeader (setFree mem block.addr (if free then 1 else 0)) (firstOf 0 after) =
        readHeader mem (firstOf 0 after) := by
      cases after with
      | nil => exact absurd rfl some
      | cons next rest =>
        refine only.header fun address member => ?_
        have follows := list.around.2 next List.mem_cons_self
        simp only [Block.stop] at follows
        rw [List.mem_singleton.mp member]
        simp only [firstOf]
        omega
    rw [unchanged]
    exact Header.ext rfl rfl rfl (list.prev_behind some)
  · intro other member
    rw [List.mem_singleton.mp member]
    exact ⟨Nat.le_refl _, Nat.le_refl _⟩

/-- A block that has taken over the one after it, where the two touch. -/
theorem BlockList.absorb {last : Memory} {next : Block}
    (list : BlockList mem (before ++ block :: next :: after)) (touch : next.addr = block.stop)
    (absorbed : Absorbed mem last block.addr next.addr) :
    BlockList last
      (before ++ { block with size := block.size + (headerSize + next.size) } :: after) := by
  have moved : BlockList mem ((before ++ [block]) ++ next :: after) := by simpa using list
  have bound := list.bounded next (by simp)
  obtain ⟨size, free, link, prev⟩ := list.fields
  obtain ⟨nextSize, _, nextLink, _⟩ := moved.fields
  obtain ⟨joined, relinked, only⟩ := absorbed
  rw [nextLink] at joined relinked only
  rw [size, nextSize] at joined
  -- The two touch, so the joined block ends where the second one ended.
  have grown : block.addr + headerSize + (block.size + (headerSize + next.size)) = next.stop := by
    simp only [Block.stop] at touch ⊢
    omega
  -- Two blocks are replaced by one, which is what the rule is stated for.
  refine BlockList.replace [next] [] [block.addr] next.stop list rfl bound.2 moved.around.2 only ?_
    ⟨?_, trivial⟩ relinked (List.pairwise_singleton _ _) ?_
  · intro address member
    rw [List.mem_singleton.mp member]
    omega
  · rw [joined, list.header]
    rfl
  · intro other member
    rw [List.mem_singleton.mp member]
    exact ⟨Nat.le_refl _, Nat.le_of_eq grown⟩

/-- A block cut into one of the given size and the rest. -/
theorem BlockList.split (list : BlockList mem (before ++ block :: after)) {size : Nat}
    (room : size + headerSize + minBlock ≤ block.size) :
    BlockList (splitBlock mem block.addr size)
      (before ++ ({ block with size := size } ::
        [⟨block.addr + headerSize + size, block.size - size - headerSize, true⟩] ++ after)) ∧
    OnlyHeaders (block.addr :: (block.addr + headerSize + size) :: headersOf after) mem
      (splitBlock mem block.addr size) := by
  have bound := list.bounded block (by simp)
  obtain ⟨oldSize, _, link, _⟩ := list.fields
  have fits : block.addr + headerSize + block.size < 2 ^ 64 := bound.2
  -- The block behind is past the end of this one, so no store reaches its size.
  have far : firstOf 0 after ≠ 0 → block.stop ≤ firstOf 0 after := by
    intro some
    cases after with
    | nil => exact absurd rfl some
    | cons next rest => exact list.around.2 next List.mem_cons_self
  -- With the room checked, the cut takes the branch that makes a second header.
  have divided : SplitOff mem (splitBlock mem block.addr size) block.addr size := by
    refine splitBlock_large (by rwa [oldSize]) (by rwa [oldSize]) ?_
    rw [link]
    intro some
    have := far some
    simp only [Block.stop] at this
    simp only [Apart]
    omega
  obtain ⟨cut, rest, relinked, only⟩ := divided
  rw [link] at rest relinked only
  rw [oldSize] at rest
  constructor
  · -- The one block is replaced by the two parts of the cut.
    refine BlockList.replace [] _ [block.addr, block.addr + headerSize + size] block.stop list rfl
      bound.2 list.around.2 only ?_ ⟨?_, ?_, trivial⟩ relinked ?_ ?_
    · intro address member
      simp only [List.mem_cons, List.not_mem_nil, or_false] at member
      simp only [Block.stop]
      omega
    · rw [cut, list.header]
      rfl
    · exact rest
    · simp only [List.pairwise_cons, List.mem_singleton, forall_eq, List.not_mem_nil,
        IsEmpty.forall_iff, implies_true, List.Pairwise.nil, and_true]
      exact Nat.le_refl _
    · simp only [List.mem_cons, List.not_mem_nil, or_false, forall_eq_or_imp, forall_eq, Block.stop]
      omega
  · -- The cut writes the two headers and the link back of the block behind.
    refine only.mono fun address member => ?_
    simp only [List.mem_cons] at member ⊢
    exact member.imp_right fun member => member.imp_right present_firstOf

end Changes

end MiraOS
