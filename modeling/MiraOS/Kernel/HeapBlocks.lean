import MiraOS.Kernel.Heap
import Mathlib.Data.List.Pairwise

/-! The block list of the heap as it lies in memory, and what each change of it does. -/

namespace MiraOS

open Machine

/-- The four fields of a block header. -/
@[ext]
structure Header where
  size : Nat
  free : Nat
  next : Nat
  prev : Nat

/-- The header stored at an address. -/
def readHeader (mem : Memory) (block : Nat) : Header :=
  ⟨blockSize mem block, blockFree mem block, blockNext mem block, blockPrev mem block⟩

/-- A header depends only on its own bytes. -/
theorem readHeader_congr {mem other : Memory} {block : Nat}
    (same : ∀ byte, block ≤ byte → byte < block + headerSize → other byte = mem byte) :
    readHeader other block = readHeader mem block := by
  -- The four fields are four ranges inside the same bytes.
  simp only [headerSize] at same
  have size : blockSize other block = blockSize mem block :=
    readLE_congr fun byte low high => same byte (by omega) (by omega)
  have free : blockFree other block = blockFree mem block :=
    readLE_congr fun byte low high => same byte (by omega) (by omega)
  have next : blockNext other block = blockNext mem block :=
    readLE_congr fun byte low high => same byte (by omega) (by omega)
  have prev : blockPrev other block = blockPrev mem block :=
    readLE_congr fun byte low high => same byte (by omega) (by omega)
  rw [readHeader, readHeader, size, free, next, prev]

section Writes

variable {mem : Memory} {block value : Nat}

/-- Storing a size changes that field of its header. -/
theorem readHeader_setSize (fits : value < 2 ^ 64) :
    readHeader (setSize mem block value) block = { readHeader mem block with size := value } := by
  -- The size is the first eight bytes; the other three fields lie behind them.
  refine Header.ext (read64_write64 fits) ?_ ?_ ?_
  · exact readLE_writeLE_apart (.inr (by omega))
  · exact readLE_writeLE_apart (.inr (by omega))
  · exact readLE_writeLE_apart (.inr (by omega))

/-- Storing a flag changes that field of its header. -/
theorem readHeader_setFree (fits : value < 2 ^ 32) :
    readHeader (setFree mem block value) block = { readHeader mem block with free := value } := by
  -- The flag is four bytes; the fields before and after it are apart.
  refine Header.ext ?_ (read32_write32 fits) ?_ ?_
  · exact readLE_writeLE_apart (.inl (by omega))
  · exact readLE_writeLE_apart (.inr (by omega))
  · exact readLE_writeLE_apart (.inr (by omega))

/-- Storing a forward link changes that field of its header. -/
theorem readHeader_setNext (fits : value < 2 ^ 64) :
    readHeader (setNext mem block value) block = { readHeader mem block with next := value } := by
  -- The link is written in a field of its own, apart from the other three.
  refine Header.ext ?_ ?_ (read64_write64 fits) ?_
  · exact readLE_writeLE_apart (.inl (by omega))
  · exact readLE_writeLE_apart (.inl (by omega))
  · exact readLE_writeLE_apart (.inr (by omega))

/-- Storing a backward link changes that field of its header. -/
theorem readHeader_setPrev (fits : value < 2 ^ 64) :
    readHeader (setPrev mem block value) block = { readHeader mem block with prev := value } := by
  -- The link is written in a field of its own, apart from the other three.
  refine Header.ext ?_ ?_ ?_ (read64_write64 fits)
  · exact readLE_writeLE_apart (.inl (by omega))
  · exact readLE_writeLE_apart (.inl (by omega))
  · exact readLE_writeLE_apart (.inl (by omega))

/-- Two memories differ at most in the headers at some addresses. -/
def OnlyHeaders (blocks : List Nat) (mem other : Memory) : Prop :=
  ∀ byte, (∀ block ∈ blocks, byte < block ∨ block + headerSize ≤ byte) → other byte = mem byte

/-- Each store of a field stays inside its header. -/
theorem onlyHeaders_set :
    OnlyHeaders [block] mem (setSize mem block value) ∧
    OnlyHeaders [block] mem (setFree mem block value) ∧
    OnlyHeaders [block] mem (setNext mem block value) ∧
    OnlyHeaders [block] mem (setPrev mem block value) := by
  simp only [OnlyHeaders, headerSize, List.mem_singleton, forall_eq]
  -- Each field lies within the 32 bytes of the header.
  refine ⟨?_, ?_, ?_, ?_⟩ <;> intro byte outside <;> exact writeLE_outside (by omega)

/-- Changes of headers one after the other are changes of all of them. -/
theorem OnlyHeaders.trans {first second : List Nat} {mem middle last : Memory}
    (one : OnlyHeaders first mem middle) (two : OnlyHeaders second middle last) :
    OnlyHeaders (first ++ second) mem last := by
  -- A byte outside both lists is kept by each of the two changes.
  intro byte outside
  rw [two byte (fun block member => outside block (List.mem_append_right _ member)),
    one byte (fun block member => outside block (List.mem_append_left _ member))]

/-- More headers may be named than are changed. -/
theorem OnlyHeaders.mono {first second : List Nat} {mem other : Memory}
    (one : OnlyHeaders first mem other) (more : ∀ block ∈ first, block ∈ second) :
    OnlyHeaders second mem other :=
  fun byte outside => one byte fun block member => outside block (more block member)

/-- A header away from the changed ones is unchanged. -/
theorem OnlyHeaders.header {blocks : List Nat} {mem other : Memory}
    (only : OnlyHeaders blocks mem other) {block : Nat}
    (apart : ∀ changed ∈ blocks, block + headerSize ≤ changed ∨ changed + headerSize ≤ block) :
    readHeader other block = readHeader mem block := by
  -- A header apart from the changed ones has every byte outside of them.
  apply readHeader_congr
  intro byte low high
  refine only byte fun changed member => ?_
  have := apart changed member
  omega

/-- Two headers do not overlap. -/
def Apart (one two : Nat) : Prop := one + headerSize ≤ two ∨ two + headerSize ≤ one

/-- A store into one header leaves the others alone. -/
theorem readHeader_set_apart {other : Nat} (apart : Apart other block) :
    readHeader (setSize mem block value) other = readHeader mem other ∧
    readHeader (setFree mem block value) other = readHeader mem other ∧
    readHeader (setNext mem block value) other = readHeader mem other ∧
    readHeader (setPrev mem block value) other = readHeader mem other := by
  -- Each store stays inside its own header, which is apart from the other one.
  obtain ⟨size, free, next, prev⟩ := @onlyHeaders_set mem block value
  have away : ∀ changed ∈ [block], other + headerSize ≤ changed ∨ changed + headerSize ≤ other := by
    intro changed member
    rw [List.mem_singleton.mp member]
    exact apart
  exact ⟨size.header away, free.header away, next.header away, prev.header away⟩

/-- The header behind a link, if there is one. -/
def present (link : Nat) : List Nat := if link = 0 then [] else [link]

/-- Setting the backward link of the block behind a link. -/
theorem relink_spec {next : Nat} (fits : value < 2 ^ 64) :
    OnlyHeaders (present next) mem (if next ≠ 0 then setPrev mem next value else mem) ∧
    (next ≠ 0 → readHeader (if next ≠ 0 then setPrev mem next value else mem) next =
      { readHeader mem next with prev := value }) := by
  -- The source tests the link before it writes through it.
  by_cases nonzero : next = 0
  · rw [if_neg (by simpa using nonzero)]
    exact ⟨fun _ _ => rfl, fun some => absurd nonzero some⟩
  · rw [if_pos nonzero, present, if_neg nonzero]
    exact ⟨onlyHeaders_set.2.2.2, fun _ => readHeader_setPrev fits⟩

end Writes

/-- One block has taken over the block after it. -/
structure Absorbed (mem last : Memory) (first second : Nat) : Prop where
  joined : readHeader last first = { readHeader mem first with
    size := blockSize mem first + (headerSize + blockSize mem second)
    next := blockNext mem second }
  relinked : blockNext mem second ≠ 0 → readHeader last (blockNext mem second) =
    { readHeader mem (blockNext mem second) with prev := first }
  only : OnlyHeaders (first :: present (blockNext mem second)) mem last

/-- A link read from memory is a word. -/
theorem blockNext_lt (mem : Memory) (block : Nat) : blockNext mem block < 2 ^ 64 := read64_lt _ _

section Merge

-- From here on fields are only reached through whole headers.
attribute [local irreducible] blockSize blockFree blockNext blockPrev setSize setFree setNext setPrev

variable {mem : Memory} {first second : Nat}

/-- Growing a block over the next one, in the order in which both merges store the fields. -/
theorem absorb_stores (word : first < 2 ^ 64)
    (after : blockNext mem second ≠ 0 → Apart (blockNext mem second) first)
    (fits : blockSize mem first + (headerSize + blockSize mem second) < 2 ^ 64) {grown : Memory}
    (stored : grown = setNext (setSize mem first
      (blockSize mem first + (headerSize + blockSize mem second))) first (blockNext mem second)) :
    Absorbed mem (if blockNext mem second ≠ 0 then setPrev grown (blockNext mem second) first
      else grown) first second := by
  -- The two stores into the first header are its new size and its new forward link.
  have joined : readHeader grown first = { readHeader mem first with
      size := blockSize mem first + (headerSize + blockSize mem second)
      next := blockNext mem second } := by
    rw [stored, readHeader_setNext (blockNext_lt mem second), readHeader_setSize fits]
  have onlyGrown : OnlyHeaders [first] mem grown := by
    rw [stored]
    exact (onlyHeaders_set.1.trans onlyHeaders_set.2.2.1).mono (by simp)
  -- The third store is the backward link behind, if there is a block there.
  obtain ⟨only, relinked⟩ := @relink_spec grown first (blockNext mem second) word
  refine ⟨?_, ?_, ?_⟩
  · -- The block that gets the new backward link is another one.
    rw [only.header, joined]
    intro changed member
    by_cases none_ : blockNext mem second = 0
    · simp [present, none_] at member
    · rw [present, if_neg none_, List.mem_singleton] at member
      rw [member]
      exact (after none_).symm
  · intro some
    rw [relinked some, onlyGrown.header]
    intro changed member
    rw [List.mem_singleton.mp member]
    exact after some
  · have both := onlyGrown.trans only
    rwa [List.singleton_append] at both

/-- Merging with a free next block takes that block over. -/
theorem mergeNext_absorbs (word : first < 2 ^ 64) (next : blockNext mem first = second)
    (nonzero : second ≠ 0) (free : blockFree mem second ≠ 0) (apart : Apart second first)
    (after : blockNext mem second ≠ 0 → Apart (blockNext mem second) first)
    (fits : blockSize mem first + (headerSize + blockSize mem second) < 2 ^ 64) :
    Absorbed mem (mergeNext mem first) first second := by
  have inner : headerSize + blockSize mem second < 2 ^ 64 := by omega
  rw [mergeNext, next, if_pos ⟨nonzero, free⟩]
  simp only [add64_of_lt inner, add64_of_lt fits]
  -- Each field is read after the stores before it, which leave it as it was.
  have sized := @readHeader_setSize mem first _ fits
  have nextSized : blockNext (setSize mem first
      (blockSize mem first + (headerSize + blockSize mem second))) first = second :=
    (congrArg Header.next sized).trans next
  have afterSized : blockNext (setSize mem first
      (blockSize mem first + (headerSize + blockSize mem second))) second = blockNext mem second :=
    congrArg Header.next (readHeader_set_apart apart).1
  rw [nextSized, afterSized]
  have nextStored : blockNext (setNext (setSize mem first
      (blockSize mem first + (headerSize + blockSize mem second))) first (blockNext mem second))
      first = blockNext mem second :=
    congrArg Header.next (readHeader_setNext (blockNext_lt mem second))
  rw [nextStored]
  exact absorb_stores word after fits rfl

/-- Merging into a free previous block makes that block take this one over. -/
theorem mergePrev_absorbs (word : first < 2 ^ 64) (prev : blockPrev mem second = first)
    (nonzero : first ≠ 0) (free : blockFree mem first ≠ 0) (apart : Apart second first)
    (after : blockNext mem second ≠ 0 → Apart (blockNext mem second) first)
    (fits : blockSize mem first + (headerSize + blockSize mem second) < 2 ^ 64) :
    Absorbed mem (mergePrev mem second) first second := by
  have inner : headerSize + blockSize mem second < 2 ^ 64 := by omega
  rw [mergePrev, prev, if_pos ⟨nonzero, free⟩]
  simp only [add64_of_lt inner, add64_of_lt fits]
  -- The second block is not written, so its links are the ones from before.
  have sized : readHeader (setSize mem first
      (blockSize mem first + (headerSize + blockSize mem second))) second = readHeader mem second :=
    (readHeader_set_apart apart).1
  have prevSized : blockPrev (setSize mem first
      (blockSize mem first + (headerSize + blockSize mem second))) second = first :=
    (congrArg Header.prev sized).trans prev
  have nextSized : blockNext (setSize mem first
      (blockSize mem first + (headerSize + blockSize mem second))) second = blockNext mem second :=
    congrArg Header.next sized
  rw [prevSized, nextSized]
  have stored : readHeader (setNext (setSize mem first
      (blockSize mem first + (headerSize + blockSize mem second))) first (blockNext mem second))
      second = readHeader mem second := (readHeader_set_apart apart).2.2.1.trans sized
  have prevStored : blockPrev (setNext (setSize mem first
      (blockSize mem first + (headerSize + blockSize mem second))) first (blockNext mem second))
      second = first := (congrArg Header.prev stored).trans prev
  have nextStored : blockNext (setNext (setSize mem first
      (blockSize mem first + (headerSize + blockSize mem second))) first (blockNext mem second))
      second = blockNext mem second := congrArg Header.next stored
  rw [prevStored, nextStored]
  exact absorb_stores word after fits rfl

end Merge

/-- Storing all four fields makes a whole header. -/
theorem newHeader_stores {mem : Memory} {block size free next prev : Nat} (sizeFits : size < 2 ^ 64)
    (freeFits : free < 2 ^ 32) (nextFits : next < 2 ^ 64) (prevFits : prev < 2 ^ 64) :
    readHeader (setPrev (setNext (setFree (setSize mem block size) block free) block next) block prev)
      block = ⟨size, free, next, prev⟩ ∧
    OnlyHeaders [block] mem
      (setPrev (setNext (setFree (setSize mem block size) block free) block next) block prev) := by
  -- Four stores into one header, read back from the last to the first.
  constructor
  · rw [readHeader_setPrev prevFits, readHeader_setNext nextFits, readHeader_setFree freeFits,
      readHeader_setSize sizeFits]
  · exact (((onlyHeaders_set.1.trans onlyHeaders_set.2.1).trans onlyHeaders_set.2.2.1).trans
      onlyHeaders_set.2.2.2).mono (by simp)

/-- A block has been cut into two. -/
structure SplitOff (mem last : Memory) (block size : Nat) : Prop where
  cut : readHeader last block = { readHeader mem block with
    size := size
    next := block + headerSize + size }
  rest : readHeader last (block + headerSize + size) =
    ⟨blockSize mem block - size - headerSize, 1, blockNext mem block, block⟩
  relinked : blockNext mem block ≠ 0 → readHeader last (blockNext mem block) =
    { readHeader mem (blockNext mem block) with prev := block + headerSize + size }
  only : OnlyHeaders (block :: (block + headerSize + size) :: present (blockNext mem block)) mem last

section Split

attribute [local irreducible] blockSize blockFree blockNext blockPrev setSize setFree setNext setPrev

variable {mem : Memory} {block size : Nat}

/-- A block without room for a second header is left whole. -/
theorem splitBlock_small (fits : size + headerSize + minBlock < 2 ^ 64)
    (small : blockSize mem block < size + headerSize + minBlock) : splitBlock mem block size = mem := by
  have inner : size + headerSize < 2 ^ 64 := by omega
  rw [splitBlock, add64_of_lt inner, add64_of_lt fits, if_pos small]

/-- A block with room for a second header is cut into two. -/
theorem splitBlock_large (room : size + headerSize + minBlock ≤ blockSize mem block)
    (fits : block + headerSize + blockSize mem block < 2 ^ 64)
    (after : blockNext mem block ≠ 0 → Apart (blockNext mem block) block ∧
      Apart (blockNext mem block) (block + headerSize + size)) :
    SplitOff mem (splitBlock mem block size) block size := by
  -- None of the sums and differences of the source wraps around here.
  have start : block + headerSize < 2 ^ 64 := by omega
  have place : block + headerSize + size < 2 ^ 64 := by simp only [minBlock] at room; omega
  have wide : size + headerSize < 2 ^ 64 := by omega
  have limit : size + headerSize + minBlock < 2 ^ 64 := by omega
  have apart : Apart block (block + headerSize + size) := .inl (by omega)
  have remaining : sub64 (sub64 (blockSize mem block) size) headerSize =
      blockSize mem block - size - headerSize := by
    have inner : sub64 (blockSize mem block) size = blockSize mem block - size :=
      sub64_of_le (by omega) (by omega)
    rw [inner, sub64_of_le (by omega) (by omega)]
  rw [splitBlock, add64_of_lt wide, add64_of_lt limit, if_neg (by omega)]
  simp only [add64_of_lt start, add64_of_lt place, remaining]
  -- The new header gets a name, so that its address is not computed again at every store.
  obtain ⟨made, isMade⟩ : ∃ made, block + headerSize + size = made := ⟨_, rfl⟩
  rw [isMade] at place after apart ⊢
  -- The link of the old block is read after two stores into the new header.
  have kept : blockNext (setFree (setSize mem made (blockSize mem block - size - headerSize)) made 1)
      block = blockNext mem block :=
    congrArg Header.next ((readHeader_set_apart apart).2.1.trans (readHeader_set_apart apart).1)
  rw [kept]
  obtain ⟨madeHeader, onlyMade⟩ := @newHeader_stores mem made
    (blockSize mem block - size - headerSize) 1 (blockNext mem block) block (by omega) (by decide)
    (blockNext_lt _ _) (by omega)
  generalize setPrev (setNext (setFree (setSize mem made (blockSize mem block - size - headerSize))
    made 1) made (blockNext mem block)) made block = filled at madeHeader onlyMade ⊢
  have away : ∀ changed ∈ [made], block + headerSize ≤ changed ∨ changed + headerSize ≤ block := by
    intro changed member
    rw [List.mem_singleton.mp member]
    exact apart
  have old : readHeader filled block = readHeader mem block := onlyMade.header away
  have link : blockNext filled block = blockNext mem block := congrArg Header.next old
  rw [link]
  obtain ⟨onlyLink, relinked⟩ := @relink_spec filled made (blockNext mem block) place
  generalize (if blockNext mem block ≠ 0 then setPrev filled (blockNext mem block) made else filled) =
    linked at onlyLink relinked ⊢
  -- The block behind the link is neither of the two halves.
  have others : ∀ changed ∈ present (blockNext mem block),
      Apart changed block ∧ Apart changed made := by
    intro changed member
    by_cases none_ : blockNext mem block = 0
    · simp [present, none_] at member
    · rw [present, if_neg none_, List.mem_singleton] at member
      rw [member]
      exact after none_
  have size_lt : size < 2 ^ 64 := by omega
  have cut : readHeader (setSize (setNext linked block made) block size) block =
      { readHeader mem block with size := size, next := made } := by
    rw [readHeader_setSize size_lt, readHeader_setNext place,
      onlyLink.header (fun changed member => (others changed member).1.symm), old]
  have onlyCut : OnlyHeaders [block] linked (setSize (setNext linked block made) block size) :=
    (onlyHeaders_set.2.2.1.trans onlyHeaders_set.1).mono (by simp)
  subst isMade
  -- What is left is which of the later stores could reach each header: none of them does.
  refine ⟨cut, ?_, ?_, ?_⟩
  · rw [onlyCut.header, onlyLink.header, madeHeader]
    · exact fun changed member => (others changed member).2.symm
    · intro changed member
      rw [List.mem_singleton.mp member]
      exact apart.symm
  · intro some
    rw [onlyCut.header, relinked some, onlyMade.header]
    · intro changed member
      rw [List.mem_singleton.mp member]
      exact (after some).2
    · intro changed member
      rw [List.mem_singleton.mp member]
      exact (after some).1
  · refine ((onlyMade.trans onlyLink).trans onlyCut).mono ?_
    intro changed member
    simp only [List.mem_append, List.mem_cons, List.not_mem_nil, or_false] at member ⊢
    rcases member with (new | behind) | old
    · exact .inr (.inl new)
    · exact .inr (.inr behind)
    · exact .inl old

end Split

end MiraOS
