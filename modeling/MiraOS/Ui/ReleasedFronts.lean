import MiraOS.Kernel.HeapCaches
import MiraOS.Ui.Releases

/-! What the releases at the end of a command of ui/shell.c write in front of the objects of kernel/heap.c. -/

namespace MiraOS

open Machine

/-- The heap after pointers are given back one after another. -/
def kfreeAll (heap : Heap) (pointers : List Nat) : Heap := pointers.foldl kfree heap

/-- An address is one of the four bytes that are taken for the mark of the block of a pointer. -/
def InFront (pointers : List Nat) (address : Nat) : Prop :=
  ∃ pointer ∈ pointers, pointer ≠ 0 ∧ pointer - 24 ≤ address ∧ address < pointer - 20

instance (pointers : List Nat) (address : Nat) : Decidable (InFront pointers address) :=
  inferInstanceAs (Decidable (∃ pointer ∈ pointers, _))

/-- What is read as a link leads to no free block, before the releases and after them. -/
def LeadsNowhere (mem : Memory) (pointers : List Nat) (link : Nat) : Prop :=
  link = 0 ∨ blockFree mem link = 0 ∧ ∀ i < 4, ¬ InFront pointers (link + 8 + i)

instance (mem : Memory) (pointers : List Nat) (link : Nat) : Decidable (LeadsNowhere mem pointers link) :=
  inferInstanceAs (Decidable (_ ∨ _))

/-- Neither of the two words in front of a pointer leads to a free block. -/
structure Quiet (mem : Memory) (pointers : List Nat) (pointer : Nat) : Prop where
  next : LeadsNowhere mem pointers (blockNext mem (pointer - headerSize))
  prev : LeadsNowhere mem pointers (blockPrev mem (pointer - headerSize))

instance (mem : Memory) (pointers : List Nat) (pointer : Nat) : Decidable (Quiet mem pointers pointer) :=
  decidable_of_iff (LeadsNowhere mem pointers (blockNext mem (pointer - headerSize)) ∧
      LeadsNowhere mem pointers (blockPrev mem (pointer - headerSize)))
    ⟨fun both => ⟨both.1, both.2⟩, fun quiet => ⟨quiet.next, quiet.prev⟩⟩

/-- A pointer with room for a header in front of it, at a multiple of the smallest object size. -/
structure ObjectPointer (pointer : Nat) : Prop where
  room : headerSize ≤ pointer
  word : pointer < 2 ^ 64
  aligned : pointer % slabMinSize = 0

section

variable {heap : Heap} {mem : Memory} {pointers released : List Nat} {pointer other link address : Nat}

/-- Objects of the slab caches are such pointers. -/
theorem IsSlot.objectPointer {pieces : List Piece} {free : Fin slabMaxOrder → List Nat}
    (inv : HeapInv heap pieces free) {order : Fin slabMaxOrder} (isSlot : IsSlot pieces order pointer) :
    ObjectPointer pointer := by
  obtain ⟨low, high⟩ := inv.slot_window isSlot
  obtain ⟨page, isPage, place⟩ := isSlot
  have wide := (slab_sizes order).1
  have budget := inv.budget
  have base : pagingHeapBase = 0x40000000 := rfl
  refine ⟨?_, by omega, ?_⟩
  · rw [headerSize]
    omega
  · -- Each object size is the smallest one times a power of two.
    have whole := slot_aligned (inv.pageAligned (mem_pagesOf.mp isPage)) place
    have divides : slabMinSize ∣ slabMinSize <<< order.val := by
      rw [Nat.shiftLeft_eq]
      exact Nat.dvd_mul_right ..
    exact Nat.mod_eq_zero_of_dvd (divides.trans (Nat.dvd_of_mod_eq_zero whole))

/-- The marks of a list are that of its first pointer and those of the others. -/
theorem inFront_cons : InFront (pointer :: released) address ↔
    (pointer ≠ 0 ∧ pointer - 24 ≤ address ∧ address < pointer - 20) ∨ InFront released address := by
  simp [InFront]

/-- The mark of a block is its only change. -/
theorem setFree_apply (object : ObjectPointer pointer) :
    setFree mem (pointer - headerSize) 1 address =
      if pointer - 24 ≤ address ∧ address < pointer - 20 then (if address % 32 = 8 then 1 else 0)
      else mem address := by
  obtain ⟨room, -, aligned⟩ := object
  rw [headerSize] at room
  rw [slabMinSize] at aligned
  have start : pointer - headerSize + 8 = pointer - 24 := by
    rw [headerSize]
    omega
  rw [setFree, write32, writeLE, start]
  by_cases inside : pointer - 24 ≤ address ∧ address < pointer - 20
  · rw [if_pos inside, if_pos (by omega)]
    by_cases first : address = pointer - 24
    · -- The lowest byte holds the one, and the others are cleared.
      rw [if_pos (by omega), first, Nat.sub_self]
      rfl
    · have later : address - (pointer - 24) = 1 ∨ address - (pointer - 24) = 2 ∨
          address - (pointer - 24) = 3 := by omega
      rw [if_neg (by omega)]
      rcases later with same | same | same <;> rw [same] <;> rfl
  · rw [if_neg inside, if_neg (by omega)]

/-- A mark leaves the flag of a block that a link leads to. -/
theorem LeadsNowhere.marked (leads : LeadsNowhere mem pointers link) (object : ObjectPointer pointer)
    (among : pointer ∈ pointers) : LeadsNowhere (setFree mem (pointer - headerSize) 1) pointers link := by
  -- The mark falls on the front of an object that the link's record lies apart from, so the link reads as
  -- before.
  refine leads.imp_right fun ⟨used, apart⟩ => ⟨(readLE_congr fun at_ low high => ?_).trans used, apart⟩
  have outside := apart (at_ - (link + 8)) (by omega)
  rw [show link + 8 + (at_ - (link + 8)) = at_ by omega] at outside
  -- An object lies a whole header into the heap, so its pointer is not null.
  have nonnull : pointer ≠ 0 := by
    have room := object.room
    rw [headerSize] at room
    omega
  rw [setFree_apply object, if_neg]
  rintro ⟨first, last⟩
  exact outside ⟨pointer, among, nonnull, first, last⟩

/-- A mark leaves the links in front of every pointer, its own included. -/
theorem setFree_links (object : ObjectPointer pointer) (objects : ObjectPointer other) :
    blockNext (setFree mem (pointer - headerSize) 1) (other - headerSize) = blockNext mem (other - headerSize) ∧
      blockPrev (setFree mem (pointer - headerSize) 1) (other - headerSize) = blockPrev mem (other - headerSize) := by
  -- The links are the upper half of the smallest object in front, and marks lie in the lower half.
  obtain ⟨room, -, aligned⟩ := object
  obtain ⟨otherRoom, -, otherAligned⟩ := objects
  rw [headerSize] at room otherRoom
  rw [slabMinSize] at aligned otherAligned
  rw [headerSize]
  exact ⟨readLE_writeLE_apart (by omega), readLE_writeLE_apart (by omega)⟩

theorem Quiet.marked (quiet : Quiet mem pointers other) (objects : ObjectPointer other)
    (object : ObjectPointer pointer) (among : pointer ∈ pointers) :
    Quiet (setFree mem (pointer - headerSize) 1) pointers other := by
  -- Marking an object as free changes neither link of another one.
  obtain ⟨next, prev⟩ := @setFree_links mem pointer other object objects
  refine ⟨?_, ?_⟩
  · rw [next]
    exact quiet.next.marked object among
  · rw [prev]
    exact quiet.prev.marked object among

/-- Where nothing in front of it leads to a free block, giving an object back writes its mark and no more. -/
theorem kfree_quiet (quiet : Quiet heap.mem pointers pointer) (object : ObjectPointer pointer)
    (among : pointer ∈ pointers) :
    kfree heap pointer = { heap with mem := setFree heap.mem (pointer - headerSize) 1 } := by
  have room := object.room
  rw [headerSize] at room
  obtain ⟨next, prev⟩ := quiet.marked object object among
  -- Neither merge finds a free neighbour.
  have first : mergeNext (setFree heap.mem (pointer - headerSize) 1) (pointer - headerSize) =
      setFree heap.mem (pointer - headerSize) 1 := by
    rw [mergeNext, if_neg]
    rintro ⟨somewhere, free⟩
    exact free (next.resolve_left somewhere).1
  have second : mergePrev (setFree heap.mem (pointer - headerSize) 1) (pointer - headerSize) =
      setFree heap.mem (pointer - headerSize) 1 := by
    rw [mergePrev, if_neg]
    rintro ⟨somewhere, free⟩
    exact free (prev.resolve_left somewhere).1
  rw [kfree, if_neg (by omega), sub64_of_le object.room object.word]
  simp only [mergeAdjacent, first, second]

/-- Giving objects back one after another writes their marks and no more. -/
theorem kfreeAll_quiet (objects : ∀ pointer ∈ pointers, pointer ≠ 0 → ObjectPointer pointer)
    (quiet : ∀ pointer ∈ pointers, pointer ≠ 0 → Quiet heap.mem pointers pointer)
    (among : released ⊆ pointers) :
    (kfreeAll heap released).mem address =
      if InFront released address then (if address % 32 = 8 then 1 else 0) else heap.mem address := by
  -- What is given back is a part of the list, whose marks the links stay away from all along.
  induction released generalizing heap with
  | nil => simp [kfreeAll, InFront]
  | cons first rest ih =>
    have listed := among List.mem_cons_self
    have others : rest ⊆ pointers := fun _ member => among (List.mem_cons_of_mem first member)
    rw [kfreeAll, List.foldl_cons, ← kfreeAll]
    by_cases null : first = 0
    · -- A null pointer is nothing to give back.
      rw [kfree, if_pos null, ih quiet others]
      simp [inFront_cons, null]
    · have object := objects first listed null
      rw [kfree_quiet (quiet first listed null) object listed]
      rw [ih (fun pointer member solid => (quiet pointer member solid).marked (objects pointer member solid) object
        listed) others]
      by_cases later : InFront rest address
      · rw [if_pos later, if_pos (inFront_cons.mpr (.inr later))]
      · rw [if_neg later]
        dsimp only
        rw [setFree_apply object]
        simp only [inFront_cons, null, ne_eq, not_false_eq_true, true_and, later, or_false]

end

/-- A pointer that is answered more often at a later moment was answered in between. -/
theorem exists_answered {supply : Nat → Nat} {start after pointer : Nat}
    (more : answered supply start pointer < answered supply after pointer) :
    ∃ n, start ≤ n ∧ n < after ∧ supply n = pointer := by
  -- Look for the pointer among the answers of the latest request, and among those before it.
  induction after with
  | zero => cases more
  | succ latest ih =>
    rw [answered_succ] at more
    by_cases here : start ≤ latest ∧ supply latest = pointer
    · exact ⟨latest, here.1, Nat.lt_succ_self latest, here.2⟩
    · have before : answered supply start pointer < answered supply latest pointer := by
        by_cases reached : start ≤ latest
        · have other : List.count pointer [supply latest] = 0 :=
            List.count_singleton.trans (if_neg (by simpa using fun same => here ⟨reached, same⟩))
          omega
        · -- A later start has all the answers up to here already.
          have all : answered supply (latest + 1) pointer ≤ answered supply start pointer :=
            ((List.range_sublist.mpr (by omega)).map supply).count_le pointer
          rw [answered_succ] at all
          omega
      obtain ⟨n, low, high, same⟩ := ih before
      exact ⟨n, low, Nat.lt_succ_of_lt high, same⟩

section

variable {World : Type} (interp : Interpreter World) {supply : Nat → Nat} {start : Nat} {middle : HeapCalls}
  {tokens : List Token} {cmd : List UInt8} (ctx : ShellCtx World) {fuel : Nat} {mem : Memory}
  {paging : Paging (List Nat)} {heap : Heap} {ops : List HeapOp} {system : HeapSystem}

/-- What is given back at the end of a command was answered during the command. -/
theorem released_answered {input : List UInt8} {released : List Nat}
    (lexed : tokenize supply input ⟨start, []⟩ = .ok (tokens, middle))
    (same : SamePointers released (heldBlocks (parseTokens supply tokens middle).node ++
      ((parseTokens supply tokens middle).node.map Node.texts).getD [] ++ tokenPointers tokens))
    {pointer : Nat} (solid : pointer ≠ 0) (member : pointer ∈ released) :
    ∃ n, start ≤ n ∧ n < (parseTokens supply tokens middle).heap.requests ∧ supply n = pointer := by
  obtain ⟨lexing, -⟩ := tokenize_covered lexed
  have keeps := @parseTokens_keeps (tokens.map fun token => token.value) supply tokens middle
    fun token among => List.mem_map_of_mem among
  have bound := (lexing.trans (keeps.covered.frame _)) pointer solid
  -- The texts of the tree are texts of tokens, so only blocks and tokens count.
  have owned : pointer ∈ tokenPointers tokens ++ heldBlocks (parseTokens supply tokens middle).node := by
    have counted := same pointer solid
    have listed : pointer ∈ heldBlocks (parseTokens supply tokens middle).node ++
        ((parseTokens supply tokens middle).node.map Node.texts).getD [] ++ tokenPointers tokens := by
      rw [← List.count_pos_iff, ← counted]
      exact List.count_pos_iff.mpr member
    -- A pointer of the tree is a block or a text, and the text is one of a token.
    rcases List.mem_append.mp listed with inTree | inTokens
    · rcases List.mem_append.mp inTree with block | text
      · exact List.mem_append_right _ block
      · cases found : (parseTokens supply tokens middle).node with
        | none =>
          rw [found] at text
          cases text
        | some tree =>
          rw [found] at text
          obtain ⟨texts, drawn⟩ := keeps.draws tree found
          rw [Option.map_some, Option.getD_some, texts] at text
          obtain ⟨held, accounted, rfl⟩ := List.mem_map.mp text
          obtain ⟨token, among, rfl⟩ := List.mem_map.mp (drawn held accounted)
          exact List.mem_append_left _ (List.mem_flatMap.mpr ⟨token, among, List.mem_cons_self⟩)
    · exact List.mem_append_left _ inTokens
  have positive := List.count_pos_iff.mpr owned
  simp only [List.count_nil] at bound
  exact exists_answered (by omega)

/-- A token that loses its own pointer to its text holds another number there. -/
theorem token_pointer_lost {mem : Memory} {released : List Nat} {token : Token}
    (object : ObjectPointer token.value.address) (behind : token.value.address = token.address + slabMinSize)
    (member : token.value.address ∈ released)
    (marks : ∀ address, InFront released address → mem address = if address % 32 = 8 then 1 else 0) :
    read64 mem (token.address + 8) ≠ token.value.address := by
  obtain ⟨-, -, aligned⟩ := object
  rw [slabMinSize] at aligned behind
  have front : InFront released (token.address + 8) :=
    ⟨_, member, by omega, by omega, by omega⟩
  -- The lowest byte is the mark, and no object starts there.
  have lowest : mem (token.address + 8) = 1 := by
    rw [marks _ front, if_pos (by omega)]
  intro same
  have low : read64 mem (token.address + 8) % 256 = 1 := by
    rw [read64, readLE, lowest]
    show (1 + 256 * _) % 256 = 1
    omega
  omega

end

/-- Requests one after another, by callers that keep what they get. -/
def requestAll (fuel : Nat) (system : HeapSystem) : List Nat → Except Halt HeapSystem
  | [] => .ok system
  | size :: rest => do
    let (ptr, next) ← kmalloc fuel system.heap size
    requestAll fuel (system.allocated size ptr next) rest

theorem requestAll_run {asks : Nat → Prop} {releases : Heap → Allocation → Prop} {fuel : Nat} {sizes : List Nat}
    {system final : HeapSystem} (ran : requestAll fuel system sizes = .ok final)
    (asked : ∀ size ∈ sizes, asks size) : Run (HeapStep asks releases) system (sizes.map .alloc) final := by
  -- Induction on the sizes: every request is one allocation step of the heap's run.
  induction sizes generalizing system with
  | nil =>
    cases ran
    exact .nil _
  | cons size rest ih =>
    obtain ⟨⟨ptr, next⟩, called, later⟩ := bind_eq_ok.mp ran
    exact .cons (.alloc (asked size List.mem_cons_self) called)
      (ih later fun other among => asked other (List.mem_cons_of_mem size among))

/-- What a command of one word asks for: its token and the end marker with their texts, three nodes, an array
of arguments and two arrays of children. -/
def wordRequests : List Nat := [32, 3, 32, 1, 88, 88, 88, 128, 8, 8]

/-- The objects that these requests are answered with in a new heap. -/
def wordAnswers : List Nat :=
  [0x40001000, 0x40001020, 0x40001040, 0x40001060, 0x40002000, 0x40002080, 0x40002100, 0x40002180, 0x40001080,
    0x400010A0]

/-- What the command gives back at its end, where the text of its word is listed twice. -/
def wordReleased : List Nat :=
  [0, 0x40001020, 0x40002180, 0x40002100, 0x40001080, 0x40002080, 0x400010A0, 0x40002000, 0x40001020, 0x40001000,
    0x40001060, 0x40001040]

/-- The answers of the allocator to a command of one word. -/
def wordSupply (n : Nat) : Nat := wordAnswers.getD n 0

/-- The heap behind the requests, and the heap that it started from. -/
def wordSystem : Except Halt (Heap × HeapSystem) := do
  let heap ← heapInit 1 (fun _ => 0) (bootedWindow [0x200000, 0x201000, 0x202000])
  let system ← requestAll 3 ⟨heap, [], []⟩ wordRequests
  return (heap, system)

/-- The heap once the number of its line is written into the token. -/
def HeapSystem.withLine (system : HeapSystem) : HeapSystem :=
  { system with heap := { system.heap with mem := Function.update system.heap.mem 0x40001010 1 } }

/-- The heap holds what the command was given, and nothing in front of it leads to a free block. -/
theorem wordSystem_ok :
    ∃ heap system, heapInit 1 (fun _ => 0) (bootedWindow [0x200000, 0x201000, 0x202000]) = .ok heap ∧
      Run (HeapStep Rounds TouchingBlock) ⟨heap, [], []⟩
        (wordRequests.map .alloc ++ [.write 0x40001010 1]) system ∧
      system.live = (wordRequests.zip wordAnswers).reverse.map (fun item => ⟨item.2, item.1⟩) ∧
      ∀ pointer ∈ wordReleased, pointer ≠ 0 → Quiet system.heap.mem wordReleased pointer := by
  obtain ⟨⟨heap, system⟩, ran, checked⟩ := @exists_ok Halt _ wordSystem
    (fun result => decide (result.2.live = (wordRequests.zip wordAnswers).reverse.map (fun item => ⟨item.2, item.1⟩) ∧
      ∀ pointer ∈ wordReleased, pointer ≠ 0 →
        Quiet result.2.withLine.heap.mem wordReleased pointer)) (by decide +kernel)
  obtain ⟨started, init, ran⟩ := bind_eq_ok.mp ran
  obtain ⟨final, taken, same⟩ := bind_eq_ok.mp ran
  cases same
  obtain ⟨live, quiet⟩ := of_decide_eq_true checked
  have requests : Run (HeapStep Rounds TouchingBlock) ⟨heap, [], []⟩ (wordRequests.map .alloc) system :=
    requestAll_run taken (by simp [wordRequests, Rounds])
  -- The token is held, so its line may be written.
  have held : (⟨0x40001000, 32⟩ : Allocation) ∈ system.live := by
    rw [show system.live = _ from live]
    decide
  have run := requests.append (.cons (.write held (by decide) (by decide)) (.nil system.withLine))
  exact ⟨heap, system.withLine, init, run, live, quiet⟩

/-- Each answer to the command is one of the objects that are held. -/
theorem wordSupply_held : ∀ n < 10,
    ∃ allocation ∈ (wordRequests.zip wordAnswers).reverse.map (fun item => (⟨item.2, item.1⟩ : Allocation)),
      allocation.ptr = wordSupply n ∧ allocation.size ≤ 512 := by
  decide

/-- The tokens of the command, and what its parser asks for. -/
theorem wordTokens_ok :
    ∃ tokens middle, tokenize wordSupply (asciiBytes "ls") ⟨0, []⟩ = .ok (tokens, middle) ∧
      (parseTokens wordSupply tokens middle).heap = ⟨10, [0, 0]⟩ ∧
      ⟨0x40001000, .word, ⟨0x40001020, asciiBytes "ls"⟩⟩ ∈ tokens := by
  -- The line is cut and parsed once, and the log and the token are read from that run.
  obtain ⟨⟨tokens, middle⟩, lexed, parsed⟩ := @exists_ok Halt _ (tokenize wordSupply (asciiBytes "ls") ⟨0, []⟩)
    (fun result => decide ((parseTokens wordSupply result.1 result.2).heap = ⟨10, [0, 0]⟩ ∧
      ⟨0x40001000, .word, ⟨0x40001020, asciiBytes "ls"⟩⟩ ∈ result.1)) (by decide +kernel)
  obtain ⟨log, member⟩ := of_decide_eq_true parsed
  exact ⟨tokens, middle, lexed, log, member⟩

/-- What the log of the command holds at its end. -/
theorem wordCommand_freed {done : ShellCtx Nat} {last : HeapCalls}
    (ran : shellExecuteCommand (scriptInterpreter fun _ => 0) wordSupply (asciiBytes "ls") ⟨0, 0⟩ ⟨0, []⟩ =
      .ok (done, last)) : last.freed = [0, 0] ++ wordReleased := by
  -- The command is run once, and its result is the only one.
  obtain ⟨⟨ctx, heap⟩, executed, checked⟩ := @exists_ok Halt _
    (shellExecuteCommand (scriptInterpreter fun _ => 0) wordSupply (asciiBytes "ls") ⟨0, 0⟩ ⟨0, []⟩)
    (fun result => decide (result.2.freed = [0, 0] ++ wordReleased)) (by decide +kernel)
  obtain ⟨-, rfl⟩ := Prod.mk.inj (Except.ok.inj (ran.symm.trans executed))
  exact of_decide_eq_true checked

end MiraOS
