import MiraOS.Kernel.BootMap
import MiraOS.Kernel.MiraRemap

/-! The heap of kernel/heap.c and others that take page frames, behind the page tables of arch/x86_64/paging.c. -/

namespace MiraOS

open Machine

/-- The kernel, how much of the heap's window is mapped, and the frames that others hold. -/
structure FrameOwners where
  paging : Paging Pmm
  heapMapped : Nat
  held : List Nat

/-- The kernel after a store. -/
def FrameOwners.withMemory (owners : FrameOwners) (mem : Memory) : FrameOwners :=
  { owners with paging := { owners.paging with mem := mem } }

/-- The kernel with another state of the page allocator. -/
def FrameOwners.withPmm (owners : FrameOwners) (pmm : Pmm) (held : List Nat) : FrameOwners :=
  { owners with paging := { owners.paging with pmm := pmm }, held := held }

/-- What the heap and the others do. -/
inductive OwnerAct where
  -- The heap maps one page more, and stores to its window.
  | grow
  | store (address : Nat) (byte : UInt8)
  -- Others take a frame, store to it at its own address, and give it back.
  | take
  | poke (frame offset : Nat) (byte : UInt8)
  | release (frame : Nat)

/-- An address of the heap's window. -/
def InWindow (heapMapped address : Nat) : Prop :=
  pagingHeapBase ≤ address ∧ address < pagingHeapBase + heapMapped

/-- One act; the heap stores to its window only, and the others to what they hold. -/
inductive OwnerStep (fuel : Nat) : FrameOwners → OwnerAct → FrameOwners → Prop where
  | grow {owners : FrameOwners} {next : Paging Pmm} {grown : Nat}
      (turn : HeapTurn fuel (owners.paging, owners.heapMapped) (next, grown)) :
      OwnerStep fuel owners .grow ⟨next, grown, owners.held⟩
  | store {owners : FrameOwners} {address : Nat} {byte : UInt8} {space : AddressSpace}
      (inside : InWindow owners.heapMapped address)
      (stored : (kernelSpace owners.paging).store address byte = some space) :
      OwnerStep fuel owners (.store address byte) (owners.withMemory space.memory)
  | take {owners : FrameOwners} {page : Nat} {pmm : Pmm}
      (allocated : pmmAllocPage owners.paging.pmm = .ok (page, pmm)) (nonzero : page ≠ 0) :
      OwnerStep fuel owners .take (owners.withPmm pmm (page :: owners.held))
  | poke {owners : FrameOwners} {frame offset : Nat} {byte : UInt8} {space : AddressSpace}
      (holds : frame ∈ owners.held) (inside : offset < 4096)
      (stored : (kernelSpace owners.paging).store (frame + offset) byte = some space) :
      OwnerStep fuel owners (.poke frame offset byte) (owners.withMemory space.memory)
  | release {owners : FrameOwners} {frame : Nat} {pmm : Pmm} (holds : frame ∈ owners.held)
      (freed : pmmFreePage owners.paging.pmm frame = .ok pmm) :
      OwnerStep fuel owners (.release frame) (owners.withPmm pmm (owners.held.erase frame))

/-- The byte that an act stores at an address of the window. -/
def OwnerAct.storesAt (address : Nat) : OwnerAct → Option UInt8
  | .store target byte => if target = address then some byte else none
  | _ => none

/-- The byte that an act stores at a place of a frame. -/
def OwnerAct.pokesAt (frame offset : Nat) : OwnerAct → Option UInt8
  | .poke other place byte => if other = frame ∧ place = offset then some byte else none
  | _ => none

/-- The last byte that some acts write, or the one from before. -/
def lastWritten (writes : OwnerAct → Option UInt8) (acts : List OwnerAct) (byte : UInt8) : UInt8 :=
  acts.foldl (fun byte act => (writes act).getD byte) byte

/--
What holds of the kernel while the heap and others own frames.

The pages of the window are mapped to the frames of the heap, in order, and no frame has two owners. All
frames lie in the first two megabytes, which are mapped at their own addresses.
-/
structure FrameOwners.Holds (owners : FrameOwners) (boot : BootTables) (top : Nat) (tables : Tables)
    (pages : Nat → Option Nat) (frames : List Nat) : Prop where
  kept : KernelFrames boot top ∅ (frames ++ owners.held) owners.paging tables pages
  distinct : (frames ++ owners.held).Nodup
  size : owners.heapMapped = 4096 * frames.length
  window : ∀ i frame, frames[i]? = some frame → pages (262144 + i) = some frame
  low : ∀ n, n < 512 → pages n = some (n * 4096)
  free : ∀ n ∈ managedFree owners.paging.pmm, n < 512
  own : ∀ frame ∈ frames ++ owners.held, frame < 2 ^ 21 ∧ frame ∉ boot.all

section

variable {owners next : FrameOwners} {boot : BootTables} {top : Nat} {tables : Tables} {pages : Nat → Option Nat}
  {frames : List Nat}

/-- Frames that nobody keeps any more are left out. -/
theorem KernelFrames.fewer {taken fewer : List Nat} {paging : Paging Pmm}
    (kept : KernelFrames boot top ∅ taken paging tables pages) (among : ∀ page ∈ fewer, page ∈ taken) :
    KernelFrames boot top ∅ fewer paging tables pages :=
  ⟨kept.reached, kept.covered, fun page member => kept.frames page (among page member), kept.memEnd, kept.small⟩

/-- A page that is mapped has a last table. -/
theorem PagingRep.table_of_page {paging : Paging Pmm} (rep : PagingRep paging tables pages) {virt frame : Nat}
    (mapped : pages (pageNumber virt) = some frame) : ∃ pt, tables (tablePath virt) = some pt := by
  have translated := rep.translates virt
  -- An address that is mapped has a table for its entry.
  cases here : tables (tablePath virt) with
  | none =>
    rw [leafEntry, here, Option.map_none, Option.bind_none, mapped] at translated
    cases translated
  | some pt => exact ⟨pt, rfl⟩

/-- An address of a page that is mapped stands for its place in the frame. -/
theorem kernelSpace_page {paging : Paging Pmm} (rep : PagingRep paging tables pages) {address frame : Nat}
    (mapped : pages (pageNumber address) = some frame) (nonzero : 0 < frame) :
    (kernelSpace paging).translate address = some (frame + address % 4096) := by
  have place : translate pages address = frame + address % 4096 := by rw [translate, mapped]
  rw [kernelSpace_translate rep, place, if_neg (by omega)]

/-- Where a last table exists, no table is missing. -/
theorem PagingRep.nothing_needed {paging : Paging Pmm} (rep : PagingRep paging tables pages) {virt pt : Nat}
    (here : tables (tablePath virt) = some pt) : tablesNeeded paging.mem paging.pml4Root virt = 0 := by
  -- Three parents lead from the page's table back to the root, so no table is missing.
  have third : tables [pml4Index virt, pdptIndex virt, pdIndex virt] = some pt := here
  obtain ⟨-, -, pd, second⟩ := rep.tree.parent (show tables ([_, _] ++ [pdIndex virt]) = some pt from third)
  obtain ⟨-, -, pdpt, first⟩ := rep.tree.parent (show tables ([_] ++ [pdptIndex virt]) = some pd from second)
  rw [rep.tree.tablesNeeded_eq rep.root]
  simp [missingTables, tablePath, first, second, third]

variable (holds : owners.Holds boot top tables pages frames)

include holds

/-- A frame that is owned is a whole page above the first one. -/
theorem FrameOwners.Holds.frame_whole {frame : Nat} (member : frame ∈ frames ++ owners.held) :
    frame % 4096 = 0 ∧ 0x100000 ≤ frame := by
  obtain ⟨whole, above, -⟩ := holds.kept.frames frame member
  exact ⟨whole, above⟩

/-- The window is short, since its frames are different pages of the first two megabytes. -/
theorem FrameOwners.Holds.few : frames.length ≤ 512 := by
  -- The numbers of the pages are different, too.
  have apart : (frames.map (· / 4096)).Nodup := by
    refine List.Nodup.map_on (fun one first two second same => ?_) (List.nodup_append.mp holds.distinct).1
    have wholeOne := (holds.frame_whole (List.mem_append_left _ first)).1
    have wholeTwo := (holds.frame_whole (List.mem_append_left _ second)).1
    omega
  have inside : frames.map (· / 4096) ⊆ List.range 512 := by
    intro n member
    obtain ⟨frame, among, rfl⟩ := List.mem_map.mp member
    have low := (holds.own frame (List.mem_append_left _ among)).1
    exact List.mem_range.mpr (by omega)
  have bound := (List.subperm_of_subset apart inside).length_le
  rwa [List.length_map, List.length_range] at bound

/-- An address of the window stands for its place in the frame of its page. -/
theorem FrameOwners.Holds.translate_window {i offset frame : Nat} (here : frames[i]? = some frame)
    (small : offset < 4096) :
    (kernelSpace owners.paging).translate (pagingHeapBase + 4096 * i + offset) = some (frame + offset) := by
  have inside := (List.getElem?_eq_some_iff.mp here).1
  have few := holds.few
  have above := (holds.frame_whole (List.mem_append_left _ (List.mem_of_getElem? here))).2
  -- The address lies in the page of its index, at its offset.
  have number : pageNumber (pagingHeapBase + 4096 * i + offset) = 262144 + i := by
    rw [pagingHeapBase_eq, pageNumber_of_lt (by omega)]
    omega
  have place : (pagingHeapBase + 4096 * i + offset) % 4096 = offset := by
    rw [pagingHeapBase_eq]
    omega
  rw [kernelSpace_page holds.kept.reached.rep (number ▸ holds.window i frame here) (by omega), place]

/-- A frame that is owned is mapped at its own address. -/
theorem FrameOwners.Holds.translate_own {frame offset : Nat} (member : frame ∈ frames ++ owners.held)
    (small : offset < 4096) : (kernelSpace owners.paging).translate (frame + offset) = some (frame + offset) := by
  obtain ⟨whole, above⟩ := holds.frame_whole member
  have low := (holds.own frame member).1
  -- The page of the frame is mapped at itself, as all low pages are.
  have number : pageNumber (frame + offset) = frame / 4096 := by
    rw [pageNumber_of_lt (by omega)]
    omega
  have mapped := number ▸ holds.low (frame / 4096) (by omega)
  rw [kernelSpace_page holds.kept.reached.rep mapped (by omega)]
  exact congrArg some (by omega)

/-- Two places in owned frames are the same only in the same frame. -/
theorem FrameOwners.Holds.place_inj {one two offset other : Nat} (first : one ∈ frames ++ owners.held)
    (second : two ∈ frames ++ owners.held) (small : offset < 4096) (short : other < 4096)
    (same : one + offset = two + other) : one = two ∧ offset = other := by
  have wholeOne := (holds.frame_whole first).1
  have wholeTwo := (holds.frame_whole second).1
  omega

/-- A page of a free frame is owned by nobody, and has been none of the boot tables. -/
theorem FrameOwners.Holds.taken {page : Nat} {pmm : Pmm}
    (allocated : pmmAllocPage owners.paging.pmm = .ok (page, pmm)) (nonzero : page ≠ 0) :
    page ∉ frames ++ owners.held ∧ (page < 2 ^ 21 ∧ page ∉ boot.all) ∧
      KernelFrames boot top ∅ (page :: (frames ++ owners.held)) { owners.paging with pmm := pmm } tables pages ∧
      managedFree pmm ⊆ managedFree owners.paging.pmm := by
  -- The page that was handed out is a free one, and free pages are low.
  obtain ⟨new, -, kept, among, -, fewer⟩ := holds.kept.alloc allocated (Finset.empty_subset _) nonzero
  obtain ⟨whole, above, -⟩ := kept.frames page List.mem_cons_self
  have low := holds.free _ among
  have notBoot := (holds.kept.covered_all _ among).1
  simp only [pageSize] at low notBoot
  rw [show page / 4096 * 4096 = page by omega] at notBoot
  exact ⟨new, ⟨by omega, notBoot⟩, kept, fewer⟩

omit holds

/-- What an act does to the bytes of the frames that are owned before it. -/
structure FrameOwners.Follows (owners : FrameOwners) (act : OwnerAct) (next : FrameOwners)
    (frames grown : List Nat) : Prop where
  more : ∀ (i frame : Nat), frames[i]? = some frame → grown[i]? = some frame
  window : ∀ (i frame : Nat), frames[i]? = some frame → ∀ offset, offset < 4096 → next.paging.mem (frame + offset) =
    (act.storesAt (pagingHeapBase + 4096 * i + offset)).getD (owners.paging.mem (frame + offset))
  held : ∀ frame ∈ owners.held, act ≠ .release frame → frame ∈ next.held ∧ ∀ offset, offset < 4096 →
    next.paging.mem (frame + offset) = (act.pokesAt frame offset).getD (owners.paging.mem (frame + offset))

/-- The heap maps one page more: no byte of a frame changes. -/
theorem FrameOwners.Holds.grow (holds : owners.Holds boot top tables pages frames) {fuel grown : Nat}
    {paging : Paging Pmm} (turn : HeapTurn fuel (owners.paging, owners.heapMapped) (paging, grown)) :
    ∃ tables pages more, FrameOwners.Holds ⟨paging, grown, owners.held⟩ boot top tables pages more ∧
      owners.Follows .grow ⟨paging, grown, owners.held⟩ frames more := by
  have few := holds.few
  have size := holds.size
  cases turn with
  | @page _ _ pmm _ phys result allocated nonzero called =>
    obtain ⟨new, own, taken, fewer⟩ := holds.taken allocated nonzero
    have whole := (taken.frames phys List.mem_cons_self).1
    obtain ⟨last, table, made, grows, sameFree, after, memory⟩ := taken.mapped (by omega) (by omega) called (Finset.empty_subset _)
    have less : managedFree paging.pmm ⊆ managedFree owners.paging.pmm := (sameFree ▸ grows.free).trans fewer
    have number : pageNumber (pagingHeapBase + owners.heapMapped) = 262144 + frames.length := by
      rw [pagingHeapBase_eq, pageNumber_of_lt (by omega)]
      omega
    -- Only free pages are mapped for the tables, and the window is above them.
    have stays : ∀ n, n ∉ managedFree owners.paging.pmm → made n = pages n := by
      intro n apart
      rcases grows.pages n with same | ⟨free, -⟩
      · exact same
      · exact absurd (fewer free) apart
    have among : ∀ {frame}, frame ∈ frames ++ [phys] ++ owners.held ↔ frame = phys ∨ frame ∈ frames ++ owners.held := by
      intro frame
      simp only [List.mem_append, List.mem_cons, List.not_mem_nil, or_false]
      tauto
    refine ⟨table, _, frames ++ [phys], ⟨after.fewer fun frame member => List.mem_cons.mpr (among.mp member), ?_, ?_,
      fun i frame here => ?_, fun n below => ?_, fun n still => holds.free n (less still), fun frame member => ?_⟩,
      fun i frame here => ?_, fun i frame here offset small => ?_,
      fun frame member _ => ⟨member, fun offset small => ?_⟩⟩
    · -- The new frame was not owned before.
      rw [List.append_assoc, List.singleton_append, List.perm_middle.nodup_iff, List.nodup_cons]
      exact ⟨new, holds.distinct⟩
    · show owners.heapMapped + 4096 = _
      rw [List.length_append, List.length_singleton]
      omega
    · -- The page of the window is an old one or the one that was mapped now.
      rw [number]
      rcases Nat.lt_or_ge i frames.length with inside | past
      · rw [List.getElem?_append_left inside] at here
        have high : 262144 + i ∉ managedFree owners.paging.pmm := fun free => by
          have low := holds.free _ free
          omega
        rw [Function.update_of_ne (by omega), stays _ high]
        exact holds.window i frame here
      · obtain rfl : i = frames.length := by
          have inside := (List.getElem?_eq_some_iff.mp here).1
          rw [List.length_append, List.length_singleton] at inside
          omega
        rw [List.getElem?_concat_length] at here
        obtain rfl := Option.some.inj here
        rw [Function.update_self]
        exact congrArg some (by omega)
    · -- The boot pages keep their own addresses.
      rw [number, Function.update_of_ne (by omega)]
      rcases grows.pages n with same | ⟨-, self⟩
      · rw [same]
        exact holds.low n below
      · exact self
    · rcases among.mp member with rfl | before
      · exact own
      · exact holds.own frame before
    · rw [List.getElem?_append_left (List.getElem?_eq_some_iff.mp here).1]
      exact here
    · exact memory frame (List.mem_cons_of_mem _ (List.mem_append_left _ (List.mem_of_getElem? here))) offset small
    · exact memory frame (List.mem_cons_of_mem _ (List.mem_append_right _ member)) offset small

/-- Others take a frame. -/
theorem FrameOwners.Holds.take (holds : owners.Holds boot top tables pages frames) {page : Nat} {pmm : Pmm}
    (allocated : pmmAllocPage owners.paging.pmm = .ok (page, pmm)) (nonzero : page ≠ 0) :
    (owners.withPmm pmm (page :: owners.held)).Holds boot top tables pages frames := by
  obtain ⟨new, own, taken, fewer⟩ := holds.taken allocated nonzero
  -- The frames are those before and the new one.
  have among : ∀ {frame}, frame ∈ frames ++ page :: owners.held ↔ frame = page ∨ frame ∈ frames ++ owners.held := by
    intro frame
    rw [List.perm_middle.mem_iff, List.mem_cons]
  refine ⟨taken.fewer fun frame member => List.mem_cons.mpr (among.mp member), ?_, holds.size, holds.window, holds.low,
    fun n still => holds.free n (fewer still), fun frame member => ?_⟩
  · exact (List.perm_middle.nodup_iff).mpr (List.nodup_cons.mpr ⟨new, holds.distinct⟩)
  · -- The new page is low and no boot table, as the free ones were.
    rcases among.mp member with rfl | before
    · exact own
    · exact holds.own frame before

/-- A byte of a frame that is owned may change. -/
theorem FrameOwners.Holds.poke (holds : owners.Holds boot top tables pages frames) {frame offset : Nat}
    (member : frame ∈ frames ++ owners.held) (small : offset < 4096) (byte : UInt8) :
    (owners.withMemory (Function.update owners.paging.mem (frame + offset) byte)).Holds boot top tables pages
      frames :=
  ⟨holds.kept.poke member small byte, holds.distinct, holds.size, holds.window, holds.low, holds.free, holds.own⟩

/-- A page that is given back is free again, and the others are as before. -/
theorem BootedPmm.giveBack {pmm : Pmm} (booted : BootedPmm pmm) {page : Nat} (within : page < maxPhysPages) :
    BootedPmm (pmm.giveBack page) ∧
      ∀ n ∈ managedFree (pmm.giveBack page), n = page ∨ n ∈ managedFree pmm := by
  -- A bit that is clear now is that of the page, or it was clear before.
  have flags : ∀ n, (pmm.giveBack page).pageBitmap.test n = false → n = page ∨ pmm.pageBitmap.test n = false := by
    intro n clear
    simp only [Pmm.giveBack, Bitmap.test_clear, Bool.and_eq_false_iff, Bool.not_eq_false', decide_eq_true_eq] at clear
    exact clear
  have kept : BootedPmm (pmm.giveBack page) := by
    refine ⟨booted.start, fun n clear => ?_⟩
    rcases flags n clear with rfl | before
    · exact within
    · exact booted.within n before
  refine ⟨kept, fun n free => ?_⟩
  obtain ⟨low, high, clear⟩ := kept.mem_managedFree.mp free
  exact (flags n clear).imp_right fun before => booted.mem_managedFree.mpr ⟨low, high, before⟩

/-- Others give a frame back. -/
theorem FrameOwners.Holds.release (holds : owners.Holds boot top tables pages frames) {frame : Nat} {pmm : Pmm}
    (member : frame ∈ owners.held) (freed : pmmFreePage owners.paging.pmm frame = .ok pmm) :
    (owners.withPmm pmm (owners.held.erase frame)).Holds boot top tables pages frames := by
  have owned : frame ∈ frames ++ owners.held := List.mem_append_right _ member
  obtain ⟨whole, above, below, used, fresh⟩ := holds.kept.frames frame owned
  obtain ⟨low, notBoot⟩ := holds.own frame owned
  have self : frame / 4096 * pageSize = frame := by
    simp only [pageSize]
    omega
  have within : frame / 4096 < maxPhysPages := by
    simp only [maxPhysPages]
    omega
  -- The flag of the page is cleared, and no other one.
  have result : pmm = owners.paging.pmm.giveBack (frame / 4096) := by
    have gave := pmmFreePage_used within used
    rw [self, freed] at gave
    exact Except.ok.inj gave
  obtain ⟨booted, free⟩ := holds.kept.reached.booted.giveBack within
  have marked : ∀ {other}, other % 4096 = 0 → other ≠ frame →
      owners.paging.pmm.pageBitmap.test (other / pageSize) = true → pmm.pageBitmap.test (other / pageSize) = true := by
    intro other wholeOther apart before
    have differ : other / pageSize ≠ frame / 4096 := by
      simp only [pageSize]
      omega
    simp only [result, Pmm.giveBack, Bitmap.test_clear, before, differ, decide_false, Bool.not_false, Bool.and_self]
  -- The frames that are left are the old ones without the released one.
  have among : ∀ {other}, other ∈ frames ++ owners.held.erase frame → other ∈ frames ++ owners.held := fun inside =>
    (List.mem_append.mp inside).elim (List.mem_append_left _) fun rest =>
      List.mem_append_right _ (List.mem_of_mem_erase rest)
  obtain ⟨apart, single, between⟩ := List.nodup_append.mp holds.distinct
  have distinct : (frames ++ owners.held.erase frame).Nodup :=
    List.nodup_append.mpr ⟨apart, single.erase _, fun one first two second => between one first two
      (List.mem_of_mem_erase second)⟩
  have other : ∀ {page}, page ∈ frames ++ owners.held.erase frame → page ≠ frame := by
    rintro page inside rfl
    rcases List.mem_append.mp inside with first | second
    · exact between page first page member rfl
    · exact (single.mem_erase_iff.mp second).1 rfl
  -- The tables are not touched, so the kernel's frames are kept without the one given back.
  have rep := holds.kept.reached.rep
  refine ⟨⟨⟨rep.withPmm _, result ▸ booted, fun here => ?_⟩, fun n still => ?_, fun page inside => ?_,
    result ▸ holds.kept.memEnd, holds.kept.small⟩, distinct, holds.size, holds.window, holds.low, fun n still => ?_,
    fun page inside => holds.own page (among inside)⟩
  · -- The frame is no table.
    refine (holds.kept.reached.marked here).imp_right (marked (rep.tree.aligned here).1 fun same => ?_)
    exact fresh _ (same ▸ here)
  · intro _
    rcases free n (result ▸ still) with rfl | before
    · have mapped : pages (pageNumber frame) = some (frame / 4096 * 4096) := by
        rw [pageNumber_of_lt (by omega)]
        exact holds.low _ (by omega)
      rw [self]
      exact ⟨notBoot, rep.table_of_page mapped⟩
    · exact holds.kept.covered_all n before
  · obtain ⟨aligned, high, ends, set, apart⟩ := holds.kept.frames page (among inside)
    exact ⟨aligned, high, ends, marked aligned (other inside) set, apart⟩
  · rcases free n (result ▸ still) with rfl | before
    · omega
    · exact holds.free n before

/-- The place of an address of the window, with the page it lies in. -/
theorem FrameOwners.Holds.window_place (holds : owners.Holds boot top tables pages frames) {address : Nat}
    (inside : InWindow owners.heapMapped address) : ∃ i frame offset, frames[i]? = some frame ∧ offset < 4096 ∧
      address = pagingHeapBase + 4096 * i + offset := by
  -- An address of the window lies in the page its offset divided by 4096 counts to.
  obtain ⟨low, high⟩ := inside
  have size := holds.size
  have among : (address - pagingHeapBase) / 4096 < frames.length := by omega
  exact ⟨_, _, (address - pagingHeapBase) % 4096, List.getElem?_eq_getElem among, by omega, by omega⟩

/-- A store changes the byte that an address stands for. -/
theorem memory_of_store {paging : Paging Pmm} {address place : Nat} {byte : UInt8} {space : AddressSpace}
    (mapped : (kernelSpace paging).translate address = some place)
    (stored : (kernelSpace paging).store address byte = some space) :
    space.memory = Function.update paging.mem place byte := by
  rw [AddressSpace.store, mapped, Option.map_some] at stored
  rw [← Option.some.inj stored]
  rfl

/-- A store in the window is seen there, and nowhere else. -/
theorem FrameOwners.Holds.store_follows (holds : owners.Holds boot top tables pages frames) {i frame offset : Nat}
    (here : frames[i]? = some frame) (small : offset < 4096) (byte : UInt8) :
    owners.Follows (.store (pagingHeapBase + 4096 * i + offset) byte)
      (owners.withMemory (Function.update owners.paging.mem (frame + offset) byte)) frames frames := by
  have member := List.mem_of_getElem? here
  obtain ⟨single, -, between⟩ := List.nodup_append.mp holds.distinct
  refine ⟨fun _ _ found => found, fun j other there place short => ?_,
    fun other inside _ => ⟨inside, fun place short => ?_⟩⟩
  · show Function.update _ _ _ _ = _
    rw [OwnerAct.storesAt, Function.update_apply]
    -- The same place of memory is the same address of the window.
    by_cases same : other + place = frame + offset
    · obtain ⟨rfl, rfl⟩ := holds.place_inj (List.mem_append_left _ (List.mem_of_getElem? there))
        (List.mem_append_left _ member) short small same
      obtain ⟨inside, rfl⟩ := List.getElem?_eq_some_iff.mp here
      obtain ⟨among, equal⟩ := List.getElem?_eq_some_iff.mp there
      obtain rfl : j = i := (single.getElem_inj_iff).mp equal
      rw [if_pos rfl, if_pos rfl]
      rfl
    · rw [if_neg same, if_neg, Option.getD_none]
      intro equal
      obtain rfl : i = j := by omega
      obtain rfl : frame = other := Option.some.inj (here.symm.trans there)
      omega
  · show Function.update _ _ _ _ = _
    rw [Function.update_apply, if_neg]
    · rfl
    · intro same
      obtain ⟨rfl, -⟩ := holds.place_inj (List.mem_append_right _ inside) (List.mem_append_left _ member) short
        small same
      exact between _ member _ inside rfl

/-- A store of others is seen in their frame, and nowhere else. -/
theorem FrameOwners.Holds.poke_follows (holds : owners.Holds boot top tables pages frames) {frame offset : Nat}
    (member : frame ∈ owners.held) (small : offset < 4096) (byte : UInt8) :
    owners.Follows (.poke frame offset byte)
      (owners.withMemory (Function.update owners.paging.mem (frame + offset) byte)) frames frames := by
  obtain ⟨-, -, between⟩ := List.nodup_append.mp holds.distinct
  refine ⟨fun _ _ found => found, fun j other there place short => ?_,
    fun other inside _ => ⟨inside, fun place short => ?_⟩⟩
  · -- A byte of the window lies in another frame than the one that is poked.
    have among := List.mem_of_getElem? there
    show Function.update _ _ _ _ = _
    rw [Function.update_apply, if_neg]
    · rfl
    · intro same
      obtain ⟨rfl, -⟩ := holds.place_inj (List.mem_append_left _ among) (List.mem_append_right _ member) short
        small same
      exact between _ among _ member rfl
  · show Function.update _ _ _ _ = _
    rw [OwnerAct.pokesAt, Function.update_apply]
    -- Two places in frames are the same only with the same frame and offset.
    by_cases same : other + place = frame + offset
    · obtain ⟨rfl, rfl⟩ := holds.place_inj (List.mem_append_right _ inside) (List.mem_append_right _ member) short
        small same
      rw [if_pos rfl, if_pos ⟨rfl, rfl⟩]
      rfl
    · rw [if_neg same, if_neg, Option.getD_none]
      rintro ⟨rfl, rfl⟩
      exact same rfl

/-- Every act keeps what holds, and does to the bytes what it says. -/
theorem FrameOwners.Holds.step (holds : owners.Holds boot top tables pages frames) {fuel : Nat} {act : OwnerAct}
    (step : OwnerStep fuel owners act next) :
    ∃ tables pages grown, next.Holds boot top tables pages grown ∧ owners.Follows act next frames grown := by
  cases step with
  | grow turn => exact holds.grow turn
  | store inside stored =>
    obtain ⟨i, frame, offset, here, small, rfl⟩ := holds.window_place inside
    rw [memory_of_store (holds.translate_window here small) stored]
    exact ⟨_, _, _, holds.poke (List.mem_append_left _ (List.mem_of_getElem? here)) small _,
      holds.store_follows here small _⟩
  | take allocated nonzero =>
    exact ⟨_, _, _, holds.take allocated nonzero, fun _ _ found => found, fun _ _ _ _ _ => rfl,
      fun _ member _ => ⟨List.mem_cons_of_mem _ member, fun _ _ => rfl⟩⟩
  | poke member inside stored =>
    have owned := List.mem_append_right frames member
    rw [memory_of_store (holds.translate_own owned inside) stored]
    exact ⟨_, _, _, holds.poke owned inside _, holds.poke_follows member inside _⟩
  | release member freed =>
    refine ⟨_, _, _, holds.release member freed, fun _ _ found => found, fun _ _ _ _ _ => rfl,
      fun other inside kept => ⟨?_, fun _ _ => rfl⟩⟩
    -- Another frame than the one given back is still held.
    exact (List.mem_erase_of_ne fun same => kept (congrArg OwnerAct.release same.symm)).mpr inside

/-- With four free frames the heap can grow: three are enough for tables. -/
theorem FrameOwners.Holds.can_grow (holds : owners.Holds boot top tables pages frames)
    (four : 4 ≤ (managedFree owners.paging.pmm).card) (fuel : Nat) :
    ∃ next, OwnerStep (fuel + 2) owners .grow next := by
  obtain ⟨free, among⟩ := Finset.card_pos.mp (show 0 < (managedFree owners.paging.pmm).card by omega)
  have booted := holds.kept.reached.booted
  obtain ⟨found, member, -, -, allocated⟩ :=
    pmmAllocPage_free among (booted.within _ (booted.mem_managedFree.mp among).2.2)
  have above := (booted.mem_managedFree.mp member).1
  have nonzero : found * pageSize ≠ 0 := by
    simp only [pageSize]
    omega
  obtain ⟨-, own, taken, -⟩ := holds.taken allocated nonzero
  have left : (managedFree (owners.paging.pmm.take found)).card + 1 = (managedFree owners.paging.pmm).card := by
    rw [booted.managedFree_take found, Finset.card_erase_of_mem member]
    omega
  -- Each free frame lies where a table covers it.
  have covered : CoveredFrames boot { owners.paging with pmm := owners.paging.pmm.take found }
      (pagingHeapBase + owners.heapMapped) := by
    intro frames last handed frame inside
    have needed := tablesNeeded_le owners.paging.mem owners.paging.pml4Root (pagingHeapBase + owners.heapMapped)
    obtain ⟨same, _, again, _, _, _, fromFree, _⟩ := taken.reached.booted.supplies
      (tablesNeeded owners.paging.mem owners.paging.pml4Root (pagingHeapBase + owners.heapMapped))
      (show _ ≤ (managedFree (owners.paging.pmm.take found)).card by omega)
    obtain rfl : same = frames := congrArg Prod.fst (Except.ok.inj (again.symm.trans handed))
    obtain ⟨page, unused, rfl⟩ := fromFree frame inside
    obtain ⟨notBoot, pt, here⟩ := taken.covered_all page unused
    exact ⟨notBoot, taken.reached.rep.nothing_needed here⟩
  have needed := tablesNeeded_le owners.paging.mem owners.paging.pml4Root (pagingHeapBase + owners.heapMapped)
  obtain ⟨next, called, -⟩ := taken.reached.map fuel (show found * pageSize < 2 ^ 64 by omega)
    (show 0 < 2 ^ 64 by decide) covered
    (Nat.le_trans needed (show 3 ≤ (managedFree (owners.paging.pmm.take found)).card by omega))
  exact ⟨_, .grow (.page allocated nonzero called)⟩

/-- The heap can store to its window. -/
theorem FrameOwners.Holds.can_store (holds : owners.Holds boot top tables pages frames) {address : Nat}
    (inside : InWindow owners.heapMapped address) (byte : UInt8) (fuel : Nat) :
    ∃ next, OwnerStep fuel owners (.store address byte) next := by
  -- A window address is translated to one of the heap's own frames.
  obtain ⟨i, frame, offset, here, short, rfl⟩ := holds.window_place inside
  exact ⟨_, .store inside (by rw [AddressSpace.store, holds.translate_window here short]; rfl)⟩

/-- Others can store to what they hold. -/
theorem FrameOwners.Holds.can_poke (holds : owners.Holds boot top tables pages frames) {frame offset : Nat}
    (member : frame ∈ owners.held) (short : offset < 4096) (byte : UInt8) (fuel : Nat) :
    ∃ next, OwnerStep fuel owners (.poke frame offset byte) next := by
  have mapped := holds.translate_own (List.mem_append_right _ member) short
  exact ⟨_, .poke member short (by rw [AddressSpace.store, mapped]; rfl)⟩

/-- Over a run every byte of an owned frame is the one its owner wrote last. -/
theorem FrameOwners.Holds.run (holds : owners.Holds boot top tables pages frames) {fuel : Nat}
    {acts : List OwnerAct} (run : Run (OwnerStep fuel) owners acts next) :
    ∃ tables pages grown, next.Holds boot top tables pages grown ∧
      (∀ (i frame : Nat), frames[i]? = some frame → grown[i]? = some frame ∧ ∀ offset, offset < 4096 →
        next.paging.mem (frame + offset) = lastWritten
          (OwnerAct.storesAt (pagingHeapBase + 4096 * i + offset)) acts (owners.paging.mem (frame + offset))) ∧
      ∀ frame ∈ owners.held, .release frame ∉ acts → frame ∈ next.held ∧ ∀ offset, offset < 4096 →
        next.paging.mem (frame + offset) =
          lastWritten (OwnerAct.pokesAt frame offset) acts (owners.paging.mem (frame + offset)) := by
  -- Induction on the run: the first act moves the bytes as it says, and the rest those after it.
  induction run generalizing tables pages frames with
  | nil => exact ⟨_, _, _, holds, fun _ _ found => ⟨found, fun _ _ => rfl⟩, fun _ member _ => ⟨member, fun _ _ => rfl⟩⟩
  | cons head _ ih =>
    obtain ⟨_, _, between, kept, follows⟩ := holds.step head
    obtain ⟨_, _, grown, last, window, held⟩ := ih kept
    refine ⟨_, _, grown, last, fun i frame here => ?_, fun frame member keeps => ?_⟩
    · obtain ⟨still, bytes⟩ := window i frame (follows.more i frame here)
      refine ⟨still, fun offset small => ?_⟩
      rw [bytes offset small, follows.window i frame here offset small]
      rfl
    · -- A frame that the first act does not release is still held by its owner.
      obtain ⟨still, byte⟩ := follows.held frame member fun same => keeps (same ▸ List.mem_cons_self)
      obtain ⟨ends, bytes⟩ := held frame still fun later => keeps (List.mem_cons_of_mem _ later)
      refine ⟨ends, fun offset small => ?_⟩
      rw [bytes offset small, byte offset small]
      rfl

end

/-- After boot nobody owns a frame. -/
theorem frameOwners_boot {boot : BootTables} {mem : Memory} {pmm : Pmm} (cleared : ClearedBss mem boot)
    (booted : BootedPmm pmm) (small : pmm.memEnd / pageSize ≤ 2 ^ 36)
    (low : ∀ page ∈ managedFree pmm, page < 512 ∧ page * pageSize ∉ boot.all) :
    FrameOwners.Holds ⟨pagingInit boot mem pmm, 0, []⟩ boot (pmm.memEnd / pageSize) (bootTree boot) bootPages [] where
  -- At boot nobody holds a frame, and the window is empty.
  kept := (kernelHolds_boot cleared booted small low).toFrames
  distinct := List.nodup_nil
  size := rfl
  window := nofun
  low _ below := if_pos below
  free page free := (low page free).1
  own := nofun

/--
The window of the heap and the frames that others hold are memory of their own.

From boot on, whatever the heap and the others do, each address of the window is mapped, and reads as the byte
that the heap stored there last; and each place of a frame that someone goes on holding reads as the byte that
its holder stored there last. The heap grows while four frames are free. At boot the free frames lie in the first
two megabytes, outside the boot tables.
-/
theorem owners_keep_bytes {bootFuel mbi bitmapAddr fuel : Nat} {info mem : Memory} {pmm : Pmm} {boot : BootTables}
    {before after : List OwnerAct} {middle last : FrameOwners}
    (booted : pmmInit bootFuel info mbi bitmapAddr = .ok pmm) (cleared : ClearedBss mem boot)
    (small : pmm.memEnd / pageSize ≤ 2 ^ 36)
    (low : ∀ page ∈ managedFree pmm, page < 512 ∧ page * pageSize ∉ boot.all)
    (first : Run (OwnerStep (fuel + 2)) ⟨pagingInit boot mem pmm, 0, []⟩ before middle)
    (second : Run (OwnerStep (fuel + 2)) middle after last) :
    (∀ address, InWindow middle.heapMapped address → ∃ byte,
      (kernelSpace middle.paging).read address = some byte ∧
      (kernelSpace last.paging).read address = some (lastWritten (OwnerAct.storesAt address) after byte)) ∧
    (∀ frame ∈ middle.held, .release frame ∉ after → ∀ offset, offset < 4096 → ∃ byte,
      (kernelSpace middle.paging).read (frame + offset) = some byte ∧
      (kernelSpace last.paging).read (frame + offset) =
        some (lastWritten (OwnerAct.pokesAt frame offset) after byte)) ∧
    (4 ≤ (managedFree last.paging.pmm).card → ∃ next, OwnerStep (fuel + 2) last .grow next) := by
  -- What boot left holds in the middle, and from there on to the end.
  obtain ⟨_, _, frames, holds, -⟩ := (frameOwners_boot cleared (bootedPmm_init booted) small low).run first
  obtain ⟨_, _, grown, ends, window, held⟩ := holds.run second
  refine ⟨?_, ?_, fun four => ends.can_grow four fuel⟩
  · -- An address of the window is a place in its frame, which both states read it from.
    intro address inside
    obtain ⟨i, frame, offset, here, short, rfl⟩ := holds.window_place inside
    obtain ⟨there, bytes⟩ := window i frame here
    refine ⟨middle.paging.mem (frame + offset), ?_, ?_⟩
    · rw [AddressSpace.read, holds.translate_window here short]
      rfl
    · rw [AddressSpace.read, ends.translate_window there short, ← bytes offset short]
      rfl
  · -- A frame that is held is mapped at itself in both.
    intro frame member keeps offset short
    obtain ⟨still, bytes⟩ := held frame member keeps
    refine ⟨middle.paging.mem (frame + offset), ?_, ?_⟩
    · rw [AddressSpace.read, holds.translate_own (List.mem_append_right _ member) short]
      rfl
    · rw [AddressSpace.read, ends.translate_own (List.mem_append_right _ still) short, ← bytes offset short]
      rfl

/-- The heap and a process next to it: each finds its own byte again. -/
theorem two_owners_keep_bytes : ∃ pmm page middle last,
    pmmInit 2 smallInfo 0x9000 smallImage.bitmapAddr = .ok pmm ∧
    Run (OwnerStep 2) ⟨pagingInit smallBootTables (fun _ => 0) pmm, 0, []⟩ [.take, .grow] middle ∧
    Run (OwnerStep 2) middle [.store pagingHeapBase 7, .poke page 5 9] last ∧
    (kernelSpace last.paging).read pagingHeapBase = some 7 ∧
    (kernelSpace last.paging).read (page + 5) = some 9 := by
  obtain ⟨pmm, booted⟩ := smallInfo_boots
  have freePages := smallInfo_free booted
  have low : ∀ page ∈ managedFree pmm, page < 512 ∧ page * pageSize ∉ smallBootTables.all := by
    rw [freePages]
    decide
  have enough : (managedFree pmm).card = 12 := by rw [freePages]; decide
  have start := bootedPmm_init booted
  have small : pmm.memEnd / pageSize ≤ 2 ^ 36 := by
    refine (pmmInit_memEnd booted smallInfo_entries).mpr fun entry among _ => ?_
    rw [List.mem_singleton.mp among]
    decide
  -- The process takes a frame, and there are eleven left for the heap.
  obtain ⟨free, among⟩ := Finset.card_pos.mp (show 0 < (managedFree pmm).card by omega)
  obtain ⟨found, member, -, -, allocated⟩ :=
    pmmAllocPage_free among (start.within _ (start.mem_managedFree.mp among).2.2)
  have nonzero : found * pageSize ≠ 0 := by
    have above := (start.mem_managedFree.mp member).1
    simp only [pageSize]
    omega
  have left : (managedFree (pmm.take found)).card = 11 := by
    rw [start.managedFree_take found, Finset.card_erase_of_mem member]
    omega
  -- The heap grows by one page, which takes at most four of the frames that are left.
  have holds := (frameOwners_boot cleared_zero start small low).take allocated nonzero
  obtain ⟨middle, grows⟩ := holds.can_grow (show 4 ≤ (managedFree (pmm.take found)).card by omega) 0
  have first : Run (OwnerStep 2) ⟨pagingInit smallBootTables (fun _ => 0) pmm, 0, []⟩ [.take, .grow] middle :=
    .cons (.take allocated nonzero) (.cons grows (.nil _))
  obtain ⟨_, _, frames, kept, follows⟩ := holds.step grows
  have held := (follows.held (found * pageSize) List.mem_cons_self (by simp)).1
  have mapped : middle.heapMapped = 4096 := by
    cases grows with
    | grow turn =>
      cases turn
      rfl
  have inside : InWindow middle.heapMapped pagingHeapBase := ⟨Nat.le_refl _, by omega⟩
  obtain ⟨next, stores⟩ := kept.can_store inside 7 2
  -- Both owners write a byte, and each of them reads its own.
  obtain ⟨_, _, _, after, unchanged⟩ := kept.step stores
  obtain ⟨last, pokes⟩ := after.can_poke (unchanged.held _ held (by simp)).1 (show 5 < 4096 by decide) 9 2
  have second : Run (OwnerStep 2) middle [.store pagingHeapBase 7, .poke (found * pageSize) 5 9] last :=
    .cons stores (.cons pokes (.nil _))
  obtain ⟨window, own, -⟩ := @owners_keep_bytes _ _ _ 0 _ _ _ _ _ _ _ _ booted cleared_zero small low first second
  obtain ⟨_, -, seven⟩ := window pagingHeapBase inside
  obtain ⟨_, -, nine⟩ := own _ held (by simp) 5 (by decide)
  refine ⟨pmm, found * pageSize, middle, last, booted, first, second, ?_, ?_⟩
  · rw [seven]
    rfl
  · rw [nine]
    simp [lastWritten, OwnerAct.pokesAt]

end MiraOS
