import MiraOS.Kernel.MiraTrace

/-! Which pages of the kernel a container that was loaded remaps. -/

namespace MiraOS

open Machine

/-- An address of the kernel: of the first two megabytes, or of its heap. -/
def KernelAddress (heapMapped virt : Nat) : Prop :=
  virt < 0x200000 ∨ (pagingHeapBase ≤ virt ∧ virt < pagingHeapBase + heapMapped)

/-- A section of a container has a page at a number; its address is found in 64-bit arithmetic. -/
def MapsPage (file : List UInt8) (n : Nat) : Prop :=
  ∃ i sd t, i < (headerOf file).sectCount ∧ readSectDesc file (headerOf file).sectTableOff i = .ok sd ∧
    4096 * t < sd.memsz ∧ n = pageNumber (add64 sd.vaddr (4096 * t))

/--
What holds of the kernel before something is loaded.

The first two megabytes are mapped at their own addresses. Each page of the heap has cost a frame. Of the free
frames only those count that are not spare: they are none of the boot tables, lie where a last-level table
exists, and are mapped nowhere else than at their own addresses.
-/
structure KernelReady (boot : BootTables) (top : Nat) (spare : Finset Nat) (paging : Paging Pmm)
    (heapMapped : Nat) : Prop where
  pages : ∃ tables pages, KernelFrames boot top spare [] paging tables pages ∧
    (∀ n, n < 512 → pages n = some (n * 4096)) ∧
    ∀ n ∈ managedFree paging.pmm, n ∉ spare → pages n = none ∨ pages n = some (n * 4096)
  heap : heapMapped + 4096 * (managedFree paging.pmm).card ≤ 4096 * maxPhysPages

/--
What holds while sections are loaded, next to the free frames and the pages at the start.

Some pages have been mapped so far; the frames for them were free at the start.
-/
structure Loading (boot : BootTables) (top : Nat) (spare free : Finset Nat) (start : Nat → Option Nat)
    (taken : List Nat) (done : Nat → Prop) (paging : Paging Pmm) (tables : Tables)
    (pages : Nat → Option Nat) : Prop where
  kept : KernelFrames boot top spare taken paging tables pages
  fewer : managedFree paging.pmm ⊆ free
  fromFree : ∀ page ∈ taken, page / 4096 ∈ free ∧ page / 4096 ∉ spare
  -- A store to a frame ends up there, or in another frame that was taken.
  lands : ∀ n ∈ free, n ∉ spare →
    pages n = none ∨ pages n = some (n * 4096) ∨ ∃ page ∈ taken, pages n = some page
  -- A frame that became a table was mapped at its own address.
  same : ∀ n, ¬ done n → pages n = start n ∨ (n ∈ free ∧ pages n = some (n * 4096))
  mapped : ∀ n, done n → ∃ frame ∈ free, pages n = some (frame * 4096)

section

variable {boot : BootTables} {top : Nat} {spare free : Finset Nat} {start : Nat → Option Nat} {taken : List Nat}
  {done : Nat → Prop} {paging next : Paging Pmm} {tables : Tables} {pages : Nat → Option Nat}

/-- Before the first section no page has been mapped. -/
theorem KernelReady.loading {heapMapped : Nat} (ready : KernelReady boot top spare paging heapMapped) :
    ∃ tables pages, (∀ n, n < 512 → pages n = some (n * 4096)) ∧
      Loading boot top spare (managedFree paging.pmm) pages [] (fun _ => False) paging tables pages := by
  obtain ⟨tables, pages, kept, low, own⟩ := ready.pages
  -- No frame is taken yet, so a store to a free frame can only end up at its own address.
  refine ⟨tables, pages, low, kept, Finset.Subset.refl _, ?_, fun n free => ?_, fun _ _ => .inl rfl, ?_⟩
  · intro page none
    cases none
  · exact fun among => (own n free among).imp_right .inl
  · intro n none
    cases none

/-- The page allocator is one after boot. -/
theorem Loading.booted (loading : Loading boot top spare free start taken done paging tables pages) :
    BootedPmm paging.pmm := loading.kept.reached.booted

/-- Over a run of calls the page allocator stays one after boot, and has no more frames than before. -/
theorem BootedPmm.runs {tableFuel : Nat} (booted : BootedPmm paging.pmm)
    (run : PlatformRuns (kernelPlatform tableFuel) paging next) :
    BootedPmm next.pmm ∧ managedFree next.pmm ⊆ managedFree paging.pmm :=
  booted.allocations (allocations_runs run)

/-- Other words for the pages that have been mapped. -/
theorem Loading.congr {others : Nat → Prop} (loading : Loading boot top spare free start taken done paging tables pages)
    (same : ∀ n, others n ↔ done n) : Loading boot top spare free start taken others paging tables pages where
  -- Both say the same of every page.
  kept := loading.kept
  fewer := loading.fewer
  fromFree := loading.fromFree
  lands := loading.lands
  same := fun n notYet => loading.same n (fun already => notYet ((same n).mpr already))
  mapped := fun n already => loading.mapped n ((same n).mp already)

/-- A frame is taken. -/
theorem Loading.alloc (loading : Loading boot top spare free start taken done paging tables pages) {page tableFuel : Nat}
    (allocated : (kernelPlatform tableFuel).pmmAllocPage paging = .ok (page, next))
    (left : spare ⊆ managedFree next.pmm) (nonzero : page ≠ 0) :
    Loading boot top spare free start (page :: taken) done next tables pages := by
  obtain ⟨⟨frame, pmm⟩, taking, result⟩ := bind_eq_ok.mp allocated
  cases result
  -- Taking a frame changes no table, so every page is where it was.
  obtain ⟨-, -, kept, found, notSpare, fewer⟩ := loading.kept.alloc taking left nonzero
  refine ⟨kept, fewer.trans loading.fewer, fun other member => ?_, fun n among taken => ?_, loading.same,
    loading.mapped⟩
  · rcases List.mem_cons.mp member with rfl | before
    · exact ⟨loading.fewer found, notSpare⟩
    · exact loading.fromFree other before
  · rcases loading.lands n among taken with none | own | ⟨frame, member, there⟩
    · exact .inl none
    · exact .inr (.inl own)
    · exact .inr (.inr ⟨frame, List.mem_cons_of_mem _ member, there⟩)

/-- A byte of a frame that was taken may change. -/
theorem Loading.poke (loading : Loading boot top spare free start taken done paging tables pages) {page x : Nat}
    (member : page ∈ taken) (small : x < 4096) (byte : UInt8) :
    Loading boot top spare free start taken done
      { paging with mem := Function.update paging.mem (page + x) byte } tables pages :=
  ⟨loading.kept.poke member small byte, loading.fewer, loading.fromFree, loading.lands, loading.same,
    loading.mapped⟩

/-- A store to a frame that was taken changes no table, wherever its address is mapped to. -/
theorem Loading.store (loading : Loading boot top spare free start taken done paging tables pages)
    {page x tableFuel : Nat} {byte : UInt8} (member : page ∈ taken) (small : x < 4096)
    (stored : (kernelPlatform tableFuel).storeByte (add64 page x) byte paging = .ok next) :
    Loading boot top spare free start taken done next tables pages := by
  obtain ⟨whole, -, high, -⟩ := loading.kept.frames page member
  have limit := loading.kept.small
  have own : page / 4096 * 4096 = page := by omega
  -- The page of the frame is not mapped, mapped to the frame itself, or to another one that was taken.
  have leads : pages (page / 4096) = none ∨ ∃ frame ∈ taken, pages (page / 4096) = some frame := by
    obtain ⟨free, notSpare⟩ := loading.fromFree page member
    rcases loading.lands _ free notSpare with none | same | onto
    · exact .inl none
    · exact .inr ⟨page, member, same.trans (congrArg some own)⟩
    · exact .inr onto
  rw [add64_of_lt (by omega)] at stored
  obtain ⟨frame, among, -, rfl⟩ := loading.kept.store member small leads stored
  exact loading.poke among small byte

/-- A page is mapped to a frame that was taken. -/
theorem Loading.map (loading : Loading boot top spare free start taken done paging tables pages)
    {page virt tableFuel : Nat} (member : page ∈ taken)
    (called : (kernelPlatform tableFuel).pagingMapPage virt page (pagePresent ||| pageWrite) paging =
      .ok next) (left : spare ⊆ managedFree next.pmm) :
    ∃ grown after, Loading boot top spare free start taken (fun n => done n ∨ n = pageNumber virt) next grown
      after := by
  obtain ⟨whole, low, high, -⟩ := loading.kept.frames page member
  have limit := loading.kept.small
  obtain ⟨⟨result, last⟩, mapping, rest⟩ := bind_eq_ok.mp called
  obtain rfl := Except.ok.inj rest
  -- Frames may become tables on the way to the page, and those are mapped at their own addresses.
  obtain ⟨middle, grown, made, grows, sameFree, kept, -⟩ := loading.kept.mapped (by omega) (by decide) mapping left
  have frame : page / 4096 * 4096 = page := by omega
  have fewer := grows.free.trans loading.fewer
  rw [frame] at kept
  -- Each page is the one just mapped, one whose frame became a table, or one as before.
  refine ⟨grown, _, kept, sameFree ▸ fewer, loading.fromFree, fun n among taken => ?_, fun n notYet => ?_,
    fun n already => ?_⟩
  · -- A page that was mapped before keeps its frame or became the frame of a table.
    by_cases here : n = pageNumber virt
    · rw [here, Function.update_self]
      exact .inr (.inr ⟨page, member, rfl⟩)
    · rw [Function.update_of_ne here]
      rcases grows.pages n with same | ⟨-, own⟩
      · rw [same]
        exact loading.lands n among taken
      · exact .inr (.inl own)
  · obtain ⟨before, here⟩ := not_or.mp notYet
    rw [Function.update_of_ne here]
    rcases grows.pages n with same | ⟨among, own⟩
    · rw [same]
      exact loading.same n before
    · exact .inr ⟨loading.fewer among, own⟩
  · -- The page is there: just mapped, mapped before, or mapped at its own address.
    by_cases here : n = pageNumber virt
    · rw [here, Function.update_self]
      exact ⟨page / 4096, (loading.fromFree page member).1, by rw [frame]⟩
    · rw [Function.update_of_ne here]
      rcases grows.pages n with same | ⟨among, own⟩
      · rw [same]
        exact loading.mapped n (already.resolve_right here)
      · exact ⟨n, loading.fewer among, own⟩

/-- Filling a frame that was taken changes no table. -/
theorem Loading.memset (loading : Loading boot top spare free start taken done paging tables pages)
    {page count i tableFuel : Nat} {val : UInt8} (member : page ∈ taken) (room : i + count ≤ 4096)
    (ran : memset (kernelPlatform tableFuel) page val count i paging = .ok next) :
    Loading boot top spare free start taken done next tables pages := by
  -- Induction on the bytes of the page, each stored by the law for one.
  induction count generalizing i paging with
  | zero =>
    cases ran
    exact loading
  | succ count ih =>
    obtain ⟨middle, stored, rest⟩ := bind_eq_ok.mp ran
    exact ih (loading.store member (by omega) stored) (by omega) rest

/-- Copying to a frame that was taken changes no table. -/
theorem Loading.copySection (loading : Loading boot top spare free start taken done paging tables pages)
    {file : List UInt8} {source page count k tableFuel : Nat} (member : page ∈ taken)
    (room : k + count ≤ 4096)
    (ran : copySection (kernelPlatform tableFuel) file source page count k paging = .ok next) :
    Loading boot top spare free start taken done next tables pages := by
  -- The same for the bytes of the file.
  induction count generalizing k paging with
  | zero =>
    cases ran
    exact loading
  | succ count ih =>
    obtain ⟨byte, -, copied⟩ := bind_eq_ok.mp ran
    obtain ⟨middle, stored, rest⟩ := bind_eq_ok.mp copied
    exact ih (loading.store member (by omega) (onPlatform_ok.mp stored)) (by omega) rest

/-- Filling and mapping a page maps that page and no other. -/
theorem Loading.fillPage (loading : Loading boot top spare free start taken done paging tables pages)
    {file : List UInt8} {sd : MiraSectDesc} {j page tableFuel : Nat} (member : page ∈ taken)
    (ran : fillPage (kernelPlatform tableFuel) file sd (pagePresent ||| pageWrite) j page paging = .ok next)
    (left : spare ⊆ managedFree next.pmm) :
    ∃ grown after, Loading boot top spare free start taken
      (fun n => done n ∨ n = pageNumber (add64 sd.vaddr j)) next grown after := by
  -- The page is cleared, filled from the file and then mapped.
  obtain ⟨cleared, zeroed, copied⟩ := bind_eq_ok.mp ran
  obtain ⟨filled, copy, mapped⟩ := bind_eq_ok.mp copied
  rw [copyPart_eq] at copy
  have blank := loading.memset member (Nat.le_refl (0 + 4096)) (onPlatform_ok.mp zeroed)
  have bytes := blank.copySection member (by omega) copy
  exact bytes.map member (onPlatform_ok.mp mapped) left

/-- Behind the end of a section no page is to be mapped. -/
theorem Loading.behind {sd : MiraSectDesc} {j : Nat}
    (loading : Loading boot top spare free start taken done paging tables pages) (ends : sd.memsz ≤ j) :
    Loading boot top spare free start taken
      (fun n => done n ∨ ∃ t, j ≤ 4096 * t ∧ 4096 * t < sd.memsz ∧ n = pageNumber (add64 sd.vaddr (4096 * t)))
      paging tables pages := by
  -- Past the memory size no page of the section is left to map.
  refine loading.congr fun n => ⟨?_, .inl⟩
  rintro (before | ⟨t, low, high, -⟩)
  · exact before
  · omega

/-- The loop over the pages of a section maps its pages and no others. -/
theorem Loading.pageLoop {file : List UInt8} {sd : MiraSectDesc} {flags fuel j tableFuel : Nat}
    (loading : Loading boot top spare free start taken done paging tables pages)
    (both : flags ||| pageWrite = pagePresent ||| pageWrite) (short : sd.memsz ≤ 2 ^ 64 - 4096)
    (whole : j % 4096 = 0)
    (loaded : MiraExec.pageLoop (kernelPlatform tableFuel) file sd flags fuel j paging = .ok (true, next))
    (left : spare ⊆ managedFree next.pmm) :
    ∃ more grown after, Loading boot top spare free start more
      (fun n => done n ∨ ∃ t, j ≤ 4096 * t ∧ 4096 * t < sd.memsz ∧ n = pageNumber (add64 sd.vaddr (4096 * t)))
      next grown after := by
  -- Each turn maps one page more, in front of those that are still to come.
  induction fuel generalizing j paging taken done tables pages with
  | zero =>
    by_cases more : j < sd.memsz
    · obtain ⟨less, -, -, -, none, -⟩ := pageLoop_loaded more loaded
      omega
    · rw [pageLoop_done (by omega)] at loaded
      cases loaded
      exact ⟨taken, tables, pages, loading.behind (by omega)⟩
  | succ fuel ih =>
    by_cases more : j < sd.memsz
    · obtain ⟨less, page, middle, filled, same, allocated, nonzero, fills, rest⟩ := pageLoop_loaded more loaded
      obtain rfl : less = fuel := by omega
      rw [both] at fills
      -- What is spare at the end is free after every call before it.
      have bootedMiddle := (loading.booted.runs (.single (.alloc allocated))).1
      obtain ⟨bootedFilled, leftMiddle⟩ := bootedMiddle.runs (fillPage_runs fills)
      have leftFilled := left.trans (bootedFilled.runs (pageLoop_runs rest)).2
      obtain ⟨grown, after, turned⟩ :=
        (loading.alloc allocated (leftFilled.trans leftMiddle) nonzero).fillPage List.mem_cons_self fills leftFilled
      rw [add64_of_lt (by omega)] at rest
      obtain ⟨further, deeper, last, all⟩ := ih turned (by omega) rest
      refine ⟨further, deeper, last, all.congr fun n => ?_⟩
      -- The pages of this turn and of those to come are the pages from here on.
      constructor
      · rintro (before | ⟨t, low, high, rfl⟩)
        · exact .inl (.inl before)
        · by_cases here : 4096 * t = j
          · exact .inl (.inr (by rw [here]))
          · exact .inr ⟨t, by omega, high, rfl⟩
      · rintro ((before | rfl) | ⟨t, low, high, rfl⟩)
        · exact .inl before
        · have turn : 4096 * (j / 4096) = j := by omega
          exact .inr ⟨j / 4096, by omega, by omega, by rw [turn]⟩
        · exact .inr ⟨t, by omega, high, rfl⟩
    · rw [pageLoop_done (by omega)] at loaded
      cases loaded
      exact ⟨taken, tables, pages, loading.behind (by omega)⟩

/-- The loop over the sections maps the pages of the sections and no others. -/
theorem Loading.sectionLoop {file : List UInt8} {fuel off count i tableFuel : Nat}
    (loading : Loading boot top spare free start taken done paging tables pages)
    (loaded : MiraExec.sectionLoop (kernelPlatform tableFuel) fuel file off count i paging =
      .ok (true, next)) (left : spare ⊆ managedFree next.pmm) :
    ∃ more grown after, Loading boot top spare free start more
      (fun n => done n ∨ ∃ k sd t, i ≤ k ∧ k < i + count ∧ readSectDesc file off k = .ok sd ∧
        4096 * t < sd.memsz ∧ n = pageNumber (add64 sd.vaddr (4096 * t)))
      next grown after := by
  induction count generalizing i paging taken done tables pages with
  | zero =>
    cases loaded
    refine ⟨taken, tables, pages, loading.congr fun n => ⟨?_, .inl⟩⟩
    rintro (before | ⟨k, sd, t, low, high, -⟩)
    · exact before
    · omega
  | succ count ih =>
    obtain ⟨sd, middle, read, passes, pagesDone, rest⟩ := sectionLoop_loaded loaded
    -- A loop that came to its end had a section that does not wrap around.
    have short := pageLoop_ends (by omega) rfl pagesDone
    have bootedMiddle := (loading.booted.runs (pageLoop_runs pagesDone)).1
    have leftMiddle := left.trans (bootedMiddle.runs (sectionLoop_runs rest)).2
    obtain ⟨held, grown, after, turned⟩ := loading.pageLoop (execFlags_eq _ _) short rfl pagesDone leftMiddle
    obtain ⟨further, deeper, last, all⟩ := ih turned rest
    refine ⟨further, deeper, last, all.congr fun n => ?_⟩
    constructor
    · rintro (before | ⟨k, other, t, low, high, found, inside, rfl⟩)
      · exact .inl (.inl before)
      · -- A page of the sections from here on is one of this section or of those behind it.
        by_cases here : k = i
        · subst here
          obtain rfl : sd = other := Except.ok.inj (read.symm.trans found)
          exact .inl (.inr ⟨t, Nat.zero_le _, inside, rfl⟩)
        · exact .inr ⟨k, other, t, by omega, by omega, found, inside, rfl⟩
    · rintro ((before | ⟨t, -, inside, rfl⟩) | ⟨k, other, t, low, high, found, inside, rfl⟩)
      · exact .inl before
      · exact .inr ⟨i, sd, t, Nat.le_refl i, by omega, read, inside, rfl⟩
      · exact .inr ⟨k, other, t, by omega, by omega, found, inside, rfl⟩

/-- A container that was loaded has mapped the pages of its sections and no others. -/
theorem KernelReady.loaded {heapMapped tableFuel fuel type : Nat} {file : List UInt8}
    {image : MiraLoadedImage} (ready : KernelReady boot top (managedFree next.pmm) paging heapMapped)
    (loaded : miraLoad (kernelPlatform tableFuel) fuel file type paging = .ok (some image, next)) :
    ∃ taken tables grown pages after, (∀ n, n < 512 → pages n = some (n * 4096)) ∧
      PagingRep paging tables pages ∧
      Loading boot top (managedFree next.pmm) (managedFree paging.pmm) pages taken (MapsPage file) next grown after := by
  obtain ⟨tables, pages, low, loading⟩ := ready.loading
  -- A file that is not accepted gives no image.
  by_cases valid : miraBinIsValid file type = .ok true
  swap
  · rw [miraLoad_invalid _ valid] at loaded
    cases loaded
  rw [miraLoad_eq _ valid, mapImage, ← sectionLoop_eq] at loaded
  obtain ⟨⟨done, last⟩, ran, result⟩ := bind_eq_ok.mp loaded
  cases done with
  | false => cases result
  | true =>
    cases result
    obtain ⟨taken, grown, after, all⟩ := loading.sectionLoop ran (Finset.Subset.refl _)
    -- The pages that are mapped are those of the sections, and none before them.
    refine ⟨taken, tables, grown, pages, after, low, loading.kept.reached.rep, all.congr fun n => ?_⟩
    constructor
    · rintro ⟨i, sd, t, among, read, inside, rfl⟩
      exact .inr ⟨i, sd, t, Nat.zero_le i, by omega, read, inside, rfl⟩
    · rintro (none | ⟨i, sd, t, -, among, read, inside, rfl⟩)
      · cases none
      · exact ⟨i, sd, t, by omega, read, inside, rfl⟩

/-- A free frame is one that the bitmap describes. -/
theorem KernelReady.free_low {heapMapped n : Nat} (ready : KernelReady boot top spare paging heapMapped)
    (among : n ∈ managedFree paging.pmm) : n < maxPhysPages := by
  -- A free page lies within the bitmap.
  obtain ⟨tables, pages, kept, -⟩ := ready.pages
  obtain ⟨-, -, clear⟩ := kept.reached.booted.mem_managedFree.mp among
  exact kept.reached.booted.within n clear

/-- One turn of the loop that maps more of the heap in kernel/heap.c. -/
inductive HeapTurn (tableFuel : Nat) : Paging Pmm × Nat → Paging Pmm × Nat → Prop where
  | page {paging next : Paging Pmm} {pmm : Pmm} {heapMapped phys result : Nat}
      (allocated : pmmAllocPage paging.pmm = .ok (phys, pmm)) (nonzero : phys ≠ 0)
      (called : pagingMapPage pmmAllocPage tableFuel { paging with pmm := pmm } (pagingHeapBase + heapMapped)
        phys 0 = .ok (result, next)) :
      HeapTurn tableFuel (paging, heapMapped) (next, heapMapped + 4096)

/-- After boot, with no other frames to take than those of the first two megabytes, the kernel is ready. -/
theorem kernelReady_boot {mem : Memory} {pmm : Pmm} (cleared : ClearedBss mem boot) (booted : BootedPmm pmm)
    (small : pmm.memEnd / pageSize ≤ 2 ^ 36)
    (low : ∀ page ∈ managedFree pmm, page ∉ spare → page < 512 ∧ page * pageSize ∉ boot.all) :
    KernelReady boot (pmm.memEnd / pageSize) spare (pagingInit boot mem pmm) 0 := by
  refine ⟨⟨bootTree boot, bootPages, ⟨framesReached_boot cleared booted, fun page free among => ?_, ?_,
    Nat.le_refl _, small⟩, fun n below => if_pos below, fun n free among => ?_⟩, ?_⟩
  · obtain ⟨below, notBoot⟩ := low page free among
    -- The tables of the first two megabytes are there from boot on.
    have number : pageNumber (page * pageSize) < 512 := by
      simp only [pageNumber, pageSize]
      omega
    exact ⟨notBoot, boot.pt, by rw [(tablePath_low number).1]; rfl⟩
  · intro page none
    cases none
  · exact .inr (if_pos (low n free among).1)
  · have within : managedFree pmm ⊆ Finset.range maxPhysPages := by
      intro n among
      exact Finset.mem_range.mpr (booted.within n (booted.mem_managedFree.mp among).2.2)
    have few := Finset.card_le_card within
    rw [Finset.card_range] at few
    show 0 + 4096 * (managedFree pmm).card ≤ _
    omega

/-- The kernel is still ready when its heap has one page more. -/
theorem KernelReady.heapTurn {heapMapped grownHeap tableFuel : Nat}
    (ready : KernelReady boot top spare paging heapMapped)
    (turn : HeapTurn tableFuel (paging, heapMapped) (next, grownHeap)) (left : spare ⊆ managedFree next.pmm) :
    KernelReady boot top spare next grownHeap := by
  have bound : ∀ n ∈ managedFree paging.pmm, n < maxPhysPages := fun n among => ready.free_low among
  obtain ⟨⟨tables, pages, kept, low, own⟩, window⟩ := ready
  cases turn with
  | page allocated nonzero called =>
    rename_i pmm phys result
    -- Neither the frame of the page nor those of its tables are spare.
    have bootedTaken := (kept.reached.booted.allocations (.single ⟨_, allocated⟩)).1
    have later := (bootedTaken.allocations (pagingMapPage_allocations pmmAllocPage called)).2
    obtain ⟨-, -, taken, among, -, fewer⟩ := kept.alloc allocated (left.trans later) nonzero
    obtain ⟨whole, above, below, used, -⟩ := taken.frames phys List.mem_cons_self
    have limit := kept.small
    obtain ⟨last, grown, made, grows, sameFree, after, -⟩ := taken.mapped (by omega) (by omega) called left
    have less : managedFree next.pmm ⊆ managedFree pmm := sameFree ▸ grows.free
    -- The frame of the page is no longer free.
    have gone : phys / pageSize ∉ managedFree pmm := by
      intro still
      have clear := (taken.reached.booted.mem_managedFree.mp still).2.2
      exact absurd (used.symm.trans clear) (by decide)
    have fewerFrames : (managedFree next.pmm).card < (managedFree paging.pmm).card :=
      Nat.lt_of_le_of_lt (Finset.card_le_card less)
        (Finset.card_lt_card ((Finset.ssubset_iff_of_subset fewer).mpr ⟨_, among, gone⟩))
    simp only [maxPhysPages] at window
    have number : pageNumber (pagingHeapBase + heapMapped) = (pagingHeapBase + heapMapped) / 4096 :=
      pageNumber_of_lt (by rw [pagingHeapBase_eq]; omega)
    -- The heap lies above all memory that the bitmap describes, so no such page is the new one.
    have apart : ∀ n, n < maxPhysPages → n ≠ pageNumber (pagingHeapBase + heapMapped) := by
      intro n inside
      rw [number, pagingHeapBase_eq]
      simp only [maxPhysPages] at inside
      omega
    have none : ∀ page ∈ ([] : List Nat), page % 4096 = 0 ∧ 0x100000 ≤ page ∧ page + 4096 ≤ top * 4096 ∧
        next.pmm.pageBitmap.test (page / pageSize) = true ∧ Fresh grown page :=
      fun _ member => absurd member List.not_mem_nil
    refine ⟨⟨grown, _, ⟨after.reached, after.covered, none, after.memEnd, after.small⟩, fun n first => ?_,
      fun n still notSpare => ?_⟩, by simp only [maxPhysPages]; omega⟩
    · rw [Function.update_of_ne (apart n (by simp only [maxPhysPages]; omega))]
      rcases grows.pages n with same | ⟨-, self⟩
      · rw [same]
        exact low n first
      · exact self
    · have before := fewer (less still)
      rw [Function.update_of_ne (apart n (bound n before))]
      rcases grows.pages n with same | ⟨-, self⟩
      · rw [same]
        exact own n before notSpare
      · exact .inr self

/-- The growth of the heap frees no frame. -/
theorem HeapTurn.fewer {state turned : Paging Pmm × Nat} {tableFuel : Nat} (booted : BootedPmm state.1.pmm)
    (turn : HeapTurn tableFuel state turned) :
    BootedPmm turned.1.pmm ∧ managedFree turned.1.pmm ⊆ managedFree state.1.pmm := by
  -- The turn takes one page for the heap and at most three for tables.
  cases turn with
  | page allocated nonzero called =>
    exact booted.allocations ((Relation.ReflTransGen.single ⟨_, allocated⟩).trans
      (pagingMapPage_allocations pmmAllocPage called))

/-- From boot on, whatever the heap has grown to, the kernel is ready for the loader. -/
theorem kernelReady_run {mem : Memory} {pmm : Pmm} {heapMapped tableFuel : Nat} (cleared : ClearedBss mem boot)
    (booted : BootedPmm pmm) (small : pmm.memEnd / pageSize ≤ 2 ^ 36)
    (low : ∀ page ∈ managedFree pmm, page ∉ spare → page < 512 ∧ page * pageSize ∉ boot.all)
    (run : Relation.ReflTransGen (HeapTurn tableFuel) (pagingInit boot mem pmm, 0) (paging, heapMapped))
    (left : spare ⊆ managedFree paging.pmm) :
    KernelReady boot (pmm.memEnd / pageSize) spare paging heapMapped := by
  have ready : ∀ state, Relation.ReflTransGen (HeapTurn tableFuel) (pagingInit boot mem pmm, 0) state →
      BootedPmm state.1.pmm ∧ (spare ⊆ managedFree state.1.pmm →
        KernelReady boot (pmm.memEnd / pageSize) spare state.1 state.2) := by
    intro state turns
    -- Over the turns of the loop that maps the heap, from the kernel as it was booted.
    induction turns with
    | refl => exact ⟨booted, fun _ => kernelReady_boot cleared booted small low⟩
    | tail _ turn ih =>
      obtain ⟨kept, fewer⟩ := turn.fewer ih.1
      exact ⟨kept, fun still => (ih.2 (still.trans fewer)).heapTurn turn still⟩
  exact (ready (paging, heapMapped) run).2 left

end

/-- A section of a page of the kernel. -/
def lowSection : MiraSectDesc where
  sectType := miraSectText
  sectFlags := 0
  vaddr := 0x1000
  memsz := 16
  filesz := 0
  fileOff := 104

/-- A program of that section. -/
def lowProgram : List UInt8 := signed (sectionContainer lowSection [])

/-- The section is read from the table of the program. -/
theorem lowProgram_section {i : Nat} (among : i < (headerOf lowProgram).sectCount) :
    i = 0 ∧ readSectDesc lowProgram (headerOf lowProgram).sectTableOff i = .ok lowSection := by
  -- The file has one section, and its descriptor lies inside the file.
  obtain ⟨count, -, found⟩ := sectionContainer_section lowSection []
  have single : (headerOf lowProgram).sectCount = 1 := count
  obtain rfl : i = 0 := by omega
  have checks := (isValid_iff.mp (sectionContainer_valid lowSection [])).1
  exact ⟨rfl, (readSectDesc_inside checks (by decide) among).trans (congrArg Except.ok found)⟩

/-- The kernel with a single free page loads that program, and its second page is another one then. -/
theorem lowProgram_loads : ∃ image next tables,
    miraLoad (kernelPlatform 1) 1 lowProgram miraBinTypeMex onePageKernel = .ok (some image, next) ∧
    PagingRep next tables (Function.update bootPages 1 (some 0x100000)) := by
  have valid : miraBinIsValid lowProgram miraBinTypeMex = .ok true := sectionContainer_valid _ _
  have count : (headerOf lowProgram).sectCount = 1 := (sectionContainer_section lowSection []).1
  -- One turn of the loop maps the one page.
  obtain ⟨last, tables, -, rep, turn⟩ := @onePageKernel_turn lowSection (by decide) (by decide) rfl lowProgram
  refine ⟨⟨(headerOf lowProgram).entryPoint, 0, 0⟩, last, tables, ?_, rep⟩
  rw [miraLoad_eq _ valid, mapImage, ← sectionLoop_eq]
  dsimp only
  rw [count, sectionLoop_turn (lowProgram_section (by omega)).2 ⟨by decide, by decide⟩,
    turn _ 0 (execFlags_eq _ _), pageLoop_done (by decide)]
  rfl

/-- Loading that program is mapping its section, which takes the free page. -/
theorem lowProgram_mapped : ∃ image next tables,
    mapImage (kernelPlatform 1) 1 lowProgram onePageKernel = .ok (some image, next) ∧
    PagingRep next tables (Function.update bootPages 1 (some 0x100000)) := by
  -- Both loaders map the same pages with the same calls.
  obtain ⟨image, next, tables, loaded, rep⟩ := lowProgram_loads
  exact ⟨image, next, tables,
    (load_maps_sections (sectionContainer_valid _ _) 1 1 onePageKernel).symm.trans loaded, rep⟩

end MiraOS
