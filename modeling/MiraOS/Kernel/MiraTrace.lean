import MiraOS.Kernel.MemLaws
import MiraOS.Kernel.MiraPlatform

/-! What a container that is rejected leaves behind. -/

namespace MiraOS

open Machine

/-- A call of the platform. -/
inductive PlatformStep {σ : Type} (platform : Platform σ) : σ → σ → Prop where
  | alloc {before after : σ} {page : Nat} (called : platform.pmmAllocPage before = .ok (page, after)) :
      PlatformStep platform before after
  | store {before after : σ} {address : Nat} {byte : UInt8}
      (called : platform.storeByte address byte before = .ok after) : PlatformStep platform before after
  | map {before after : σ} {virt phys flags : Nat}
      (called : platform.pagingMapPage virt phys flags before = .ok after) : PlatformStep platform before after

/-- The states that calls of the platform lead to. -/
def PlatformRuns {σ : Type} (platform : Platform σ) : σ → σ → Prop :=
  Relation.ReflTransGen (PlatformStep platform)

section

variable {σ : Type} {platform : Platform σ} {file : List UInt8} {sd : MiraSectDesc} {state next : σ}

/-- Filling memory is a run of calls. -/
theorem memset_runs {dest count i : Nat} {val : UInt8}
    (ran : memset platform dest val count i state = .ok next) : PlatformRuns platform state next := by
  -- Every byte is one call of the platform.
  induction count generalizing i state with
  | zero =>
    cases ran
    exact .refl
  | succ count ih =>
    obtain ⟨middle, stored, rest⟩ := bind_eq_ok.mp ran
    exact (Relation.ReflTransGen.single (.store stored)).trans (ih rest)

/-- Copying from the container is a run of calls. -/
theorem copySection_runs {source page count k : Nat}
    (ran : copySection platform file source page count k state = .ok next) :
    PlatformRuns platform state next := by
  -- Reading the file calls nothing, and storing a byte is one call.
  induction count generalizing k state with
  | zero =>
    cases ran
    exact .refl
  | succ count ih =>
    obtain ⟨byte, -, copied⟩ := bind_eq_ok.mp ran
    obtain ⟨middle, stored, rest⟩ := bind_eq_ok.mp copied
    exact (Relation.ReflTransGen.single (.store (onPlatform_ok.mp stored))).trans (ih rest)

/-- Filling a page is a run of calls. -/
theorem fillPage_runs {flags j page : Nat}
    (ran : fillPage platform file sd flags j page state = .ok next) : PlatformRuns platform state next := by
  obtain ⟨cleared, zeroed, copied⟩ := bind_eq_ok.mp ran
  obtain ⟨filled, copy, mapped⟩ := bind_eq_ok.mp copied
  -- Only a page with a part of the file has something copied.
  have copying : PlatformRuns platform cleared filled := by
    unfold copyPart at copy
    split at copy
    · exact copySection_runs copy
    · cases copy
      exact .refl
  exact ((memset_runs (onPlatform_ok.mp zeroed)).trans copying).trans
    (.single (.map (onPlatform_ok.mp mapped)))

/-- The loop over the pages of a section is a run of calls, whatever its answer is. -/
theorem pageLoop_runs {flags fuel j : Nat} {answer : Bool}
    (ran : MiraExec.pageLoop platform file sd flags fuel j state = .ok (answer, next)) :
    PlatformRuns platform state next := by
  -- Over the fuel: a turn is an allocation and a filling, and the rest is the loop again.
  induction fuel generalizing j state with
  | zero =>
    rw [MiraExec.pageLoop] at ran
    split at ran
    · cases ran
    · cases ran
      exact .refl
  | succ fuel ih =>
    by_cases more : j < sd.memsz
    swap
    · rw [pageLoop_done (by omega)] at ran
      cases ran
      exact .refl
    rw [pageLoop_turn more] at ran
    obtain ⟨⟨page, taken⟩, allocated, turned⟩ := bind_eq_ok.mp ran
    have taking : PlatformRuns platform state taken := .single (.alloc (onPlatform_ok.mp allocated))
    dsimp only at turned
    -- A null page ends the loop after the allocation alone.
    split at turned
    · cases turned
      exact taking
    · obtain ⟨filled, fills, rest⟩ := bind_eq_ok.mp turned
      exact (taking.trans (fillPage_runs fills)).trans (ih rest)

/-- The loop over the sections is a run of calls, whatever its answer is. -/
theorem sectionLoop_runs {fuel off count i : Nat} {answer : Bool}
    (ran : MiraExec.sectionLoop platform fuel file off count i state = .ok (answer, next)) :
    PlatformRuns platform state next := by
  -- Over the sections that are left, of which a failing one is the last that is looked at.
  induction count generalizing i state with
  | zero =>
    cases ran
    exact .refl
  | succ count ih =>
    obtain ⟨sd, read, -⟩ := bind_eq_ok.mp ran
    by_cases passes : SectionPasses file sd
    swap
    · rw [sectionLoop_fails read passes] at ran
      cases ran
      exact .refl
    rw [sectionLoop_turn read passes] at ran
    obtain ⟨⟨loaded, middle⟩, pages, rest⟩ := bind_eq_ok.mp ran
    have pagesRun := pageLoop_runs pages
    -- The answer of the page loop says whether the next section is reached.
    cases loaded with
    | false =>
      cases rest
      exact pagesRun
    | true => exact pagesRun.trans (ih rest)

end

/-- What is in use stays in use. -/
def KeepsUsed (before after : Pmm) : Prop :=
  ∀ page, before.pageBitmap.test page = true → after.pageBitmap.test page = true

/-- The page allocator takes nothing out of use by handing out a page. -/
theorem keepsUsed_alloc {pmm next : Pmm} {address : Nat}
    (allocated : pmmAllocPage pmm = .ok (address, next)) : KeepsUsed pmm next := by
  intro page used
  -- A null answer leaves the bitmap, and a page is taken by setting one bit.
  rcases pmmScan_ok allocated with ⟨-, rfl⟩ | ⟨found, -, -, -, -, rfl⟩
  · exact used
  · rw [Pmm.take, Bitmap.test_set, used, Bool.or_true]

/-- What is in use stays in use while pages are handed out. -/
theorem keepsUsed_allocations {before after : Pmm} (run : Allocations pmmAllocPage before after) :
    KeepsUsed before after := by
  -- Induction on the allocations: taking a page frees none.
  induction run with
  | refl => exact fun _ used => used
  | tail _ step ih =>
    obtain ⟨page, allocated⟩ := step
    exact fun other used => keepsUsed_alloc allocated other (ih other used)

/-- Over a run of calls of the kernel the page allocator hands out pages, and none is given back. -/
theorem allocations_runs {tables : Nat} {before after : Paging Pmm}
    (run : PlatformRuns (kernelPlatform tables) before after) :
    Allocations pmmAllocPage before.pmm after.pmm := by
  induction run with
  | refl => exact .refl
  | tail _ step ih =>
    -- Only two of the calls reach the page allocator, and a store never does.
    cases step with
    | alloc called =>
      obtain ⟨⟨frame, pmm⟩, taking, result⟩ := bind_eq_ok.mp called
      cases result
      exact ih.tail ⟨_, taking⟩
    | store called =>
      obtain ⟨phys, -, result⟩ := bind_eq_ok.mp called
      split at result
      · cases result
      · cases result
        exact ih
    | map called =>
      obtain ⟨⟨virt, mapped⟩, mapping, result⟩ := bind_eq_ok.mp called
      cases result
      exact ih.trans (pagingMapPage_allocations pmmAllocPage mapping)

/-- What is in use stays in use over a run of calls of the kernel. -/
theorem keepsUsed_runs {tables : Nat} {before after : Paging Pmm}
    (run : PlatformRuns (kernelPlatform tables) before after) : KeepsUsed before.pmm after.pmm :=
  keepsUsed_allocations (allocations_runs run)

/-- A page that is handed out was free, and is in use from then on. -/
theorem pmmAllocPage_takes {pmm next : Pmm} {address : Nat} (nonzero : address ≠ 0)
    (allocated : pmmAllocPage pmm = .ok (address, next)) : ∃ page ∈ managedFree pmm,
      pmm.pageBitmap.test page = false ∧ next.pageBitmap.test page = true := by
  -- An answer that is not null is a page that the scan found clear.
  rcases pmmScan_ok allocated with ⟨null, -⟩ | ⟨found, low, high, clear, -, rfl⟩
  · exact absurd null nonzero
  · refine ⟨found, ?_, clear, ?_⟩
    · simp only [managedFree, Finset.mem_filter, Bitmap.mem_clearSet]
      exact ⟨⟨by omega, clear⟩, low⟩
    · rw [Pmm.take, Bitmap.test_set, decide_eq_true rfl, Bool.true_or]

/-- The bitmap of the pages, the number of free ones and all translations are the same. -/
structure NoTrace (before after : Paging Pmm) : Prop where
  bitmap : after.pmm.pageBitmap = before.pmm.pageBitmap
  freeCount : after.pmm.freePages = before.pmm.freePages
  translation : ∀ virt, pagingVirtToPhys pmmAllocPage after virt = pagingVirtToPhys pmmAllocPage before virt

/-- Among some sections there is one that fails the checks, and those before it have no memory. -/
def BadFirst (file : List UInt8) (off i count : Nat) : Prop :=
  ∃ k sd, k < count ∧ readSectDesc file off (i + k) = .ok sd ∧ ¬ SectionPasses file sd ∧
    ∀ j other, j < k → readSectDesc file off (i + j) = .ok other → other.memsz = 0

section

variable {file : List UInt8} {sd : MiraSectDesc}

/-- A section without memory that passes the checks does not matter for that. -/
theorem badFirst_next {off i count : Nat} (read : readSectDesc file off i = .ok sd)
    (passes : SectionPasses file sd) (none : sd.memsz = 0) :
    BadFirst file off i (count + 1) ↔ BadFirst file off (i + 1) count := by
  constructor
  · rintro ⟨k, bad, among, badRead, fails, before⟩
    cases k with
    | zero =>
      obtain rfl : sd = bad := Except.ok.inj (read.symm.trans badRead)
      exact absurd passes fails
    | succ k =>
      -- Counted from the next section, each position is one less.
      have shift : ∀ j, i + (j + 1) = i + 1 + j := fun j => by omega
      refine ⟨k, bad, by omega, shift k ▸ badRead, fails, fun j other below found => ?_⟩
      exact before (j + 1) other (by omega) (shift j ▸ found)
  · rintro ⟨k, bad, among, badRead, fails, before⟩
    have shift : ∀ j, i + 1 + j = i + (j + 1) := fun j => by omega
    refine ⟨k + 1, bad, by omega, shift k ▸ badRead, fails, fun j other below found => ?_⟩
    cases j with
    | zero =>
      obtain rfl : sd = other := Except.ok.inj (read.symm.trans found)
      exact none
    | succ j => exact before j other (by omega) (shift j ▸ found)

/-- A section with memory that passes the checks comes before any that fails them. -/
theorem not_badFirst {off i count : Nat} (read : readSectDesc file off i = .ok sd)
    (passes : SectionPasses file sd) (memory : 0 < sd.memsz) : ¬ BadFirst file off i count := by
  rintro ⟨k, bad, -, badRead, fails, before⟩
  -- The bad section would be the first one, which passes, or come behind one without memory, which this one
  -- is not.
  cases k with
  | zero =>
    obtain rfl : sd = bad := Except.ok.inj (read.symm.trans badRead)
    exact fails passes
  | succ k =>
    have empty := before 0 sd (by omega) read
    omega

/-- A section with memory takes a page that was free before, or there is none and nothing is done. -/
theorem pageLoop_takes {tables flags fuel : Nat} {paging next : Paging Pmm} {answer : Bool}
    (start : paging.pmm.memStart = 0x100000) (memory : 0 < sd.memsz)
    (ran : MiraExec.pageLoop (kernelPlatform tables) file sd flags fuel 0 paging = .ok (answer, next)) :
    (answer = false ∧ next = paging ∧ managedFree paging.pmm = ∅) ∨
    ∃ page ∈ managedFree paging.pmm,
      paging.pmm.pageBitmap.test page = false ∧ next.pmm.pageBitmap.test page = true := by
  -- The first turn settles it: later turns only take more.
  cases fuel with
  | zero =>
    rw [MiraExec.pageLoop, if_pos memory] at ran
    cases ran
  | succ fuel =>
    rw [pageLoop_turn memory] at ran
    obtain ⟨⟨page, taken⟩, called, turned⟩ := bind_eq_ok.mp ran
    obtain ⟨⟨frame, pmm⟩, allocated, result⟩ := bind_eq_ok.mp (onPlatform_ok.mp called)
    cases result
    dsimp only at turned
    split at turned
    · -- No page is free, and the loop ends here.
      rename_i null
      rw [null] at allocated
      obtain ⟨full, same⟩ := pmmAllocPage_null start allocated
      cases turned
      rw [same]
      exact .inl ⟨rfl, rfl, full⟩
    · -- The page stays in use, whatever follows.
      rename_i nonzero
      obtain ⟨found, free, clear, used⟩ := pmmAllocPage_takes nonzero allocated
      obtain ⟨filled, fills, rest⟩ := bind_eq_ok.mp turned
      have kept := keepsUsed_runs ((fillPage_runs fills).trans (pageLoop_runs rest))
      exact .inr ⟨found, free, clear, kept found used⟩

/--
The loop over the sections that ends with a failure has taken a page that was free before, or has done
nothing at all.
-/
theorem sectionLoop_rejected {tables fuel off count i : Nat} {paging next : Paging Pmm}
    (start : paging.pmm.memStart = 0x100000)
    (rejected : MiraExec.sectionLoop (kernelPlatform tables) fuel file off count i paging =
      .ok (false, next)) :
    (next = paging ∧ (managedFree paging.pmm = ∅ ∨ BadFirst file off i count)) ∨
    (managedFree paging.pmm ≠ ∅ ∧ ¬ BadFirst file off i count ∧
      ∃ page, paging.pmm.pageBitmap.test page = false ∧ next.pmm.pageBitmap.test page = true) := by
  -- Over the sections: those without memory change nothing, and the first other one decides.
  induction count generalizing i with
  | zero => cases rejected
  | succ count ih =>
    obtain ⟨sd, read, -⟩ := bind_eq_ok.mp rejected
    by_cases passes : SectionPasses file sd
    swap
    · -- The section fails the checks.
      rw [sectionLoop_fails read passes] at rejected
      cases rejected
      exact .inl ⟨rfl, .inr ⟨0, sd, by omega, read, passes, fun j _ below => absurd below (by omega)⟩⟩
    rw [sectionLoop_turn read passes] at rejected
    obtain ⟨⟨loaded, middle⟩, pages, rest⟩ := bind_eq_ok.mp rejected
    by_cases empty : sd.memsz = 0
    · -- The section has no page, and the loop goes on in the same state.
      rw [pageLoop_done (by omega)] at pages
      cases pages
      rw [badFirst_next read passes empty]
      exact ih rest
    have memory : 0 < sd.memsz := Nat.pos_of_ne_zero empty
    -- A section with memory either finds no page at all or keeps the one it got.
    rcases pageLoop_takes start memory pages with ⟨rfl, rfl, full⟩ | ⟨page, free, clear, used⟩
    · cases rest
      exact .inl ⟨rfl, .inl full⟩
    · refine .inr ⟨Finset.ne_empty_of_mem free, not_badFirst read passes memory, page, clear, ?_⟩
      cases loaded with
      | false =>
        cases rest
        exact used
      | true => exact keepsUsed_runs (sectionLoop_runs rest) page used

end

/-- The header is rejected, no page is free, or a section fails the checks before any with memory. -/
def RejectedAtOnce (file : List UInt8) (type : Nat) (pmm : Pmm) : Prop :=
  miraBinIsValid file type ≠ .ok true ∨ managedFree pmm = ∅ ∨
    BadFirst file (headerOf file).sectTableOff 0 (headerOf file).sectCount

/--
A container that is rejected leaves no trace exactly when it is rejected before a page is taken for it.

The state of the page allocator, the page tables and the memory is any, with as much fuel as may be.
-/
theorem rejected_no_trace_iff {file : List UInt8} {type tables fuel : Nat} {paging next : Paging Pmm}
    (start : paging.pmm.memStart = 0x100000)
    (rejected : miraLoad (kernelPlatform tables) fuel file type paging = .ok (none, next)) :
    NoTrace paging next ↔ RejectedAtOnce file type paging.pmm := by
  by_cases valid : miraBinIsValid file type = .ok true
  swap
  · -- The header is rejected before anything is called.
    rw [miraLoad_invalid _ valid] at rejected
    cases rejected
    exact ⟨fun _ => .inl valid, fun _ => ⟨rfl, rfl, fun _ => rfl⟩⟩
  rw [miraLoad_eq _ valid, mapImage, ← sectionLoop_eq] at rejected
  obtain ⟨⟨loaded, last⟩, ran, result⟩ := bind_eq_ok.mp rejected
  cases loaded with
  | true => cases result
  | false =>
    cases result
    -- What is left is a failure inside the loop, which did nothing or took a page.
    rcases sectionLoop_rejected start ran with ⟨rfl, reason⟩ | ⟨some, notBad, page, clear, used⟩
    · exact ⟨fun _ => .inr reason, fun _ => ⟨rfl, rfl, fun _ => rfl⟩⟩
    · constructor
      · -- The page was free before and is in use now.
        intro same
        rw [same.bitmap, clear] at used
        cases used
      · rintro (invalid | full | bad)
        · exact absurd valid invalid
        · exact absurd full some
        · exact absurd bad notBad

/-- A section of two pages of zeros. -/
def twoPageSection : MiraSectDesc where
  sectType := miraSectBss
  sectFlags := 0
  vaddr := 0x1000
  memsz := 8192
  filesz := 0
  fileOff := 104

/-- A program of that section. -/
def twoPageProgram : List UInt8 := signed (sectionContainer twoPageSection [])

/-- The page that is left goes to the first page of the program, which is rejected and keeps it. -/
theorem twoPageProgram_rejected :
    ∃ next, miraLoad (kernelPlatform 1) 2 twoPageProgram miraBinTypeMex onePageKernel = .ok (none, next) ∧
      onePageKernel.pmm.pageBitmap.test 256 = false ∧ next.pmm.pageBitmap.test 256 = true := by
  have valid : miraBinIsValid twoPageProgram miraBinTypeMex = .ok true := sectionContainer_valid _ _
  obtain ⟨count, -, found⟩ := sectionContainer_section twoPageSection []
  have read : readSectDesc twoPageProgram (headerOf twoPageProgram).sectTableOff 0 = .ok twoPageSection :=
    (readSectDesc_inside (isValid_iff.mp valid).1 (by decide) (by rw [twoPageProgram]; omega)).trans
      (congrArg Except.ok found)
  obtain ⟨last, tables, taken, -, turn⟩ := @onePageKernel_turn twoPageSection (by decide) (by decide) rfl
    twoPageProgram
  refine ⟨last, ?_, onePagePmm_clear.mpr rfl, ?_⟩
  · -- The second page is not there.
    have full : (kernelPlatform 1).pmmAllocPage last = .ok (0, last) := by
      rw [kernelPlatform]
      dsimp only
      rw [taken, onePagePmm_alloc.2]
      show Except.ok (0, { last with pmm := onePagePmm.take 256 }) = _
      rw [← taken]
    rw [miraLoad_eq _ valid, mapImage, ← sectionLoop_eq]
    dsimp only
    rw [twoPageProgram, count, ← twoPageProgram, sectionLoop_turn read ⟨by decide, by decide⟩,
      turn _ 1 (execFlags_eq _ _), pageLoop_turn (by decide), full]
    rfl
  · rw [taken, Pmm.take, Bitmap.test_set, decide_eq_true rfl, Bool.true_or]

/-- A section with more bytes in the file than in memory. -/
def badSection : MiraSectDesc where
  sectType := miraSectText
  sectFlags := 0
  vaddr := 0x1000
  memsz := 16
  filesz := 17
  fileOff := 104

/-- A program of that section. -/
def badProgram : List UInt8 := signed (sectionContainer badSection [])

/-- That program fails the checks of its only section. -/
theorem badProgram_section : (headerOf badProgram).sectCount = 1 ∧
    readSectDesc badProgram (headerOf badProgram).sectTableOff 0 = .ok badSection ∧
    ¬ SectionPasses badProgram badSection := by
  have valid : miraBinIsValid badProgram miraBinTypeMex = .ok true := sectionContainer_valid _ _
  -- The one section claims more bytes than the file has.
  obtain ⟨count, -, found⟩ := sectionContainer_section badSection []
  refine ⟨count, ?_, fun passes => absurd passes.short (by decide)⟩
  exact (readSectDesc_inside (isValid_iff.mp valid).1 (by decide) (by rw [badProgram]; omega)).trans
    (congrArg Except.ok found)

/--
In a kernel with one free page, a program with a bad section is rejected at once and leaves no trace.

The program of two pages is not: a page is mapped for it before it is rejected.
-/
theorem badProgram_no_trace :
    (miraLoad (kernelPlatform 1) 1 badProgram miraBinTypeMex onePageKernel = .ok (none, onePageKernel) ∧
      NoTrace onePageKernel onePageKernel) ∧
    ∃ next, miraLoad (kernelPlatform 1) 2 twoPageProgram miraBinTypeMex onePageKernel = .ok (none, next) ∧
      ¬ RejectedAtOnce twoPageProgram miraBinTypeMex onePagePmm := by
  constructor
  · have valid : miraBinIsValid badProgram miraBinTypeMex = .ok true := sectionContainer_valid _ _
    obtain ⟨count, read, fails⟩ := badProgram_section
    have rejected : miraLoad (kernelPlatform 1) 1 badProgram miraBinTypeMex onePageKernel =
        .ok (none, onePageKernel) := by
      rw [miraLoad_eq _ valid, mapImage, ← sectionLoop_eq]
      dsimp only
      rw [count, sectionLoop_fails read fails]
      rfl
    refine ⟨rejected, (rejected_no_trace_iff rfl rejected).mpr (.inr (.inr ⟨0, badSection, ?_, read, fails, ?_⟩))⟩
    · omega
    · intro j other below
      omega
  · obtain ⟨next, rejected, free, used⟩ := twoPageProgram_rejected
    refine ⟨next, rejected, fun atOnce => ?_⟩
    -- The page that was free is in use now, which is a trace.
    have same := ((rejected_no_trace_iff rfl rejected).mpr atOnce).bitmap
    rw [same, free] at used
    cases used

/-- The program of two pages leaves a trace where there is one page for it. -/
theorem twoPageProgram_leaves_trace :
    ∃ next, miraLoad (kernelPlatform 1) 2 twoPageProgram miraBinTypeMex onePageKernel = .ok (none, next) ∧
      ¬ NoTrace onePageKernel next := by
  obtain ⟨next, rejected, free, used⟩ := twoPageProgram_rejected
  -- Without a trace the page taken for the section would still be free.
  refine ⟨next, rejected, fun same => ?_⟩
  rw [same.bitmap, free] at used
  cases used

end MiraOS
