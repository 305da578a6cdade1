import MiraOS.Kernel.ProcessLaws

/-! What a process that could not be created leaves of the page bitmap. -/

namespace MiraOS

open Machine

/-- Every managed page between two free ones is free. -/
def NoGap (pmm : Pmm) : Prop :=
  ∀ low ∈ managedFree pmm, ∀ high ∈ managedFree pmm, ∀ page, low ≤ page → page ≤ high →
    page ∈ managedFree pmm

section

variable {pmm next after : Pmm} {address page first count i : Nat}

/-- A page that was handed out was the lowest free one. -/
theorem pmmAllocPage_lowest (nonzero : address ≠ 0) (ran : pmmAllocPage pmm = .ok (address, next)) :
    ∃ found ∈ managedFree pmm, found < maxPhysPages ∧ (∀ other ∈ managedFree pmm, found ≤ other) ∧
      address = found * pageSize ∧ next = pmm.take found := by
  -- Some free page of the managed range was handed out, so the scan stopped at the lowest one.
  rcases pmmAllocPage_ok ran with ⟨null, -⟩ | ⟨frame, within, -, here, -⟩
  · exact absurd null nonzero
  rcases pmmScan_ok ran with ⟨null, -⟩ | ⟨free, low, high, clear, same, -⟩
  · exact absurd null nonzero
  obtain rfl : frame = free := Nat.eq_of_mul_eq_mul_right (by decide) (here.symm.trans same)
  have member : frame ∈ managedFree pmm := by
    simp only [managedFree, Finset.mem_filter, Bitmap.mem_clearSet]
    exact ⟨⟨by omega, clear⟩, low⟩
  obtain ⟨found, among, below, before, result⟩ := pmmAllocPage_free member within
  obtain ⟨rfl, rfl⟩ := Prod.mk.injEq .. ▸ Except.ok.inj (result.symm.trans ran)
  refine ⟨found, among, by omega, fun other free => ?_, rfl, rfl⟩
  simp only [managedFree, Finset.mem_filter, Bitmap.mem_clearSet] at free
  by_contra lower
  rw [before other free.2 (by omega)] at free
  cases free.1.2

/-- Taking a page removes it from the free ones. -/
theorem managedFree_take (pmm : Pmm) (page : Nat) :
    managedFree (pmm.take page) = (managedFree pmm).erase page := by
  have range : (pmm.take page).memStart = pmm.memStart ∧ (pmm.take page).memEnd = pmm.memEnd := ⟨rfl, rfl⟩
  -- A page is free afterwards if it was before and is another one.
  ext other
  simp only [managedFree, Finset.mem_filter, Bitmap.mem_clearSet, take_test, range, Finset.mem_erase,
    Bool.or_eq_false_iff, decide_eq_false_iff_not]
  tauto

/-- A stack loop that fails has taken every free page, and gives back as many from the bottom on. -/
theorem stackLoop_failed {stackBottom : Nat} (start : pmm.memStart = 0x100000)
    (looped : stackLoop stackBottom count i pmm = .ok (false, after)) :
    ∃ full : Pmm, (∀ page, full.pageBitmap.test page =
        (decide (page ∈ managedFree pmm) || pmm.pageBitmap.test page)) ∧
      (managedFree pmm).card < count ∧
      freeStackPages stackBottom (i + (managedFree pmm).card) 0 full = .ok after := by
  -- Each turn of the loop takes one free page, until one finds none.
  induction count generalizing pmm i with
  | zero => cases looped
  | succ count ih =>
    obtain ⟨⟨pg, next⟩, ran, looped⟩ := bind_eq_ok.mp looped
    by_cases null : pg = 0
    · replace looped := (if_pos null).symm.trans looped
      obtain ⟨final, freed, result⟩ := bind_eq_ok.mp looped
      cases result
      rw [null] at ran
      obtain ⟨none, rfl⟩ := pmmAllocPage_null start ran
      refine ⟨next, fun page => by simp [none], by simp [none], ?_⟩
      rw [none, Finset.card_empty, Nat.add_zero]
      exact freed
    · replace looped := (if_neg null).symm.trans looped
      -- The page that this turn took was one of the free ones.
      obtain ⟨found, among, -, -, -, rfl⟩ := pmmAllocPage_lowest null ran
      obtain ⟨full, flags, short, freed⟩ := @ih (pmm.take found) (i + 1) start looped
      have fewer := Finset.card_erase_add_one among
      rw [managedFree_take] at flags short freed
      refine ⟨full, fun page => ?_, by omega, ?_⟩
      · -- The page of this turn counts as taken too.
        rw [flags page, take_test]
        by_cases here : page = found
        · simp [here, among]
        · simp [here]
      · have turns : i + 1 + ((managedFree pmm).erase found).card = i + (managedFree pmm).card := by omega
        rwa [turns] at freed

/-- The flags after a page is given back, be it used or not. -/
theorem pmmFreePage_test (ran : pmmFreePage pmm address = .ok after) (page : Nat) :
    after.pageBitmap.test page = (!decide (page = address / pageSize) && pmm.pageBitmap.test page) := by
  obtain ⟨used, tested, ran⟩ := bind_eq_ok.mp ran
  unfold bitmapTest at tested
  split at tested
  · rename_i inside
    cases tested
    -- Only a page in use has its flag cleared.
    cases used : pmm.pageBitmap.test (address / pageSize) with
    | true =>
      simp only [used, if_true, bitmapClear, if_pos inside, Bind.bind, Except.bind, Pure.pure,
        Except.pure] at ran
      cases ran
      exact Bitmap.test_clear ..
    | false =>
      -- A page that is free already is left alone.
      simp only [used, Pure.pure, Except.pure] at ran
      cases ran
      by_cases here : page = address / pageSize
      · simp [here, used]
      · simp [here]
  · cases tested

/-- The flags after the pages of a stack are given back. -/
theorem freeStackPages_test (small : first + i + count < 2 ^ 52)
    (ran : freeStackPages (first * pageSize) count i pmm = .ok after) (page : Nat) :
    after.pageBitmap.test page =
      (!decide (first + i ≤ page ∧ page < first + i + count) && pmm.pageBitmap.test page) := by
  -- Each turn clears one page more of the run.
  induction count generalizing pmm i with
  | zero =>
    cases ran
    have none : ¬ (first + i ≤ page ∧ page < first + i + 0) := by omega
    rw [decide_eq_false none]
    rfl
  | succ count ih =>
    obtain ⟨next, freed, rest⟩ := bind_eq_ok.mp ran
    -- The address of a turn is that of the page as many places from the bottom.
    have number : add64 (first * pageSize) (i * pageSize) / pageSize = first + i := by
      have sum : first * pageSize + i * pageSize < 2 ^ 64 := by
        simp only [pageSize]
        omega
      rw [add64_of_lt sum, ← Nat.add_mul]
      exact Nat.mul_div_cancel _ (by decide)
    rw [ih (by omega) rest, pmmFreePage_test freed, number, ← Bool.and_assoc, ← Bool.not_or,
      ← Bool.decide_or]
    congr 3
    apply propext
    omega

/-- The free pages have no gap exactly when they are the run from the lowest one on. -/
theorem noGap_iff_run {found : Nat} (among : found ∈ managedFree pmm)
    (lowest : ∀ other ∈ managedFree pmm, found ≤ other) :
    NoGap pmm ↔ managedFree pmm = Finset.Ico found (found + (managedFree pmm).card) := by
  constructor
  · intro whole
    -- All pages from the lowest up to a free one are free, so there are at least as many.
    have inside : managedFree pmm ⊆ Finset.Ico found (found + (managedFree pmm).card) := by
      intro page free
      have low := lowest page free
      have run : Finset.Icc found page ⊆ managedFree pmm := by
        intro other between
        rw [Finset.mem_Icc] at between
        exact whole found among page free other between.1 between.2
      have many := Finset.card_le_card run
      rw [Nat.card_Icc] at many
      rw [Finset.mem_Ico]
      omega
    -- The run has exactly as many pages as are free.
    refine Finset.eq_of_subset_of_card_le inside ?_
    rw [Nat.card_Ico]
    omega
  · intro run low below high above page start stop
    rw [run, Finset.mem_Ico] at below above ⊢
    omega

/-- The bitmap after a failed stack is the one before exactly when the free pages had no gap. -/
theorem failedStack_bitmap_iff (start : pmm.memStart = 0x100000) (failed : FailedStack pmm after) :
    after.pageBitmap = pmm.pageBitmap ↔ NoGap pmm := by
  rcases failed with none | ⟨stackBase, middle, taken, base, looped⟩
  · -- Without a first page nothing was taken.
    obtain ⟨empty, rfl⟩ := pmmAllocPage_null start none
    refine ⟨fun _ => ?_, fun _ => rfl⟩
    intro low free
    rw [empty] at free
    cases free
  obtain ⟨found, among, within, lowest, rfl, rfl⟩ := pmmAllocPage_lowest base taken
  have middle : (pmm.take found).memStart = 0x100000 := start
  obtain ⟨full, flags, short, freed⟩ := stackLoop_failed middle looped
  -- All free pages were taken; a run of as many, from the lowest on, was given back.
  have many : 1 + (managedFree (pmm.take found)).card = (managedFree pmm).card := by
    have fewer := Finset.card_erase_add_one among
    rw [managedFree_take]
    omega
  -- There were fewer free pages than a stack has, so no address wraps around.
  have few : (managedFree pmm).card < 2 ^ 20 := by
    have pages : stackPages = 256 := by decide
    omega
  rw [many] at freed
  have within : found < 131072 := within
  -- A flag is set afterwards if its page was taken and not given back.
  have final : ∀ page, after.pageBitmap.test page =
      (!decide (page ∈ Finset.Ico found (found + (managedFree pmm).card)) &&
        (decide (page ∈ managedFree pmm) || pmm.pageBitmap.test page)) := by
    intro page
    rw [freeStackPages_test (by omega) freed page, flags page, take_test, managedFree_take]
    by_cases here : page = found
    · simp [here, among]
    · simp [here]
  have clear : ∀ page ∈ managedFree pmm, pmm.pageBitmap.test page = false := by
    intro page free
    simp only [managedFree, Finset.mem_filter, Bitmap.mem_clearSet] at free
    exact free.1.2
  rw [noGap_iff_run among lowest]
  constructor
  · intro same
    -- A free page that was not given back would be marked as used now.
    have inside : managedFree pmm ⊆ Finset.Ico found (found + (managedFree pmm).card) := by
      intro page free
      by_contra outside
      have marked := final page
      rw [same, clear page free, decide_eq_false outside, decide_eq_true free] at marked
      cases marked
    refine Finset.eq_of_subset_of_card_le inside ?_
    rw [Nat.card_Ico]
    omega
  · intro run
    -- Two bitmaps are equal when all their flags are.
    apply Bitmap.ext_test
    intro page
    rw [final page, ← run]
    by_cases free : page ∈ managedFree pmm
    · rw [clear page free, decide_eq_true free]
      rfl
    · rw [decide_eq_false free]
      rfl

end

/--
A process that could not be created for want of pages.

The page bitmap is as it was before the first stack page was asked for exactly when the free pages of the
managed range were consecutive.
-/
theorem failed_create_bitmap_iff {kernel last : Kernel} {proc entryPoint : Nat} {name : List UInt8}
    (start : kernel.pmm.memStart = 0x100000) (real : proc ≠ 0)
    (failed : processCreate proc name entryPoint kernel = .ok (0, last)) :
    last.pmm.pageBitmap = kernel.pmm.pageBitmap ↔ NoGap kernel.pmm := by
  -- The creation fails at the null process, at its stack, or answers a process.
  rcases processCreate_cases failed with ⟨null, -, -⟩ | ⟨-, -, process, pmm, stack, rfl⟩ | ⟨-, null, -⟩
  · exact absurd null real
  · exact failedStack_bitmap_iff start stack
  · exact absurd null.symm real

/-- A page allocator of three pages above the first megabyte, with the one in the middle in use or not. -/
def threePagePmm (middle : Bool) : Pmm where
  pageBitmap := fun _ => if middle then 2 else 0
  totalPages := 3
  freePages := if middle then 2 else 3
  memStart := 0x100000
  memEnd := 0x103000

/-- Three pages are too few for a stack. -/
theorem threePagePmm_fails (middle : Bool) :
    ∃ last, processCreate 16 [] 0 (bootKernel (threePagePmm middle)) = .ok (0, last) := by
  -- Three pages are too few for a stack, whichever of them is used.
  obtain ⟨⟨answer, last⟩, created, null⟩ := @exists_ok Halt _
    (processCreate 16 [] 0 (bootKernel (threePagePmm middle))) (fun result => result.1 == 0)
    (by cases middle <;> decide +kernel)
  obtain rfl : answer = 0 := by simpa using null
  exact ⟨last, created⟩

/-- Three consecutive pages are given back. -/
theorem three_pages_restored :
    ∃ last, processCreate 16 [] 0 (bootKernel (threePagePmm false)) = .ok (0, last) ∧
      last.pmm.pageBitmap = (threePagePmm false).pageBitmap := by
  obtain ⟨last, failed⟩ := threePagePmm_fails false
  refine ⟨last, failed, (failed_create_bitmap_iff rfl (by decide) failed).mpr ?_⟩
  -- All three free pages lie side by side, so that nothing lies between two of them.
  have all : managedFree (threePagePmm false) = {256, 257, 258} := by decide +kernel
  intro low below high above page start stop
  change page ∈ managedFree (threePagePmm false)
  change low ∈ managedFree (threePagePmm false) at below
  change high ∈ managedFree (threePagePmm false) at above
  rw [all] at below above ⊢
  simp only [Finset.mem_insert, Finset.mem_singleton] at below above ⊢
  omega

/-- With a page in use between two free ones, that page is given back and the second one is not. -/
theorem gap_not_restored :
    ¬ ∀ (kernel last : Kernel) (proc entryPoint : Nat) (name : List UInt8),
      kernel.pmm.memStart = 0x100000 → proc ≠ 0 →
      processCreate proc name entryPoint kernel = .ok (0, last) →
      last.pmm.pageBitmap = kernel.pmm.pageBitmap := by
  intro claim
  obtain ⟨last, failed⟩ := threePagePmm_fails true
  have same := claim _ last 16 0 [] rfl (by decide) failed
  -- The second page of the rollback is that of another owner, and it is freed.
  rcases processCreate_cases failed with ⟨null, -, -⟩ | ⟨-, -, process, pmm, stack, rfl⟩ | ⟨-, null, -⟩
  · cases null
  · have whole := (failedStack_bitmap_iff rfl stack).mp same
    have free := whole 256 (by decide +kernel) 258 (by decide +kernel) 257 (by decide) (by decide)
    exact absurd free (by decide +kernel)
  · cases null

end MiraOS
