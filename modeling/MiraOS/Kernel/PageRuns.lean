import MiraOS.Kernel.MemLaws
import MiraOS.Kernel.Process

/-! Runs of consecutive pages: what the loops over a stack make of the page allocator. -/

namespace MiraOS

open Machine

/-- Take a run of pages. -/
def Pmm.takeRun (pmm : Pmm) (first : Nat) : Nat → Pmm
  | 0 => pmm
  | count + 1 => (pmm.take first).takeRun (first + 1) count

/-- Give back a run of pages. -/
def Pmm.giveBackRun (pmm : Pmm) (first : Nat) : Nat → Pmm
  | 0 => pmm
  | count + 1 => (pmm.giveBack first).giveBackRun (first + 1) count

/-- The lowest free pages of the managed range are consecutive, as far as counted. -/
structure FreeRun (pmm : Pmm) (first count : Nat) : Prop where
  -- The scan starts above page zero, so no page of it has the null address.
  positive : 0 < pmm.memStart / pageSize
  above : pmm.memStart / pageSize ≤ first
  managed : 0 < count → first + count ≤ pmm.memEnd / pageSize
  bitmap : pmm.memEnd / pageSize ≤ maxPhysPages
  used : ∀ page, pmm.memStart / pageSize ≤ page → page < first → pmm.pageBitmap.test page = true
  clear : ∀ page, first ≤ page → page < first + count → pmm.pageBitmap.test page = false

/-- No page of the managed range is free from a page on. -/
def FullFrom (pmm : Pmm) (first : Nat) : Prop :=
  ∀ page, first ≤ page → page < pmm.memEnd / pageSize → pmm.pageBitmap.test page = true

/-- A run that is not empty starts with its first page. -/
theorem takeRun_first (pmm : Pmm) (first : Nat) {count : Nat} (some : 0 < count) :
    pmm.takeRun first count = (pmm.take first).takeRun (first + 1) (count - 1) := by
  -- A run of at least one page starts with its first page.
  cases count with
  | zero => cases some
  | succ count => rfl

section

variable {pmm : Pmm} {first count page : Nat}

@[simp] theorem take_test (other : Nat) : (pmm.take page).pageBitmap.test other =
    (decide (other = page) || pmm.pageBitmap.test other) := Bitmap.test_set ..

@[simp] theorem giveBack_test (other : Nat) : (pmm.giveBack page).pageBitmap.test other =
    (!decide (other = page) && pmm.pageBitmap.test other) := Bitmap.test_clear ..

/-- The flags after taking a run of pages. -/
theorem takeRun_test (pmm : Pmm) (first count other : Nat) :
    (pmm.takeRun first count).pageBitmap.test other =
      (decide (first ≤ other ∧ other < first + count) || pmm.pageBitmap.test other) := by
  -- The first page of the run is taken before the others, so the induction moves it along.
  induction count generalizing pmm first with
  | zero => simp [Pmm.takeRun]
  | succ count ih =>
    rw [Pmm.takeRun, ih, take_test, ← Bool.or_assoc, ← Bool.decide_or]
    congr 2
    apply propext
    omega

/-- The flags after giving back a run of pages. -/
theorem giveBackRun_test (pmm : Pmm) (first count other : Nat) :
    (pmm.giveBackRun first count).pageBitmap.test other =
      (!decide (first ≤ other ∧ other < first + count) && pmm.pageBitmap.test other) := by
  -- As for taking, with the flags cleared.
  induction count generalizing pmm first with
  | zero =>
    have none : ¬ (first ≤ other ∧ other < first + 0) := by omega
    rw [Pmm.giveBackRun, decide_eq_false none]
    rfl
  | succ count ih =>
    rw [Pmm.giveBackRun, ih, giveBack_test, ← Bool.and_assoc, ← Bool.not_or, ← Bool.decide_or]
    congr 3
    apply propext
    omega

/-- A run of pages that is taken keeps the range of the scan. -/
theorem takeRun_range (pmm : Pmm) (first count : Nat) :
    (pmm.takeRun first count).memStart = pmm.memStart ∧
      (pmm.takeRun first count).memEnd = pmm.memEnd := by
  -- Induction on the count: taking a page moves no bound of the managed range.
  induction count generalizing pmm first with
  | zero => exact ⟨rfl, rfl⟩
  | succ count ih => exact ih (pmm.take first) (first + 1)

/-- A run of pages that is given back keeps the range of the scan. -/
theorem giveBackRun_range (pmm : Pmm) (first count : Nat) :
    (pmm.giveBackRun first count).memStart = pmm.memStart ∧
      (pmm.giveBackRun first count).memEnd = pmm.memEnd := by
  -- Induction on the count: giving a page back moves no bound of the managed range.
  induction count generalizing pmm first with
  | zero => exact ⟨rfl, rfl⟩
  | succ count ih => exact ih (pmm.giveBack first) (first + 1)

/-- An allocation takes the first page of a run of free ones. -/
theorem pmmAllocPage_run (run : FreeRun pmm first (count + 1)) :
    pmmAllocPage pmm = .ok (first * pageSize, pmm.take first) ∧
      FreeRun (pmm.take first) (first + 1) count := by
  have top := run.managed (Nat.succ_pos count)
  have clear := run.clear first (Nat.le_refl _) (by omega)
  constructor
  · rcases pmmAllocPage_cases pmm run.bitmap with ⟨found, low, high, free, before, result⟩ | ⟨full, _⟩
    · -- The page found is the first clear one, on both sides.
      have notBelow : ¬ found < first := fun below => by
        rw [run.used found low below] at free
        cases free
      have notAbove : ¬ first < found := fun above => by
        rw [before first run.above above] at clear
        cases clear
      obtain rfl : found = first := by omega
      exact result
    · rw [full first run.above (by omega)] at clear
      cases clear
  -- One page later the run is shorter by one, with one more used page below it.
  · refine ⟨run.positive, Nat.le_succ_of_le run.above, ?_, run.bitmap, ?_, ?_⟩
    · intro some
      show first + 1 + count ≤ pmm.memEnd / pageSize
      omega
    · intro page low high
      by_cases same : page = first
      · simp [same]
      · rw [take_test, run.used page low (by omega)]
        simp
    · intro page low high
      rw [take_test, run.clear page (by omega) (by omega)]
      simp
      omega

/-- The first page of a run has an address that is not null. -/
theorem FreeRun.address_ne_zero (run : FreeRun pmm first count) : first * pageSize ≠ 0 := by
  -- The managed range starts above page zero.
  have positive := run.positive
  have above := run.above
  exact Nat.mul_ne_zero (by omega) (by decide)

/-- A full range gives no page. -/
theorem pmmAllocPage_full (run : FreeRun pmm first 0) (full : FullFrom pmm first) :
    pmmAllocPage pmm = .ok (0, pmm) := by
  -- Neither below the run nor from it on is a page free.
  rcases pmmAllocPage_cases pmm run.bitmap with ⟨found, low, high, free, -, -⟩ | ⟨-, result⟩
  · by_cases below : found < first
    · rw [run.used found low below] at free
      cases free
    · rw [full found (by omega) high] at free
      cases free
  · exact result

/-- Taking a page leaves a full range full. -/
theorem FullFrom.take {start : Nat} (full : FullFrom pmm start) (page : Nat) :
    FullFrom (pmm.take page) start := by
  -- A used page stays used.
  intro other low high
  rw [take_test, full other low high, Bool.or_true]

/-- An allocation answers null, or takes a clear page. -/
theorem pmmAllocPage_ok {answer : Nat} {after : Pmm} (ran : pmmAllocPage pmm = .ok (answer, after)) :
    (answer = 0 ∧ after = pmm) ∨ ∃ frame, frame < maxPhysPages ∧ pmm.pageBitmap.test frame = false ∧
      answer = frame * pageSize ∧ after = pmm.take frame := by
  unfold pmmAllocPage at ran
  -- The scan passes over used pages, so the induction is on the pages it has left.
  generalize pmm.memEnd / pageSize - pmm.memStart / pageSize = count at ran
  generalize pmm.memStart / pageSize = page at ran
  induction count generalizing page with
  | zero =>
    cases ran
    exact .inl ⟨rfl, rfl⟩
  | succ count ih =>
    by_cases inside : page / 8 < bitmapSize
    · have within : page < maxPhysPages := by
        simp only [bitmapSize, maxPhysPages] at inside ⊢
        omega
      cases used : pmm.pageBitmap.test page with
      | true =>
        rw [pmmScan_used within used] at ran
        exact ih _ ran
      | false =>
        rw [pmmScan_clear within used] at ran
        cases ran
        exact .inr ⟨page, within, used, rfl, rfl⟩
    · -- Past the bitmap the scan stops.
      obtain ⟨flag, tested, -⟩ := bind_eq_ok.mp ran
      rw [bitmapTest, if_neg inside] at tested
      cases tested

/-- After the first pages of a run are taken, the others are the lowest free ones. -/
theorem FreeRun.rest {more : Nat} (run : FreeRun pmm first (count + more)) :
    FreeRun (pmm.takeRun first count) (first + count) more := by
  -- Pages of the run that were taken count as used ones below the rest.
  obtain ⟨positive, above, managed, bitmap, used, clear⟩ := run
  obtain ⟨start, stop⟩ := takeRun_range pmm first count
  refine ⟨?_, ?_, ?_, ?_, fun page low high => ?_, fun page low high => ?_⟩
  · rwa [start]
  · rw [start]
    omega
  · intro some
    have managed := managed (by omega)
    rw [stop]
    omega
  · rwa [stop]
  · rw [start] at low
    rw [takeRun_test]
    by_cases below : page < first
    · rw [used page low below, Bool.or_true]
    · have taken : first ≤ page ∧ page < first + count := by omega
      simp [taken]
  · have left : ¬ (first ≤ page ∧ page < first + count) := by omega
    rw [takeRun_test, clear page (by omega) (by omega), decide_eq_false left]
    rfl

/-- The first pages of a run are one. -/
theorem FreeRun.shorten {more : Nat} (run : FreeRun pmm first (count + more)) :
    FreeRun pmm first count := by
  refine ⟨run.positive, run.above, fun some => ?_, run.bitmap, run.used, fun page low high => ?_⟩
  · -- The shorter run ends before the longer one.
    have managed := run.managed (by omega)
    omega
  · exact run.clear page low (by omega)

/-- The flags after a run is taken and given back are those before. -/
theorem FreeRun.takenBack_test {more : Nat} (run : FreeRun pmm first (count + more)) (page : Nat) :
    ((pmm.takeRun first count).giveBackRun first count).pageBitmap.test page =
      pmm.pageBitmap.test page := by
  -- A page of the run was clear before, and every other page is left alone.
  rw [giveBackRun_test, takeRun_test]
  by_cases taken : first ≤ page ∧ page < first + count
  · rw [decide_eq_true taken, run.clear page taken.1 (by omega)]
    rfl
  · rw [decide_eq_false taken]
    rfl

/-- A run that is taken and given back is free again. -/
theorem FreeRun.takenBack {more : Nat} (run : FreeRun pmm first (count + more)) :
    FreeRun ((pmm.takeRun first count).giveBackRun first count) first (count + more) := by
  -- The range and all flags are as they were, so the conditions are the same.
  obtain ⟨start, stop⟩ := giveBackRun_range (pmm.takeRun first count) first count
  obtain ⟨taken, top⟩ := takeRun_range pmm first count
  have flags := run.takenBack_test
  obtain ⟨positive, above, managed, bitmap, used, clear⟩ := run
  rw [← taken, ← start] at positive above used
  rw [← top, ← stop] at managed bitmap
  refine ⟨positive, above, managed, bitmap, fun page low high => ?_, fun page low high => ?_⟩
  · exact (flags page).trans (used page low high)
  · exact (flags page).trans (clear page low high)

/-- The loop over a stack takes a run of free pages. -/
theorem stackLoop_complete {stackBottom i more : Nat} (run : FreeRun pmm first (count + more)) :
    stackLoop stackBottom count i pmm = .ok (true, pmm.takeRun first count) := by
  -- Each turn takes the first page of what is left of the run.
  induction count generalizing pmm first i with
  | zero => rfl
  | succ count ih =>
    have run : FreeRun pmm first (count + more + 1) := by
      have same : count + 1 + more = count + more + 1 := by omega
      rwa [same] at run
    obtain ⟨taken, rest⟩ := pmmAllocPage_run run
    rw [stackLoop, taken]
    exact (if_neg run.address_ne_zero).trans (ih rest)

/-- The loop over a stack ends early when the free pages end. -/
theorem stackLoop_short {stackBottom i want : Nat} (run : FreeRun pmm first count)
    (full : FullFrom pmm (first + count)) (short : count < want) :
    stackLoop stackBottom want i pmm =
      (freeStackPages stackBottom (i + count) 0 (pmm.takeRun first count)).map fun pmm =>
        (false, pmm) := by
  -- The turn that gets no page frees as many pages as there were turns, and fails.
  induction count generalizing pmm first i want with
  | zero =>
    obtain ⟨less, rfl⟩ : ∃ less, want = less + 1 := ⟨want - 1, by omega⟩
    rw [stackLoop, pmmAllocPage_full run full]
    cases freed : freeStackPages stackBottom i 0 pmm with
    | error halt =>
      show (do let pmm ← freeStackPages stackBottom i 0 pmm; return (false, pmm)) = _
      rw [freed, Nat.add_zero, Pmm.takeRun, freed]
      rfl
    | ok after =>
      show (do let pmm ← freeStackPages stackBottom i 0 pmm; return (false, pmm)) = _
      rw [freed, Nat.add_zero, Pmm.takeRun, freed]
      rfl
  | succ count ih =>
    obtain ⟨less, rfl⟩ : ∃ less, want = less + 1 := ⟨want - 1, by omega⟩
    obtain ⟨taken, rest⟩ := pmmAllocPage_run run
    -- After one page the full part begins at the same place.
    have others : FullFrom (pmm.take first) (first + 1 + count) := by
      rw [Nat.add_right_comm]
      exact full.take first
    have index : i + (count + 1) = i + 1 + count := by omega
    rw [stackLoop, taken, index]
    exact (if_neg run.address_ne_zero).trans (ih rest others (by omega))

/-- A run of used pages is given back, whatever their order in the address space of the stack. -/
theorem freeStackPages_run {i : Nat} (within : first + i + count ≤ maxPhysPages)
    (used : ∀ page, first + i ≤ page → page < first + i + count → pmm.pageBitmap.test page = true) :
    freeStackPages (first * pageSize) count i pmm = .ok (pmm.giveBackRun (first + i) count) := by
  -- The addresses of the stack are those of consecutive pages, so each turn frees the next one.
  induction count generalizing pmm i with
  | zero => rfl
  | succ count ih =>
    have small : first * pageSize + i * pageSize < 2 ^ 64 := by
      simp only [maxPhysPages, pageSize] at within ⊢
      omega
    have address : add64 (first * pageSize) (i * pageSize) = (first + i) * pageSize := by
      rw [add64_of_lt small, Nat.add_mul]
    rw [freeStackPages, address,
      pmmFreePage_used (by omega) (used (first + i) (Nat.le_refl _) (by omega))]
    refine ih (by omega) fun page low high => ?_
    rw [giveBack_test, used page (by omega) (by omega)]
    simp
    omega

end

/-- A page allocator with three stacks' worth of free pages above the first megabyte. -/
def spaciousPmm : Pmm where
  pageBitmap := fun _ => 0
  totalPages := 768
  freePages := 768
  memStart := 0x100000
  memEnd := 0x400000

/-- All pages of the spacious allocator are free. -/
theorem spaciousPmm_run : FreeRun spaciousPmm 256 768 := by
  -- The first 768 pages from 256 on are free and managed.
  refine ⟨by decide, by decide, fun _ => by decide, by decide, ?_, fun page _ _ => ?_⟩
  · intro page low high
    have start : spaciousPmm.memStart / pageSize = 256 := by decide
    omega
  · simp [spaciousPmm, Bitmap.test]

end MiraOS
