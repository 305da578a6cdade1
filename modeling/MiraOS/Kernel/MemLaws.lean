import MiraOS.Kernel.Mem

/-! Page frames are handed out exclusively, whatever the order of allocations and frees. -/

namespace MiraOS

open Machine

/-- Every page the bitmap describes has its byte inside the array. -/
theorem page_in_bitmap {page : Nat} (within : page < maxPhysPages) : page / 8 < bitmapSize := by
  simp only [maxPhysPages, bitmapSize] at *
  omega

/-- The allocator after handing out a page. -/
def Pmm.take (pmm : Pmm) (page : Nat) : Pmm :=
  { pmm with pageBitmap := pmm.pageBitmap.set page, freePages := sub64 pmm.freePages 1 }

/-- The allocator after getting a page back. -/
def Pmm.giveBack (pmm : Pmm) (page : Nat) : Pmm :=
  { pmm with pageBitmap := pmm.pageBitmap.clear page, freePages := add64 pmm.freePages 1 }

/-- A used page is skipped by the scan. -/
theorem pmmScan_used {pmm : Pmm} {count page : Nat} (within : page < maxPhysPages)
    (used : pmm.pageBitmap.test page = true) :
    pmmScan pmm (count + 1) page = pmmScan pmm count (page + 1) := by
  simp [pmmScan, bitmapTest, page_in_bitmap within, used, Bind.bind, Except.bind]

/-- A clear page stops the scan and is taken. -/
theorem pmmScan_clear {pmm : Pmm} {count page : Nat} (within : page < maxPhysPages)
    (free : pmm.pageBitmap.test page = false) :
    pmmScan pmm (count + 1) page = .ok (page * pageSize, pmm.take page) := by
  simp [pmmScan, bitmapTest, bitmapSet, page_in_bitmap within, free, Pmm.take, Bind.bind,
    Except.bind, Pure.pure, Except.pure]

/-- A scan whose range holds a clear page takes the first one. -/
theorem pmmScan_first {pmm : Pmm} {count page free : Nat} (low : page ≤ free)
    (high : free < page + count) (within : free < maxPhysPages)
    (clear : pmm.pageBitmap.test free = false) :
    ∃ found, page ≤ found ∧ found ≤ free ∧ pmm.pageBitmap.test found = false ∧
      (∀ other, page ≤ other → other < found → pmm.pageBitmap.test other = true) ∧
      pmmScan pmm count page = .ok (found * pageSize, pmm.take found) := by
  -- The induction follows the loop, one page closer to the clear one each turn.
  induction count generalizing page with
  | zero => omega
  | succ count ih =>
    have inside : page < maxPhysPages := by omega
    cases used : pmm.pageBitmap.test page with
    | false =>
      exact ⟨page, Nat.le_refl _, low, used, fun other above below => by omega,
        pmmScan_clear inside used⟩
    | true =>
      have later : page ≠ free := by
        rintro rfl
        rw [clear] at used
        cases used
      obtain ⟨found, above, below, foundClear, before, scanned⟩ :=
        ih (show page + 1 ≤ free by omega) (by omega)
      refine ⟨found, by omega, below, foundClear, ?_, (pmmScan_used inside used).trans scanned⟩
      intro other start stop
      rcases Nat.eq_or_lt_of_le start with same | beyond
      · exact same ▸ used
      · exact before other beyond stop

/-- A scan over used pages only returns null. -/
theorem pmmScan_full {pmm : Pmm} {count page : Nat} (within : page + count ≤ maxPhysPages)
    (full : ∀ other, page ≤ other → other < page + count → pmm.pageBitmap.test other = true) :
    pmmScan pmm count page = .ok (0, pmm) := by
  -- The scan moves on over every page until its range is used up.
  induction count generalizing page with
  | zero => rfl
  | succ count ih =>
    rw [pmmScan_used (by omega) (full page (Nat.le_refl _) (by omega))]
    exact ih (by omega) (fun other low high => full other (by omega) (by omega))

/-- A scan that comes to its end took a clear page of its range, or returned null. -/
theorem pmmScan_ok {pmm next : Pmm} {count page address : Nat}
    (scanned : pmmScan pmm count page = .ok (address, next)) :
    (address = 0 ∧ next = pmm) ∨ ∃ found, page ≤ found ∧ found < page + count ∧
      pmm.pageBitmap.test found = false ∧ address = found * pageSize ∧ next = pmm.take found := by
  induction count generalizing page with
  | zero =>
    cases scanned
    exact .inl ⟨rfl, rfl⟩
  | succ count ih =>
    -- A page whose byte is behind the array stops the scan without a result.
    by_cases within : page < maxPhysPages
    · cases used : pmm.pageBitmap.test page with
      | false =>
        rw [pmmScan_clear within used] at scanned
        cases scanned
        exact .inr ⟨page, Nat.le_refl _, by omega, used, rfl, rfl⟩
      | true =>
        rw [pmmScan_used within used] at scanned
        rcases ih scanned with null | ⟨found, low, high, rest⟩
        · exact .inl null
        · exact .inr ⟨found, by omega, by omega, rest⟩
    · have outside : ¬ page / 8 < bitmapSize := by
        simp only [maxPhysPages, bitmapSize] at *
        omega
      simp [pmmScan, bitmapTest, outside, Bind.bind, Except.bind] at scanned

/-- An allocation takes the lowest page of those the bitmap shows as free. -/
theorem pmmAllocPage_free {pmm : Pmm} {free : Nat} (member : free ∈ managedFree pmm)
    (within : free < maxPhysPages) :
    ∃ found ∈ managedFree pmm, found ≤ free ∧
      (∀ other, pmm.memStart / pageSize ≤ other → other < found →
        pmm.pageBitmap.test other = true) ∧
      pmmAllocPage pmm = .ok (found * pageSize, pmm.take found) := by
  -- The page is in the scanned range, so the scan stops there at the latest.
  simp only [managedFree, Finset.mem_filter, Bitmap.mem_clearSet] at member ⊢
  obtain ⟨⟨high, clear⟩, low⟩ := member
  obtain ⟨found, above, below, foundClear, before, scanned⟩ :=
    pmmScan_first low (show free < pmm.memStart / pageSize +
      (pmm.memEnd / pageSize - pmm.memStart / pageSize) by omega) within clear
  exact ⟨found, ⟨⟨by omega, foundClear⟩, above⟩, below, before, scanned⟩

/-- An allocation takes the lowest clear page of the managed range, or returns null. -/
theorem pmmAllocPage_cases (pmm : Pmm) (managed : pmm.memEnd / pageSize ≤ maxPhysPages) :
    (∃ found, pmm.memStart / pageSize ≤ found ∧ found < pmm.memEnd / pageSize ∧
      pmm.pageBitmap.test found = false ∧
      (∀ other, pmm.memStart / pageSize ≤ other → other < found →
        pmm.pageBitmap.test other = true) ∧
      pmmAllocPage pmm = .ok (found * pageSize, pmm.take found)) ∨
    ((∀ other, pmm.memStart / pageSize ≤ other → other < pmm.memEnd / pageSize →
        pmm.pageBitmap.test other = true) ∧
      pmmAllocPage pmm = .ok (0, pmm)) := by
  -- Either some page of the range is free, or the whole range is scanned in vain.
  by_cases some : ∃ free, free ∈ managedFree pmm
  · obtain ⟨free, member⟩ := some
    have within : free < maxPhysPages := by
      simp only [managedFree, Finset.mem_filter, Bitmap.mem_clearSet] at member
      omega
    obtain ⟨found, member, _, before, result⟩ := pmmAllocPage_free member within
    simp only [managedFree, Finset.mem_filter, Bitmap.mem_clearSet] at member
    exact .inl ⟨found, member.2, member.1.1, member.1.2, before, result⟩
  · have full : ∀ other, pmm.memStart / pageSize ≤ other → other < pmm.memEnd / pageSize →
        pmm.pageBitmap.test other = true := by
      intro other low high
      cases flag : pmm.pageBitmap.test other with
      | true => rfl
      | false => exact absurd ⟨other, by simp [managedFree, low, high, flag]⟩ some
    refine .inr ⟨full, ?_⟩
    -- An empty range is scanned zero times, and otherwise the range ends where the loop does.
    rcases Nat.le_total (pmm.memEnd / pageSize) (pmm.memStart / pageSize) with empty | ordered
    · simp [pmmAllocPage, Nat.sub_eq_zero_of_le empty, pmmScan]
    · exact pmmScan_full (by omega) (fun other low high => full other low (by omega))

/-- A scan that returns null found no free page, if it does not start at page zero. -/
theorem pmmScan_null {pmm next : Pmm} {count page : Nat} (positive : 0 < page)
    (scanned : pmmScan pmm count page = .ok (0, next)) {other : Nat} (low : page ≤ other)
    (high : other < page + count) : pmm.pageBitmap.test other = true := by
  induction count generalizing page with
  | zero => omega
  | succ count ih =>
    -- A page whose byte is behind the array stops the scan, and a free page is the result.
    obtain ⟨used, tested, rest⟩ := bind_eq_ok.mp scanned
    unfold bitmapTest at tested
    split at tested
    swap
    · cases tested
    -- A free page would be the answer, which is not null for a page other than zero.
    cases used with
    | false =>
      obtain ⟨taken, -, result⟩ := bind_eq_ok.mp rest
      have null : page * pageSize = 0 := congrArg Prod.fst (Except.ok.inj result)
      simp only [pageSize] at null
      omega
    | true =>
      by_cases here : other = page
      · rw [here]
        exact Except.ok.inj tested
      · exact ih (by omega) rest (by omega) (by omega)

/-- The page allocator returns null only if it has no free page, and is then left as it is. -/
theorem pmmAllocPage_null {pmm next : Pmm} (start : pmm.memStart = 0x100000)
    (allocated : pmmAllocPage pmm = .ok (0, next)) : managedFree pmm = ∅ ∧ next = pmm := by
  -- The scan starts at the first megabyte, so page zero is never tried.
  have first : pmm.memStart / pageSize = 256 := by
    rw [start]
    rfl
  constructor
  · apply Finset.eq_empty_of_forall_notMem
    intro page free
    simp only [managedFree, Finset.mem_filter, Bitmap.mem_clearSet] at free
    have used := pmmScan_null (by omega) allocated free.2 (by omega)
    rw [used] at free
    cases free.1.2
  · rcases pmmScan_ok allocated with ⟨-, same⟩ | ⟨found, low, -, -, null, -⟩
    · exact same
    · simp only [pageSize] at null low
      omega

/-- Giving back a page that is in use clears its flag and counts it. -/
theorem pmmFreePage_used {pmm : Pmm} {page : Nat} (within : page < maxPhysPages)
    (used : pmm.pageBitmap.test page = true) :
    pmmFreePage pmm (page * pageSize) = .ok (pmm.giveBack page) := by
  have inside := page_in_bitmap within
  -- The address is that of the page, so the division gives its number back.
  have number : page * pageSize / pageSize = page := Nat.mul_div_cancel _ (by decide)
  simp [pmmFreePage, bitmapTest, bitmapClear, inside, used, number, Pmm.giveBack,
    Bind.bind, Except.bind, Pure.pure, Except.pure]

/-- The allocator together with the pages its callers hold. -/
structure PmmSystem where
  pmm : Pmm
  -- Addresses returned to a caller and not given back since.
  held : List Nat

/-- What a caller of the allocator can do. -/
inductive PmmOp where
  -- Ask for a page.
  | alloc
  -- Give a page back.
  | free (page : Nat)

/-- One call, where only pages currently held are given back. -/
inductive PmmStep : PmmSystem → PmmOp → PmmSystem → Prop where
  -- A null result adds nothing to the pages held.
  | null {system : PmmSystem} {pmm : Pmm} (called : pmmAllocPage system.pmm = .ok (0, pmm)) :
      PmmStep system .alloc ⟨pmm, system.held⟩
  | page {system : PmmSystem} {page : Nat} {pmm : Pmm} (nonzero : page ≠ 0)
      (called : pmmAllocPage system.pmm = .ok (page, pmm)) :
      PmmStep system .alloc ⟨pmm, page :: system.held⟩
  | free {system : PmmSystem} {page : Nat} {pmm : Pmm} (holds : page ∈ system.held)
      (called : pmmFreePage system.pmm page = .ok pmm) :
      PmmStep system (.free page) ⟨pmm, system.held.erase page⟩

/-- Every held page is a whole frame of the bitmap, marked as used and held once. -/
structure HeldInUse (system : PmmSystem) : Prop where
  distinct : system.held.Nodup
  inUse : ∀ page ∈ system.held, ∃ frame, page = frame * pageSize ∧ frame < maxPhysPages ∧
    system.pmm.pageBitmap.test frame = true

/-- Clear flags of the whole bitmap. -/
def clearPages (pmm : Pmm) : Nat := (pmm.pageBitmap.clearSet maxPhysPages).card

/-- The free counter drifts from the clear flags exactly as far as it did in another state. -/
def SameDrift (first second : Pmm) : Prop :=
  (first.freePages + clearPages second) % 2 ^ 64 = (second.freePages + clearPages first) % 2 ^ 64

/-- What holds between the first state of a run and every later one. -/
structure PmmReached (start system : PmmSystem) : Prop where
  held : HeldInUse system
  memStart : system.pmm.memStart = start.pmm.memStart
  memEnd : system.pmm.memEnd = start.pmm.memEnd
  drift : SameDrift start.pmm system.pmm

/-- Handing out a clear page keeps the drift of the counter. -/
theorem SameDrift.take {start pmm : Pmm} {page : Nat} (drift : SameDrift start pmm)
    (within : page < maxPhysPages) (free : pmm.pageBitmap.test page = false) :
    SameDrift start (pmm.take page) := by
  -- One flag and one count go together.
  have counted := Bitmap.card_clearSet_set within free
  simp only [SameDrift, clearPages, Pmm.take, sub64] at *
  omega

/-- Getting back a used page keeps the drift of the counter. -/
theorem SameDrift.giveBack {start pmm : Pmm} {page : Nat} (drift : SameDrift start pmm)
    (within : page < maxPhysPages) (used : pmm.pageBitmap.test page = true) :
    SameDrift start (pmm.giveBack page) := by
  -- Again one flag and one count go together.
  have counted := Bitmap.card_clearSet_clear within used
  simp only [SameDrift, clearPages, Pmm.giveBack, add64] at *
  omega

/-- A page the bitmap shows as clear is held by nobody. -/
theorem HeldInUse.not_held {system : PmmSystem} (held : HeldInUse system) {frame : Nat}
    (free : system.pmm.pageBitmap.test frame = false) : frame * pageSize ∉ system.held := by
  -- A held page is marked as used, and the address determines the page.
  intro member
  obtain ⟨other, same, _, used⟩ := held.inUse _ member
  have equal : frame = other := Nat.eq_of_mul_eq_mul_right (by decide) same
  rw [equal, used] at free
  cases free

/-- Handing out a clear page keeps every page held in use. -/
theorem HeldInUse.take {system : PmmSystem} (held : HeldInUse system) {frame : Nat}
    (within : frame < maxPhysPages) (free : system.pmm.pageBitmap.test frame = false) :
    HeldInUse ⟨system.pmm.take frame, frame * pageSize :: system.held⟩ where
  distinct := List.nodup_cons.mpr ⟨held.not_held free, held.distinct⟩
  inUse := by
    intro page member
    -- The new page is marked, and the marks of the others stay.
    rcases List.mem_cons.mp member with same | member
    · exact ⟨frame, same, within, by simp [Pmm.take, Bitmap.test_set]⟩
    · obtain ⟨other, same, below, used⟩ := held.inUse page member
      exact ⟨other, same, below, by simp [Pmm.take, Bitmap.test_set, used]⟩

/-- Giving back one held page leaves the other held pages in use. -/
theorem HeldInUse.giveBack {system : PmmSystem} (held : HeldInUse system) (frame : Nat) :
    HeldInUse ⟨system.pmm.giveBack frame, system.held.erase (frame * pageSize)⟩ where
  distinct := held.distinct.erase _
  inUse := by
    intro page member
    -- A page still in the list after the removal is another frame, whose flag is untouched.
    obtain ⟨differ, member⟩ := (List.Nodup.mem_erase_iff held.distinct).mp member
    obtain ⟨other, same, below, used⟩ := held.inUse page member
    have apart : other ≠ frame := by rintro rfl; exact differ same
    exact ⟨other, same, below, by simp [Pmm.giveBack, Bitmap.test_clear, apart, used]⟩

/-- One call keeps what is known of every reached state. -/
theorem PmmReached.step {start system next : PmmSystem} {op : PmmOp}
    (managed : start.pmm.memEnd / pageSize ≤ maxPhysPages) (reached : PmmReached start system)
    (step : PmmStep system op next) : PmmReached start next := by
  have managedHere : system.pmm.memEnd / pageSize ≤ maxPhysPages := reached.memEnd ▸ managed
  have outcome := pmmAllocPage_cases system.pmm managedHere
  cases step with
  | null called =>
    -- A null result is the scan's second outcome, or the frame at address zero.
    rcases outcome with ⟨found, low, high, free, _, result⟩ | ⟨_, result⟩
    · rw [result] at called
      obtain ⟨zero, rfl⟩ := Prod.mk.injEq .. ▸ Except.ok.inj called
      exact {
        held := ⟨reached.held.distinct, fun page member =>
          (reached.held.take (by omega) free).inUse page (List.mem_cons_of_mem _ member)⟩
        memStart := reached.memStart
        memEnd := reached.memEnd
        drift := reached.drift.take (by omega) free }
    · rw [result] at called
      obtain ⟨_, rfl⟩ := Prod.mk.injEq .. ▸ Except.ok.inj called
      exact ⟨reached.held, reached.memStart, reached.memEnd, reached.drift⟩
  -- The frame that is handed out was free, and it is used from now on.
  | page nonzero called =>
    rcases outcome with ⟨found, low, high, free, _, result⟩ | ⟨_, result⟩
    · rw [result] at called
      obtain ⟨rfl, rfl⟩ := Prod.mk.injEq .. ▸ Except.ok.inj called
      exact ⟨reached.held.take (by omega) free, reached.memStart, reached.memEnd,
        reached.drift.take (by omega) free⟩
    · rw [result] at called
      obtain ⟨zero, _⟩ := Prod.mk.injEq .. ▸ Except.ok.inj called
      exact absurd zero.symm nonzero
  -- The frame that is given back was held, so its flag was set.
  | free holds called =>
    obtain ⟨frame, rfl, within, used⟩ := reached.held.inUse _ holds
    rw [pmmFreePage_used within used] at called
    cases called
    exact ⟨reached.held.giveBack frame, reached.memStart, reached.memEnd,
      reached.drift.giveBack within used⟩

/-- A run keeps its invariant, from any state in which the held pages are in use. -/
theorem pmmReached_of_run {start final : PmmSystem} {ops : List PmmOp}
    (managed : start.pmm.memEnd / pageSize ≤ maxPhysPages) (held : HeldInUse start)
    (run : Run PmmStep start ops final) : PmmReached start final := by
  -- The counter starts with no drift at all.
  have reached : PmmReached start start := ⟨held, rfl, rfl, Eq.refl _⟩
  exact run.preserves (PmmReached start) (fun reached step => reached.step managed step) reached

/--
Page frames are exclusive over every run of allocations and frees.

In every reached state an allocation returns null exactly when the managed range is full.
Otherwise it returns a clear page of that range which nobody holds.
Each call changes only the flag of its own page.
The free counter keeps its distance to the number of clear flags.
-/
theorem pmm_frames_exclusive {start final : PmmSystem} {ops : List PmmOp}
    (low : start.pmm.memStart = 0x100000) (managed : start.pmm.memEnd / 4096 ≤ 131072)
    (held : HeldInUse start) (run : Run PmmStep start ops final) :
    (∃ page next, pmmAllocPage final.pmm = .ok (page, next) ∧
      (page = 0 ↔ ∀ frame, 256 ≤ frame → frame < start.pmm.memEnd / 4096 →
        final.pmm.pageBitmap.test frame = true) ∧
      (page = 0 → next = final.pmm) ∧
      (page ≠ 0 → page ∉ final.held ∧
        ∃ frame, page = frame * 4096 ∧ 256 ≤ frame ∧ frame < start.pmm.memEnd / 4096 ∧
          final.pmm.pageBitmap.test frame = false ∧ next.pageBitmap.test frame = true ∧
          ∀ other, other ≠ frame → next.pageBitmap.test other = final.pmm.pageBitmap.test other)) ∧
    (∀ page ∈ final.held, ∃ next, pmmFreePage final.pmm page = .ok next ∧
      next.pageBitmap.test (page / 4096) = false ∧
      ∀ other, other ≠ page / 4096 →
        next.pageBitmap.test other = final.pmm.pageBitmap.test other) ∧
    SameDrift start.pmm final.pmm := by
  have reached := pmmReached_of_run managed held run
  -- The scan of the reached state covers the range that the first state managed.
  have bottom : final.pmm.memStart / pageSize = 256 := by rw [reached.memStart, low]; decide
  have top : final.pmm.memEnd / pageSize = start.pmm.memEnd / 4096 := by rw [reached.memEnd]; rfl
  have outcome := pmmAllocPage_cases final.pmm (by rw [top]; exact managed)
  rw [bottom, top] at outcome
  refine ⟨?_, ?_, reached.drift⟩
  · rcases outcome with ⟨found, low, high, free, _, result⟩ | ⟨full, result⟩
    · -- The scan starts above page zero, so a page that was found is never null.
      have nonzero : found * pageSize ≠ 0 := Nat.mul_ne_zero (by omega) (by decide)
      refine ⟨found * pageSize, final.pmm.take found, result, ?_, fun zero => absurd zero nonzero, ?_⟩
      · refine ⟨fun zero => absurd zero nonzero, fun full => ?_⟩
        rw [full found low high] at free
        cases free
      · intro _
        refine ⟨reached.held.not_held free, found, rfl, low, high, free, ?_, ?_⟩
        · simp [Pmm.take, Bitmap.test_set]
        · intro other differ
          simp [Pmm.take, Bitmap.test_set, differ]
    · exact ⟨0, final.pmm, result, ⟨fun _ => full, fun _ => rfl⟩, fun _ => rfl,
        fun nonzero => absurd rfl nonzero⟩
  · intro page member
    obtain ⟨frame, rfl, within, used⟩ := reached.held.inUse page member
    have number : frame * pageSize / 4096 = frame := Nat.mul_div_cancel _ (by decide)
    refine ⟨_, pmmFreePage_used within used, ?_, ?_⟩
    · simp [Pmm.giveBack, Bitmap.test_clear, number]
    · intro other differ
      rw [number] at differ
      simp [Pmm.giveBack, Bitmap.test_clear, differ]

/-- An allocator of two free pages above the first megabyte. -/
def twoPagePmm : Pmm where
  pageBitmap := fun _ => 0
  totalPages := 131072
  freePages := 131072
  memStart := 0x100000
  memEnd := 0x102000

/-- After the first of the two pages is taken, the next allocation returns a page not held. -/
theorem twoPagePmm_exclusive :
    ∃ page next, pmmAllocPage (twoPagePmm.take 256) = .ok (page, next) ∧
      (page ≠ 0 → page ∉ [0x100000]) := by
  have taken : pmmAllocPage twoPagePmm = .ok (0x100000, twoPagePmm.take 256) := rfl
  -- The first page is held, and the second one is handed out next.
  have run : Run PmmStep ⟨twoPagePmm, []⟩ [.alloc] ⟨twoPagePmm.take 256, [0x100000]⟩ :=
    .cons (.page (by decide) taken) (.nil _)
  obtain ⟨⟨page, next, result, _, _, fresh⟩, _⟩ :=
    pmm_frames_exclusive rfl (by decide) ⟨List.nodup_nil, by simp⟩ run
  exact ⟨page, next, result, fun nonzero => (fresh nonzero).1⟩

end MiraOS
