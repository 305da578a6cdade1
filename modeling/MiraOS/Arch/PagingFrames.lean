import MiraOS.Arch.PagingRefinement
import MiraOS.Kernel.MemBoot

/-! How many page frames one mapping takes, and when the recursion behind it ends. -/

namespace MiraOS

open Machine

/-- What the allocator keeps from boot on: its scan starts at one megabyte, inside the bitmap. -/
structure BootedPmm (pmm : Pmm) : Prop where
  start : pmm.memStart = 0x100000
  within : ∀ page, pmm.pageBitmap.test page = false → page < maxPhysPages

/-- A page the allocator can still hand out lies above one megabyte and inside the bitmap. -/
theorem BootedPmm.mem_managedFree {pmm : Pmm} (booted : BootedPmm pmm) {page : Nat} :
    page ∈ managedFree pmm ↔
      256 ≤ page ∧ page < pmm.memEnd / pageSize ∧ pmm.pageBitmap.test page = false := by
  have first : pmm.memStart / pageSize = 256 := by rw [booted.start]; rfl
  simp only [managedFree, Finset.mem_filter, Bitmap.mem_clearSet, first]
  tauto

/-- Handing out a page keeps what the allocator has from boot. -/
theorem BootedPmm.take {pmm : Pmm} (booted : BootedPmm pmm) (page : Nat) :
    BootedPmm (pmm.take page) where
  start := booted.start
  within := by
    -- A page still free after the taking was free before it.
    intro other free
    simp only [Pmm.take, Bitmap.test_set, Bool.or_eq_false_iff] at free
    exact booted.within other free.2

/-- Handing out a free page leaves one page fewer. -/
theorem BootedPmm.managedFree_take {pmm : Pmm} (booted : BootedPmm pmm) (page : Nat) :
    managedFree (pmm.take page) = (managedFree pmm).erase page := by
  ext other
  -- Both sides ask for a free page of the managed range, and taking sets one bit of it.
  rw [Finset.mem_erase, booted.mem_managedFree, (booted.take page).mem_managedFree]
  simp only [Pmm.take, Bitmap.test_set, Bool.or_eq_false_iff, decide_eq_false_iff_not]
  tauto

/-- The frames the allocator hands out next, when it has enough of them. -/
theorem BootedPmm.supplies {pmm : Pmm} (booted : BootedPmm pmm) (count : Nat)
    (enough : count ≤ (managedFree pmm).card) :
    ∃ frames last, allocPages count pmm = .ok (frames, last) ∧
      Supplies pmmAllocPage pmm frames last ∧ frames.length = count ∧ frames.Nodup ∧
      (∀ frame ∈ frames, ∃ page ∈ managedFree pmm, frame = page * pageSize) ∧
      (managedFree last).card + count = (managedFree pmm).card ∧ BootedPmm last ∧
      ∀ page, last.pageBitmap.test page = true ↔
        pmm.pageBitmap.test page = true ∨ page * pageSize ∈ frames := by
  -- Induction on the number of frames; each allocation takes the lowest free page.
  induction count generalizing pmm with
  | zero =>
    exact ⟨[], pmm, rfl, .nil _, rfl, List.nodup_nil, by simp, by simp, booted, by simp⟩
  | succ count ih =>
    obtain ⟨free, member⟩ := Finset.card_pos.mp (show 0 < (managedFree pmm).card by omega)
    have inside := booted.within free (booted.mem_managedFree.mp member).2.2
    obtain ⟨found, foundFree, _, _, taken⟩ := pmmAllocPage_free member inside
    have shrunk := booted.managedFree_take found
    have counted := Finset.card_erase_of_mem foundFree
    rw [← shrunk] at counted
    obtain ⟨frames, last, allocated, supplies, length, distinct, fromFree, left, bootedLast, flags⟩ :=
      ih (booted.take found) (by omega)
    refine ⟨found * pageSize :: frames, last, ?_, .cons taken supplies, by simp [length], ?_, ?_, ?_,
      bootedLast, ?_⟩
    · simp [allocPages, taken, allocated, Bind.bind, Except.bind, Pure.pure, Except.pure]
    · -- A page handed out later is another one, because the first one is marked.
      refine List.nodup_cons.mpr ⟨fun again => ?_, distinct⟩
      obtain ⟨page, free, same⟩ := fromFree _ again
      rw [shrunk] at free
      exact Finset.ne_of_mem_erase free (Nat.eq_of_mul_eq_mul_right (by decide) same).symm
    · intro frame member
      rcases List.mem_cons.mp member with same | member
      · exact ⟨found, foundFree, same⟩
      · obtain ⟨page, free, same⟩ := fromFree frame member
        rw [shrunk] at free
        exact ⟨page, Finset.mem_of_mem_erase free, same⟩
    · omega
    · intro page
      rw [flags page]
      simp only [Pmm.take, Bitmap.test_set, Bool.or_eq_true, decide_eq_true_eq, List.mem_cons]
      have cancel : page * pageSize = found * pageSize ↔ page = found :=
        ⟨Nat.eq_of_mul_eq_mul_right (by decide), fun same => by rw [same]⟩
      rw [cancel, or_assoc, or_left_comm]

/-- The four static tables. -/
def BootTables.all (boot : BootTables) : List Nat := [boot.pml4, boot.pdpt, boot.pd, boot.pt]

/--
The frames a mapping is about to take can become tables without a further table.

None of them is a boot table, and each lies where a last-level table already exists.
-/
def CoveredFrames (boot : BootTables) (paging : Paging Pmm) (virt : Nat) : Prop :=
  ∀ frames last,
    allocPages (tablesNeeded paging.mem paging.pml4Root virt) paging.pmm = .ok (frames, last) →
    ∀ frame ∈ frames, frame ∉ boot.all ∧ tablesNeeded paging.mem paging.pml4Root frame = 0

/-- A call whose frames are there and are covered, or an unmapping. -/
inductive CoveredStep (boot : BootTables) (fuel : Nat) :
    Paging Pmm → PagingOp → Paging Pmm → Prop where
  | map {paging next : Paging Pmm} {virt phys flags : Nat} (fits : phys < 2 ^ 64)
      (flagsFit : flags < 2 ^ 64) (covered : CoveredFrames boot paging virt)
      (enough : tablesNeeded paging.mem paging.pml4Root virt ≤ (managedFree paging.pmm).card)
      (called : pagingMapPage pmmAllocPage (fuel + 2) paging virt phys flags = .ok (virt, next)) :
      CoveredStep boot fuel paging (.map virt phys flags) next
  | unmap {paging next : Paging Pmm} {virt : Nat}
      (called : pagingUnmapPage pmmAllocPage paging virt = .ok next) :
      CoveredStep boot fuel paging (.unmap virt) next

/-- What holds in every reached state: the tables form a tree, and those not static are marked as used. -/
structure FramesReached (boot : BootTables) (paging : Paging Pmm) (tables : Tables)
    (pages : Nat → Option Nat) : Prop where
  rep : PagingRep paging tables pages
  booted : BootedPmm paging.pmm
  marked : ∀ {path table}, tables path = some table →
    table ∈ boot.all ∨ paging.pmm.pageBitmap.test (table / pageSize) = true

/-- A last table exists for every address that needs no new one. -/
theorem PagingRep.covered {σ : Type} {paging : Paging σ} {tables : Tables}
    {pages : Nat → Option Nat} (rep : PagingRep paging tables pages) {virt : Nat}
    (none_ : tablesNeeded paging.mem paging.pml4Root virt = 0) :
    ∃ pt, tables (tablePath virt) = some pt := by
  -- Nothing is missing along the path, so its last table is there.
  rw [rep.tree.tablesNeeded_eq rep.root] at none_
  cases here : tables (tablePath virt) with
  | some pt => exact ⟨pt, rfl⟩
  | none =>
    have absent : tables ([] ++ [pml4Index virt] ++ [pdptIndex virt] ++ [pdIndex virt]) = none := here
    simp only [missingTables, tablePath, if_pos absent] at none_
    omega

/-- A mapped entry fits a word, whatever its flags. -/
theorem leafValue_lt {phys flags : Nat} (fits : phys < 2 ^ 64) (flagsFit : flags < 2 ^ 64) :
    leafValue phys flags < 2 ^ 64 := by
  have masked : phys &&& highMask 12 < 2 ^ 64 := Nat.lt_of_le_of_lt Nat.and_le_left fits
  exact Nat.or_lt_two_pow (Nat.or_lt_two_pow (Nat.or_lt_two_pow masked flagsFit) (by decide))
    (by decide)

/-- A covered call returns, takes one frame per missing table and keeps the tree. -/
theorem FramesReached.map {boot : BootTables} {paging : Paging Pmm} {tables : Tables}
    {pages : Nat → Option Nat} (reached : FramesReached boot paging tables pages) (fuel : Nat)
    {virt phys flags : Nat} (fits : phys < 2 ^ 64) (flagsFit : flags < 2 ^ 64)
    (covered : CoveredFrames boot paging virt)
    (enough : tablesNeeded paging.mem paging.pml4Root virt ≤ (managedFree paging.pmm).card) :
    ∃ next, pagingMapPage pmmAllocPage (fuel + 2) paging virt phys flags = .ok (virt, next) ∧
      (managedFree next.pmm).card + tablesNeeded paging.mem paging.pml4Root virt =
        (managedFree paging.pmm).card ∧
      ∃ grown mapped, FramesReached boot next grown mapped := by
  obtain ⟨frames, last, allocated, supplies, length, distinct, fromFree, left, booted, flagsLast⟩ :=
    reached.booted.supplies _ enough
  have usable : TableFrames tables frames := by
    refine ⟨distinct, fun frame member => ?_⟩
    obtain ⟨page, free, rfl⟩ := fromFree frame member
    obtain ⟨above, _, clear⟩ := reached.booted.mem_managedFree.mp free
    have below := reached.booted.within page clear
    obtain ⟨notBoot, existing⟩ := covered _ _ allocated _ member
    have number : page * pageSize / pageSize = page := Nat.mul_div_cancel _ (by decide)
    simp only [maxPhysPages] at below
    refine ⟨Nat.mul_mod_left _ _, by simp only [pageSize]; omega, by simp only [pageSize]; omega, ?_,
      reached.rep.covered existing⟩
    -- A table that is not static is marked as used, and this page is not.
    intro path found
    rcases reached.marked found with static | used
    · exact notBoot static
    · rw [number, clear] at used
      cases used
  obtain ⟨next, grown, called, pmm, mapped, _, origin⟩ :=
    pagingMapPage_create reached.rep (leafValue_lt fits flagsFit) supplies usable
      (length.trans (reached.rep.tree.tablesNeeded_eq reached.rep.root virt))
  refine ⟨next, called, by rw [pmm]; exact left, grown, _, mapped, by rw [pmm]; exact booted, ?_⟩
  intro path table found
  rw [pmm]
  rcases origin found with old | new
  · refine (reached.marked old).imp_right fun used => ?_
    exact (flagsLast _).mpr (.inl used)
  · obtain ⟨page, _, rfl⟩ := fromFree table new
    have number : page * pageSize / pageSize = page := Nat.mul_div_cancel _ (by decide)
    rw [number]
    exact .inr ((flagsLast page).mpr (.inr new))

/-- One covered call or unmapping keeps what holds in every reached state. -/
theorem FramesReached.step {boot : BootTables} {fuel : Nat} {paging next : Paging Pmm} {op : PagingOp}
    (reached : ∃ tables pages, FramesReached boot paging tables pages)
    (step : CoveredStep boot fuel paging op next) :
    ∃ tables pages, FramesReached boot next tables pages := by
  -- A call that returned is the one the condition speaks of.
  obtain ⟨tables, pages, reached⟩ := reached
  cases step with
  | map fits flagsFit covered enough called =>
    obtain ⟨other, result, _, grown, mapped, kept⟩ :=
      reached.map fuel fits flagsFit covered enough
    rw [called] at result
    cases result
    exact ⟨grown, mapped, kept⟩
  | unmap called =>
    obtain ⟨other, result, left, removed⟩ := pagingUnmapPage_rep pmmAllocPage reached.rep _
    rw [called] at result
    cases result
    refine ⟨tables, _, removed, by rw [left]; exact reached.booted, ?_⟩
    rw [left]
    exact reached.marked

/-- Right after boot the only tables are the four static ones. -/
theorem framesReached_boot {boot : BootTables} {mem : Memory} {pmm : Pmm}
    (cleared : ClearedBss mem boot) (booted : BootedPmm pmm) :
    FramesReached boot (pagingInit boot mem pmm) (bootTree boot) bootPages := by
  -- The boot tree has no other tables.
  refine ⟨pagingInit_rep boot mem pmm cleared, booted, ?_⟩
  intro path table found
  left
  rcases bootTree_cases found with ⟨_, rfl⟩ | ⟨_, rfl⟩ | ⟨_, rfl⟩ | ⟨_, rfl⟩ <;> simp [BootTables.all]

/-- Initialising the allocator establishes what it keeps from boot on. -/
theorem bootedPmm_init {fuel mbi bitmapAddr : Nat} {info : Memory} {pmm : Pmm}
    (booted : pmmInit fuel info mbi bitmapAddr = .ok pmm) : BootedPmm pmm := by
  obtain ⟨_, _, start, within, _⟩ := pmmInit_ok booted
  exact ⟨start, within⟩

/-- Frames of the first two megabytes that are not boot tables are covered from boot on. -/
theorem coveredFrames_low {boot : BootTables} {mem : Memory} {pmm : Pmm} {virt : Nat}
    (cleared : ClearedBss mem boot) (booted : BootedPmm pmm) (enough : 3 ≤ (managedFree pmm).card)
    (low : ∀ page ∈ managedFree pmm, page < 512 ∧ page * pageSize ∉ boot.all) :
    CoveredFrames boot (pagingInit boot mem pmm) virt := by
  intro frames last allocated frame member
  have needed := tablesNeeded_le (pagingInit boot mem pmm).mem boot.pml4 virt
  obtain ⟨handed, _, allocatedHanded, _, _, _, fromFree, _⟩ :=
    booted.supplies (tablesNeeded (pagingInit boot mem pmm).mem boot.pml4 virt) (by omega)
  obtain rfl : handed = frames :=
    congrArg Prod.fst (Except.ok.inj (allocatedHanded.symm.trans allocated))
  obtain ⟨page, free, rfl⟩ := fromFree frame member
  obtain ⟨small, notBoot⟩ := low page free
  refine ⟨notBoot, ?_⟩
  -- The path of a low frame consists of boot tables, so nothing along it is missing.
  have rep := pagingInit_rep boot mem pmm cleared
  have path := (tablePath_low (show pageNumber (page * pageSize) < 512 by
    simp only [pageNumber, pageSize]; omega)).1
  rw [rep.tree.tablesNeeded_eq rep.root, path]
  rfl

/-- The pages free after boot are those that the memory map frees and that are not reserved. -/
theorem mem_managedFree_init {fuel mbi bitmapAddr page : Nat} {info : Memory} {pmm : Pmm}
    {entries : List MmapEntry} (booted : pmmInit fuel info mbi bitmapAddr = .ok pmm)
    (visited : tagEntries info fuel (add64 mbi 8) = some entries) :
    page ∈ managedFree pmm ↔ 256 ≤ page ∧
      ¬ (bitmapAddr / pageSize ≤ page ∧
        page < add64 (add64 bitmapAddr bitmapSize) 4095 / pageSize) ∧
      ∃ entry ∈ entries, entry.Frees page := by
  -- The memory map decides which bits were cleared, and the guards of the free set ask for nothing more.
  obtain ⟨found, foundEntries, _, _, reaches, free⟩ := pmmInit_ok booted
  obtain rfl : found = entries := Option.some.inj (foundEntries.symm.trans visited)
  rw [(bootedPmm_init booted).mem_managedFree, free page]
  constructor
  · rintro ⟨_, _, clear⟩
    exact clear
  · -- A freed page lies below the end of its region, which the end of memory reaches.
    rintro ⟨low, apart, entry, member, frees⟩
    have below : _ / pageSize ≤ _ / pageSize := Nat.div_le_div_right (reaches entry member frees.1)
    exact ⟨low, Nat.lt_of_lt_of_le frees.2.2 below, low, apart, entry, member, frees⟩

/-- The pages that the small memory map leaves to the allocator. -/
theorem smallInfo_free {pmm : Pmm}
    (booted : pmmInit 2 smallInfo 0x9000 smallImage.bitmapAddr = .ok pmm) :
    managedFree pmm = (Finset.Ico 256 272).filter (fun page => ¬ (260 ≤ page ∧ page < 264)) := by
  -- The image takes four pages in the middle of the sixteen, and everything else of the entry is free.
  have limit : add64 0x100000 0x10000 = 0x110000 := by decide
  have reserved : add64 (add64 smallImage.bitmapAddr bitmapSize) 4095 / pageSize = 264 := by decide
  have bitmap : smallImage.bitmapAddr / pageSize = 260 := by decide
  ext page
  rw [mem_managedFree_init booted smallInfo_entries, reserved, bitmap]
  simp only [Finset.mem_filter, Finset.mem_Ico, List.mem_singleton, exists_eq_left, MmapEntry.Frees,
    true_and, limit, pageSize]
  omega

/--
A mapping that needs a table uses up every frame when no free frame is covered.

Each new table has to be mapped first, and its own mapping needs a table again.
-/
theorem uncovered_mapping_exhausts {paging : Paging Pmm} {tables : Tables} {pages : Nat → Option Nat}
    (rep : PagingRep paging tables pages) (booted : BootedPmm paging.pmm)
    (managed : paging.pmm.memEnd / pageSize ≤ maxPhysPages)
    (uncovered : ∀ page ∈ managedFree paging.pmm, tables (tablePath (page * pageSize)) = none)
    {virt fuel : Nat} (missing : tables (tablePath virt) = none)
    (deep : (managedFree paging.pmm).card < fuel) (phys flags : Nat) :
    pagingMapPage pmmAllocPage fuel paging virt phys flags = .error (.panic "paging oom") := by
  -- The tables stay as they are until the frames are gone, so the induction is on the fuel alone.
  induction fuel generalizing paging virt phys flags with
  | zero => omega
  | succ fuel ih =>
    have fails : tableAlloc pmmAllocPage (pagingMapPage pmmAllocPage fuel) paging =
        .error (.panic "paging oom") := by
      rcases pmmAllocPage_cases paging.pmm managed with
        ⟨found, low, high, clear, _, taken⟩ | ⟨_, nothing⟩
      · have first : paging.pmm.memStart / pageSize = 256 := by rw [booted.start]; rfl
        have free : found ∈ managedFree paging.pmm :=
          booted.mem_managedFree.mpr ⟨by omega, high, clear⟩
        have nonzero : found * pageSize ≠ 0 := by simp only [pageSize]; omega
        have shrunk := booted.managedFree_take found
        have counted := Finset.card_erase_of_mem free
        have some := Finset.card_pos.mpr ⟨found, free⟩
        -- Mapping the frame meets the same situation with one frame fewer.
        have again : pagingMapPage pmmAllocPage fuel { paging with pmm := paging.pmm.take found }
            (found * pageSize) (found * pageSize) 0 = .error (.panic "paging oom") := by
          refine ih (rep.withPmm _) (booted.take found) managed ?_ (uncovered found free) ?_ _ _
          · intro page member
            have member : page ∈ managedFree (paging.pmm.take found) := member
            rw [shrunk] at member
            exact uncovered page (Finset.mem_of_mem_erase member)
          · show (managedFree (paging.pmm.take found)).card < fuel
            rw [shrunk]
            omega
        simp [tableAlloc, taken, nonzero, again, Bind.bind, Except.bind]
      · simp [tableAlloc, nothing, Bind.bind, Except.bind, throw, throwThe, MonadExceptOf.throw]
    have stopped := walk_create_fails rep.tree rep.root missing fails
    simp [pagingMapPage, stopped, Bind.bind, Except.bind]

/-- A call as the code runs it: it returns, whatever frames it takes. -/
inductive PagingCall : Paging Pmm → PagingOp → Paging Pmm → Prop where
  | map {paging next : Paging Pmm} {virt phys flags fuel : Nat}
      (called : pagingMapPage pmmAllocPage fuel paging virt phys flags = .ok (virt, next)) :
      PagingCall paging (.map virt phys flags) next
  | unmap {paging next : Paging Pmm} {virt : Nat}
      (called : pagingUnmapPage pmmAllocPage paging virt = .ok next) :
      PagingCall paging (.unmap virt) next

/-- Boot information with one memory map tag, whose entry makes five pages at two megabytes available. -/
def highInfo : Memory :=
  [(0x9008, 6), (0x900C, 40), (0x9010, 24), (0x9018, 0x200000), (0x9020, 0x5000), (0x9028, 1)].foldl
    (fun mem word => write32 mem word.1 word.2) (fun _ => 0)

/-- After booting from the high memory map exactly its five pages are free. -/
theorem highInfo_free {pmm : Pmm} (booted : pmmInit 2 highInfo 0x9000 0x104000 = .ok pmm) :
    managedFree pmm = Finset.Ico 512 517 := by
  -- The image ends below the entry, so that all of its five pages are free.
  have visited : tagEntries highInfo 2 (add64 0x9000 8) = some [⟨0x200000, 0x5000, 1⟩] := by
    decide +kernel
  have limit : add64 0x200000 0x5000 = 0x205000 := by decide
  have reserved : add64 (add64 0x104000 bitmapSize) 4095 / pageSize = 264 := by decide
  ext page
  rw [mem_managedFree_init booted visited, reserved]
  simp only [Finset.mem_Ico, List.mem_singleton, exists_eq_left, MmapEntry.Frees, true_and,
    limit, pageSize]
  omega

/-- Booting from the high memory map succeeds, and memory ends inside the bitmap. -/
theorem highInfo_boots : ∃ pmm, pmmInit 2 highInfo 0x9000 0x104000 = .ok pmm ∧
    pmm.memEnd / pageSize ≤ maxPhysPages := by
  obtain ⟨pmm, booted, inside⟩ := @exists_ok Halt _ (pmmInit 2 highInfo 0x9000 0x104000)
    (fun pmm => decide (pmm.memEnd / pageSize ≤ maxPhysPages)) (by decide +kernel)
  exact ⟨pmm, booted, of_decide_eq_true inside⟩

/-- Mapping the first heap page after booting from the high memory map uses up all five pages. -/
theorem highInfo_exhausted {pmm : Pmm} (booted : pmmInit 2 highInfo 0x9000 0x104000 = .ok pmm)
    (managed : pmm.memEnd / pageSize ≤ maxPhysPages) {fuel : Nat} (deep : 5 < fuel) :
    pagingMapPage pmmAllocPage fuel (pagingInit smallBootTables (fun _ => 0) pmm) pagingHeapBase
      0x200000 0 = .error (.panic "paging oom") := by
  -- No table covers the free pages, so that each new table asks for another one.
  have rep := pagingInit_rep smallBootTables (fun _ => 0) pmm cleared_zero
  refine uncovered_mapping_exhausts rep (bootedPmm_init booted) managed ?_ (by decide) ?_ _ _
  · show ∀ page ∈ managedFree pmm, _
    rw [highInfo_free booted]
    decide
  · show (managedFree pmm).card < fuel
    rw [highInfo_free booted]
    exact deep

end MiraOS
