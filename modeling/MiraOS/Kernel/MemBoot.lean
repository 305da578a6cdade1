import MiraOS.Kernel.MemLaws
import Mathlib.Tactic.IntervalCases

/-! What the boot-time walk over the memory map leaves in the page bitmap. -/

namespace MiraOS

open Machine

/-- The entries the loop over one memory map tag visits, in order. -/
def mmapEntries (info : Memory) (entrySize limit : Nat) : Nat → Nat → Option (List MmapEntry)
  | 0, entry => if entry < limit then none else some []
  | fuel + 1, entry =>
    if entry < limit then
      (mmapEntries info entrySize limit fuel (add64 entry entrySize)).map
        (readMmapEntry info entry :: ·)
    else some []

/-- The entries of every memory map tag the boot information walk visits, in order. -/
def tagEntries (info : Memory) : Nat → Nat → Option (List MmapEntry)
  | 0, tag => if read32 info tag = 0 then some [] else none
  | fuel + 1, tag =>
    if read32 info tag = 0 then some []
    else do
      let here ←
        if read32 info tag = 6 then
          mmapEntries info (read32 info (tag + 8)) (add64 tag (read32 info (tag + 4))) fuel
            (add64 tag 16)
        else some []
      let rest ← tagEntries info fuel (mbiNext info tag)
      return here ++ rest

/-- A finished entry loop has processed exactly the entries it visits. -/
theorem mmapLoop_entries {info : Memory} {entrySize limit fuel entry : Nat} {pmm final : Pmm}
    (walked : mmapLoop info entrySize limit fuel entry pmm = .ok final) :
    ∃ entries, mmapEntries info entrySize limit fuel entry = some entries ∧
      entries.foldlM addMmapEntry pmm = .ok final := by
  -- The loop and the list of visited entries take the same turns.
  induction fuel generalizing entry pmm with
  | zero =>
    by_cases more : entry < limit
    · simp [mmapLoop, more] at walked
    · simp only [mmapLoop, if_neg more] at walked
      exact ⟨[], by simp [mmapEntries, more], walked⟩
  | succ fuel ih =>
    by_cases more : entry < limit
    · simp only [mmapLoop, if_pos more] at walked
      obtain ⟨next, added, walked⟩ := bind_eq_ok.mp walked
      obtain ⟨entries, visited, folded⟩ := ih walked
      refine ⟨readMmapEntry info entry :: entries, by simp [mmapEntries, more, visited], ?_⟩
      rw [List.foldlM_cons]
      exact bind_eq_ok.mpr ⟨next, added, folded⟩
    · simp only [mmapLoop, if_neg more] at walked
      exact ⟨[], by simp [mmapEntries, more], walked⟩

/-- A finished boot information walk has processed exactly the entries it visits. -/
theorem tagLoop_entries {info : Memory} {fuel tag : Nat} {pmm final : Pmm}
    (walked : tagLoop info fuel tag pmm = .ok final) :
    ∃ entries, tagEntries info fuel tag = some entries ∧
      entries.foldlM addMmapEntry pmm = .ok final := by
  -- The walk and the list of its entries take the same turns, tag by tag.
  induction fuel generalizing tag pmm with
  | zero =>
    by_cases last : read32 info tag = 0
    · simp only [tagLoop, if_pos last] at walked
      exact ⟨[], by simp [tagEntries, last], walked⟩
    · simp [tagLoop, last] at walked
  | succ fuel ih =>
    by_cases last : read32 info tag = 0
    · simp only [tagLoop, if_pos last] at walked
      exact ⟨[], by simp [tagEntries, last], walked⟩
    · simp only [tagLoop, if_neg last] at walked
      by_cases mmap : read32 info tag = 6
      · -- A memory map tag contributes its own entries before those of the later tags.
        rw [if_pos mmap] at walked
        obtain ⟨next, looped, walked⟩ := bind_eq_ok.mp walked
        obtain ⟨here, visited, folded⟩ := mmapLoop_entries looped
        obtain ⟨rest, remaining, foldedRest⟩ := ih walked
        refine ⟨here ++ rest, by simp [tagEntries, mmap, visited, remaining], ?_⟩
        rw [List.foldlM_append]
        exact bind_eq_ok.mpr ⟨next, folded, foldedRest⟩
      · rw [if_neg mmap] at walked
        obtain ⟨rest, remaining, foldedRest⟩ := ih walked
        exact ⟨rest, by simp [tagEntries, last, mmap, remaining], foldedRest⟩

/-- A byte inside the array belongs to pages the bitmap describes. -/
private theorem page_of_bitmap {page : Nat} (inside : page / 8 < bitmapSize) : page < maxPhysPages := by
  simp only [maxPhysPages, bitmapSize] at *
  omega

/-- What one turn of a page loop does: its own flag gets a value, and nothing else moves. -/
def SetsFlag (value : Bool) (body : Pmm → Nat → Except Halt Pmm) : Prop :=
  ∀ {pmm next : Pmm} {page : Nat}, body pmm page = .ok next →
    page < maxPhysPages ∧ next.memStart = pmm.memStart ∧ next.memEnd = pmm.memEnd ∧
      ∀ other, next.pageBitmap.test other = if other = page then value else pmm.pageBitmap.test other

/-- Reserving sets the flag of each page. -/
theorem setsFlag_bitmapSet : SetsFlag true bitmapSet := by
  intro pmm next page done
  unfold bitmapSet at done
  -- A page outside of the array stops the code.
  split at done
  · cases done
    refine ⟨page_of_bitmap ‹_›, rfl, rfl, fun other => ?_⟩
    by_cases same : other = page <;> simp [Bitmap.test_set, same]
  · cases done

/-- Freeing clears the flag of each page. -/
theorem setsFlag_addFreePage : SetsFlag false addFreePage := by
  -- The free counter moves as well, but no property of the loop reads it.
  intro pmm next page done
  unfold addFreePage bitmapClear at done
  split at done
  · simp only [Bind.bind, Except.bind, Pure.pure, Except.pure, Except.ok.injEq] at done
    subst done
    refine ⟨page_of_bitmap ‹_›, rfl, rfl, fun other => ?_⟩
    by_cases same : other = page <;> simp [Bitmap.test_clear, same]
  · cases done

/-- A page loop gives its value to the flags of its run of pages, and to no other. -/
theorem SetsFlag.forPages {value : Bool} {body : Pmm → Nat → Except Halt Pmm}
    (sets : SetsFlag value body) {count page : Nat} {pmm final : Pmm}
    (looped : forPages body count page pmm = .ok final) :
    (∀ other, page ≤ other → other < page + count → other < maxPhysPages) ∧
      final.memStart = pmm.memStart ∧ final.memEnd = pmm.memEnd ∧
      ∀ other, final.pageBitmap.test other =
        if page ≤ other ∧ other < page + count then value else pmm.pageBitmap.test other := by
  -- Induction on the length of the run, which starts one page later each time.
  induction count generalizing page pmm with
  | zero =>
    cases looped
    refine ⟨fun other low high => by omega, rfl, rfl, fun other => ?_⟩
    rw [if_neg (by omega)]
  | succ count ih =>
    obtain ⟨next, stepped, looped⟩ := bind_eq_ok.mp looped
    obtain ⟨within, startHere, endHere, here⟩ := sets stepped
    obtain ⟨withinRest, startRest, endRest, rest⟩ := ih looped
    refine ⟨?_, startRest.trans startHere, endRest.trans endHere, fun other => ?_⟩
    · intro other low high
      rcases Nat.eq_or_lt_of_le low with same | above
      · exact same ▸ within
      · exact withinRest other above (by omega)
    rw [rest other, here other]
    -- The first page of the run joins the pages that the rest of the loop handles.
    by_cases later : page + 1 ≤ other ∧ other < page + 1 + count
    · rw [if_pos later, if_pos (by omega)]
    · rw [if_neg later]
      by_cases same : other = page
      · rw [if_pos same, if_pos (by omega)]
      · rw [if_neg same, if_neg (by omega)]

/-- An available region frees the page, as the page loop of its entry computes it. -/
def MmapEntry.Frees (entry : MmapEntry) (page : Nat) : Prop :=
  entry.type = 1 ∧ entry.base / pageSize ≤ page ∧
    page < add64 entry.base entry.length / pageSize

/-- One entry clears the pages it frees, and only raises the end of memory. -/
theorem addMmapEntry_ok {pmm next : Pmm} {entry : MmapEntry}
    (added : addMmapEntry pmm entry = .ok next) :
    (∀ page, entry.Frees page → page < maxPhysPages) ∧
      next.memStart = pmm.memStart ∧ pmm.memEnd ≤ next.memEnd ∧
      (entry.type = 1 → add64 entry.base entry.length ≤ next.memEnd) ∧
      ∀ page, next.pageBitmap.test page = false ↔
        entry.Frees page ∨ pmm.pageBitmap.test page = false := by
  unfold addMmapEntry at added
  by_cases available : entry.type = 1
  · rw [if_neg (by simpa using available)] at added
    obtain ⟨within, sameStart, sameEnd, flags⟩ := setsFlag_addFreePage.forPages added
    -- The end of memory is raised before the page loop, which then leaves it alone.
    refine ⟨?_, ?_, ?_, fun _ => ?_, fun page => ?_⟩
    · rintro page ⟨_, low, high⟩
      exact within page low (by omega)
    · rw [sameStart]; split <;> rfl
    · -- The end of memory is the larger of the old one and the end of the entry.
      rw [sameEnd]
      split
      · exact Nat.le_of_lt ‹_›
      · exact Nat.le_refl _
    · rw [sameEnd]
      split
      · exact Nat.le_refl _
      · exact Nat.not_lt.mp ‹_›
    · have bitmap : (if add64 entry.base entry.length > pmm.memEnd then
          { pmm with memEnd := add64 entry.base entry.length } else pmm).pageBitmap =
          pmm.pageBitmap := by split <;> rfl
      rw [flags page, bitmap]
      -- A page is freed if it lies in the entry, and the rest keep their flags.
      simp only [MmapEntry.Frees, available, true_and]
      by_cases inside : entry.base / pageSize ≤ page ∧
          page < add64 entry.base entry.length / pageSize
      · rw [if_pos (by omega)]
        simp [inside]
      · rw [if_neg (by omega)]
        simp [inside]
  -- An entry of another type is skipped.
  · rw [if_pos (by simpa using available)] at added
    cases added
    simp [MmapEntry.Frees, available]

/-- After the whole memory map, a page is free exactly when it was or when some entry frees it. -/
theorem foldlM_addMmapEntry {entries : List MmapEntry} {pmm final : Pmm}
    (folded : entries.foldlM addMmapEntry pmm = .ok final) :
    (∀ entry ∈ entries, ∀ page, entry.Frees page → page < maxPhysPages) ∧
      final.memStart = pmm.memStart ∧ pmm.memEnd ≤ final.memEnd ∧
      (∀ entry ∈ entries, entry.type = 1 → add64 entry.base entry.length ≤ final.memEnd) ∧
      ∀ page, final.pageBitmap.test page = false ↔
        (∃ entry ∈ entries, entry.Frees page) ∨ pmm.pageBitmap.test page = false := by
  -- Each entry only clears flags, so the pages freed so far stay free.
  induction entries generalizing pmm with
  | nil =>
    cases folded
    simp
  | cons entry rest ih =>
    rw [List.foldlM_cons] at folded
    obtain ⟨next, added, folded⟩ := bind_eq_ok.mp folded
    obtain ⟨within, startHere, raised, reaches, here⟩ := addMmapEntry_ok added
    obtain ⟨withinRest, startRest, raisedRest, reachesRest, there⟩ := ih folded
    refine ⟨?_, startRest.trans startHere, Nat.le_trans raised raisedRest, ?_, fun page => ?_⟩
    · -- The bounds hold for the first entry and, by induction, for the others.
      intro other member
      rcases List.mem_cons.mp member with same | member
      · exact same ▸ within
      · exact withinRest other member
    · intro other member available
      rcases List.mem_cons.mp member with same | member
      · subst same
        exact Nat.le_trans (reaches available) raisedRest
      · exact reachesRest other member available
    · rw [there page, here page]
      simp only [List.mem_cons, exists_eq_or_imp, or_assoc]
      exact or_left_comm

/-- Reserving a region marks the pages of its range and leaves the rest of the bitmap. -/
theorem reserveRegion_ok {pmm final : Pmm} {base length : Nat}
    (reserved : reserveRegion pmm base length = .ok final) :
    final.memStart = pmm.memStart ∧ final.memEnd = pmm.memEnd ∧
      ∀ page, final.pageBitmap.test page = false ↔
        ¬ (base / pageSize ≤ page ∧ page < add64 (add64 base length) 4095 / pageSize) ∧
          pmm.pageBitmap.test page = false := by
  -- The loop sets the bits of the pages in between, and no other one.
  obtain ⟨_, sameStart, sameEnd, flags⟩ := setsFlag_bitmapSet.forPages reserved
  refine ⟨sameStart, sameEnd, fun page => ?_⟩
  rw [flags page]
  by_cases inside : base / pageSize ≤ page ∧ page < add64 (add64 base length) 4095 / pageSize
  · rw [if_pos (by omega)]
    simp [inside]
  · rw [if_neg (by omega)]
    simp [inside]

/-- Before the memory map is read, every page is marked as used. -/
theorem pmmReset_used (page : Nat) : pmmReset.pageBitmap.test page = true := by
  -- Every byte of the fresh bitmap is 255, so all of its bits are set.
  have inside : page % 8 < 8 := Nat.mod_lt _ (by decide)
  rw [Bitmap.test_eq]
  change Nat.testBit 255 (page % 8) = true
  interval_cases page % 8 <;> rfl

/--
The bitmap after boot, page by page.

A page is free when an available region frees it, and it is neither in the first megabyte nor among
the pages of the bitmap itself.
-/
theorem pmmInit_ok {fuel mbi bitmapAddr : Nat} {info : Memory} {pmm : Pmm}
    (booted : pmmInit fuel info mbi bitmapAddr = .ok pmm) :
    ∃ entries, tagEntries info fuel (add64 mbi 8) = some entries ∧ pmm.memStart = 0x100000 ∧
      (∀ page, pmm.pageBitmap.test page = false → page < maxPhysPages) ∧
      (∀ entry ∈ entries, entry.type = 1 → add64 entry.base entry.length ≤ pmm.memEnd) ∧
      ∀ page, pmm.pageBitmap.test page = false ↔
        256 ≤ page ∧
        ¬ (bitmapAddr / pageSize ≤ page ∧
          page < add64 (add64 bitmapAddr bitmapSize) 4095 / pageSize) ∧
        ∃ entry ∈ entries, entry.Frees page := by
  obtain ⟨walked, looped, booted⟩ := bind_eq_ok.mp booted
  obtain ⟨lowered, low, high⟩ := bind_eq_ok.mp booted
  -- The three stages: the memory map, the first megabyte and the bitmap itself.
  obtain ⟨entries, visited, folded⟩ := tagLoop_entries looped
  obtain ⟨within, startWalk, _, reaches, freed⟩ := foldlM_addMmapEntry folded
  obtain ⟨startLow, endLow, lowFlags⟩ := reserveRegion_ok low
  obtain ⟨startHigh, endHigh, highFlags⟩ := reserveRegion_ok high
  have flags : ∀ page, pmm.pageBitmap.test page = false ↔ 256 ≤ page ∧
      ¬ (bitmapAddr / pageSize ≤ page ∧
        page < add64 (add64 bitmapAddr bitmapSize) 4095 / pageSize) ∧
      ∃ entry ∈ entries, entry.Frees page := by
    intro page
    -- The first megabyte ends exactly at page 256.
    have megabyte : add64 (add64 0 0x100000) 4095 / pageSize = 256 := by decide
    have zero : 0 / pageSize = 0 := by decide
    rw [highFlags page, lowFlags page, freed page, megabyte, zero, pmmReset_used]
    simp only [Nat.zero_le, true_and, Nat.not_lt, Bool.true_eq_false, or_false]
    exact and_left_comm
  refine ⟨entries, visited, ?_, ?_, ?_, flags⟩
  · rw [startHigh, startLow, startWalk]; rfl
  · intro page free
    obtain ⟨_, _, entry, member, frees⟩ := (flags page).mp free
    exact within entry member page frees
  · intro entry member available
    rw [endHigh, endLow]
    exact reaches entry member available

/--
Where the linker script puts the kernel: from the first megabyte up to the end of the image.

The multiboot header fills the start of the first page, and every later section begins on a new page.
-/
structure KernelImage where
  bitmapAddr : Nat
  imageEnd : Nat
  -- The bitmap is in a section after the page of the multiboot header.
  afterHeader : 0x101000 ≤ bitmapAddr
  inside : bitmapAddr + bitmapSize ≤ imageEnd

/-- Every byte of the image lies in an available region of the memory map. -/
def CoversImage (entries : List MmapEntry) (image : KernelImage) : Prop :=
  ∀ byte, 0x100000 ≤ byte → byte < image.imageEnd → ∃ entry ∈ entries, entry.type = 1 ∧
    entry.base ≤ byte ∧ byte < entry.base + entry.length ∧ entry.base + entry.length < 2 ^ 64

/-- The results of a sequence of allocations. -/
def allocPages : Nat → Pmm → Except Halt (List Nat × Pmm)
  | 0, pmm => .ok ([], pmm)
  | count + 1, pmm => do
    let (page, pmm) ← pmmAllocPage pmm
    let (pages, pmm) ← allocPages count pmm
    return (page :: pages, pmm)

/-- No sequence of allocations returns a page that meets the image. -/
def AvoidsImage (pmm : Pmm) (image : KernelImage) : Prop :=
  ∀ count pages next, allocPages count pmm = .ok (pages, next) → ∀ page ∈ pages, page ≠ 0 →
    page + pageSize ≤ 0x100000 ∨ image.imageEnd ≤ page

/-- The first allocation after boot returns the first page of the image. -/
theorem pmmAllocPage_first {fuel mbi : Nat} {info : Memory} {image : KernelImage} {pmm : Pmm}
    {entries : List MmapEntry} (booted : pmmInit fuel info mbi image.bitmapAddr = .ok pmm)
    (visited : tagEntries info fuel (add64 mbi 8) = some entries)
    (covered : CoversImage entries image) :
    pmmAllocPage pmm = .ok (0x100000, pmm.take 256) := by
  obtain ⟨found, foundEntries, start, _, reaches, free⟩ := pmmInit_ok booted
  obtain rfl : found = entries := Option.some.inj (foundEntries.symm.trans visited)
  have after := image.afterHeader
  have size : bitmapSize = 16384 := rfl
  have inside := image.inside
  -- The region holding the last byte of page 256 ends after that page and starts no later than it.
  obtain ⟨entry, member, available, low, high, fits⟩ :=
    covered 0x100FFF (by omega) (by omega)
  have whole : add64 entry.base entry.length = entry.base + entry.length := add64_of_lt fits
  have frees : entry.Frees 256 := by
    refine ⟨available, ?_, ?_⟩
    · simp only [pageSize]; omega
    · rw [whole]; simp only [pageSize]; omega
  have clear : pmm.pageBitmap.test 256 = false := by
    refine (free 256).mpr ⟨by omega, ?_, entry, member, frees⟩
    simp only [pageSize]
    omega
  -- The scan begins at page 256, so it stops at once.
  have limit := reaches entry member available
  have first : pmm.memStart / pageSize = 256 := by rw [start]; rfl
  obtain ⟨count, range⟩ : ∃ count, pmm.memEnd / pageSize - 256 = count + 1 := by
    refine ⟨pmm.memEnd / pageSize - 257, ?_⟩
    simp only [pageSize]
    omega
  rw [pmmAllocPage, first, range]
  exact pmmScan_clear (by decide) clear

/-- An allocation that returns the first page of the image does not avoid the image. -/
theorem not_avoidsImage_of_first {pmm next : Pmm} {image : KernelImage}
    (first : pmmAllocPage pmm = .ok (0x100000, next)) : ¬ AvoidsImage pmm image := by
  -- The page lies at one megabyte, inside of the image.
  intro avoids
  have one : allocPages 1 pmm = .ok ([0x100000], next) := by
    simp [allocPages, first, Bind.bind, Except.bind, Pure.pure, Except.pure]
  have after := image.afterHeader
  have inside := image.inside
  rcases avoids 1 _ _ one 0x100000 (by simp) (by decide) with below | above
  · simp only [pageSize] at below; omega
  · omega

/-- Whatever the memory map, an image it makes available is handed out page by page after boot. -/
theorem boot_hands_out_image {fuel mbi : Nat} {info : Memory} {image : KernelImage} {pmm : Pmm}
    {entries : List MmapEntry} (booted : pmmInit fuel info mbi image.bitmapAddr = .ok pmm)
    (visited : tagEntries info fuel (add64 mbi 8) = some entries)
    (covered : CoversImage entries image) : ¬ AvoidsImage pmm image :=
  not_avoidsImage_of_first (pmmAllocPage_first booted visited covered)

/-- Boot information with one memory map tag, whose entry makes sixteen pages available. -/
def smallInfo : Memory :=
  -- The tag header, then the entry's base, length and type; the bytes after it are the end tag.
  [(0x9008, 6), (0x900C, 40), (0x9010, 24), (0x9018, 0x100000), (0x9020, 0x10000), (0x9028, 1)].foldl
    (fun mem word => write32 mem word.1 word.2) (fun _ => 0)

/-- A sixteen-page image with the bitmap in its fifth page. -/
def smallImage : KernelImage := ⟨0x104000, 0x110000, by decide, by decide⟩

/-- The one entry of the small memory map covers the small image. -/
theorem smallImage_covered : CoversImage [⟨0x100000, 0x10000, 1⟩] smallImage := by
  intro byte low high
  exact ⟨_, List.mem_singleton.mpr rfl, rfl, low, high, by decide⟩

/-- The small memory map is walked to its end. -/
theorem smallInfo_entries :
    tagEntries smallInfo 2 (add64 0x9000 8) = some [⟨0x100000, 0x10000, 1⟩] := by
  decide +kernel

/-- Booting from the small memory map succeeds. -/
theorem smallInfo_boots : ∃ pmm, pmmInit 2 smallInfo 0x9000 smallImage.bitmapAddr = .ok pmm := by
  -- Running the walk in the kernel shows that no step of it halts.
  obtain ⟨pmm, booted, -⟩ := @exists_ok Halt _ (pmmInit 2 smallInfo 0x9000 smallImage.bitmapAddr)
    (fun _ => true) (by decide +kernel)
  exact ⟨pmm, booted⟩

/-- The small image is handed out. -/
theorem smallImage_handed_out :
    ∃ pmm, pmmInit 2 smallInfo 0x9000 smallImage.bitmapAddr = .ok pmm ∧
      ¬ AvoidsImage pmm smallImage := by
  -- The small map covers the image, so its first page is handed out.
  obtain ⟨pmm, booted⟩ := smallInfo_boots
  exact ⟨pmm, booted, boot_hands_out_image booted smallInfo_entries smallImage_covered⟩

/-- Covering the image is not enough for the allocator to avoid it. -/
theorem covered_image_not_avoided :
    ¬ ∀ (fuel mbi : Nat) (info : Memory) (image : KernelImage) (pmm : Pmm)
      (entries : List MmapEntry), pmmInit fuel info mbi image.bitmapAddr = .ok pmm →
      tagEntries info fuel (add64 mbi 8) = some entries → CoversImage entries image →
      AvoidsImage pmm image := by
  intro claim
  obtain ⟨pmm, booted⟩ := smallInfo_boots
  -- The first page the allocator answers is the first page of the image.
  have first := pmmAllocPage_first booted smallInfo_entries smallImage_covered
  exact not_avoidsImage_of_first first
    (claim _ _ _ _ _ _ booted smallInfo_entries smallImage_covered)

end MiraOS
