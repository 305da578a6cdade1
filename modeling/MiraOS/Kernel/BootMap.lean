import MiraOS.Kernel.MemBoot
import Mathlib.Algebra.GroupWithZero.Nat

/-! Which memory maps the boot-time walk turns into an exact count, inside of the bitmap, of whole pages. -/

namespace MiraOS

open Machine

/-- The entry loop of one tag is the walk over the entries it visits. -/
theorem mmapLoop_eq {info : Memory} {entrySize limit fuel entry : Nat} {entries : List MmapEntry}
    (visited : mmapEntries info entrySize limit fuel entry = some entries) (pmm : Pmm) :
    mmapLoop info entrySize limit fuel entry pmm = entries.foldlM addMmapEntry pmm := by
  -- Both loops use up one unit of fuel for each entry.
  induction fuel generalizing entry entries pmm with
  | zero =>
    by_cases more : entry < limit
    · simp [mmapEntries, more] at visited
    · simp only [mmapEntries, if_neg more, Option.some.injEq] at visited
      subst visited
      simp only [mmapLoop, if_neg more]
      rfl
  | succ fuel ih =>
    by_cases more : entry < limit
    · simp only [mmapEntries, if_pos more, Option.map_eq_some_iff] at visited
      obtain ⟨rest, visited, rfl⟩ := visited
      simp only [mmapLoop, if_pos more, List.foldlM_cons]
      -- The first entry is processed alike, and the loop goes on from any state it leaves.
      congr 1
      funext next
      exact ih visited next
    · simp only [mmapEntries, if_neg more, Option.some.injEq] at visited
      subst visited
      simp only [mmapLoop, if_neg more]
      rfl

/-- The loop over the tags is the walk over the entries of all memory map tags. -/
theorem tagLoop_eq {info : Memory} {fuel tag : Nat} {entries : List MmapEntry}
    (visited : tagEntries info fuel tag = some entries) (pmm : Pmm) :
    tagLoop info fuel tag pmm = entries.foldlM addMmapEntry pmm := by
  -- Both walks use up one unit of fuel for each tag.
  induction fuel generalizing tag entries pmm with
  | zero =>
    by_cases last : read32 info tag = 0
    · simp only [tagEntries, if_pos last, Option.some.injEq] at visited
      subst visited
      simp only [tagLoop, if_pos last]
      rfl
    · simp [tagEntries, last] at visited
  | succ fuel ih =>
    by_cases last : read32 info tag = 0
    · simp only [tagEntries, if_pos last, Option.some.injEq] at visited
      subst visited
      simp only [tagLoop, if_pos last]
      rfl
    · simp only [tagLoop, if_neg last]
      simp only [tagEntries, if_neg last] at visited
      by_cases mmap : read32 info tag = 6
      · rw [if_pos mmap] at visited ⊢
        simp only [Option.bind_eq_bind, Option.bind_eq_some_iff, Option.pure_def,
          Option.some.injEq] at visited
        obtain ⟨here, found, rest, visited, rfl⟩ := visited
        -- The entries of this tag come first, then those of the tags behind it.
        rw [mmapLoop_eq found, List.foldlM_append]
        congr 1
        funext next
        exact ih visited next
      -- A tag of another kind has no entries.
      · rw [if_neg mmap] at visited ⊢
        simp only [Option.bind_eq_bind, Option.bind_some, List.nil_append, Option.pure_def] at visited
        exact ih (by simpa using visited) pmm

/-- A page loop body that fails exactly on the pages outside of the bitmap. -/
def BoundedBody (body : Pmm → Nat → Except Halt Pmm) : Prop :=
  ∀ pmm page, (page < maxPhysPages ∧ ∃ next, body pmm page = .ok next) ∨
    (maxPhysPages ≤ page ∧ body pmm page = .error .outOfBounds)

/-- A page past the described ones has its byte behind the array. -/
theorem not_page_in_bitmap {page : Nat} (beyond : maxPhysPages ≤ page) : ¬ page / 8 < bitmapSize := by
  -- A byte of the bitmap describes eight pages.
  simp only [maxPhysPages, bitmapSize] at *
  omega

/-- Marking a page as used fails exactly outside of the bitmap. -/
theorem boundedBody_bitmapSet : BoundedBody bitmapSet := by
  intro pmm page
  -- Below 512 MiB a page has a bit in the bitmap, and above it none.
  rcases Nat.lt_or_ge page maxPhysPages with within | beyond
  · exact .inl ⟨within, _, if_pos (page_in_bitmap within)⟩
  · exact .inr ⟨beyond, if_neg (not_page_in_bitmap beyond)⟩

/-- Freeing a page of a region fails exactly outside of the bitmap. -/
theorem boundedBody_addFreePage : BoundedBody addFreePage := by
  intro pmm page
  -- A page of the bitmap has its byte there, and behind it the array has none.
  rcases Nat.lt_or_ge page maxPhysPages with within | beyond
  · refine .inl ⟨within, ?_⟩
    simp [addFreePage, bitmapClear, page_in_bitmap within, Bind.bind, Except.bind, Pure.pure, Except.pure]
  · refine .inr ⟨beyond, ?_⟩
    simp [addFreePage, bitmapClear, not_page_in_bitmap beyond, Bind.bind, Except.bind]

/-- A page loop fails exactly when its run leaves the bitmap. -/
theorem BoundedBody.forPages {body : Pmm → Nat → Except Halt Pmm} (bounded : BoundedBody body)
    (count page : Nat) (pmm : Pmm) :
    ((∀ other, page ≤ other → other < page + count → other < maxPhysPages) ∧
      ∃ final, forPages body count page pmm = .ok final) ∨
    ((∃ other, page ≤ other ∧ other < page + count ∧ maxPhysPages ≤ other) ∧
      forPages body count page pmm = .error .outOfBounds) := by
  -- Induction on the length of the run, whose first page decides whether it goes on.
  induction count generalizing page pmm with
  | zero => exact .inl ⟨fun other low high => by omega, pmm, rfl⟩
  | succ count ih =>
    rcases bounded pmm page with ⟨within, next, stepped⟩ | ⟨beyond, failed⟩
    · rw [MiraOS.forPages, stepped, ok_bind]
      -- The rest of the run decides, now that its first page was inside.
      rcases ih (page + 1) next with ⟨inside, ran⟩ | ⟨⟨other, low, high, past⟩, failed⟩
      · refine .inl ⟨fun other low high => ?_, ran⟩
        rcases Nat.eq_or_lt_of_le low with same | above
        · exact same ▸ within
        · exact inside other above (by omega)
      · exact .inr ⟨⟨other, by omega, by omega, past⟩, failed⟩
    · refine .inr ⟨⟨page, Nat.le_refl _, by omega, beyond⟩, ?_⟩
      rw [MiraOS.forPages, failed]
      rfl

/-- An entry is processed exactly when the pages it frees are all in the bitmap. -/
theorem addMmapEntry_bounded (pmm : Pmm) (entry : MmapEntry) :
    ((∀ page, entry.Frees page → page < maxPhysPages) ∧ ∃ next, addMmapEntry pmm entry = .ok next) ∨
    ((∃ page, entry.Frees page ∧ maxPhysPages ≤ page) ∧
      addMmapEntry pmm entry = .error .outOfBounds) := by
  -- An entry of another type is skipped, and frees nothing.
  by_cases available : entry.type = 1
  · rw [addMmapEntry, if_neg (by simpa using available)]
    -- The run of the page loop is exactly the pages that the entry frees.
    rcases boundedBody_addFreePage.forPages (add64 entry.base entry.length / pageSize -
        entry.base / pageSize) (entry.base / pageSize)
        (if add64 entry.base entry.length > pmm.memEnd then
          { pmm with memEnd := add64 entry.base entry.length } else pmm)
      with ⟨inside, ran⟩ | ⟨⟨page, low, high, past⟩, failed⟩
    · exact .inl ⟨fun page frees => inside page frees.2.1 (by have := frees.2; omega), ran⟩
    · exact .inr ⟨⟨page, ⟨available, low, by omega⟩, past⟩, failed⟩
  · rw [addMmapEntry, if_pos (by simpa using available)]
    exact .inl ⟨fun page frees => absurd frees.1 available, pmm, rfl⟩

/-- A memory map is walked to its end exactly when the pages it frees are all in the bitmap. -/
theorem foldlM_bounded (entries : List MmapEntry) (pmm : Pmm) :
    ((∀ entry ∈ entries, ∀ page, entry.Frees page → page < maxPhysPages) ∧
      ∃ final, entries.foldlM addMmapEntry pmm = .ok final) ∨
    ((∃ entry ∈ entries, ∃ page, entry.Frees page ∧ maxPhysPages ≤ page) ∧
      entries.foldlM addMmapEntry pmm = .error .outOfBounds) := by
  -- The first entry that leaves the bitmap ends the walk.
  induction entries generalizing pmm with
  | nil => exact .inl ⟨by simp, pmm, rfl⟩
  | cons entry rest ih =>
    rw [List.foldlM_cons]
    rcases addMmapEntry_bounded pmm entry with ⟨inside, next, added⟩ | ⟨past, failed⟩
    · rw [added, ok_bind]
      rcases ih next with ⟨insideRest, walked⟩ | ⟨⟨other, among, past⟩, failed⟩
      · refine .inl ⟨?_, walked⟩
        intro other member
        rcases List.mem_cons.mp member with same | among
        · exact same ▸ inside
        · exact insideRest other among
      · exact .inr ⟨⟨other, List.mem_cons_of_mem _ among, past⟩, failed⟩
    · refine .inr ⟨⟨entry, List.mem_cons_self, past⟩, ?_⟩
      rw [failed]
      rfl

/-- A region below the end of the bitmap can be reserved. -/
theorem reserveRegion_within (pmm : Pmm) {base length : Nat}
    (below : base + length ≤ maxPhysPages * pageSize) :
    ∃ final, reserveRegion pmm base length = .ok final := by
  -- Rounded up to a whole page, the end still is a page boundary of the bitmap at most.
  have whole : add64 (add64 base length) 4095 = base + length + 4095 := by
    simp only [maxPhysPages, pageSize] at below
    rw [add64_of_lt (show base + length < 2 ^ 64 by omega), add64_of_lt (by omega)]
  rcases boundedBody_bitmapSet.forPages (add64 (add64 base length) 4095 / pageSize - base / pageSize)
      (base / pageSize) pmm with ⟨_, ran⟩ | ⟨⟨page, low, high, past⟩, _⟩
  · exact ran
  · -- A page past the bitmap would start behind the end of the region.
    rw [whole] at high
    simp only [maxPhysPages, pageSize] at *
    omega

/--
Booting from a memory map, with the bitmap inside an image that ends where the bitmap reaches.

Boot succeeds when the pages that the map frees are all in the bitmap, and runs past the array otherwise.
-/
theorem pmmInit_bounded {fuel mbi : Nat} {info : Memory} {image : KernelImage}
    {entries : List MmapEntry} (visited : tagEntries info fuel (add64 mbi 8) = some entries)
    (small : image.imageEnd ≤ maxPhysPages * pageSize) :
    ((∀ entry ∈ entries, ∀ page, entry.Frees page → page < maxPhysPages) ∧
      ∃ pmm, pmmInit fuel info mbi image.bitmapAddr = .ok pmm) ∨
    ((∃ entry ∈ entries, ∃ page, entry.Frees page ∧ maxPhysPages ≤ page) ∧
      pmmInit fuel info mbi image.bitmapAddr = .error .outOfBounds) := by
  rw [pmmInit, tagLoop_eq visited]
  rcases foldlM_bounded entries pmmReset with ⟨inside, walked, folded⟩ | ⟨past, failed⟩
  · -- Neither reservation leaves the bitmap.
    obtain ⟨lowered, low⟩ := reserveRegion_within walked (show 0 + 0x100000 ≤ _ by decide)
    obtain ⟨final, high⟩ := reserveRegion_within lowered (Nat.le_trans image.inside small)
    refine .inl ⟨inside, final, ?_⟩
    rw [folded, ok_bind, low, ok_bind, high]
  · refine .inr ⟨past, ?_⟩
    rw [failed]
    rfl

section Counting

/-- The free counter is the number of clear flags of the whole bitmap. -/
def CountsClear (pmm : Pmm) : Prop := pmm.freePages = clearPages pmm

/-- The bitmap has only so many clear flags. -/
theorem clearPages_le (pmm : Pmm) : clearPages pmm ≤ maxPhysPages := by
  -- The clear flags are some of the flags of the bitmap.
  have inside : pmm.pageBitmap.clearSet maxPhysPages ⊆ Finset.range maxPhysPages :=
    Finset.filter_subset _ _
  simpa [clearPages] using Finset.card_le_card inside

/-- Freeing a page that was used keeps the counter exact. -/
theorem CountsClear.addFreePage {pmm next : Pmm} {page : Nat} (counts : CountsClear pmm)
    (within : page < maxPhysPages) (used : pmm.pageBitmap.test page = true)
    (freed : addFreePage pmm page = .ok next) : CountsClear next := by
  -- One flag and one count go together, far below where the counter would wrap.
  have counted := Bitmap.card_clearSet_clear within used
  have few := clearPages_le pmm
  simp only [MiraOS.addFreePage, bitmapClear, if_pos (page_in_bitmap within), Bind.bind, Except.bind,
    Pure.pure, Except.pure, Except.ok.injEq] at freed
  subst freed
  simp only [CountsClear, clearPages, add64, maxPhysPages] at *
  omega

/-- The page loop over a run of used pages keeps the counter exact. -/
theorem CountsClear.forPages {count page : Nat} {pmm final : Pmm} (counts : CountsClear pmm)
    (used : ∀ other, page ≤ other → other < page + count → pmm.pageBitmap.test other = true)
    (looped : forPages MiraOS.addFreePage count page pmm = .ok final) : CountsClear final := by
  -- Clearing the first page of the run leaves the pages behind it used.
  induction count generalizing page pmm with
  | zero =>
    cases looped
    exact counts
  | succ count ih =>
    obtain ⟨next, stepped, looped⟩ := bind_eq_ok.mp looped
    obtain ⟨within, _, _, flags⟩ := setsFlag_addFreePage stepped
    have first := used page (Nat.le_refl _) (by omega)
    refine ih (counts.addFreePage within first stepped) ?_ looped
    intro other low high
    rw [flags other, if_neg (by omega)]
    exact used other (by omega) (by omega)

/-- An entry that frees only used pages keeps the counter exact. -/
theorem CountsClear.addMmapEntry {pmm next : Pmm} {entry : MmapEntry} (counts : CountsClear pmm)
    (used : ∀ page, entry.Frees page → pmm.pageBitmap.test page = true)
    (added : addMmapEntry pmm entry = .ok next) : CountsClear next := by
  unfold MiraOS.addMmapEntry at added
  -- Only an available region frees pages.
  by_cases available : entry.type = 1
  · rw [if_neg (by simpa using available)] at added
    -- Raising the end of memory touches neither the flags nor the counter.
    have raised : CountsClear (if add64 entry.base entry.length > pmm.memEnd then
        { pmm with memEnd := add64 entry.base entry.length } else pmm) := by
      split <;> exact counts
    have bitmap : (if add64 entry.base entry.length > pmm.memEnd then
        { pmm with memEnd := add64 entry.base entry.length } else pmm).pageBitmap =
        pmm.pageBitmap := by split <;> rfl
    refine raised.forPages ?_ added
    intro page low high
    rw [bitmap]
    exact used page ⟨available, low, by omega⟩
  · rw [if_pos (by simpa using available)] at added
    cases added
    exact counts

/-- Two entries free no page in common. -/
def MmapEntry.Apart (one two : MmapEntry) : Prop := ∀ page, ¬ (one.Frees page ∧ two.Frees page)

/-- A memory map whose entries free different pages, all used before, keeps the counter exact. -/
theorem CountsClear.foldlM {entries : List MmapEntry} {pmm final : Pmm} (counts : CountsClear pmm)
    (apart : entries.Pairwise MmapEntry.Apart)
    (used : ∀ entry ∈ entries, ∀ page, entry.Frees page → pmm.pageBitmap.test page = true)
    (folded : entries.foldlM MiraOS.addMmapEntry pmm = .ok final) : CountsClear final := by
  -- What the first entry frees, no later entry frees: its pages are still used.
  induction entries generalizing pmm with
  | nil =>
    cases folded
    exact counts
  | cons entry rest ih =>
    rw [List.foldlM_cons] at folded
    obtain ⟨next, added, folded⟩ := bind_eq_ok.mp folded
    obtain ⟨fromFirst, apart⟩ := List.pairwise_cons.mp apart
    obtain ⟨_, _, _, _, flags⟩ := addMmapEntry_ok added
    refine ih (counts.addMmapEntry (used entry List.mem_cons_self) added) apart ?_ folded
    intro other among page frees
    -- A page that is clear now was freed by the entry in front, or was clear before.
    cases flag : next.pageBitmap.test page with
    | true => rfl
    | false =>
      rcases (flags page).mp flag with freed | clear
      · exact absurd ⟨freed, frees⟩ (fromFirst other among page)
      · rw [used other (List.mem_cons_of_mem _ among) page frees] at clear
        cases clear

/-- Reserving a run of pages does not touch the counter. -/
theorem forPages_bitmapSet_freePages {count page : Nat} {pmm final : Pmm}
    (looped : forPages bitmapSet count page pmm = .ok final) : final.freePages = pmm.freePages := by
  -- Setting a flag leaves the counter of every page of the run alone.
  induction count generalizing page pmm with
  | zero =>
    cases looped
    rfl
  | succ count ih =>
    obtain ⟨next, stepped, looped⟩ := bind_eq_ok.mp looped
    rw [ih looped]
    unfold bitmapSet at stepped
    split at stepped
    · cases stepped
      rfl
    · cases stepped

/-- Reserving a region does not touch the counter. -/
theorem reserveRegion_freePages {pmm final : Pmm} {base length : Nat}
    (reserved : reserveRegion pmm base length = .ok final) : final.freePages = pmm.freePages :=
  forPages_bitmapSet_freePages reserved

end Counting

/-- A page that boot takes back after the walk: the first megabyte and the pages of the bitmap. -/
def ReservedPage (bitmapAddr page : Nat) : Prop :=
  page < 256 ∨ (bitmapAddr / pageSize ≤ page ∧ page < (bitmapAddr + bitmapSize + 4095) / pageSize)

/-- The end of the bitmap's pages, as boot computes it. -/
theorem KernelImage.bitmapEnd (image : KernelImage) (small : image.imageEnd ≤ maxPhysPages * pageSize) :
    add64 (add64 image.bitmapAddr bitmapSize) 4095 = image.bitmapAddr + bitmapSize + 4095 := by
  have inside := image.inside
  simp only [maxPhysPages, pageSize] at small
  rw [add64_of_lt (show image.bitmapAddr + bitmapSize < 2 ^ 64 by omega), add64_of_lt (by omega)]

/-- The managed pages after boot are those an entry frees and boot does not take back. -/
theorem mem_managedFree_boot {fuel mbi : Nat} {info : Memory} {image : KernelImage} {pmm : Pmm}
    {entries : List MmapEntry} (booted : pmmInit fuel info mbi image.bitmapAddr = .ok pmm)
    (visited : tagEntries info fuel (add64 mbi 8) = some entries)
    (small : image.imageEnd ≤ maxPhysPages * pageSize) (page : Nat) :
    (page ∈ managedFree pmm ↔ pmm.pageBitmap.test page = false) ∧
      (pmm.pageBitmap.test page = false ↔
        ¬ ReservedPage image.bitmapAddr page ∧ ∃ entry ∈ entries, entry.Frees page) := by
  obtain ⟨found, foundEntries, start, _, reaches, free⟩ := pmmInit_ok booted
  obtain rfl : found = entries := Option.some.inj (foundEntries.symm.trans visited)
  rw [image.bitmapEnd small] at free
  -- A page below 256 is one of the first megabyte.
  have flags : pmm.pageBitmap.test page = false ↔
      ¬ ReservedPage image.bitmapAddr page ∧ ∃ entry ∈ found, entry.Frees page := by
    rw [free page, ReservedPage, not_or, Nat.not_lt, and_assoc]
  refine ⟨?_, flags⟩
  simp only [managedFree, Finset.mem_filter, Bitmap.mem_clearSet]
  constructor
  · exact fun managed => managed.1.2
  · -- A freed page lies below the end of its entry, and so below the end of memory.
    intro clear
    obtain ⟨reserved, entry, among, frees⟩ := flags.mp clear
    have below : page < pmm.memEnd / pageSize :=
      Nat.lt_of_lt_of_le frees.2.2 (Nat.div_le_div_right (reaches entry among frees.1))
    refine ⟨⟨below, clear⟩, ?_⟩
    rw [start]
    simp only [ReservedPage, not_or, Nat.not_lt] at reserved
    exact reserved.1

/-- The bytes of the region that an entry describes. -/
def MmapEntry.Holds (entry : MmapEntry) (byte : Nat) : Prop :=
  entry.base ≤ byte ∧ byte < entry.base + entry.length

/-- A memory map whose available regions are page aligned, disjoint and below 512 MiB. -/
structure AlignedMap (entries : List MmapEntry) : Prop where
  aligned : ∀ entry ∈ entries, entry.type = 1 →
    entry.base % pageSize = 0 ∧ entry.length % pageSize = 0
  disjoint : entries.Pairwise fun one two => one.type = 1 → two.type = 1 →
    ∀ byte, ¬ (one.Holds byte ∧ two.Holds byte)
  below : ∀ entry ∈ entries, entry.type = 1 → entry.base + entry.length ≤ 512 * 2 ^ 20

/-- An available region below 512 MiB frees no page outside of the bitmap. -/
theorem MmapEntry.Frees.within {entry : MmapEntry} {page : Nat} (frees : entry.Frees page)
    (below : entry.base + entry.length ≤ 512 * 2 ^ 20) :
    (page + 1) * pageSize ≤ entry.base + entry.length ∧ page < maxPhysPages := by
  obtain ⟨_, _, high⟩ := frees
  -- The end of the region does not wrap around, and it is rounded down.
  rw [add64_of_lt (by omega)] at high
  simp only [pageSize, maxPhysPages] at *
  omega

/-- The entries of an aligned map free no page in common. -/
theorem AlignedMap.apart {entries : List MmapEntry} (map : AlignedMap entries) :
    entries.Pairwise MmapEntry.Apart := by
  refine map.disjoint.imp_of_mem ?_
  intro one two first second disjoint page both
  -- The first byte of a freed page belongs to the region that frees it.
  have holds : ∀ entry ∈ entries, entry.Frees page → entry.Holds (page * pageSize) := by
    intro entry among frees
    have whole := (frees.within (map.below entry among frees.1)).1
    have aligned := (map.aligned entry among frees.1).1
    obtain ⟨_, low, _⟩ := frees
    simp only [MmapEntry.Holds, pageSize] at *
    omega
  exact disjoint both.1.1 both.2.1 (page * pageSize)
    ⟨holds one first both.1, holds two second both.2⟩

/-- The pages that the entries of an aligned map free are all in the bitmap. -/
theorem AlignedMap.within {entries : List MmapEntry} (map : AlignedMap entries) :
    ∀ entry ∈ entries, ∀ page, entry.Frees page → page < maxPhysPages :=
  fun entry among _ frees => (frees.within (map.below entry among frees.1)).2

/-- The walk over an aligned map counts the pages that its entries free, once each. -/
theorem AlignedMap.counted {entries : List MmapEntry} (map : AlignedMap entries) {walked : Pmm}
    (folded : entries.foldlM addMmapEntry pmmReset = .ok walked) :
    CountsClear walked ∧ ∀ page, page ∈ walked.pageBitmap.clearSet maxPhysPages ↔
      ∃ entry ∈ entries, entry.Frees page := by
  -- The walk starts with no free page, and a counter that says so.
  have fresh : CountsClear pmmReset := by
    have none : pmmReset.pageBitmap.clearSet maxPhysPages = ∅ := by
      ext page
      simp [pmmReset_used]
    rw [CountsClear, clearPages, none]
    rfl
  refine ⟨fresh.foldlM map.apart (fun _ _ page _ => pmmReset_used page) folded, fun page => ?_⟩
  obtain ⟨_, _, _, _, flags⟩ := foldlM_addMmapEntry folded
  rw [Bitmap.mem_clearSet, flags page, pmmReset_used]
  simp only [Bool.true_eq_false, or_false]
  constructor
  · exact And.right
  · rintro ⟨entry, among, frees⟩
    exact ⟨map.within entry among page frees, entry, among, frees⟩

/-- The count is exact after boot when no freed page is taken back, and only then. -/
theorem AlignedMap.freePages_exact {fuel mbi : Nat} {info : Memory} {image : KernelImage} {pmm : Pmm}
    {entries : List MmapEntry} (map : AlignedMap entries)
    (booted : pmmInit fuel info mbi image.bitmapAddr = .ok pmm)
    (visited : tagEntries info fuel (add64 mbi 8) = some entries)
    (small : image.imageEnd ≤ maxPhysPages * pageSize) :
    pmm.freePages = (managedFree pmm).card ↔
      ∀ entry ∈ entries, ∀ page, entry.Frees page → ¬ ReservedPage image.bitmapAddr page := by
  have free := mem_managedFree_boot booted visited small
  obtain ⟨walked, looped, reserved⟩ := bind_eq_ok.mp booted
  obtain ⟨lowered, low, high⟩ := bind_eq_ok.mp reserved
  rw [tagLoop_eq visited] at looped
  obtain ⟨counts, freed⟩ := map.counted looped
  -- The counter of the walk is not touched by the reservations.
  have kept : pmm.freePages = (walked.pageBitmap.clearSet maxPhysPages).card := by
    rw [reserveRegion_freePages high, reserveRegion_freePages low]
    exact counts
  -- Reserving pages only takes from those that the walk has freed.
  have fewer : managedFree pmm ⊆ walked.pageBitmap.clearSet maxPhysPages := by
    intro page managed
    exact (freed page).mpr ((free page).2.mp ((free page).1.mp managed)).2
  rw [kept]
  constructor
  · -- Equal numbers make the free pages all of the freed ones.
    intro same entry among page frees
    have all := Finset.eq_of_subset_of_card_le fewer (Nat.le_of_eq same)
    have managed : page ∈ managedFree pmm := all ▸ (freed page).mpr ⟨entry, among, frees⟩
    exact ((free page).2.mp ((free page).1.mp managed)).1
  · intro clear
    apply congrArg Finset.card
    apply Finset.Subset.antisymm _ fewer
    intro page member
    obtain ⟨entry, among, frees⟩ := (freed page).mp member
    exact (free page).1.mpr ((free page).2.mpr ⟨clear entry among page frees, entry, among, frees⟩)

/-- Booting from a map below 512 MiB succeeds. -/
theorem boots_below {fuel mbi : Nat} {info : Memory} {image : KernelImage}
    {entries : List MmapEntry} (visited : tagEntries info fuel (add64 mbi 8) = some entries)
    (small : image.imageEnd ≤ maxPhysPages * pageSize)
    (below : ∀ entry ∈ entries, entry.type = 1 → entry.base + entry.length ≤ 512 * 2 ^ 20) :
    ∃ pmm, pmmInit fuel info mbi image.bitmapAddr = .ok pmm := by
  -- The boot fails only at a page past the bitmap, and the map lists none.
  rcases pmmInit_bounded visited small with ⟨_, booted⟩ | ⟨⟨entry, among, page, frees, past⟩, _⟩
  · exact booted
  · exact absurd (frees.within (below entry among frees.1)).2 (Nat.not_lt.mpr past)

/--
The free count after boot.

For every aligned map, boot succeeds, and the count is the number of free managed pages exactly when no
available region contains a page that boot takes back afterwards.
-/
theorem boot_count_exact_iff {fuel mbi : Nat} {info : Memory} {image : KernelImage}
    {entries : List MmapEntry} (visited : tagEntries info fuel (add64 mbi 8) = some entries)
    (small : image.imageEnd ≤ maxPhysPages * pageSize) (map : AlignedMap entries) :
    ∃ pmm, pmmInit fuel info mbi image.bitmapAddr = .ok pmm ∧
      (pmm.freePages = (managedFree pmm).card ↔
        ∀ entry ∈ entries, ∀ page, entry.Frees page → ¬ ReservedPage image.bitmapAddr page) := by
  -- A map below 512 MiB boots, and then the count is exact.
  obtain ⟨pmm, booted⟩ := boots_below visited small map.below
  exact ⟨pmm, booted, map.freePages_exact booted visited small⟩

/-- Boot information with one memory map tag and one available region in it. -/
def regionInfo (base length : Nat) : Memory :=
  let words := write64 (write64 (fun _ => 0) 0x9018 base) 0x9020 length
  [(0x9008, 6), (0x900C, 40), (0x9010, 24), (0x9028, 1)].foldl
    (fun mem word => write32 mem word.1 word.2) words

/-- A map with one region is aligned when the region is. -/
theorem alignedMap_single {base length : Nat} (aligned : base % pageSize = 0 ∧ length % pageSize = 0)
    (below : base + length ≤ 512 * 2 ^ 20) : AlignedMap [⟨base, length, 1⟩] where
  aligned := by simpa using aligned
  disjoint := List.pairwise_singleton _ _
  below := by simpa using below

/-- A region above the image is counted exactly. -/
theorem boot_count_exact_above :
    ∃ pmm, pmmInit 2 (regionInfo 0x200000 0x10000) 0x9000 smallImage.bitmapAddr = .ok pmm ∧
      pmm.freePages = (managedFree pmm).card := by
  have visited : tagEntries (regionInfo 0x200000 0x10000) 2 (add64 0x9000 8) =
      some [⟨0x200000, 0x10000, 1⟩] := by decide +kernel
  obtain ⟨pmm, booted, exactly⟩ := boot_count_exact_iff visited
    (show smallImage.imageEnd ≤ _ by decide) (alignedMap_single (by decide) (by decide))
  refine ⟨pmm, booted, exactly.mpr ?_⟩
  intro entry among page frees
  -- The region starts at page 512, behind the bitmap's pages.
  obtain rfl := List.mem_singleton.mp among
  have low : 0x200000 / 4096 ≤ page := frees.2.1
  simp only [ReservedPage, smallImage, bitmapSize, maxPhysPages, pageSize]
  omega

/-- The region around the small image counts the pages of the bitmap as free. -/
theorem boot_count_inexact :
    ¬ ∀ (fuel mbi : Nat) (info : Memory) (image : KernelImage) (entries : List MmapEntry),
      tagEntries info fuel (add64 mbi 8) = some entries →
      image.imageEnd ≤ maxPhysPages * pageSize → AlignedMap entries →
      ∃ pmm, pmmInit fuel info mbi image.bitmapAddr = .ok pmm ∧
        pmm.freePages = (managedFree pmm).card := by
  intro claim
  have map : AlignedMap [⟨0x100000, 0x10000, 1⟩] := alignedMap_single (by decide) (by decide)
  have small : smallImage.imageEnd ≤ maxPhysPages * pageSize := by decide
  obtain ⟨pmm, booted, same⟩ := claim _ _ _ _ _ smallInfo_entries small map
  -- Page 260 is the first page of the bitmap, and the region frees it.
  refine (map.freePages_exact booted smallInfo_entries small).mp same _ List.mem_cons_self 260 ?_ ?_
  · exact ⟨rfl, by decide, by decide⟩
  · exact .inr ⟨by decide, by decide⟩

/-- A scan whose used pages reach the end of the bitmap, and which goes on, runs past the array. -/
theorem pmmScan_past {pmm : Pmm} {count page : Nat} (low : page ≤ maxPhysPages)
    (high : maxPhysPages < page + count)
    (full : ∀ other, page ≤ other → other < maxPhysPages → pmm.pageBitmap.test other = true) :
    pmmScan pmm count page = .error .outOfBounds := by
  -- The scan passes over used pages up to the end of the bitmap.
  induction count generalizing page with
  | zero => omega
  | succ count ih =>
    rcases Nat.eq_or_lt_of_le low with last | within
    · -- The page behind the last described one has no byte in the array.
      have outside := not_page_in_bitmap (Nat.le_of_eq last.symm)
      simp [pmmScan, bitmapTest, outside, Bind.bind, Except.bind]
    · rw [pmmScan_used within (full page (Nat.le_refl _) within)]
      exact ih within (by omega) (fun other above => full other (by omega))

/-- Taking a clear page leaves one clear page fewer. -/
theorem clearPages_take {pmm : Pmm} {page : Nat} (within : page < maxPhysPages)
    (free : pmm.pageBitmap.test page = false) : clearPages (pmm.take page) + 1 = clearPages pmm :=
  Bitmap.card_clearSet_set within free

/-- An allocation with no page to take, in a managed range past the bitmap, runs past the array. -/
theorem pmmAllocPage_past {pmm : Pmm} (start : pmm.memStart = 0x100000)
    (past : maxPhysPages < pmm.memEnd / pageSize)
    (full : ∀ other, 256 ≤ other → other < maxPhysPages → pmm.pageBitmap.test other = true) :
    pmmAllocPage pmm = .error .outOfBounds := by
  have bottom : pmm.memStart / pageSize = 256 := by rw [start]; decide
  rw [pmmAllocPage, bottom]
  exact pmmScan_past (by decide) (by omega) full

/-- An allocator whose managed range goes past the bitmap runs past the array once its pages are taken. -/
theorem run_past_bitmap {pmm : Pmm} {held : List Nat} (start : pmm.memStart = 0x100000)
    (past : maxPhysPages < pmm.memEnd / pageSize) :
    ∃ ops final, Run PmmStep ⟨pmm, held⟩ ops final ∧
      pmmAllocPage final.pmm = .error .outOfBounds := by
  -- Every allocation takes one clear page, so the number of them is what decreases.
  induction left : clearPages pmm using Nat.strong_induction_on generalizing pmm held with
  | _ left ih =>
    by_cases some : ∃ free, 256 ≤ free ∧ free < maxPhysPages ∧ pmm.pageBitmap.test free = false
    · obtain ⟨free, low, high, clear⟩ := some
      have bottom : pmm.memStart / pageSize = 256 := by rw [start]; decide
      have member : free ∈ managedFree pmm := by
        simp only [managedFree, Finset.mem_filter, Bitmap.mem_clearSet, bottom]
        exact ⟨⟨by omega, clear⟩, low⟩
      -- The allocator takes the lowest free page, whichever that is.
      obtain ⟨found, managed, below, _, taken⟩ := pmmAllocPage_free member high
      simp only [managedFree, Finset.mem_filter, Bitmap.mem_clearSet, bottom] at managed
      have fewer := clearPages_take (show found < maxPhysPages by omega) managed.1.2
      obtain ⟨ops, final, run, failed⟩ := @ih (clearPages (pmm.take found)) (by omega) (pmm.take found)
        (found * pageSize :: held) start past rfl
      have nonzero : found * pageSize ≠ 0 := Nat.mul_ne_zero (by omega) (by decide)
      exact ⟨_, final, .cons (.page nonzero taken) run, failed⟩
    · -- With every page taken, the next scan does not stop in time.
      refine ⟨[], ⟨pmm, held⟩, .nil _, pmmAllocPage_past start past ?_⟩
      intro other low high
      cases flag : pmm.pageBitmap.test other with
      | true => rfl
      | false => exact absurd ⟨other, low, high, flag⟩ some

/-- No access of boot, nor of an allocation after any run of calls, is past the bitmap. -/
def StaysInBitmap (fuel : Nat) (info : Memory) (mbi bitmapAddr : Nat) : Prop :=
  pmmInit fuel info mbi bitmapAddr ≠ .error .outOfBounds ∧
    ∀ pmm, pmmInit fuel info mbi bitmapAddr = .ok pmm →
      ∀ ops final, Run PmmStep ⟨pmm, []⟩ ops final → pmmAllocPage final.pmm ≠ .error .outOfBounds

/-- The end of memory after boot is the end of an available region, or still zero. -/
theorem foldlM_memEnd {entries : List MmapEntry} {pmm final : Pmm} {limit : Nat}
    (folded : entries.foldlM addMmapEntry pmm = .ok final) (first : pmm.memEnd ≤ limit)
    (below : ∀ entry ∈ entries, entry.type = 1 → add64 entry.base entry.length ≤ limit) :
    final.memEnd ≤ limit := by
  -- The end of memory only ever becomes the end of an available region.
  refine @foldlM_keeps _ _ _ _ (fun pmm => pmm.memEnd ≤ limit) _ _ _ folded first ?_
  intro state entry next among kept added
  unfold addMmapEntry at added
  by_cases available : entry.type = 1
  · rw [if_neg (by simpa using available)] at added
    obtain ⟨_, _, sameEnd, _⟩ := setsFlag_addFreePage.forPages added
    rw [sameEnd]
    split
    · exact below entry among available
    · exact kept
  · rw [if_pos (by simpa using available)] at added
    cases added
    exact kept

/-- The end of memory after boot, against a number of pages. -/
theorem pmmInit_memEnd {fuel mbi bitmapAddr pages : Nat} {info : Memory} {pmm : Pmm}
    {entries : List MmapEntry} (booted : pmmInit fuel info mbi bitmapAddr = .ok pmm)
    (visited : tagEntries info fuel (add64 mbi 8) = some entries) :
    pmm.memEnd / pageSize ≤ pages ↔
      ∀ entry ∈ entries, entry.type = 1 → add64 entry.base entry.length / pageSize ≤ pages := by
  obtain ⟨found, foundEntries, _, _, reaches, _⟩ := pmmInit_ok booted
  obtain rfl : found = entries := Option.some.inj (foundEntries.symm.trans visited)
  constructor
  · intro below entry among available
    exact Nat.le_trans (Nat.div_le_div_right (reaches entry among available)) below
  · intro below
    obtain ⟨walked, looped, reserved⟩ := bind_eq_ok.mp booted
    obtain ⟨lowered, low, high⟩ := bind_eq_ok.mp reserved
    rw [tagLoop_eq visited] at looped
    -- The limit is the last byte of the last allowed page.
    have limited : walked.memEnd ≤ pages * pageSize + (pageSize - 1) := by
      refine foldlM_memEnd looped (Nat.zero_le _) ?_
      intro entry among available
      have inside := below entry among available
      simp only [pageSize] at *
      omega
    -- The reservations leave the end of memory alone.
    rw [(reserveRegion_ok high).2.1, (reserveRegion_ok low).2.1]
    simp only [pageSize] at *
    omega

/-- A region that ends in the bitmap frees no page outside of it. -/
theorem MmapEntry.Frees.lt_of_end {entry : MmapEntry} {page : Nat} (frees : entry.Frees page)
    (below : entry.type = 1 → add64 entry.base entry.length / pageSize ≤ maxPhysPages) :
    page < maxPhysPages :=
  Nat.lt_of_lt_of_le frees.2.2 (below frees.1)

/-- Boot information with a region that ends too far on leaves the bitmap. -/
theorem not_staysInBitmap {fuel mbi : Nat} {info : Memory} {image : KernelImage}
    {entries : List MmapEntry} (visited : tagEntries info fuel (add64 mbi 8) = some entries)
    (small : image.imageEnd ≤ maxPhysPages * pageSize)
    (past : ¬ ∀ entry ∈ entries, entry.type = 1 →
      add64 entry.base entry.length / pageSize ≤ maxPhysPages) :
    ¬ StaysInBitmap fuel info mbi image.bitmapAddr := by
  intro stays
  rcases pmmInit_bounded visited small with ⟨_, pmm, booted⟩ | ⟨_, failed⟩
  · -- Boot freed nothing outside, but the end of memory is there.
    rw [← pmmInit_memEnd booted visited, Nat.not_le] at past
    obtain ⟨_, _, start, _⟩ := pmmInit_ok booted
    obtain ⟨ops, final, run, failed⟩ := run_past_bitmap start past
    exact stays.2 pmm booted ops final run failed
  · exact stays.1 failed

/--
The bounds of the bitmap.

Whatever the memory map, no access is past the bitmap exactly when every available region, its end
computed as the code does, ends within the pages that the bitmap describes.
-/
theorem staysInBitmap_iff {fuel mbi : Nat} {info : Memory} {image : KernelImage}
    {entries : List MmapEntry} (visited : tagEntries info fuel (add64 mbi 8) = some entries)
    (small : image.imageEnd ≤ maxPhysPages * pageSize) :
    StaysInBitmap fuel info mbi image.bitmapAddr ↔
      ∀ entry ∈ entries, entry.type = 1 → add64 entry.base entry.length / pageSize ≤ maxPhysPages := by
  constructor
  · intro stays
    by_contra past
    exact not_staysInBitmap visited small past stays
  · intro below
    have inside : ∀ entry ∈ entries, ∀ page, entry.Frees page → page < maxPhysPages :=
      fun entry among page frees => frees.lt_of_end (below entry among)
    refine ⟨?_, ?_⟩
    · rcases pmmInit_bounded visited small with ⟨_, pmm, booted⟩ | ⟨⟨entry, among, page, frees, past⟩, _⟩
      · simp [booted]
      · exact absurd (inside entry among page frees) (Nat.not_lt.mpr past)
    · -- The managed range stays where boot put it, inside of the bitmap.
      intro pmm booted ops final run
      have managed := (pmmInit_memEnd booted visited).mpr below
      have reached := pmmReached_of_run managed ⟨List.nodup_nil, by simp⟩ run
      rcases pmmAllocPage_cases final.pmm (reached.memEnd ▸ managed) with ⟨_, _, _, _, _, result⟩ | ⟨_, result⟩
      · simp [result]
      · simp [result]

/-- A machine with a region that ends at 512 MiB stays inside of the bitmap. -/
theorem staysInBitmap_half_gigabyte :
    StaysInBitmap 2 (regionInfo 0x200000 0x1FE00000) 0x9000 smallImage.bitmapAddr := by
  -- The one region ends at the last page the bitmap has a bit for.
  have visited : tagEntries (regionInfo 0x200000 0x1FE00000) 2 (add64 0x9000 8) =
      some [⟨0x200000, 0x1FE00000, 1⟩] := by decide +kernel
  refine (staysInBitmap_iff visited (by decide)).mpr ?_
  simp only [List.mem_singleton, forall_eq]
  decide

/-- A machine with one page more runs past the array while it boots. -/
theorem not_staysInBitmap_page_more :
    ¬ ∀ (fuel mbi : Nat) (info : Memory) (image : KernelImage) (entries : List MmapEntry),
      tagEntries info fuel (add64 mbi 8) = some entries →
      image.imageEnd ≤ maxPhysPages * pageSize → StaysInBitmap fuel info mbi image.bitmapAddr := by
  intro claim
  -- One page more than the bitmap has bits for.
  have visited : tagEntries (regionInfo 0x200000 0x1FE01000) 2 (add64 0x9000 8) =
      some [⟨0x200000, 0x1FE01000, 1⟩] := by decide +kernel
  have small : smallImage.imageEnd ≤ maxPhysPages * pageSize := by decide
  refine not_staysInBitmap visited small ?_ (claim _ _ _ _ _ visited small)
  simp only [List.mem_singleton, forall_eq]
  decide

/-- A byte of some available region. -/
def Available (entries : List MmapEntry) (byte : Nat) : Prop :=
  ∃ entry ∈ entries, entry.type = 1 ∧ entry.Holds byte

/-- Every free page consists of available bytes only. -/
def WholePages (entries : List MmapEntry) (pmm : Pmm) : Prop :=
  ∀ page, pmm.pageBitmap.test page = false → ∀ byte, page * pageSize ≤ byte →
    byte < (page + 1) * pageSize → Available entries byte

/-- The bytes by which a region is rounded down to a page that boot leaves free are available too. -/
def RoundedDown (entries : List MmapEntry) (bitmapAddr : Nat) : Prop :=
  ∀ entry ∈ entries, entry.Frees (entry.base / pageSize) →
    ¬ ReservedPage bitmapAddr (entry.base / pageSize) →
    ∀ byte, entry.base / pageSize * pageSize ≤ byte → byte < entry.base → Available entries byte

/-- The bytes of a freed page behind the start of its region belong to the region. -/
theorem MmapEntry.Frees.holds {entry : MmapEntry} {page byte : Nat} (frees : entry.Frees page)
    (below : entry.base + entry.length ≤ 512 * 2 ^ 20) (start : entry.base ≤ byte)
    (stop : byte < (page + 1) * pageSize) : entry.Holds byte :=
  ⟨start, Nat.lt_of_lt_of_le stop (frees.within below).1⟩

/-- The free pages after boot are whole exactly when rounding down adds available bytes only. -/
theorem wholePages_iff_roundedDown {fuel mbi : Nat} {info : Memory} {image : KernelImage} {pmm : Pmm}
    {entries : List MmapEntry} (booted : pmmInit fuel info mbi image.bitmapAddr = .ok pmm)
    (visited : tagEntries info fuel (add64 mbi 8) = some entries)
    (small : image.imageEnd ≤ maxPhysPages * pageSize)
    (below : ∀ entry ∈ entries, entry.type = 1 → entry.base + entry.length ≤ 512 * 2 ^ 20) :
    WholePages entries pmm ↔ RoundedDown entries image.bitmapAddr := by
  have free := fun page => (mem_managedFree_boot booted visited small page).2
  constructor
  · intro whole entry among frees kept byte low high
    refine whole _ ((free _).mpr ⟨kept, entry, among, frees⟩) byte low ?_
    simp only [pageSize] at *
    omega
  · intro rounded page clear byte low high
    obtain ⟨kept, entry, among, frees⟩ := (free page).mp clear
    -- The bytes from the start of the region on belong to it.
    by_cases start : entry.base ≤ byte
    · exact ⟨entry, among, frees.1, frees.holds (below entry among frees.1) start high⟩
    · -- A free page with bytes before its region is the page the region starts in.
      have first : entry.base / pageSize = page := by
        have above := frees.2.1
        simp only [pageSize] at *
        omega
      rw [← first] at frees kept low
      exact rounded entry among frees kept byte low (Nat.lt_of_not_le start)

/--
Only whole available pages are free after boot.

For every map below 512 MiB, boot succeeds, and that holds exactly when each region whose first page
boot leaves free has only available bytes before it in that page.
-/
theorem boot_whole_pages_iff {fuel mbi : Nat} {info : Memory} {image : KernelImage}
    {entries : List MmapEntry} (visited : tagEntries info fuel (add64 mbi 8) = some entries)
    (small : image.imageEnd ≤ maxPhysPages * pageSize)
    (below : ∀ entry ∈ entries, entry.type = 1 → entry.base + entry.length ≤ 512 * 2 ^ 20) :
    ∃ pmm, pmmInit fuel info mbi image.bitmapAddr = .ok pmm ∧
      (WholePages entries pmm ↔ RoundedDown entries image.bitmapAddr) := by
  -- A map below 512 MiB boots, and then the pages are those of the rounded regions.
  obtain ⟨pmm, booted⟩ := boots_below visited small below
  exact ⟨pmm, booted, wholePages_iff_roundedDown booted visited small below⟩

/-- A region that ends in the middle of a page leaves whole pages only. -/
theorem boot_whole_pages_half_end :
    ∃ pmm, pmmInit 2 (regionInfo 0x200000 0x1800) 0x9000 smallImage.bitmapAddr = .ok pmm ∧
      WholePages [⟨0x200000, 0x1800, 1⟩] pmm := by
  have visited : tagEntries (regionInfo 0x200000 0x1800) 2 (add64 0x9000 8) =
      some [⟨0x200000, 0x1800, 1⟩] := by decide +kernel
  obtain ⟨pmm, booted, whole⟩ := boot_whole_pages_iff visited
    (show smallImage.imageEnd ≤ _ by decide) (by simp)
  refine ⟨pmm, booted, whole.mpr ?_⟩
  intro entry among _ _ byte low high
  -- The region starts with a page, so nothing is rounded.
  obtain rfl := List.mem_singleton.mp among
  simp only [pageSize] at *
  omega

/-- A region that starts in the middle of a page makes the whole page free. -/
theorem boot_half_page_free :
    ¬ ∀ (fuel mbi : Nat) (info : Memory) (image : KernelImage) (entries : List MmapEntry),
      tagEntries info fuel (add64 mbi 8) = some entries →
      image.imageEnd ≤ maxPhysPages * pageSize →
      (∀ entry ∈ entries, entry.type = 1 → entry.base + entry.length ≤ 512 * 2 ^ 20) →
      ∃ pmm, pmmInit fuel info mbi image.bitmapAddr = .ok pmm ∧ WholePages entries pmm := by
  intro claim
  have visited : tagEntries (regionInfo 0x200800 0x10000) 2 (add64 0x9000 8) =
      some [⟨0x200800, 0x10000, 1⟩] := by decide +kernel
  have small : smallImage.imageEnd ≤ maxPhysPages * pageSize := by decide
  obtain ⟨pmm, booted, whole⟩ := claim _ _ _ _ _ visited small (by simp)
  rw [wholePages_iff_roundedDown booted visited small (by simp)] at whole
  -- The first byte of the page is before the only region.
  obtain ⟨entry, among, _, holds⟩ := whole _ List.mem_cons_self ⟨rfl, by decide, by decide⟩
    (by simp only [ReservedPage]; decide) 0x200000 (by decide) (by decide)
  obtain rfl := List.mem_singleton.mp among
  exact absurd holds.1 (by decide)

end MiraOS
