import MiraOS.Kernel.ElfReads
import MiraOS.Kernel.MiraImage

/-! What the memory shows of an ELF file whose segments are whole pages of the file. -/

namespace MiraOS

open Machine

/-- What the segments of a file have to be like, below a limit of the addresses. -/
structure LoadableSegments (file : List UInt8) (limit : Nat) : Prop where
  inside : ElfInside file
  short : ∀ i, i < elfField file 56 2 → IsLoaded file i → (segmentAt file i).filesz ≤ (segmentAt file i).memsz
  memoryEnd : ∀ i, i < elfField file 56 2 → IsLoaded file i →
    (segmentAt file i).vaddr + (segmentAt file i).memsz ≤ limit
  disjoint : ∀ i j, i < elfField file 56 2 → j < elfField file 56 2 → i ≠ j → IsLoaded file i →
    IsLoaded file j → PagesApart (segmentSection (segmentAt file i)) (segmentSection (segmentAt file j))

/-- Every segment with memory starts at a page, and the file has all its bytes. -/
def SegmentsWhole (file : List UInt8) : Prop :=
  ∀ i, i < elfField file 56 2 → IsLoaded file i → 0 < (segmentAt file i).memsz →
    (segmentAt file i).vaddr % 4096 = 0 ∧ (segmentAt file i).filesz = (segmentAt file i).memsz

/-- A page of a segment, as a segment of its own. -/
def ElfSegment.page (segment : ElfSegment) (t : Nat) : ElfSegment where
  vaddr := segment.vaddr + 4096 * t
  offset := segment.offset + 4096 * t
  filesz := min (segment.filesz - 4096 * t) 4096
  memsz := min (segment.memsz - 4096 * t) 4096

/-- The number of pages that a segment takes. -/
def ElfSegment.pageCount (segment : ElfSegment) : Nat := (segment.memsz + 4095) / 4096

/-- The pages of a segment, from one on. -/
def ElfSegment.pagesFrom (segment : ElfSegment) (t : Nat) : List ElfSegment :=
  (List.range' t (segment.pageCount - t)).map segment.page

/-- The pages that a program header takes. -/
def headerPages (file : List UInt8) (i : Nat) : List ElfSegment :=
  if elfField file (segmentPlace file i) 4 = ptLoad then (segmentAt file i).pagesFrom 0 else []

/-- The pages of a file, in the order in which they are loaded. -/
def elfPages (file : List UInt8) : List ElfSegment :=
  (List.range' 0 (elfField file 56 2)).flatMap (headerPages file)

/-- Copy the bytes of a page to a frame, and map the page. -/
def loadPage {σ : Type} (platform : Platform σ) (file : List UInt8) (page : ElfSegment) (frame : Nat)
    (state : σ) : Except MiraFault σ := do
  let state ← copySection platform file page.offset frame page.copied 0 state
  onPlatform (platform.pagingMapPage page.vaddr frame (pagePresent ||| pageWrite) state)

/-- Load some pages, each to a frame of its own. -/
def loadPages {σ : Type} (platform : Platform σ) (file : List UInt8) :
    List ElfSegment → σ → Except MiraFault (Bool × σ)
  | [], state => .ok (true, state)
  | page :: pages, state => do
    let (frame, state) ← onPlatform (platform.pmmAllocPage state)
    if frame = 0 then return (false, state)
    else do
      let state ← loadPage platform file page frame state
      loadPages platform file pages state

/-- A page has memory below a limit, no more than a frame, and its bytes are in the file. -/
structure LoadablePage (file : List UInt8) (limit : Nat) (page : ElfSegment) : Prop where
  memory : 0 < page.memsz
  small : page.memsz ≤ 4096
  memoryEnd : page.vaddr + page.memsz ≤ limit
  bytes : SegmentBytes file page

section

variable {σ : Type} {platform : Platform σ} {file : List UInt8} {segment page : ElfSegment} {limit : Nat}
  {state next : σ}

/-- The bytes of a page are those of the segment from its place on. -/
theorem ElfSegment.page_copied (segment : ElfSegment) (t : Nat) :
    (segment.page t).copied = min (segment.copied - 4096 * t) 4096 := by
  unfold ElfSegment.page ElfSegment.copied
  dsimp only
  omega

/-- A page inside a segment can be loaded as the segment can. -/
theorem ElfSegment.page_loadable {t : Nat} (among : t < segment.pageCount)
    (ends : segment.vaddr + segment.memsz ≤ limit) (bytes : SegmentBytes file segment) :
    LoadablePage file limit (segment.page t) := by
  unfold ElfSegment.pageCount at among
  refine ⟨?_, Nat.min_le_right _ _, ?_, ?_⟩
  · show 0 < min (segment.memsz - 4096 * t) 4096
    omega
  · show segment.vaddr + 4096 * t + min (segment.memsz - 4096 * t) 4096 ≤ limit
    omega
  · -- A page behind the bytes of the file has none to copy.
    rw [SegmentBytes, page_copied]
    rcases bytes with none | inside
    · exact .inl (by omega)
    · by_cases behind : segment.copied ≤ 4096 * t
      · exact .inl (by omega)
      · refine .inr ?_
        show segment.offset + 4096 * t + _ ≤ _
        omega

/-- From a page on there is that page and those behind it. -/
theorem ElfSegment.pagesFrom_succ {t : Nat} (among : t < segment.pageCount) :
    segment.pagesFrom t = segment.page t :: segment.pagesFrom (t + 1) := by
  have count : segment.pageCount - t = segment.pageCount - (t + 1) + 1 := by omega
  rw [pagesFrom, count, List.range'_succ, List.map_cons]
  rfl

/-- Behind the last page there is none. -/
theorem ElfSegment.pagesFrom_done {t : Nat} (done : segment.pageCount ≤ t) : segment.pagesFrom t = [] := by
  have none : segment.pageCount - t = 0 := by omega
  rw [pagesFrom, none]
  rfl

/-- A page of a segment is filled and mapped as a segment of its own. -/
theorem fillSegmentPage_page {t : Nat} (among : t < segment.pageCount)
    (ends : segment.vaddr + segment.memsz ≤ 2 ^ 64) (bytes : SegmentBytes file segment)
    (small : file.length < 2 ^ 63) (frame : Nat) (state : σ) :
    fillSegmentPage platform file segment (4096 * t) frame state =
      loadPage platform file (segment.page t) frame state := by
  unfold ElfSegment.pageCount at among
  have copied := segment.page_copied t
  -- The part that belongs to the page may be empty, where the segment has more memory than bytes.
  have part : copyPart platform file (segmentSection segment) (4096 * t) frame state =
      copySection platform file (segment.page t).offset frame (segment.page t).copied 0 state := by
    rw [copyPart_segment bytes small, copied]
    by_cases more : 4096 * t < segment.copied
    · rw [if_pos more]
      rfl
    · have none : min (segment.copied - 4096 * t) 4096 = 0 := by omega
      rw [if_neg more, none]
      rfl
  rw [fillSegmentPage, loadPage, copyPage_eq (by omega) (bytes.straight small), part, add64_of_lt (by omega)]
  rfl

/-- Loading some pages and then others is loading them all. -/
theorem loadPages_append {front back : List ElfSegment} :
    loadPages platform file (front ++ back) state = .ok (true, next) ↔
      ∃ middle, loadPages platform file front state = .ok (true, middle) ∧
        loadPages platform file back middle = .ok (true, next) := by
  induction front generalizing state with
  | nil =>
    constructor
    · exact fun loaded => ⟨state, rfl, loaded⟩
    · rintro ⟨middle, same, loaded⟩
      cases same
      exact loaded
  | cons page front ih =>
    rw [List.cons_append, loadPages, loadPages]
    -- Both start with the same call, and without a frame neither goes on.
    cases onPlatform (platform.pmmAllocPage state) with
    | error fault => simp [bind, Except.bind]
    | ok allocated =>
      obtain ⟨frame, taken⟩ := allocated
      rw [ok_bind, ok_bind]
      dsimp only
      by_cases null : frame = 0
      · simp [null, pure, Except.pure]
      · rw [if_neg null, if_neg null]
        cases loadPage platform file page frame taken with
        | error fault => simp [bind, Except.bind]
        | ok filled => exact ih

/-- Loading a page and then others, where all of it succeeds. -/
theorem loadPages_cons {pages : List ElfSegment} :
    loadPages platform file (page :: pages) state = .ok (true, next) ↔
      ∃ frame taken filled, platform.pmmAllocPage state = .ok (frame, taken) ∧ frame ≠ 0 ∧
        loadPage platform file page frame taken = .ok filled ∧
        loadPages platform file pages filled = .ok (true, next) := by
  rw [loadPages]
  -- A frame that is not null is taken and filled, and the other pages follow.
  constructor
  · intro loaded
    obtain ⟨⟨frame, taken⟩, allocated, turned⟩ := bind_eq_ok.mp loaded
    dsimp only at turned
    by_cases null : frame = 0
    · rw [if_pos null] at turned
      cases turned
    · rw [if_neg null] at turned
      obtain ⟨filled, fills, rest⟩ := bind_eq_ok.mp turned
      exact ⟨frame, taken, filled, onPlatform_ok.mp allocated, null, fills, rest⟩
  · rintro ⟨frame, taken, filled, allocated, nonzero, fills, rest⟩
    refine bind_eq_ok.mpr ⟨_, onPlatform_ok.mpr allocated, ?_⟩
    dsimp only
    rw [if_neg nonzero]
    exact bind_eq_ok.mpr ⟨filled, fills, rest⟩

/-- The loop over the pages of a segment loads them, if it has a turn for each. -/
theorem elfPageLoop_pages {fuel t : Nat} (ends : segment.vaddr + segment.memsz ≤ 2 ^ 64)
    (short : segment.memsz ≤ 2 ^ 64 - 4096) (bytes : SegmentBytes file segment)
    (small : file.length < 2 ^ 63) :
    elfPageLoop platform file segment fuel (4096 * t) state = .ok (true, next) ↔
      segment.pageCount ≤ t + fuel ∧ loadPages platform file (segment.pagesFrom t) state = .ok (true, next) := by
  -- Over the fuel: each turn of the loop is one page of the list.
  induction fuel generalizing t state with
  | zero =>
    by_cases done : segment.pageCount ≤ t
    · have all : segment.memsz ≤ 4096 * t := by
        unfold ElfSegment.pageCount at done
        omega
      rw [elfPageLoop_done all, ElfSegment.pagesFrom_done done, loadPages]
      exact (and_iff_right done).symm
    · -- A page is left and there is no fuel for it.
      have more : 4096 * t < segment.memsz := by
        unfold ElfSegment.pageCount at done
        omega
      rw [elfPageLoop, if_pos more]
      constructor
      · intro failed
        cases failed
      · rintro ⟨enough, -⟩
        omega
  | succ fuel ih =>
    by_cases done : segment.pageCount ≤ t
    · have all : segment.memsz ≤ 4096 * t := by
        unfold ElfSegment.pageCount at done
        omega
      rw [elfPageLoop_done all, ElfSegment.pagesFrom_done done, loadPages]
      exact (and_iff_right (by omega)).symm
    · have among : t < segment.pageCount := by omega
      have more : 4096 * t < segment.memsz := by
        unfold ElfSegment.pageCount at done
        omega
      have further : add64 (4096 * t) 4096 = 4096 * (t + 1) := by
        rw [add64_of_lt (by omega)]
        omega
      -- One page takes one unit of fuel.
      have count : segment.pageCount ≤ t + (fuel + 1) ↔ segment.pageCount ≤ t + 1 + fuel := by omega
      rw [ElfSegment.pagesFrom_succ among, loadPages_cons, count]
      constructor
      · intro loaded
        obtain ⟨less, frame, taken, filled, same, allocated, nonzero, fills, rest⟩ :=
          elfPageLoop_loaded more loaded
        obtain rfl : less = fuel := by omega
        rw [further] at rest
        obtain ⟨enough, others⟩ := ih.mp rest
        rw [fillSegmentPage_page among ends bytes small] at fills
        exact ⟨enough, frame, taken, filled, allocated, nonzero, fills, others⟩
      · -- The same page, now from the list to the loop.
        rintro ⟨enough, frame, taken, filled, allocated, nonzero, fills, others⟩
        rw [← fillSegmentPage_page among ends bytes small] at fills
        rw [elfPageLoop_turn more, onPlatform_ok.mpr allocated, ok_bind]
        dsimp only
        rw [if_neg nonzero, fills, ok_bind, further]
        exact ih.mpr ⟨enough, others⟩

/-- The pages of a program header of another kind. -/
theorem headerPages_other {i : Nat} (other : ¬ IsLoaded file i) : headerPages file i = [] := if_neg other

/-- The pages of a program header of a segment that is loaded. -/
theorem headerPages_load {i : Nat} (load : IsLoaded file i) :
    headerPages file i = (segmentAt file i).pagesFrom 0 := if_pos load

/-- The loop over the program headers loads the pages of their segments. -/
theorem elfSegmentLoop_pages {fuel count i : Nat} (long : 58 ≤ file.length) (small : file.length < 2 ^ 63)
    (read : ∀ n, i ≤ n → n < i + count → HeaderRead file n)
    (ends : ∀ n, i ≤ n → n < i + count → IsLoaded file n →
      (segmentAt file n).vaddr + (segmentAt file n).memsz ≤ 2 ^ 64)
    (loaded : elfSegmentLoop platform fuel file count i state = .ok (true, next)) :
    loadPages platform file ((List.range' i count).flatMap (headerPages file)) state = .ok (true, next) := by
  induction count generalizing i state with
  | zero => exact loaded
  | succ count ih =>
    obtain ⟨middle, rest, pages, other⟩ :=
      elfSegmentLoop_loaded long small (read i (Nat.le_refl i) (by omega)) loaded
    have behind := ih (fun n low high => read n (by omega) (by omega))
      (fun n low high => ends n (by omega) (by omega)) rest
    rw [List.range'_succ, List.flatMap_cons]
    refine loadPages_append.mpr ⟨middle, ?_, behind⟩
    by_cases load : IsLoaded file i
    · -- The loop over the pages came to its end, so its offset did not wrap around.
      have ran := pages load
      rw [headerPages_load load]
      exact ((elfPageLoop_pages (ends i (Nat.le_refl i) (by omega) load) (elfPageLoop_ends (by omega) rfl ran)
        ((read i (Nat.le_refl i) (by omega)).2 load).2 small).mp ran).2
    · rw [headerPages_other load, other load]
      rfl

/-- With fuel for every page, the loop over the program headers comes to its end where their pages are loaded. -/
theorem elfSegmentLoop_of_pages {fuel count i : Nat} (long : 58 ≤ file.length) (small : file.length < 2 ^ 63)
    (read : ∀ n, i ≤ n → n < i + count → HeaderRead file n)
    (ends : ∀ n, i ≤ n → n < i + count → IsLoaded file n →
      (segmentAt file n).vaddr + (segmentAt file n).memsz ≤ 2 ^ 64)
    (few : ∀ n, i ≤ n → n < i + count → IsLoaded file n →
      (segmentAt file n).memsz ≤ 2 ^ 64 - 4096 ∧ (segmentAt file n).pageCount ≤ fuel)
    (loaded : loadPages platform file ((List.range' i count).flatMap (headerPages file)) state =
      .ok (true, next)) :
    elfSegmentLoop platform fuel file count i state = .ok (true, next) := by
  -- Induction on the headers: the pages of each come in front of those of the rest.
  induction count generalizing i state with
  | zero => exact loaded
  | succ count ih =>
    rw [List.range'_succ, List.flatMap_cons] at loaded
    obtain ⟨middle, pages, rest⟩ := loadPages_append.mp loaded
    have behind := ih (fun n low high => read n (by omega) (by omega))
      (fun n low high => ends n (by omega) (by omega)) (fun n low high => few n (by omega) (by omega)) rest
    have here := read i (Nat.le_refl i) (by omega)
    by_cases load : IsLoaded file i
    · obtain ⟨short, enough⟩ := few i (Nat.le_refl i) (by omega) load
      rw [headerPages_load load] at pages
      rw [elfSegmentLoop_load long small here load,
        (elfPageLoop_pages (t := 0) (ends i (Nat.le_refl i) (by omega) load) short (here.2 load).2 small).mpr
          ⟨by omega, pages⟩]
      exact behind
    · -- A header of another type has no pages, and the loop passes it.
      rw [headerPages_other load] at pages
      cases pages
      rw [elfSegmentLoop_other long small here.1 load]
      exact behind

end

section

variable {file : List UInt8} {limit : Nat} {page : ElfSegment}

/-- What is read for the program headers of such a file is in it. -/
theorem LoadableSegments.read (segments : LoadableSegments file limit) {i : Nat}
    (among : i < elfField file 56 2) : HeaderRead file i := by
  -- The header lies in the file, and so does what is copied of the segment.
  have header := segments.inside.table i among
  simp only [elfProgramHeaderBytes] at header
  refine ⟨by omega, fun load => ⟨by omega, .inr ?_⟩⟩
  have ends := segments.inside.segments i among load
  have copied : (segmentAt file i).copied ≤ (segmentAt file i).filesz := Nat.min_le_left _ _
  omega

/-- A page is one of a file exactly when it is one of a segment that is loaded. -/
theorem mem_elfPages : page ∈ elfPages file ↔ ∃ i t, i < elfField file 56 2 ∧ IsLoaded file i ∧
    t < (segmentAt file i).pageCount ∧ page = (segmentAt file i).page t := by
  unfold elfPages
  rw [List.mem_flatMap]
  -- A page is one of those of a header that is loaded.
  constructor
  · rintro ⟨i, among, member⟩
    by_cases load : IsLoaded file i
    · rw [headerPages_load load, ElfSegment.pagesFrom, List.mem_map] at member
      obtain ⟨t, inside, rfl⟩ := member
      rw [List.mem_range'_1] at among inside
      exact ⟨i, t, by omega, load, by omega, rfl⟩
    · rw [headerPages_other load] at member
      cases member
  · rintro ⟨i, t, among, load, inside, rfl⟩
    refine ⟨i, List.mem_range'_1.mpr ⟨Nat.zero_le i, by omega⟩, ?_⟩
    rw [headerPages_load load]
    exact List.mem_map.mpr ⟨t, List.mem_range'_1.mpr ⟨Nat.zero_le t, by omega⟩, rfl⟩

/-- The pages of a file can be loaded if its segments can. -/
theorem LoadableSegments.loadable (segments : LoadableSegments file limit) (member : page ∈ elfPages file) :
    LoadablePage file limit page := by
  -- The page ends within its segment, and the segment within memory.
  obtain ⟨i, t, among, load, inside, rfl⟩ := mem_elfPages.mp member
  exact ElfSegment.page_loadable inside (segments.memoryEnd i among load) ((segments.read among).2 load).2

/-- The pages of a file have numbers of their own in memory. -/
theorem LoadableSegments.distinct (segments : LoadableSegments file limit) :
    (elfPages file).Pairwise fun one two => one.vaddr / 4096 ≠ two.vaddr / 4096 := by
  refine List.pairwise_flatMap.mpr ⟨fun i among => ?_, ?_⟩
  · by_cases load : IsLoaded file i
    · -- The pages of one segment follow each other.
      rw [headerPages_load load, ElfSegment.pagesFrom, List.pairwise_map]
      refine (List.pairwise_lt_range' 1).imp fun {one two} less => ?_
      show ((segmentAt file i).vaddr + 4096 * one) / 4096 ≠ ((segmentAt file i).vaddr + 4096 * two) / 4096
      omega
    · rw [headerPages_other load]
      exact List.Pairwise.nil
  · -- Those of different segments are apart, as each page has memory of its segment.
    refine (List.pairwise_lt_range' 1).imp_of_mem fun {i j} one two less x first y second => ?_
    rw [List.mem_range'_1] at one two
    by_cases load : IsLoaded file i
    swap
    · rw [headerPages_other load] at first
      cases first
    by_cases loadToo : IsLoaded file j
    swap
    · rw [headerPages_other loadToo] at second
      cases second
    rw [headerPages_load load, ElfSegment.pagesFrom, List.mem_map] at first
    rw [headerPages_load loadToo, ElfSegment.pagesFrom, List.mem_map] at second
    obtain ⟨s, inFirst, rfl⟩ := first
    obtain ⟨t, inSecond, rfl⟩ := second
    rw [List.mem_range'_1] at inFirst inSecond
    unfold ElfSegment.pageCount at inFirst inSecond
    exact segments.disjoint i j (by omega) (by omega) (by omega) load loadToo (4096 * s)
      (show 4096 * s < (segmentAt file i).memsz by omega) (4096 * t)
      (show 4096 * t < (segmentAt file j).memsz by omega)

/-- The pages of a file of whole segments are whole. -/
theorem SegmentsWhole.ofPage (wholes : SegmentsWhole file) (member : page ∈ elfPages file) :
    page.vaddr % 4096 = 0 ∧ page.filesz = page.memsz := by
  obtain ⟨i, t, among, load, inside, rfl⟩ := mem_elfPages.mp member
  -- A segment with a page has memory, so that it is whole.
  unfold ElfSegment.pageCount at inside
  obtain ⟨aligned, full⟩ := wholes i among load (by omega)
  constructor
  · show ((segmentAt file i).vaddr + 4096 * t) % 4096 = 0
    omega
  · show min ((segmentAt file i).filesz - 4096 * t) 4096 = min ((segmentAt file i).memsz - 4096 * t) 4096
    rw [full]

end

section

variable {σ : Type} {platform : Platform σ} {file : List UInt8} {page : ElfSegment} {limit : Nat}
  {state next : σ}

/-- A file that was loaded has a header that was accepted, and its segments were loaded. -/
theorem elfLoad_loaded {fuel : Nat} {wantsEntry : Bool} {entry : Option Nat}
    (segments : LoadableSegments file limit) (small : file.length < 2 ^ 63)
    (loaded : elfLoad platform fuel file wantsEntry state = .ok (true, entry, next)) :
    ElfAccepted file ∧
      elfSegmentLoop platform fuel file (elfField file 56 2) 0 state = .ok (true, next) := by
  have header : 64 ≤ file.length := segments.inside.header
  -- The file is accepted, as otherwise the code comes back with another answer.
  by_cases accepted : ElfAccepted file
  · rw [elfLoad_accepted accepted (by omega) small] at loaded
    obtain ⟨⟨done, last⟩, ran, result⟩ := bind_eq_ok.mp loaded
    cases result
    exact ⟨accepted, ran⟩
  · rw [elfLoad_rejected accepted (by omega) (fun _ => by omega) small] at loaded
    cases loaded

/-- A file that was loaded has had its pages loaded. -/
theorem elfLoad_pages {fuel : Nat} {wantsEntry : Bool} {entry : Option Nat}
    (segments : LoadableSegments file limit) (small : file.length < 2 ^ 63) (bound : limit ≤ 2 ^ 64)
    (loaded : elfLoad platform fuel file wantsEntry state = .ok (true, entry, next)) :
    loadPages platform file (elfPages file) state = .ok (true, next) := by
  -- The header was read, so every program header lies inside the file.
  have header : 64 ≤ file.length := segments.inside.header
  refine elfSegmentLoop_pages (by omega) small (fun n _ among => segments.read (by omega))
    (fun n _ among load => ?_) (elfLoad_loaded segments small loaded).2
  exact (segments.memoryEnd n (by omega) load).trans bound

/-- The bytes that a page shows. -/
def pageArea (file : List UInt8) (page : ElfSegment) (address : Nat) (byte : UInt8) : Prop :=
  sectionArea file (segmentSection page) 0 4096 address byte

/-- A whole page has all its memory in the file. -/
theorem LoadablePage.copied_eq (full : page.filesz = page.memsz) : page.copied = page.memsz := by
  rw [ElfSegment.copied, full, Nat.min_self]

/-- A whole page is a section that can be loaded to its place, if that is outside of the frames. -/
theorem LoadablePage.placed {first last : Nat} (loadable : LoadablePage file limit page)
    (short : file.length < 2 ^ 63) (aligned : page.vaddr % 4096 = 0) (full : page.filesz = page.memsz)
    (outside : page.vaddr / 4096 < first ∨ last ≤ page.vaddr / 4096) :
    Placed (first * 4096) (last * 4096) limit (segmentSection page) where
  aligned := aligned
  memoryEnd := loadable.memoryEnd
  fileEnd := by
    -- A page that is whole copies exactly its memory, and this lies in the file.
    have some := loadable.memory
    have copied := LoadablePage.copied_eq full
    have inside := loadable.bytes.resolve_left (by omega)
    show page.offset + page.copied < 2 ^ 64
    omega
  outside := by
    intro k inside
    have some := loadable.small
    have inside : k < page.memsz := inside
    -- Every byte of the page is in the same page of memory.
    show page.vaddr + k < first * 4096 ∨ last * 4096 ≤ page.vaddr + k
    omega

/-- What a whole page has in its frame once its bytes were copied, with the other frames as they were. -/
theorem Serves.copyPage_fills {view : KernelView σ} {taken : List Nat} {frame : Nat}
    (serves : Serves platform view limit) (holds : view.holds taken state) (member : frame ∈ taken)
    (loadable : LoadablePage file limit page) (short : file.length < 2 ^ 63)
    (full : page.filesz = page.memsz)
    (ran : copySection platform file page.offset frame page.copied 0 state = .ok next) :
    view.holds taken next ∧ (view.space next).translate = (view.space state).translate ∧
      (∀ x, x < page.memsz →
        (view.space next).memory (frame + x) = sectionByte file (segmentSection page) x) ∧
      ∀ other ∈ taken, other ≠ frame → ∀ x, x < 4096 →
        (view.space next).memory (other + x) = (view.space state).memory (other + x) := by
  have some := loadable.memory
  have small := loadable.small
  have copied := LoadablePage.copied_eq full
  have inside := loadable.bytes.resolve_left (by omega)
  rw [copied] at ran inside
  obtain ⟨bytes, held⟩ := serves.copySection_fills holds member (by omega) (by omega) ran
  simp only [Nat.add_zero] at bytes
  rw [bytes]
  refine ⟨held, rfl, fun x among => ?_, fun other among apart x bound => ?_⟩
  · have byte : (segmentSection page).filesz = page.memsz := copied
    rw [AddressSpace.fill_inside _ _ _ among, sectionByte, byte, if_pos among]
    rfl
  · -- Another frame lies apart from this one.
    obtain ⟨whole, -, -⟩ := serves.frame holds member
    obtain ⟨otherWhole, -, -⟩ := serves.frame holds among
    exact AddressSpace.fill_outside _ _ (by omega)

/-- One more page is shown, if it is mapped outside of the frames. -/
theorem Serves.loadPage_displays {view : KernelView σ} {taken : List Nat} {frame : Nat} {middle : σ}
    {area : Nat → UInt8 → Prop} (serves : Serves platform view limit)
    (displays : Displays view limit taken state area)
    (loadable : LoadablePage file limit page) (short : file.length < 2 ^ 63)
    (full : page.filesz = page.memsz) (placed : Placed view.first view.last limit (segmentSection page))
    (apart : ∀ {address byte}, area address byte → address / 4096 ≠ page.vaddr / 4096)
    (allocated : platform.pmmAllocPage state = .ok (frame, middle)) (nonzero : frame ≠ 0)
    (loaded : loadPage platform file page frame middle = .ok next) :
    Displays view limit (frame :: taken) next
      (fun address byte => area address byte ∨ pageArea file page address byte) := by
  obtain ⟨fresh, held, equal⟩ := serves.alloc displays.holds allocated nonzero
  obtain ⟨filled, copy, mapped⟩ := bind_eq_ok.mp loaded
  obtain ⟨still, same, content, others⟩ :=
    serves.copyPage_fills held List.mem_cons_self loadable short full copy
  have memory := loadable.memory
  have ends := loadable.memoryEnd
  -- The mapping changes no byte of a frame, and of the translation this page only.
  obtain ⟨translated, kept, last⟩ := serves.map still List.mem_cons_self placed.aligned
    (by show page.vaddr < limit; omega) (placed.outside 0 memory) (onPlatform_ok.mp mapped)
  refine displays.withPage placed rfl last (fun x small among => ?_) (fun other member x small => ?_)
    (fun address below outside => ?_) apart
  · rw [Nat.zero_add] at among ⊢
    rw [kept frame List.mem_cons_self x small]
    exact content x among
  · have differs : other ≠ frame := by
      rintro rfl
      exact fresh member
    rw [kept other (List.mem_cons_of_mem _ member) x small,
      others other (List.mem_cons_of_mem _ member) differs x small, equal]
  · rw [translated address below outside]
    unfold AddressSpace.mapPage
    rw [same, equal]
    rfl

/-- Whole pages are shown once they were loaded, if they are mapped outside of the frames. -/
theorem Serves.loadPages_displays {view : KernelView σ} {taken : List Nat} {pages : List ElfSegment}
    {area : Nat → UInt8 → Prop} (serves : Serves platform view limit)
    (displays : Displays view limit taken state area)
    (loadable : ∀ page ∈ pages, LoadablePage file limit page) (short : file.length < 2 ^ 63)
    (full : ∀ page ∈ pages, page.filesz = page.memsz)
    (placed : ∀ page ∈ pages, Placed view.first view.last limit (segmentSection page))
    (distinct : pages.Pairwise fun one two => one.vaddr / 4096 ≠ two.vaddr / 4096)
    (apart : ∀ page ∈ pages, ∀ {address byte}, area address byte → address / 4096 ≠ page.vaddr / 4096)
    (loaded : loadPages platform file pages state = .ok (true, next)) :
    ∃ more, Displays view limit more next
      (fun address byte => area address byte ∨ ∃ page ∈ pages, pageArea file page address byte) := by
  -- Over the pages: each is shown next to those before it.
  induction pages generalizing state taken area with
  | nil =>
    cases loaded
    refine ⟨taken, displays.mono ?_⟩
    rintro address byte (before | ⟨page, none, -⟩)
    · exact before
    · cases none
  | cons page pages ih =>
    obtain ⟨frame, middle, filled, allocated, nonzero, fills, rest⟩ := loadPages_cons.mp loaded
    obtain ⟨differs, others⟩ := List.pairwise_cons.mp distinct
    have here := placed page List.mem_cons_self
    have small := (loadable page List.mem_cons_self).small
    have turned := serves.loadPage_displays displays (loadable page List.mem_cons_self) short
      (full page List.mem_cons_self) here (apart page List.mem_cons_self) allocated nonzero fills
    obtain ⟨more, shown⟩ := ih turned (fun other member => loadable other (List.mem_cons_of_mem _ member))
      (fun other member => full other (List.mem_cons_of_mem _ member))
      (fun other member => placed other (List.mem_cons_of_mem _ member)) others
      (fun other member => by
        rintro address byte (before | ⟨k, -, high, -, rfl, -⟩)
        · exact apart other (List.mem_cons_of_mem _ member) before
        · -- The bytes of this page have its number, and the other page has another one.
          have aligned : page.vaddr % 4096 = 0 := here.aligned
          have number := differs other member
          show (page.vaddr + k) / 4096 ≠ other.vaddr / 4096
          omega) rest
    refine ⟨more, shown.mono ?_⟩
    rintro address byte (before | ⟨other, member, area⟩)
    · exact .inl (.inl before)
    · rcases List.mem_cons.mp member with rfl | behind
      · exact .inl (.inr area)
      · exact .inr ⟨other, behind, area⟩

/-- One more page is shown wherever it is mapped, and so is what was shown outside of the frames. -/
theorem ServesPages.loadPage_shows {view : LoaderView σ} {first last : Nat} {taken : List Nat} {frame : Nat}
    {middle : σ} {area : Nat → UInt8 → Prop} (serves : ServesPages platform view first last limit)
    (displays : Displays (view.apart first last) limit taken state area)
    (loadable : LoadablePage file limit page) (short : file.length < 2 ^ 63)
    (aligned : page.vaddr % 4096 = 0) (full : page.filesz = page.memsz)
    (apart : ∀ {address byte}, area address byte → address / 4096 ≠ page.vaddr / 4096)
    (allocated : platform.pmmAllocPage state = .ok (frame, middle)) (nonzero : frame ≠ 0)
    (loaded : loadPage platform file page frame middle = .ok next) {address : Nat} {byte : UInt8}
    (shown : area address byte ∨ pageArea file page address byte) :
    (view.space next).read address = some byte := by
  -- The bytes are copied to a frame that is still at its own address.
  obtain ⟨moved, away, holds⟩ := displays.holds
  obtain ⟨fresh, held, equal⟩ := serves.alloc holds allocated nonzero
  obtain ⟨copied, copy, mapped⟩ := bind_eq_ok.mp loaded
  obtain ⟨⟨movedToo, -, still⟩, same, content, others⟩ :=
    serves.serves.copyPage_fills ⟨moved, away, held⟩ List.mem_cons_self loadable short full copy
  have memory := loadable.memory
  have ends := loadable.memoryEnd
  have small := loadable.small
  obtain ⟨translated, kept, -⟩ := serves.map still List.mem_cons_self (by omega) (onPlatform_ok.mp mapped)
  -- Filling the frame moves no page.
  have unchanged : (view.space copied).translate = (view.space state).translate := by
    rw [← equal]
    exact same
  have visible := @shows_withPage file (segmentSection page) taken frame area (view.space state)
    (view.space next) 0 aligned rfl displays.visible ?_ ?_ ?_ apart address byte shown
  · exact visible.read
  · intro x low inside
    rw [Nat.zero_add] at inside ⊢
    rw [kept frame List.mem_cons_self x low]
    exact content x inside
  · -- The other frames were not written, since the frame is a fresh one.
    intro other old x low
    have differs : other ≠ frame := by
      rintro rfl
      exact fresh old
    rw [kept other (List.mem_cons_of_mem _ old) x low, ← equal]
    exact others other (List.mem_cons_of_mem _ old) differs x low
  · -- Each address that is shown is outside of the frames, or in this page.
    intro address byte area
    have known : address < limit ∧
        (Outside (first * 4096) (last * 4096) address ∨ address / 4096 = page.vaddr / 4096) := by
      rcases area with old | ⟨k, -, -, inside, rfl, -⟩
      · obtain ⟨below, outside⟩ := displays.usable old
        exact ⟨below, .inl outside⟩
      · have inside : k < page.memsz := inside
        have place : (segmentSection page).vaddr = page.vaddr := rfl
        rw [place]
        exact ⟨by omega, .inr (by omega)⟩
    rw [translated address known.1 known.2]
    unfold AddressSpace.mapPage
    rw [unchanged]
    rfl

/--
Whole pages are shown once they were loaded, if all but the last one are mapped outside of the frames.

The last page may lie over a frame, as nothing is copied to a frame after it.
-/
theorem ServesPages.loadPages_shows {view : LoaderView σ} {first last : Nat} {pages : List ElfSegment}
    (serves : ServesPages platform view first last limit)
    (loadable : ∀ page ∈ pages, LoadablePage file limit page) (short : file.length < 2 ^ 63)
    (wholes : ∀ page ∈ pages, page.vaddr % 4096 = 0 ∧ page.filesz = page.memsz)
    (distinct : pages.Pairwise fun one two => one.vaddr / 4096 ≠ two.vaddr / 4096)
    (outside : ∀ page ∈ pages.dropLast, page.vaddr / 4096 < first ∨ last ≤ page.vaddr / 4096)
    (start : view.holds [] [] state) (loaded : loadPages platform file pages state = .ok (true, next))
    (member : page ∈ pages) {address : Nat} {byte : UInt8} (shown : pageArea file page address byte) :
    (view.space next).read address = some byte := by
  obtain rfl | ⟨front, final, rfl⟩ := List.eq_nil_or_concat' pages
  · cases member
  rw [List.dropLast_concat] at outside
  have among : ∀ other ∈ front, other ∈ front ++ [final] := fun other here => List.mem_append_left _ here
  have behind : final ∈ front ++ [final] := List.mem_append_right _ List.mem_cons_self
  have placed : ∀ other ∈ front, Placed (first * 4096) (last * 4096) limit (segmentSection other) := by
    intro other here
    obtain ⟨aligned, full⟩ := wholes other (among other here)
    exact (loadable other (among other here)).placed short aligned full (outside other here)
  obtain ⟨before, -, differs⟩ := List.pairwise_append.mp distinct
  obtain ⟨middle, ran, turn⟩ := loadPages_append.mp loaded
  -- The pages in front are mapped outside of the frames, so each of them is shown.
  have empty : Displays (view.apart first last) limit [] state (fun _ _ => False) :=
    ⟨⟨[], nofun, start⟩, False.elim, False.elim⟩
  obtain ⟨taken, displays⟩ := serves.serves.loadPages_displays empty
    (fun other here => loadable other (among other here)) short
    (fun other here => (wholes other (among other here)).2) placed before (fun _ _ _ _ => False.elim) ran
  -- The last page comes to them, with a number of its own.
  obtain ⟨frame, got, filled, allocated, nonzero, fills, done⟩ := loadPages_cons.mp turn
  cases done
  obtain ⟨aligned, full⟩ := wholes final behind
  refine serves.loadPage_shows displays (loadable final behind) short aligned full ?_ allocated nonzero fills ?_
  · rintro address byte (none | ⟨other, old, k, -, high, -, rfl, -⟩)
    · exact none.elim
    · have number := differs other old final List.mem_cons_self
      have otherAligned := (wholes other (among other old)).1
      show (other.vaddr + k) / 4096 ≠ final.vaddr / 4096
      omega
  · rcases List.mem_append.mp member with old | last
    · exact .inl (.inr ⟨page, old, shown⟩)
    · obtain rfl := List.mem_singleton.mp last
      exact .inr shown

/-- Copying to a frame that was taken keeps what holds, wherever the frame is mapped. -/
theorem ServesPages.copySection_holds {view : LoaderView σ} {first last : Nat} {taken moved : List Nat}
    {frame source count k : Nat} (serves : ServesPages platform view first last limit)
    (holds : view.holds taken moved state) (member : frame ∈ taken) (room : k + count ≤ 4096)
    (ran : copySection platform file source frame count k state = .ok next) : view.holds taken moved next := by
  -- Induction on the bytes: each store into a frame that was taken keeps what the view holds.
  induction count generalizing k state with
  | zero =>
    cases ran
    exact holds
  | succ count ih =>
    obtain ⟨byte, -, copied⟩ := bind_eq_ok.mp ran
    obtain ⟨middle, stored, rest⟩ := bind_eq_ok.mp copied
    obtain ⟨-, -, high⟩ := serves.frame holds member
    have range := serves.range
    rw [onPlatform_ok, add64_of_lt (by omega)] at stored
    exact ih (serves.store holds member (by omega) (by omega) stored).2 (by omega) rest

/-- Loading pages takes a frame of its own for each of them, wherever they are mapped. -/
theorem ServesPages.loadPages_takes {view : LoaderView σ} {first last : Nat} {taken moved : List Nat}
    {pages : List ElfSegment} (serves : ServesPages platform view first last limit)
    (loadable : ∀ page ∈ pages, LoadablePage file limit page) (holds : view.holds taken moved state)
    (distinct : taken.Nodup) (loaded : loadPages platform file pages state = .ok (true, next)) :
    ∃ more onto, view.holds more onto next ∧ more.Nodup ∧ more.length = taken.length + pages.length := by
  induction pages generalizing state taken moved with
  | nil =>
    cases loaded
    exact ⟨taken, moved, holds, distinct, rfl⟩
  | cons page pages ih =>
    obtain ⟨frame, middle, filled, allocated, nonzero, fills, rest⟩ := loadPages_cons.mp loaded
    obtain ⟨fresh, held, -⟩ := serves.alloc holds allocated nonzero
    obtain ⟨copied, copy, mapped⟩ := bind_eq_ok.mp fills
    have here := loadable page List.mem_cons_self
    have memory := here.memory
    have small := here.small
    have ends := here.memoryEnd
    have bytes : page.copied ≤ page.memsz := Nat.min_le_right _ _
    -- The frame is taken, its bytes are copied and its page is mapped.
    have still := serves.copySection_holds held List.mem_cons_self (by omega) copy
    obtain ⟨-, -, turned⟩ := serves.map still List.mem_cons_self (by omega) (onPlatform_ok.mp mapped)
    obtain ⟨more, onto, kept, apart, count⟩ := ih (fun other member => loadable other (List.mem_cons_of_mem _ member))
      turned (List.nodup_cons.mpr ⟨fresh, distinct⟩) rest
    refine ⟨more, onto, kept, apart, ?_⟩
    rw [count, List.length_cons, List.length_cons]
    omega

end

end MiraOS
