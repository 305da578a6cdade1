import MiraOS.Arch.PagingFrames

/-! Mapping a page leaves the frames alone that others have taken. -/

namespace MiraOS

open Machine

/-- A byte outside a table keeps its value when an entry is stored. -/
theorem setEntry_outside {mem : Memory} {table index value place : Nat} (inside : index < 512)
    (outside : place < table ∨ table + 4096 ≤ place) :
    setEntry mem table index value place = mem place :=
  writeLE_outside (by omega)

/-- A byte outside a table keeps its value when the table is cleared. -/
theorem zeroTable_outside {mem : Memory} {table place : Nat}
    (outside : place < table ∨ table + 4096 ≤ place) : zeroTable mem table place = mem place := by
  -- The entries are stored one after the other, up to the last one.
  have steps : ∀ count, count ≤ 512 →
      (List.range count).foldl (fun mem i => setEntry mem table i 0) mem place = mem place := by
    intro count
    induction count with
    | zero => exact fun _ => rfl
    | succ count ih =>
      intro bound
      rw [List.range_succ, List.foldl_append, List.foldl_cons, List.foldl_nil,
        setEntry_outside (by omega) outside]
      exact ih (by omega)
  exact steps 512 (Nat.le_refl _)

/-- A frame apart from a table has none of its bytes. -/
theorem Tree.apart {mem : Memory} {tables : Tables} (tree : Tree mem tables) {path : List Nat}
    {table page x : Nat} (here : tables path = some table) (whole : page % 4096 = 0)
    (fresh : Fresh tables page) (small : x < 4096) : page + x < table ∨ table + 4096 ≤ page + x := by
  -- Tables and fresh pages are whole pages, so two different ones lie 4096 bytes apart.
  have aligned := (tree.aligned here).1
  have differs : table ≠ page := by
    rintro rfl
    exact fresh path here
  omega

/-- A byte of a frame that is no table may change, and the tables translate as before. -/
theorem PagingRep.poke {σ : Type} {paging : Paging σ} {tables : Tables} {pages : Nat → Option Nat}
    (rep : PagingRep paging tables pages) {page x : Nat} (whole : page % 4096 = 0)
    (fresh : Fresh tables page) (small : x < 4096) (byte : UInt8) :
    PagingRep { paging with mem := Function.update paging.mem (page + x) byte } tables pages := by
  -- The byte lies in a page that is no table, so that every entry reads the same.
  have same : ∀ {path table index}, tables path = some table → index < 512 →
      entryAt (Function.update paging.mem (page + x) byte) table index = entryAt paging.mem table index := by
    intro path table index here inside
    have apart := rep.tree.apart here whole fresh small
    apply readLE_congr
    intro place low high
    exact Function.update_of_ne (by omega) _ _
  refine ⟨rep.tree.congr fun here _ inside => same here inside, rep.root, fun virt => ?_⟩
  rw [← rep.translates virt, leafEntry, leafEntry]
  cases here : tables (tablePath virt) with
  | none => rw [Option.map_none, Option.map_none]
  | some pt => rw [Option.map_some, Option.map_some, same here (index_lt virt).2.2.2]

/--
What holds of the kernel while someone keeps frames that were taken from the page allocator.

The frames that are left lie where a table covers them, and those that are kept are no tables. Nothing is asked
of the frames that are spare, which nobody takes.
-/
structure KernelFrames (boot : BootTables) (top : Nat) (spare : Finset Nat) (taken : List Nat)
    (paging : Paging Pmm) (tables : Tables) (pages : Nat → Option Nat) : Prop where
  reached : FramesReached boot paging tables pages
  covered : ∀ page ∈ managedFree paging.pmm, page ∉ spare →
    page * pageSize ∉ boot.all ∧ ∃ pt, tables (tablePath (page * pageSize)) = some pt
  frames : ∀ page ∈ taken, page % 4096 = 0 ∧ 0x100000 ≤ page ∧ page + 4096 ≤ top * 4096 ∧
    paging.pmm.pageBitmap.test (page / pageSize) = true ∧ Fresh tables page
  memEnd : paging.pmm.memEnd / pageSize ≤ top
  small : top ≤ 2 ^ 36

/--
What holds of the kernel while nothing is mapped to managed memory but what lies there.

The frames that are left lie where a table covers them, and what is mapped of the managed memory is
mapped at its own address.
-/
structure KernelHolds (boot : BootTables) (top : Nat) (taken : List Nat) (paging : Paging Pmm)
    (tables : Tables) (pages : Nat → Option Nat) : Prop where
  reached : FramesReached boot paging tables pages
  covered : ∀ page ∈ managedFree paging.pmm,
    page * pageSize ∉ boot.all ∧ ∃ pt, tables (tablePath (page * pageSize)) = some pt
  identity : ∀ n, 256 ≤ n → n < top → pages n = none ∨ pages n = some (n * 4096)
  frames : ∀ page ∈ taken, page % 4096 = 0 ∧ 0x100000 ≤ page ∧ page + 4096 ≤ top * 4096 ∧
    paging.pmm.pageBitmap.test (page / pageSize) = true ∧ Fresh tables page
  memEnd : paging.pmm.memEnd / pageSize ≤ top
  small : top ≤ 2 ^ 36

section

variable {boot : BootTables} {top : Nat} {spare : Finset Nat} {taken : List Nat} {paging : Paging Pmm}
  {tables : Tables} {pages : Nat → Option Nat}

/-- The frames of such a kernel. -/
theorem KernelHolds.toFrames (holds : KernelHolds boot top taken paging tables pages) :
    KernelFrames boot top ∅ taken paging tables pages :=
  ⟨holds.reached, fun page free _ => holds.covered page free, holds.frames, holds.memEnd, holds.small⟩

/-- Without spare frames, every free frame is covered. -/
theorem KernelFrames.covered_all (kept : KernelFrames boot top ∅ taken paging tables pages) :
    ∀ page ∈ managedFree paging.pmm,
      page * pageSize ∉ boot.all ∧ ∃ pt, tables (tablePath (page * pageSize)) = some pt :=
  fun page free => kept.covered page free (Finset.notMem_empty page)

/-- A free frame is one of the managed memory. -/
theorem KernelFrames.free_bounds (kept : KernelFrames boot top spare taken paging tables pages) {n : Nat}
    (free : n ∈ managedFree paging.pmm) : 256 ≤ n ∧ n < top := by
  -- The allocator scans from page 256 to the end of its bitmap, which lies below `top`.
  obtain ⟨low, high, -⟩ := kept.reached.booted.mem_managedFree.mp free
  exact ⟨low, Nat.lt_of_lt_of_le high kept.memEnd⟩

/-- Handing out frames frees none. -/
theorem BootedPmm.allocations {before after : Pmm} (booted : BootedPmm before)
    (handed : Allocations pmmAllocPage before after) :
    BootedPmm after ∧ managedFree after ⊆ managedFree before := by
  -- A null answer changes nothing, and a page takes itself out of the free ones.
  induction handed with
  | refl => exact ⟨booted, Finset.Subset.refl _⟩
  | tail _ step ih =>
    obtain ⟨kept, fewer⟩ := ih
    obtain ⟨page, allocated⟩ := step
    rcases pmmScan_ok allocated with ⟨-, rfl⟩ | ⟨found, -, -, -, -, rfl⟩
    · exact ⟨kept, fewer⟩
    · refine ⟨kept.take found, Finset.Subset.trans ?_ fewer⟩
      rw [kept.managedFree_take found]
      exact Finset.erase_subset _ _

/-- A frame that is handed out is a new one, and covered, if it is not a spare one. -/
theorem KernelFrames.alloc (holds : KernelFrames boot top spare taken paging tables pages) {page : Nat} {pmm : Pmm}
    (allocated : pmmAllocPage paging.pmm = .ok (page, pmm)) (left : spare ⊆ managedFree pmm) (nonzero : page ≠ 0) :
    page ∉ taken ∧ (∃ pt, tables (tablePath page) = some pt) ∧
      KernelFrames boot top spare (page :: taken) { paging with pmm := pmm } tables pages ∧
      page / pageSize ∈ managedFree paging.pmm ∧ page / pageSize ∉ spare ∧
      managedFree pmm ⊆ managedFree paging.pmm := by
  have booted := holds.reached.booted
  rcases pmmScan_ok allocated with ⟨null, -⟩ | ⟨found, low, high, clear, rfl, rfl⟩
  · exact absurd null nonzero
  have first : paging.pmm.memStart / pageSize = 256 := by
    rw [booted.start]
    rfl
  have free : found ∈ managedFree paging.pmm := booted.mem_managedFree.mpr ⟨by omega, by omega, clear⟩
  have notSpare : found ∉ spare := fun among => by
    have still := left among
    rw [booted.managedFree_take found] at still
    exact Finset.ne_of_mem_erase still rfl
  obtain ⟨notBoot, covered⟩ := holds.covered found free notSpare
  have number : found * pageSize / pageSize = found := Nat.mul_div_cancel _ (by decide)
  have memEnd := holds.memEnd
  -- What is marked as used stays so.
  have kept : ∀ other, paging.pmm.pageBitmap.test other = true →
      (paging.pmm.take found).pageBitmap.test other = true := by
    intro other used
    simp only [Pmm.take, Bitmap.test_set, used, Bool.or_true]
  refine ⟨fun again => ?_, covered, ⟨⟨?_, booted.take found, fun here => ?_⟩, ?_, ?_, memEnd, holds.small⟩,
    number.symm ▸ free, number.symm ▸ notSpare, ?_⟩
  · -- The frames that were taken are marked, and this one was not.
    have used := (holds.frames _ again).2.2.2.1
    rw [number, clear] at used
    cases used
  · exact holds.reached.rep.withPmm _
  · exact (holds.reached.marked here).imp_right fun used => kept _ used
  · intro other still
    have still : other ∈ managedFree (paging.pmm.take found) := still
    rw [booted.managedFree_take found] at still
    exact holds.covered other (Finset.mem_of_mem_erase still)
  · intro other member
    rcases List.mem_cons.mp member with rfl | before
    · refine ⟨Nat.mul_mod_left _ _, ?_, ?_, ?_, fun path here => ?_⟩
      · simp only [pageSize]
        omega
      · simp only [pageSize]
        omega
      · simp [number, Pmm.take, Bitmap.test_set]
      · -- A table is static, or marked.
        rcases holds.reached.marked here with static | used
        · exact notBoot static
        · rw [number, clear] at used
          cases used
    · obtain ⟨whole, above, below, used, fresh⟩ := holds.frames other before
      exact ⟨whole, above, below, kept _ used, fresh⟩
  · rw [booted.managedFree_take found]
    exact Finset.erase_subset _ _

/-- A byte of a frame that is kept may change. -/
theorem KernelFrames.poke (holds : KernelFrames boot top spare taken paging tables pages) {page x : Nat}
    (member : page ∈ taken) (small : x < 4096) (byte : UInt8) :
    KernelFrames boot top spare taken { paging with mem := Function.update paging.mem (page + x) byte } tables
      pages := by
  -- The frame holds no table, so the tables are read as before the write.
  obtain ⟨whole, -, -, -, fresh⟩ := holds.frames page member
  exact ⟨⟨holds.reached.rep.poke whole fresh small byte, holds.reached.booted, holds.reached.marked⟩,
    holds.covered, holds.frames, holds.memEnd, holds.small⟩

/-- A mapping in an existing table updates the abstract map, and leaves the frames alone. -/
theorem KernelFrames.setLeaf (holds : KernelFrames boot top spare taken paging tables pages) {virt pt value : Nat}
    (here : tables (tablePath virt) = some pt) (fits : value < 2 ^ 64) :
    KernelFrames boot top spare taken { paging with mem := setEntry paging.mem pt (ptIndex virt) value } tables
      (Function.update pages (pageNumber virt) (frameOf value)) :=
  ⟨⟨holds.reached.rep.setLeaf virt here fits, holds.reached.booted, holds.reached.marked⟩,
    holds.covered, holds.frames, holds.memEnd, holds.small⟩

/-- A frame that is kept becomes a table. -/
theorem KernelFrames.link {frame : Nat} (holds : KernelFrames boot top spare (frame :: taken) paging tables pages)
    (new : frame ∉ taken) {path : List Nat} {index table : Nat} (above : tables path = some table)
    (short : path.length < 3) (inside : index < 512) (absent : tables (path ++ [index]) = none) :
    KernelFrames boot top spare taken { paging with mem := linkTable paging.mem table index frame }
      (Function.update tables (path ++ [index]) (some frame)) pages := by
  obtain ⟨whole, high, low, used, fresh⟩ := holds.frames frame List.mem_cons_self
  have rep := holds.reached.rep
  have small := holds.small
  -- The new table is at a path where none was, so the others stay where they are.
  have old : ∀ {other next}, tables other = some next → other ≠ path ++ [index] := by
    rintro other next there rfl
    rw [absent] at there
    cases there
  have tree := rep.tree.link above short inside absent whole (by omega) (by omega) fresh
  have translates := rep.translates.link rep.tree above short inside absent whole fresh
  refine ⟨⟨⟨tree, ?_, translates⟩, holds.reached.booted, ?_⟩, ?_, ?_, holds.memEnd, small⟩
  · rw [Function.update_of_ne (old rep.root)]
    exact rep.root
  · -- The marked tables are the old ones and the frame, which was taken.
    intro other next there
    by_cases here : other = path ++ [index]
    · rw [here, Function.update_self] at there
      cases there
      exact .inr used
    · rw [Function.update_of_ne here] at there
      exact holds.reached.marked there
  · -- The free pages keep their last-level tables, since only a new path was filled.
    intro page free among
    obtain ⟨notBoot, pt, here⟩ := holds.covered page free among
    refine ⟨notBoot, pt, ?_⟩
    rw [Function.update_of_ne (old here)]
    exact here
  · -- The frames that are left hold no table, not even the new one, which is not among them.
    intro page member
    obtain ⟨aligned, bottom, ends, marked, apart⟩ := holds.frames page (List.mem_cons_of_mem _ member)
    refine ⟨aligned, bottom, ends, marked, fun other there => ?_⟩
    by_cases here : other = path ++ [index]
    · rw [here, Function.update_self] at there
      cases there
      exact new member
    · rw [Function.update_of_ne here] at there
      exact apart other there

/-- What making tables does: frames that are kept stay as they are, and frames are mapped at themselves. -/
structure TablesGrow (boot : BootTables) (top : Nat) (spare : Finset Nat) (taken : List Nat)
    (paging : Paging Pmm) (pages : Nat → Option Nat) (entered : Paging Pmm) (grown : Tables) (mapped : Nat → Option Nat) :
    Prop where
  kept : KernelFrames boot top spare taken entered grown mapped
  free : managedFree entered.pmm ⊆ managedFree paging.pmm
  pages : ∀ n, mapped n = pages n ∨ (n ∈ managedFree paging.pmm ∧ mapped n = some (n * 4096))
  memory : ∀ page ∈ taken, ∀ x, x < 4096 → entered.mem (page + x) = paging.mem (page + x)

/-- One level after the other. -/
theorem TablesGrow.trans {middle entered : Paging Pmm} {grown deeper : Tables}
    {mapped further : Nat → Option Nat} (first : TablesGrow boot top spare taken paging pages middle grown mapped)
    (second : TablesGrow boot top spare taken middle mapped entered deeper further) :
    TablesGrow boot top spare taken paging pages entered deeper further where
  kept := second.kept
  free := second.free.trans first.free
  pages := by
    -- A page that changed in the first step was free then, and what is free later was free before.
    intro n
    rcases second.pages n with same | ⟨free, self⟩
    · rw [same]
      exact first.pages n
    · exact .inr ⟨first.free free, self⟩
  memory := fun page member x small =>
    (second.memory page member x small).trans (first.memory page member x small)

/-- A new table is made from a frame that the page allocator hands out. -/
theorem KernelFrames.newTable (holds : KernelFrames boot top spare taken paging tables pages) {fuel frame : Nat}
    {made : Paging Pmm}
    (ran : tableAlloc pmmAllocPage (pagingMapPage pmmAllocPage fuel) paging = .ok (frame, made))
    (left : spare ⊆ managedFree made.pmm) :
    ∃ pmm pt, frame ∉ taken ∧ tables (tablePath frame) = some pt ∧
      KernelFrames boot top spare (frame :: taken) { paging with pmm := pmm } tables pages ∧
      frame / pageSize ∈ managedFree paging.pmm ∧ managedFree pmm ⊆ managedFree paging.pmm ∧
      made = { paging with
        mem := zeroTable (setEntry paging.mem pt (ptIndex frame) (leafValue frame 0)) frame
        pmm := pmm } := by
  obtain ⟨⟨page, pmm⟩, allocated, rest⟩ := bind_eq_ok.mp ran
  dsimp only at rest
  split at rest
  · cases rest
  rename_i nonzero
  obtain ⟨⟨virt, mapped⟩, called, result⟩ := bind_eq_ok.mp rest
  have booted := (holds.reached.booted.allocations (.single ⟨page, allocated⟩)).1
  have later := (booted.allocations (pagingMapPage_allocations pmmAllocPage called)).2
  have same : made.pmm = mapped.pmm := by cases result; rfl
  rw [same] at left
  obtain ⟨new, ⟨pt, here⟩, kept, free, -, fewer⟩ := holds.alloc allocated (left.trans later) nonzero
  -- The frame is mapped at its own address, where the last table is there already.
  cases fuel with
  | zero => cases called
  | succ fuel =>
    rw [pagingMapPage_present kept.reached.rep.tree kept.reached.rep.root page 0 here] at called
    cases called
    cases result
    exact ⟨pmm, pt, new, here, kept, free, fewer, rfl⟩

/-- A level of the creating walk always has a table to go on with. -/
theorem enterTable_some {σ : Type} {newTable : Paging σ → Except Halt (Nat × Paging σ)} {paging entered : Paging σ}
    {table index : Nat} {result : Option Nat}
    (ran : enterTable newTable true paging table index = .ok (result, entered)) : ∃ next, result = some next := by
  -- The walk ends at a missing table only when it was not to make one.
  unfold enterTable at ran
  split at ran
  · obtain ⟨⟨frame, made⟩, -, linked⟩ := bind_eq_ok.mp ran
    cases linked
    exact ⟨frame, rfl⟩
  · cases ran
    exact ⟨_, rfl⟩

/-- A level of the walk frees no frame. -/
theorem enterTable_fewer {fuel table index : Nat} {create : Bool} {entered : Paging Pmm} {result : Option Nat}
    (booted : BootedPmm paging.pmm)
    (ran : enterTable (tableAlloc pmmAllocPage (pagingMapPage pmmAllocPage fuel)) create paging table index =
      .ok (result, entered)) :
    BootedPmm entered.pmm ∧ managedFree entered.pmm ⊆ managedFree paging.pmm :=
  booted.allocations (enterTable_allocations pmmAllocPage
    (tableAlloc_allocations pmmAllocPage (pagingMapPage_allocations pmmAllocPage)) ran)

/-- One level of the creating walk enters the table of its slot, made from a new frame if needed. -/
theorem KernelFrames.entered (holds : KernelFrames boot top spare taken paging tables pages) {path : List Nat}
    {fuel index table : Nat} (above : tables path = some table) (short : path.length < 3)
    (inside : index < 512) {result : Option Nat} {entered : Paging Pmm}
    (ran : enterTable (tableAlloc pmmAllocPage (pagingMapPage pmmAllocPage fuel)) true paging table index =
      .ok (result, entered)) (left : spare ⊆ managedFree entered.pmm) :
    ∃ next grown mapped, result = some next ∧ grown (path ++ [index]) = some next ∧
      TablesGrow boot top spare taken paging pages entered grown mapped := by
  cases below : tables (path ++ [index]) with
  | some next =>
    -- An existing table is entered as it is.
    rw [enterTable_present holds.reached.rep.tree above below] at ran
    cases ran
    exact ⟨next, tables, pages, rfl, below, holds, Finset.Subset.refl _, fun _ => .inl rfl,
      fun _ _ _ _ => rfl⟩
  | none =>
    have empty := holds.reached.rep.tree.entry_absent above short inside below
    rw [enterTable, if_pos empty, if_pos rfl] at ran
    obtain ⟨⟨frame, made⟩, allocated, linked⟩ := bind_eq_ok.mp ran
    have same : entered.pmm = made.pmm := by cases linked; rfl
    rw [same] at left
    obtain ⟨pmm, pt, new, here, kept, free, fewer, rfl⟩ := holds.newTable allocated left
    obtain ⟨whole, high, low, -, fresh⟩ := kept.frames frame List.mem_cons_self
    have small := kept.small
    have number : pageNumber frame = frame / 4096 := Nat.mod_eq_of_lt (by omega)
    obtain ⟨fits, framed⟩ := frameOf_leafValue (show frame < 2 ^ 64 by omega) (show 0 < 4096 by omega)
    -- The frame is mapped at its own address, cleared and then linked into the slot.
    have linkedFrames := (kept.setLeaf here fits).link new above short inside below
    have value := tableValue_eq whole
    cases linked
    refine ⟨frame, Function.update tables (path ++ [index]) (some frame),
      Function.update pages (pageNumber frame) (frameOf (leafValue frame 0)), rfl,
      Function.update_self .., ?_, fewer, fun n => ?_, fun page member x bound => ?_⟩
    · rw [value]
      unfold linkTable at linkedFrames
      dsimp only at linkedFrames ⊢
      exact linkedFrames
    · -- The only page mapped anew is the frame's own.
      by_cases same : n = pageNumber frame
      · rw [same, Function.update_self, framed, number]
        exact .inr ⟨free, rfl⟩
      · rw [Function.update_of_ne same]
        exact .inl rfl
    · -- The bytes of the frames that are left lie in none of the three pages written.
      obtain ⟨aligned, -, -, -, other⟩ := holds.frames page member
      have differs : page ≠ frame := by
        rintro rfl
        exact new member
      have tree := holds.reached.rep.tree
      have index_lt := index_lt frame
      dsimp only
      rw [setEntry_outside inside (tree.apart above aligned other bound), zeroTable_outside (by omega),
        setEntry_outside index_lt.2.2.2 (tree.apart here aligned other bound)]

/-- The creating walk reaches the last table of its address, with the tables in between made. -/
theorem KernelFrames.walked (holds : KernelFrames boot top spare taken paging tables pages) {fuel virt pt : Nat}
    {last : Paging Pmm}
    (ran : walk (tableAlloc pmmAllocPage (pagingMapPage pmmAllocPage fuel)) true paging virt =
      .ok (pt, last)) (left : spare ⊆ managedFree last.pmm) :
    ∃ grown mapped, grown (tablePath virt) = some pt ∧
      TablesGrow boot top spare taken paging pages last grown mapped := by
  obtain ⟨high, middle, low, -⟩ := index_lt virt
  -- Three levels are entered one after the other, each from the state that the one before left.
  obtain ⟨⟨result, first⟩, enteredFirst, rest⟩ := bind_eq_ok.mp ran
  obtain ⟨pdpt, rfl⟩ := enterTable_some enteredFirst
  dsimp only at rest
  obtain ⟨⟨result, second⟩, enteredSecond, rest⟩ := bind_eq_ok.mp rest
  obtain ⟨pd, rfl⟩ := enterTable_some enteredSecond
  dsimp only at rest
  -- What is left at the end was left after every level.
  obtain ⟨bootedFirst, fewerFirst⟩ := enterTable_fewer holds.reached.booted enteredFirst
  obtain ⟨bootedSecond, fewerSecond⟩ := enterTable_fewer bootedFirst enteredSecond
  have levels : spare ⊆ managedFree second.pmm → ∃ grown mapped,
      grown ([] ++ [pml4Index virt] ++ [pdptIndex virt]) = some pd ∧
      TablesGrow boot top spare taken paging pages second grown mapped := by
    intro left
    obtain ⟨next, tablesFirst, pagesFirst, same, pdptHere, growsFirst⟩ :=
      holds.entered holds.reached.rep.root (by simp) high enteredFirst (left.trans fewerSecond)
    cases same
    obtain ⟨next, tablesSecond, pagesSecond, same, pdHere, growsSecond⟩ :=
      growsFirst.kept.entered pdptHere (by simp) middle enteredSecond left
    cases same
    exact ⟨tablesSecond, pagesSecond, pdHere, growsFirst.trans growsSecond⟩
  split at rest
  · -- There is no large page, so that the walk goes on.
    rename_i large
    cases rest
    obtain ⟨tablesSecond, _, pdHere, grows⟩ := levels left
    exact absurd large (grows.kept.reached.rep.tree.no_large_page pdHere (by simp) low)
  · obtain ⟨⟨result, third⟩, enteredThird, rest⟩ := bind_eq_ok.mp rest
    obtain ⟨table, rfl⟩ := enterTable_some enteredThird
    cases rest
    have fewerThird := (enterTable_fewer bootedSecond enteredThird).2
    obtain ⟨tablesSecond, pagesSecond, pdHere, grows⟩ := levels (left.trans fewerThird)
    obtain ⟨next, tablesThird, pagesThird, same, tableHere, growsThird⟩ :=
      grows.kept.entered pdHere (by simp) low enteredThird left
    cases same
    exact ⟨tablesThird, pagesThird, tableHere, grows.trans growsThird⟩

/-- Mapping a page makes tables for it, and then updates the abstract map there. -/
theorem KernelFrames.mapped (holds : KernelFrames boot top spare taken paging tables pages)
    {fuel virt phys flags : Nat} {result : Nat} {next : Paging Pmm} (fits : phys < 2 ^ 64)
    (low : flags < 4096)
    (called : pagingMapPage pmmAllocPage fuel paging virt phys flags = .ok (result, next))
    (left : spare ⊆ managedFree next.pmm) :
    ∃ last grown made, TablesGrow boot top spare taken paging pages last grown made ∧ next.pmm = last.pmm ∧
      KernelFrames boot top spare taken next grown
        (Function.update made (pageNumber virt) (some (phys / 4096 * 4096))) ∧
      ∀ page ∈ taken, ∀ x, x < 4096 → next.mem (page + x) = paging.mem (page + x) := by
  cases fuel with
  | zero => cases called
  | succ fuel =>
    rw [pagingMapPage] at called
    obtain ⟨⟨pt, last⟩, walked, rest⟩ := bind_eq_ok.mp called
    dsimp only at rest
    split at rest
    · cases rest
    -- The walk makes the tables, and the entry of the page is written into the last of them.
    have same : next.pmm = last.pmm := by cases rest; rfl
    obtain ⟨grown, made, here, grows⟩ := holds.walked walked (same ▸ left)
    obtain ⟨small, framed⟩ := frameOf_leafValue fits low
    have leaf := grows.kept.setLeaf here small
    rw [framed] at leaf
    cases rest
    refine ⟨last, grown, made, grows, rfl, leaf, fun page member x bound => ?_⟩
    obtain ⟨aligned, -, -, -, other⟩ := grows.kept.frames page member
    dsimp only
    rw [setEntry_outside (index_lt virt).2.2.2 (grows.kept.reached.rep.tree.apart here aligned other bound)]
    exact grows.memory page member x bound

/-- A frame that is handed out is a new one, and covered. -/
theorem KernelHolds.alloc (holds : KernelHolds boot top taken paging tables pages) {page : Nat} {pmm : Pmm}
    (allocated : pmmAllocPage paging.pmm = .ok (page, pmm)) (nonzero : page ≠ 0) :
    page ∉ taken ∧ (∃ pt, tables (tablePath page) = some pt) ∧
      KernelHolds boot top (page :: taken) { paging with pmm := pmm } tables pages := by
  -- This is the general lemma with no frame set aside.
  obtain ⟨new, covered, kept, -⟩ := holds.toFrames.alloc allocated (Finset.empty_subset _) nonzero
  exact ⟨new, covered, kept.reached, kept.covered_all, holds.identity, kept.frames, kept.memEnd, kept.small⟩

/-- A byte of a frame that is kept may change. -/
theorem KernelHolds.poke (holds : KernelHolds boot top taken paging tables pages) {page x : Nat}
    (member : page ∈ taken) (small : x < 4096) (byte : UInt8) :
    KernelHolds boot top taken { paging with mem := Function.update paging.mem (page + x) byte } tables
      pages := by
  have kept := holds.toFrames.poke member small byte
  exact ⟨kept.reached, kept.covered_all, holds.identity, kept.frames, kept.memEnd, kept.small⟩

/-- What making tables does: frames that are kept stay as they are, and so do other pages. -/
structure Grows (boot : BootTables) (top : Nat) (taken : List Nat) (paging : Paging Pmm)
    (pages : Nat → Option Nat) (entered : Paging Pmm) (grown : Tables) (mapped : Nat → Option Nat) :
    Prop where
  holds : KernelHolds boot top taken entered grown mapped
  outside : ∀ n, n < 256 ∨ top ≤ n → mapped n = pages n
  memory : ∀ page ∈ taken, ∀ x, x < 4096 → entered.mem (page + x) = paging.mem (page + x)

/-- Tables are made from frames of the managed memory, so the rest of the map stays. -/
theorem KernelHolds.grows (holds : KernelHolds boot top taken paging tables pages) {entered : Paging Pmm}
    {grown : Tables} {mapped : Nat → Option Nat}
    (growth : TablesGrow boot top ∅ taken paging pages entered grown mapped) :
    Grows boot top taken paging pages entered grown mapped := by
  -- A grown tree keeps the frames, and only pages of new tables have changed.
  have kept := growth.kept
  refine ⟨⟨kept.reached, kept.covered_all, fun n above below => ?_, kept.frames, kept.memEnd, kept.small⟩,
    fun n away => ?_, growth.memory⟩
  · -- A frame that became a table was mapped at its own address.
    rcases growth.pages n with same | ⟨-, self⟩
    · rw [same]
      exact holds.identity n above below
    · exact .inr self
  · rcases growth.pages n with same | ⟨free, -⟩
    · exact same
    · -- A page outside the managed ones was never free.
      have bounds := holds.toFrames.free_bounds free
      omega

/-- Mapping a page outside the managed memory updates the abstract map there. -/
theorem KernelHolds.mapped (holds : KernelHolds boot top taken paging tables pages)
    {fuel virt phys flags : Nat} {result : Nat} {next : Paging Pmm} (fits : phys < 2 ^ 64)
    (low : flags < 4096) (outside : pageNumber virt < 256 ∨ top ≤ pageNumber virt)
    (called : pagingMapPage pmmAllocPage fuel paging virt phys flags = .ok (result, next)) :
    ∃ grown mapped, KernelHolds boot top taken next grown mapped ∧
      (∀ n, n < 256 ∨ top ≤ n →
        mapped n = Function.update pages (pageNumber virt) (some (phys / 4096 * 4096)) n) ∧
      ∀ page ∈ taken, ∀ x, x < 4096 → next.mem (page + x) = paging.mem (page + x) := by
  -- The walk grows the tables first, and the last entry is that of the page itself.
  obtain ⟨last, grown, made, growth, -, kept, memory⟩ := holds.toFrames.mapped fits low called (Finset.empty_subset _)
  have grows := holds.grows growth
  refine ⟨grown, _, ⟨kept.reached, kept.covered_all, fun n above below => ?_, kept.frames, kept.memEnd,
    kept.small⟩, fun n away => ?_, memory⟩
  · -- The page that is mapped is another one.
    rw [Function.update_of_ne (by omega)]
    exact grows.holds.identity n above below
  · rw [Function.update_apply, Function.update_apply, grows.outside n away]

end

end MiraOS
