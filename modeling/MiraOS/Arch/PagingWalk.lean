import MiraOS.Arch.PagingTree

/-! The walk through the tables follows the tree and grows it by the frames it is given. -/

namespace MiraOS

open Machine

section

variable {σ : Type} {alloc : σ → Except Halt (Nat × σ)}

/-- The state holds these tables, and they translate as the abstract map does. -/
structure PagingRep (paging : Paging σ) (tables : Tables) (pages : Nat → Option Nat) : Prop where
  tree : Tree paging.mem tables
  root : tables [] = some paging.pml4Root
  translates : Translates paging.mem tables pages

/-- Entering an existing table reads its address and changes nothing. -/
theorem enterTable_present {newTable : Paging σ → Except Halt (Nat × Paging σ)} {create : Bool}
    {paging : Paging σ} {tables : Tables} (tree : Tree paging.mem tables) {path : List Nat}
    {index table next : Nat} (here : tables path = some table)
    (below : tables (path ++ [index]) = some next) :
    enterTable newTable create paging table index = .ok (some next, paging) := by
  -- The entry is present, so the walk follows it and takes no frame.
  obtain ⟨present, _, masked⟩ := tree.entry_present here below
  rw [enterTable, if_neg present, masked]

/-- Without permission to create, entering a missing table gives up. -/
theorem enterTable_absent {newTable : Paging σ → Except Halt (Nat × Paging σ)}
    {paging : Paging σ} {tables : Tables} (tree : Tree paging.mem tables) {path : List Nat}
    {index table : Nat} (here : tables path = some table) (short : path.length < 3)
    (inside : index < 512) (absent : tables (path ++ [index]) = none) :
    enterTable newTable false paging table index = .ok (none, paging) := by
  simp [enterTable, tree.entry_absent here short inside absent]

/-- A walk whose three levels exist returns the last table and changes nothing. -/
theorem walk_present {newTable : Paging σ → Except Halt (Nat × Paging σ)} {create : Bool}
    {paging : Paging σ} {tables : Tables} (tree : Tree paging.mem tables)
    (root : tables [] = some paging.pml4Root) {virt pt : Nat}
    (here : tables (tablePath virt) = some pt) :
    walk newTable create paging virt = .ok (pt, paging) := by
  -- Every table on the way exists, because each table of the tree has its parent there.
  have last : tables ([pml4Index virt, pdptIndex virt] ++ [pdIndex virt]) = some pt := here
  obtain ⟨_, _, pd, pdHere⟩ := tree.parent last
  have third : tables ([pml4Index virt] ++ [pdptIndex virt]) = some pd := pdHere
  obtain ⟨_, _, pdpt, pdptHere⟩ := tree.parent third
  have large := (tree.entry_present pdHere here).2.1
  simp [walk, enterTable_present tree root pdptHere, enterTable_present tree pdptHere pdHere,
    enterTable_present tree pdHere here, large, Bind.bind, Except.bind, Pure.pure, Except.pure]

/-- A walk that may not create returns null when its last table is missing. -/
theorem walk_absent {newTable : Paging σ → Except Halt (Nat × Paging σ)}
    {paging : Paging σ} {tables : Tables} (tree : Tree paging.mem tables)
    (root : tables [] = some paging.pml4Root) {virt : Nat}
    (missing : tables (tablePath virt) = none) :
    walk newTable false paging virt = .ok (0, paging) := by
  obtain ⟨top, middle, low, _⟩ := index_lt virt
  -- The walk stops at the first level whose entry is empty.
  cases pdptHere : tables ([] ++ [pml4Index virt]) with
  | none =>
    simp [walk, enterTable_absent tree root (by simp) top pdptHere, Bind.bind, Except.bind,
      Pure.pure, Except.pure]
  | some pdpt =>
    cases pdHere : tables ([pml4Index virt] ++ [pdptIndex virt]) with
    | none =>
      simp [walk, enterTable_present tree root pdptHere,
        enterTable_absent tree pdptHere (by simp) middle pdHere, Bind.bind, Except.bind,
        Pure.pure, Except.pure]
    | some pd =>
      have absent : tables ([pml4Index virt, pdptIndex virt] ++ [pdIndex virt]) = none := missing
      have even := tree.entry_absent pdHere (by simp) low absent
      simp [walk, enterTable_present tree root pdptHere, enterTable_present tree pdptHere pdHere,
        enterTable_absent tree pdHere (by simp) low absent, even, Bind.bind, Except.bind,
        Pure.pure, Except.pure]

/-- A walk that may create stops with the failure of the first table it has to make. -/
theorem walk_create_fails {newTable : Paging σ → Except Halt (Nat × Paging σ)}
    {paging : Paging σ} {tables : Tables} (tree : Tree paging.mem tables)
    (root : tables [] = some paging.pml4Root) {virt : Nat}
    (missing : tables (tablePath virt) = none) {halt : Halt}
    (fails : newTable paging = .error halt) :
    walk newTable true paging virt = .error halt := by
  obtain ⟨top, middle, low, _⟩ := index_lt virt
  -- Nothing has changed when the first empty entry is met.
  have stops : ∀ {path index table}, tables path = some table → path.length < 3 → index < 512 →
      tables (path ++ [index]) = none → enterTable newTable true paging table index = .error halt := by
    intro path index table here short inside absent
    simp [enterTable, tree.entry_absent here short inside absent, fails, Bind.bind, Except.bind]
  cases pdptHere : tables ([] ++ [pml4Index virt]) with
  | none => simp [walk, stops root (by simp) top pdptHere, Bind.bind, Except.bind]
  | some pdpt =>
    cases pdHere : tables ([pml4Index virt] ++ [pdptIndex virt]) with
    | none =>
      simp [walk, enterTable_present tree root pdptHere, stops pdptHere (by simp) middle pdHere,
        Bind.bind, Except.bind]
    | some pd =>
      have absent : tables ([pml4Index virt, pdptIndex virt] ++ [pdIndex virt]) = none := missing
      have even := tree.entry_absent pdHere (by simp) low absent
      simp [walk, enterTable_present tree root pdptHere, enterTable_present tree pdptHere pdHere,
        stops pdHere (by simp) low absent, even, Bind.bind, Except.bind]

/-- The entry that maps a page to a frame, with the flags that are always set. -/
def leafValue (phys flags : Nat) : Nat := (phys &&& highMask 12) ||| flags ||| pagePresent ||| pageWrite

/-- A stored mapping is in range and points to the frame of its physical address. -/
theorem frameOf_leafValue {phys flags : Nat} (fits : phys < 2 ^ 64) (small : flags < 4096) :
    leafValue phys flags < 2 ^ 64 ∧ frameOf (leafValue phys flags) = some (phys / 4096 * 4096) := by
  -- The flags and the two fixed bits stay inside the page offset.
  have low : flags ||| pagePresent ||| pageWrite < 2 ^ 12 :=
    Nat.or_lt_two_pow (Nat.or_lt_two_pow small (by decide)) (by decide)
  have odd : (flags ||| pagePresent ||| pageWrite) % 2 = 1 := by
    have bit : (flags ||| pagePresent ||| pageWrite).testBit 0 = true := by simp [pagePresent]
    rw [Nat.testBit_zero] at bit
    simpa using bit
  have whole : phys / 2 ^ 12 * 2 ^ 12 % 2 ^ 12 = 0 := Nat.mul_mod_left _ _
  have value : leafValue phys flags =
      phys / 2 ^ 12 * 2 ^ 12 + (flags ||| pagePresent ||| pageWrite) := by
    rw [leafValue, and_highMask (by omega) fits, Nat.or_assoc, Nat.or_assoc, ← Nat.or_assoc flags,
      or_low_of_aligned whole low]
  rw [value]
  generalize flags ||| pagePresent ||| pageWrite = bits at low odd
  refine ⟨by omega, ?_⟩
  rw [frameOf, if_neg (by omega)]
  exact congrArg some (by omega)

/-- Mapping a page whose last table exists stores its entry and takes no frame. -/
theorem pagingMapPage_present {fuel : Nat} {paging : Paging σ} {tables : Tables}
    (tree : Tree paging.mem tables) (root : tables [] = some paging.pml4Root) {virt pt : Nat}
    (phys flags : Nat) (here : tables (tablePath virt) = some pt) :
    pagingMapPage alloc (fuel + 1) paging virt phys flags =
      .ok (virt, { paging with mem := setEntry paging.mem pt (ptIndex virt) (leafValue phys flags) }) := by
  -- The walk makes nothing, and then the entry is stored.
  have nonzero : pt ≠ 0 := by have := (tree.aligned here).2.1; omega
  simp [pagingMapPage, walk_present tree root here, nonzero, leafValue, Bind.bind, Except.bind,
    Pure.pure, Except.pure]

/-- The tables do not depend on the state of the page allocator. -/
theorem PagingRep.withPmm {paging : Paging σ} {tables : Tables} {pages : Nat → Option Nat}
    (rep : PagingRep paging tables pages) (pmm : σ) :
    PagingRep { paging with pmm := pmm } tables pages :=
  ⟨rep.tree, rep.root, rep.translates⟩

/-- Storing a mapping in an existing table is an update of the abstract map. -/
theorem PagingRep.setLeaf {paging : Paging σ} {tables : Tables} {pages : Nat → Option Nat}
    (rep : PagingRep paging tables pages) (virt : Nat) {pt value : Nat}
    (here : tables (tablePath virt) = some pt) (fits : value < 2 ^ 64) :
    PagingRep { paging with mem := setEntry paging.mem pt (ptIndex virt) value } tables
      (Function.update pages (pageNumber virt) (frameOf value)) where
  tree := rep.tree.setLeaf value here
  root := rep.root
  translates := rep.translates.setLeaf rep.tree here fits

/-- The allocator hands out these frames next, in this order. -/
inductive Supplies (alloc : σ → Except Halt (Nat × σ)) : σ → List Nat → σ → Prop where
  | nil (pmm : σ) : Supplies alloc pmm [] pmm
  | cons {pmm next last : σ} {frame : Nat} {frames : List Nat}
      (taken : alloc pmm = .ok (frame, next)) (rest : Supplies alloc next frames last) :
      Supplies alloc pmm (frame :: frames) last

/-- Frames that can become tables: whole, new, and already reachable by the identity mapping. -/
structure TableFrames (tables : Tables) (frames : List Nat) : Prop where
  distinct : frames.Nodup
  usable : ∀ frame ∈ frames, frame % 4096 = 0 ∧ 0 < frame ∧ frame < 2 ^ 64 ∧ Fresh tables frame ∧
    ∃ pt, tables (tablePath frame) = some pt

/-- The abstract map after the frames of new tables have been identity-mapped. -/
def identityMap (pages : Nat → Option Nat) (frames : List Nat) : Nat → Option Nat :=
  frames.foldl (fun pages frame => Function.update pages (pageNumber frame) (some frame)) pages

/-- Linking the first of several usable frames leaves the others usable. -/
theorem TableFrames.link {tables : Tables} {frame : Nat} {frames : List Nat}
    (usable : TableFrames tables (frame :: frames)) {slot : List Nat} (absent : tables slot = none) :
    TableFrames (Function.update tables slot (some frame)) frames where
  distinct := (List.nodup_cons.mp usable.distinct).2
  usable := by
    intro other member
    -- A later frame is neither the one that was linked nor covered by the slot, which was empty.
    obtain ⟨whole, positive, bound, fresh, pt, covered⟩ :=
      usable.usable other (List.mem_cons_of_mem _ member)
    refine ⟨whole, positive, bound, ?_, pt, ?_⟩
    · intro path found
      by_cases new : path = slot
      · rw [new, Function.update_self] at found
        cases found
        exact (List.nodup_cons.mp usable.distinct).1 member
      · rw [Function.update_of_ne new] at found
        exact fresh path found
    · have old : tablePath other ≠ slot := by
        intro same
        rw [same, absent] at covered
        cases covered
      rwa [Function.update_of_ne old]

/-- Allocating a table whose frame is already covered maps it, clears it and takes one frame. -/
theorem tableAlloc_covered {fuel : Nat} {paging : Paging σ} {tables : Tables}
    {pages : Nat → Option Nat} (rep : PagingRep paging tables pages) {frame : Nat} {next : σ} {pt : Nat}
    (taken : alloc paging.pmm = .ok (frame, next)) (positive : 0 < frame)
    (covered : tables (tablePath frame) = some pt) :
    tableAlloc alloc (pagingMapPage alloc (fuel + 1)) paging = .ok (frame,
      { mem := zeroTable (setEntry paging.mem pt (ptIndex frame) (leafValue frame 0)) frame
        pml4Root := paging.pml4Root
        pmm := next }) := by
  -- The frame has a last table, so mapping it takes no further frame.
  have nonzero : frame ≠ 0 := by omega
  have there := rep.withPmm next
  have mapped : pagingMapPage alloc (fuel + 1) { paging with pmm := next } frame frame 0 = _ :=
    pagingMapPage_present there.tree there.root frame 0 covered
  simp [tableAlloc, taken, nonzero, mapped, Bind.bind, Except.bind, Pure.pure, Except.pure]

/-- The entry that points to a table, with its two fixed bits. -/
theorem tableValue_eq {frame : Nat} (whole : frame % 4096 = 0) :
    frame ||| pagePresent ||| pageWrite = frame + 3 := by
  have aligned : frame % 2 ^ 12 = 0 := whole
  rw [Nat.or_assoc]
  exact or_low_of_aligned aligned (by decide)

/-- Number of tables still missing along the rest of a path. -/
def missingTables (tables : Tables) (path : List Nat) : List Nat → Nat
  | [] => 0
  | index :: rest =>
    (if tables (path ++ [index]) = none then 1 else 0) + missingTables tables (path ++ [index]) rest

/-- Adding a table above the rest of a path does not change what is missing along it. -/
theorem missingTables_link {tables : Tables} {slot : List Nat} {frame : Nat} (rest : List Nat) :
    ∀ path, slot.length ≤ path.length →
      missingTables (Function.update tables slot (some frame)) path rest =
        missingTables tables path rest := by
  induction rest with
  | nil => intro path _; rfl
  | cons index rest ih =>
    intro path above
    -- The slot is too short to lie below the path.
    have apart : path ++ [index] ≠ slot := by
      rintro rfl
      simp at above
    rw [missingTables, missingTables, Function.update_of_ne apart, ih _ (by simp; omega)]

/-- What a level of the creating walk leaves behind. -/
structure Entered (alloc : σ → Except Halt (Nat × σ)) (slot : List Nat) (tables : Tables)
    (pages : Nat → Option Nat) (frames : List Nat) (last : σ) (next : Nat) (rest : List Nat)
    (paging : Paging σ) (grown : Tables) : Prop where
  -- The frames used are exactly the new tables, and each of them is mapped at its own address.
  split : ∃ used, frames = used ++ rest ∧ PagingRep paging grown (identityMap pages used) ∧
    ∀ {path table}, grown path = some table → tables path = some table ∨ table ∈ used
  here : grown slot = some next
  grows : ∀ {path table}, tables path = some table → grown path = some table
  supplies : Supplies alloc paging.pmm rest last
  usable : TableFrames grown rest

/-- One level of the creating walk enters the table of its slot, made from the next frame if needed. -/
theorem enterTable_create (fuel : Nat) {paging : Paging σ} {tables : Tables}
    {pages : Nat → Option Nat} (rep : PagingRep paging tables pages) {path : List Nat}
    {index table : Nat} (above : tables path = some table) (short : path.length < 3)
    (inside : index < 512) {frames : List Nat} {last : σ}
    (supplies : Supplies alloc paging.pmm frames last) (usable : TableFrames tables frames)
    {remaining : Nat}
    (enough : frames.length = (if tables (path ++ [index]) = none then 1 else 0) + remaining) :
    ∃ next entered rest grown,
      enterTable (tableAlloc alloc (pagingMapPage alloc (fuel + 1))) true paging table index =
        .ok (some next, entered) ∧ rest.length = remaining ∧
      (∀ deeper, missingTables grown (path ++ [index]) deeper =
        missingTables tables (path ++ [index]) deeper) ∧
      Entered alloc (path ++ [index]) tables pages frames last next rest entered grown := by
  cases below : tables (path ++ [index]) with
  | some next =>
    -- An existing table costs nothing.
    rw [below, if_neg (by simp), Nat.zero_add] at enough
    exact ⟨next, paging, frames, tables, enterTable_present rep.tree above below, enough,
      fun _ => rfl, ⟨[], rfl, rep, .inl⟩, below, id, supplies, usable⟩
  | none =>
    rw [below, if_pos rfl] at enough
    cases supplies with
    | nil => simp only [List.length_nil] at enough; omega
    | @cons pmm after _ frame rest taken others =>
      obtain ⟨whole, positive, bound, fresh, pt, covered⟩ := usable.usable frame (by simp)
      have noFlags : 0 < 4096 := by decide
      obtain ⟨fits, mapped⟩ := frameOf_leafValue bound noFlags
      -- The frame is mapped at its own address, cleared and then linked into the slot.
      have allocated : tableAlloc alloc (pagingMapPage alloc (fuel + 1)) paging = _ :=
        tableAlloc_covered rep taken positive covered
      have leaf := rep.setLeaf frame covered fits
      have empty := rep.tree.entry_absent above short inside below
      have same : frame / 4096 * 4096 = frame := by omega
      rw [mapped, same] at leaf
      refine ⟨frame, { mem := linkTable (setEntry paging.mem pt (ptIndex frame)
          (leafValue frame 0)) table index frame, pml4Root := paging.pml4Root, pmm := after },
        rest, Function.update tables (path ++ [index]) (some frame), ?_, ?_, ?_, ?_⟩
      · simp [enterTable, empty, allocated, tableValue_eq whole, linkTable, Bind.bind, Except.bind,
          Pure.pure, Except.pure]
      · simp only [List.length_cons] at enough; omega
      · intro deeper
        exact missingTables_link deeper _ (Nat.le_refl _)
      · -- The new table joins the tree at its path, and the page map changes by its identity mapping.
        refine ⟨⟨[frame], rfl, ?_, ?_⟩, Function.update_self .., ?_, others, usable.link below⟩
        · refine ⟨leaf.tree.link above short inside below whole positive bound fresh, ?_,
            leaf.translates.link leaf.tree above short inside below whole fresh⟩
          rw [Function.update_of_ne (by simp)]
          exact rep.root
        · -- A table that is found is one of the old ones or the frame.
          intro other found there
          by_cases new : other = path ++ [index]
          · rw [new, Function.update_self] at there
            cases there
            exact .inr (by simp)
          · rw [Function.update_of_ne new] at there
            exact .inl there
        · intro other found there
          rw [Function.update_of_ne]
          · exact there
          · rintro rfl
            rw [below] at there
            cases there

/-- A tree has no large pages, so the walk's check for one never stops it. -/
theorem Tree.no_large_page {mem : Memory} {tables : Tables} (tree : Tree mem tables)
    {path : List Nat} {index table : Nat} (here : tables path = some table)
    (short : path.length < 3) (inside : index < 512) :
    ¬ (entryAt mem table index &&& pagePresent ≠ 0 ∧ entryAt mem table index &&& pageSizeFlag ≠ 0) := by
  -- An entry of the tree is absent, or has only its two lowest bits set.
  rintro ⟨present, large⟩
  cases below : tables (path ++ [index]) with
  | none => exact present (tree.entry_absent here short inside below)
  | some next => exact large (tree.entry_present here below).2.1

/-- Identity mappings are added in the order in which the frames are taken. -/
theorem identityMap_append (pages : Nat → Option Nat) (first second : List Nat) :
    identityMap pages (first ++ second) = identityMap (identityMap pages first) second :=
  List.foldl_append

/--
Mapping a page takes one frame per missing table and then updates its translation.

Each frame that becomes a table is mapped at its own address first, so the page of the call wins.
-/
theorem pagingMapPage_create {fuel : Nat} {paging : Paging σ} {tables : Tables}
    {pages : Nat → Option Nat} (rep : PagingRep paging tables pages) {virt phys flags : Nat}
    (inRange : leafValue phys flags < 2 ^ 64) {frames : List Nat} {last : σ}
    (supplies : Supplies alloc paging.pmm frames last) (usable : TableFrames tables frames)
    (enough : frames.length = missingTables tables [] (tablePath virt)) :
    ∃ mapped grown, pagingMapPage alloc (fuel + 2) paging virt phys flags = .ok (virt, mapped) ∧
      mapped.pmm = last ∧
      PagingRep mapped grown (Function.update (identityMap pages frames) (pageNumber virt)
        (frameOf (leafValue phys flags))) ∧
      (∀ {path table}, tables path = some table → grown path = some table) ∧
      ∀ {path table}, grown path = some table → tables path = some table ∨ table ∈ frames := by
  obtain ⟨top, middle, low, _⟩ := index_lt virt
  -- Each level hands its remaining frames to the next one.
  obtain ⟨pdpt, first, restFirst, tablesFirst, enteredFirst, lengthFirst, missingFirst, stateFirst⟩ :=
    enterTable_create fuel rep rep.root (by simp) top supplies usable enough
  obtain ⟨usedFirst, splitFirst, repFirst, fromFirst⟩ := stateFirst.split
  rw [← missingFirst] at lengthFirst
  obtain ⟨pd, second, restSecond, tablesSecond, enteredSecond, lengthSecond, missingSecond,
    stateSecond⟩ := enterTable_create fuel repFirst stateFirst.here (by simp) middle
      stateFirst.supplies stateFirst.usable lengthFirst
  obtain ⟨usedSecond, splitSecond, repSecond, fromSecond⟩ := stateSecond.split
  rw [← missingSecond] at lengthSecond
  obtain ⟨pt, third, restThird, tablesThird, enteredThird, lengthThird, _, stateThird⟩ :=
    enterTable_create fuel repSecond stateSecond.here (by simp) low
      stateSecond.supplies stateSecond.usable lengthSecond
  obtain ⟨usedThird, splitThird, repThird, fromThird⟩ := stateThird.split
  obtain rfl : restThird = [] := List.length_eq_zero_iff.mp lengthThird
  have allUsed : frames = usedFirst ++ (usedSecond ++ usedThird) := by
    rw [splitFirst, splitSecond, splitThird, List.append_nil]
  have done : third.pmm = last := by
    cases stateThird.supplies
    rfl
  -- The last table is there now, so the entry of the page is stored in it.
  have large := repSecond.tree.no_large_page stateSecond.here (by simp) low
  have nonzero : pt ≠ 0 := by have := (repThird.tree.aligned stateThird.here).2.1; omega
  have stored := repThird.setLeaf virt stateThird.here inRange
  rw [← identityMap_append, ← identityMap_append, ← allUsed] at stored
  refine ⟨_, tablesThird, ?_, ?_, stored, ?_, ?_⟩
  · -- The walk through the three tables is the one that the levels described.
    have walked : walk (tableAlloc alloc (pagingMapPage alloc (fuel + 1))) true paging virt =
        .ok (pt, third) := by
      simp [walk, enteredFirst, enteredSecond, enteredThird, large, Bind.bind, Except.bind,
        Pure.pure, Except.pure]
    rw [pagingMapPage]
    simp [walked, nonzero, leafValue, Bind.bind, Except.bind, Pure.pure, Except.pure]
  · exact done
  · intro path table there
    exact stateThird.grows (stateSecond.grows (stateFirst.grows there))
  · -- Each table is an old one or one of the frames taken on its level.
    intro path table there
    rw [allUsed]
    simp only [List.mem_append]
    rcases fromThird there with there | used
    · rcases fromSecond there with there | used
      · exact (fromFirst there).imp_right .inl
      · exact .inr (.inr (.inl used))
    · exact .inr (.inr (.inr used))

end

end MiraOS
