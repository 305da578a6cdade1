import MiraOS.Arch.PagingWalk

/-! Over every run the page tables translate as a finite map of page numbers. -/

namespace MiraOS

open Machine

/-- The tables that exist after boot: one path down to the table of the first two megabytes. -/
def bootTree (boot : BootTables) : Tables
  | [] => some boot.pml4
  | [0] => some boot.pdpt
  | [0, 0] => some boot.pd
  | [0, 0, 0] => some boot.pt
  | _ => none

/-- The translation after boot: the first 512 pages at their own addresses. -/
def bootPages (page : Nat) : Option Nat := if page < 512 then some (page * 4096) else none

/-- Static tables that boot code does not write start out clear, as the language promises. -/
def ClearedBss (mem : Memory) (boot : BootTables) : Prop :=
  ∀ index, index < 512 → entryAt mem boot.pd index = 0 ∧ entryAt mem boot.pdpt index = 0

/-- A table of the boot tree is one of the four boot tables, at its own place. -/
theorem bootTree_cases {boot : BootTables} {path : List Nat} {table : Nat}
    (here : bootTree boot path = some table) :
    (path = [] ∧ table = boot.pml4) ∨ (path = [0] ∧ table = boot.pdpt) ∨
      (path = [0, 0] ∧ table = boot.pd) ∨ (path = [0, 0, 0] ∧ table = boot.pt) := by
  -- The boot tables are four, one on each level of the path to the first two megabytes.
  unfold bootTree at here
  split at here <;> simp_all

/-- Below a boot table there is at most slot zero, and the table above it exists. -/
private theorem bootTree_parent {boot : BootTables} {path : List Nat} {index table : Nat}
    (here : bootTree boot (path ++ [index]) = some table) :
    index = 0 ∧ path.length < 3 ∧ ∃ above, bootTree boot path = some above := by
  -- Four paths, of which three have a last index.
  rcases bootTree_cases here with ⟨same, _⟩ | ⟨same, _⟩ | ⟨same, _⟩ | ⟨same, _⟩
  · simp at same
  · have parts : path ++ [index] = [] ++ [0] := same
    obtain ⟨rfl, rfl⟩ := path_append_inj parts
    exact ⟨rfl, by simp, _, rfl⟩
  · have parts : path ++ [index] = [0] ++ [0] := same
    obtain ⟨rfl, rfl⟩ := path_append_inj parts
    exact ⟨rfl, by simp, _, rfl⟩
  · have parts : path ++ [index] = [0, 0] ++ [0] := same
    obtain ⟨rfl, rfl⟩ := path_append_inj parts
    exact ⟨rfl, by simp, _, rfl⟩

/-- The first 512 pages share the first table of every level. -/
theorem tablePath_low {virt : Nat} (low : pageNumber virt < 512) :
    tablePath virt = [0, 0, 0] ∧ ptIndex virt = pageNumber virt := by
  -- The page number is below 512, so the upper indices are zero.
  rw [tablePath_eq, ptIndex_eq]
  simp only [List.cons.injEq, and_true, pageNumber] at *
  omega

/-- An address whose path stays in the first table of every level is in the first 512 pages. -/
theorem low_of_tablePath {virt : Nat} (path : tablePath virt = [0, 0, 0]) :
    pageNumber virt < 512 := by
  -- The three indices are zero, which leaves the nine bits of the last one.
  rw [tablePath_eq] at path
  simp only [List.cons.injEq, and_true] at path
  simp only [pageNumber]
  omega

section Boot

variable {σ : Type} (boot : BootTables) (mem : Memory) (pmm : σ)

/-- The entries of the four boot tables once paging is set up. -/
theorem pagingInit_entries (cleared : ClearedBss mem boot) {index : Nat} (inside : index < 512) :
    entryAt (pagingInit boot mem pmm).mem boot.pml4 index =
      (if index = 0 then boot.pdpt + 3 else 0) ∧
    entryAt (pagingInit boot mem pmm).mem boot.pdpt index =
      (if index = 0 then boot.pd + 3 else 0) ∧
    entryAt (pagingInit boot mem pmm).mem boot.pd index =
      (if index = 0 then boot.pt + 3 else 0) ∧
    entryAt (pagingInit boot mem pmm).mem boot.pt index = index * 4096 + 3 := by
  obtain ⟨topWhole, _, topBound⟩ := boot.aligned boot.pml4 (by simp)
  obtain ⟨pdptWhole, _, pdptBound⟩ := boot.aligned boot.pdpt (by simp)
  obtain ⟨pdWhole, _, pdBound⟩ := boot.aligned boot.pd (by simp)
  obtain ⟨ptWhole, _, ptBound⟩ := boot.aligned boot.pt (by simp)
  obtain ⟨⟨topPdpt, topPd, topPt⟩, ⟨pdptPd, pdptPt⟩, pdPt⟩ :
      (boot.pml4 ≠ boot.pdpt ∧ boot.pml4 ≠ boot.pd ∧ boot.pml4 ≠ boot.pt) ∧
      (boot.pdpt ≠ boot.pd ∧ boot.pdpt ≠ boot.pt) ∧ boot.pd ≠ boot.pt := by
    simpa using boot.distinct
  -- The identity entries of the last table, as the boot loop computes them.
  have identity : ∀ i, i < 512 → i * 4096 ||| pagePresent ||| pageWrite = i * 4096 + 3 :=
    fun i _ => tableValue_eq (Nat.mul_mod_left i 4096)
  have identityFits : ∀ i, i < 512 → i * 4096 ||| pagePresent ||| pageWrite < 2 ^ 64 := by
    intro i small
    rw [identity i small]
    omega
  have zeroFits : ∀ i, i < 512 → 0 < 2 ^ 64 := fun _ _ => by decide
  have first : (0 : Nat) < 512 := by decide
  simp only [pagingInit, tableValue_eq ptWhole, tableValue_eq pdWhole, tableValue_eq pdptWhole]
  -- For each table the later stores into other tables are passed over first.
  refine ⟨?_, ?_, ?_, ?_⟩
  · by_cases zero : index = 0
    · rw [if_pos zero, zero, entryAt_setEntry_same (by omega)]
    · rw [if_neg zero, entryAt_setEntry_other topWhole topWhole first inside (fun _ => Ne.symm zero),
        entryAt_setEntry_other pdptWhole topWhole first inside (fun same => absurd same.symm topPdpt),
        entryAt_setEntry_other pdWhole topWhole first inside (fun same => absurd same.symm topPd),
        entryAt_fill_other _ ptWhole topWhole (Ne.symm topPt) inside 512 (Nat.le_refl _), zeroTable,
        entryAt_fill_same (fun _ => 0) topWhole zeroFits 512 (Nat.le_refl _) _ inside, if_pos inside]
  · -- The second table, filled after the first.
    rw [entryAt_setEntry_other topWhole pdptWhole first inside (fun same => absurd same topPdpt)]
    by_cases zero : index = 0
    · rw [if_pos zero, zero, entryAt_setEntry_same (by omega)]
    · rw [if_neg zero, entryAt_setEntry_other pdptWhole pdptWhole first inside (fun _ => Ne.symm zero),
        entryAt_setEntry_other pdWhole pdptWhole first inside (fun same => absurd same.symm pdptPd),
        entryAt_fill_other _ ptWhole pdptWhole (Ne.symm pdptPt) inside 512 (Nat.le_refl _), zeroTable,
        entryAt_fill_other _ topWhole pdptWhole topPdpt inside 512 (Nat.le_refl _)]
      exact (cleared index inside).2
  · rw [entryAt_setEntry_other topWhole pdWhole first inside (fun same => absurd same topPd),
      entryAt_setEntry_other pdptWhole pdWhole first inside (fun same => absurd same pdptPd)]
    by_cases zero : index = 0
    · rw [if_pos zero, zero, entryAt_setEntry_same (by omega)]
    · rw [if_neg zero, entryAt_setEntry_other pdWhole pdWhole first inside (fun _ => Ne.symm zero),
        entryAt_fill_other _ ptWhole pdWhole (Ne.symm pdPt) inside 512 (Nat.le_refl _), zeroTable,
        entryAt_fill_other _ topWhole pdWhole topPd inside 512 (Nat.le_refl _)]
      exact (cleared index inside).1
  · -- The last table holds the identity map of its 512 pages.
    rw [entryAt_setEntry_other topWhole ptWhole first inside (fun same => absurd same topPt),
      entryAt_setEntry_other pdptWhole ptWhole first inside (fun same => absurd same pdptPt),
      entryAt_setEntry_other pdWhole ptWhole first inside (fun same => absurd same pdPt),
      entryAt_fill_same (fun i => i * 4096 ||| pagePresent ||| pageWrite) ptWhole identityFits 512
        (Nat.le_refl _) _ inside, if_pos inside, identity index inside]

/-- After boot the four static tables form a tree that maps the first two megabytes. -/
theorem pagingInit_rep (cleared : ClearedBss mem boot) :
    PagingRep (pagingInit boot mem pmm) (bootTree boot) bootPages := by
  have distinct := boot.distinct
  simp only [List.nodup_cons, List.mem_cons, List.not_mem_nil, or_false, not_or] at distinct
  obtain ⟨⟨topPdpt, topPd, topPt⟩, ⟨pdptPd, pdptPt⟩, pdPt, _⟩ := distinct
  refine ⟨?_, rfl, ?_⟩
  · -- The tree of the four boot tables, clause by clause.
    constructor
    case aligned =>
      intro path table here
      rcases bootTree_cases here with ⟨_, rfl⟩ | ⟨_, rfl⟩ | ⟨_, rfl⟩ | ⟨_, rfl⟩ <;>
        exact boot.aligned _ (by simp)
    case single =>
      intro path other table here there
      rcases bootTree_cases here with ⟨rfl, one⟩ | ⟨rfl, one⟩ | ⟨rfl, one⟩ | ⟨rfl, one⟩ <;>
        rcases bootTree_cases there with ⟨rfl, two⟩ | ⟨rfl, two⟩ | ⟨rfl, two⟩ | ⟨rfl, two⟩ <;>
        first | rfl | (rw [one] at two; simp_all)
    case parent =>
      intro path index table here
      obtain ⟨rfl, above⟩ := bootTree_parent here
      exact ⟨above.1, by decide, above.2⟩
    case linked =>
      intro path index table next here below
      obtain ⟨rfl, _⟩ := bootTree_parent below
      obtain ⟨top, pdpt, pd, _⟩ := pagingInit_entries boot mem pmm cleared (show 0 < 512 by decide)
      -- The link at index 0 leads from each table to the next.
      rcases bootTree_cases here with ⟨rfl, rfl⟩ | ⟨rfl, rfl⟩ | ⟨rfl, rfl⟩ | ⟨rfl, rfl⟩ <;> cases below
      · rw [top, if_pos rfl]
      · rw [pdpt, if_pos rfl]
      · rw [pd, if_pos rfl]
    case missing =>
      intro path index table here short inside absent
      obtain ⟨top, pdpt, pd, _⟩ := pagingInit_entries boot mem pmm cleared inside
      -- Only slot zero of each boot table is filled.
      have other : index ≠ 0 := by
        rintro rfl
        rcases bootTree_cases here with ⟨rfl, rfl⟩ | ⟨rfl, rfl⟩ | ⟨rfl, rfl⟩ | ⟨rfl, rfl⟩ <;>
          first | (simp at short; done) | cases absent
      rcases bootTree_cases here with ⟨rfl, rfl⟩ | ⟨rfl, rfl⟩ | ⟨rfl, rfl⟩ | ⟨rfl, rfl⟩
      · rw [top, if_neg other]
      · rw [pdpt, if_neg other]
      · rw [pd, if_neg other]
      · simp at short
  · intro virt
    by_cases low : pageNumber virt < 512
    · -- Inside the first two megabytes the last table holds the identity entries.
      obtain ⟨path, index⟩ := tablePath_low low
      obtain ⟨_, _, _, pt⟩ := pagingInit_entries boot mem pmm cleared (index_lt virt).2.2.2
      have leaf : leafEntry (pagingInit boot mem pmm).mem (bootTree boot) virt =
          some (pageNumber virt * 4096 + 3) := by
        rw [leafEntry, path]
        simp only [bootTree, Option.map_some, pt]
        rw [index]
      rw [leaf, bootPages, if_pos low, Option.bind_some, frameOf, if_neg (by omega)]
      exact congrArg some (by omega)
    · have absent : bootTree boot (tablePath virt) = none := by
        cases here : bootTree boot (tablePath virt) with
        | none => rfl
        | some table =>
          rcases bootTree_cases here with ⟨path, _⟩ | ⟨path, _⟩ | ⟨path, _⟩ | ⟨path, _⟩
          · simp [tablePath] at path
          · simp [tablePath] at path
          · simp [tablePath] at path
          · exact absurd (low_of_tablePath path) low
      simp [leafEntry, absent, bootPages, low]

end Boot

/-- Handing out the first frames of the list leaves the rest of it. -/
theorem supplies_popFrame (frames rest : List Nat) :
    Supplies popFrame (frames ++ rest) frames rest := by
  -- Induction on the frames: each of them answers one request.
  induction frames with
  | nil => exact .nil _
  | cons frame frames ih => exact .cons rfl ih

/-- How many tables a walk to an address would have to make, read off the entries it meets. -/
def tablesNeeded (mem : Memory) (root virt : Nat) : Nat :=
  if entryAt mem root (pml4Index virt) &&& pagePresent = 0 then 3
  else
    let pdpt := entryAt mem root (pml4Index virt) &&& highMask 12
    if entryAt mem pdpt (pdptIndex virt) &&& pagePresent = 0 then 2
    else
      let pd := entryAt mem pdpt (pdptIndex virt) &&& highMask 12
      if entryAt mem pd (pdIndex virt) &&& pagePresent = 0 then 1 else 0

/-- A walk makes at most three tables. -/
theorem tablesNeeded_le (mem : Memory) (root virt : Nat) : tablesNeeded mem root virt ≤ 3 := by
  -- Three levels, each with at most one table to make.
  unfold tablesNeeded
  split
  · exact Nat.le_refl _
  · dsimp only
    split
    · omega
    · split <;> omega

/-- In a tree, what the walk would have to make is what the tree is missing. -/
theorem Tree.tablesNeeded_eq {mem : Memory} {tables : Tables} (tree : Tree mem tables) {root : Nat}
    (rooted : tables [] = some root) (virt : Nat) :
    tablesNeeded mem root virt = missingTables tables [] (tablePath virt) := by
  obtain ⟨top, middle, low, _⟩ := index_lt virt
  -- A missing table has no table below it.
  have childless : ∀ {path index}, tables path = none → tables (path ++ [index]) = none := by
    intro path index absent
    cases below : tables (path ++ [index]) with
    | none => rfl
    | some next =>
      obtain ⟨_, _, above, found⟩ := tree.parent below
      rw [absent] at found
      cases found
  simp only [missingTables, tablePath, tablesNeeded]
  -- From the first level down: a table that is missing costs itself and those below it.
  cases pdptHere : tables ([] ++ [pml4Index virt]) with
  | none =>
    have pdGone : tables ([] ++ [pml4Index virt] ++ [pdptIndex virt]) = none := childless pdptHere
    have ptGone : tables ([] ++ [pml4Index virt] ++ [pdptIndex virt] ++ [pdIndex virt]) = none :=
      childless pdGone
    rw [pdGone, ptGone]
    simp [tree.entry_absent rooted (by simp) top pdptHere]
  -- The first level is there, so the second one is asked.
  | some pdpt =>
    obtain ⟨present, _, masked⟩ := tree.entry_present rooted pdptHere
    cases pdHere : tables ([] ++ [pml4Index virt] ++ [pdptIndex virt]) with
    | none =>
      have ptGone : tables ([] ++ [pml4Index virt] ++ [pdptIndex virt] ++ [pdIndex virt]) = none :=
        childless pdHere
      rw [ptGone]
      simp [present, masked, tree.entry_absent pdptHere (by simp) middle pdHere]
    | some pd =>
      obtain ⟨presentPd, _, maskedPd⟩ := tree.entry_present pdptHere pdHere
      cases ptHere : tables ([] ++ [pml4Index virt] ++ [pdptIndex virt] ++ [pdIndex virt]) with
      | none =>
        simp [present, masked, presentPd, maskedPd, tree.entry_absent pdHere (by simp) low ptHere]
      | some pt =>
        simp [present, masked, presentPd, maskedPd, (tree.entry_present pdHere ptHere).1]

/-- What a caller of the paging code can do. -/
inductive PagingOp where
  | map (virt phys flags : Nat)
  | unmap (virt : Nat)

/-- The abstract translation of an address: its frame plus the offset, or zero. -/
def translate (pages : Nat → Option Nat) (virt : Nat) : Nat :=
  match pages (pageNumber virt) with
  | none => 0
  | some frame => frame + virt % 4096

/-- One call next to its effect on the abstract map, where the page allocator supplies the frames. -/
inductive PagingStep (fuel : Nat) : Paging (List Nat) × (Nat → Option Nat) → PagingOp →
    Paging (List Nat) × (Nat → Option Nat) → Prop where
  -- The new tables are mapped at their own addresses, and then the page to its frame.
  | map {paging next : Paging (List Nat)} {pages : Nat → Option Nat} {virt phys flags : Nat}
      {used : List Nat} (fits : phys < 2 ^ 64) (small : flags < 4096)
      (supplied : tablesNeeded paging.mem paging.pml4Root virt ≤ paging.pmm.length)
      (called : pagingMapPage popFrame (fuel + 2) paging virt phys flags = .ok (virt, next))
      (taken : paging.pmm = used ++ next.pmm) :
      PagingStep fuel (paging, pages) (.map virt phys flags)
        (next, Function.update (identityMap pages used) (pageNumber virt)
          (some (phys / 4096 * 4096)))
  | unmap {paging next : Paging (List Nat)} {pages : Nat → Option Nat} {virt : Nat}
      (called : pagingUnmapPage popFrame paging virt = .ok next) :
      PagingStep fuel (paging, pages) (.unmap virt)
        (next, Function.update pages (pageNumber virt) none)

/-- Frames the tables may use: whole pages of the first two megabytes, each new. -/
structure LowFrames (boot : BootTables) (frames : List Nat) : Prop where
  distinct : frames.Nodup
  low : ∀ frame ∈ frames, frame % 4096 = 0 ∧ 0 < frame ∧ frame < 2 ^ 21
  notBoot : ∀ frame ∈ frames, frame ∉ [boot.pml4, boot.pdpt, boot.pd, boot.pt]

/-- What holds in every reached state: the tables represent the map, and the other frames are usable. -/
def PagingReached (state : Paging (List Nat) × (Nat → Option Nat)) : Prop :=
  ∃ tables, PagingRep state.1 tables state.2 ∧ TableFrames tables state.1.pmm

/-- Frames left over by a call are still usable for the tables it has grown. -/
theorem TableFrames.rest {tables grown : Tables} {used rest : List Nat}
    (usable : TableFrames tables (used ++ rest))
    (grows : ∀ {path table}, tables path = some table → grown path = some table)
    (origin : ∀ {path table}, grown path = some table → tables path = some table ∨ table ∈ used) :
    TableFrames grown rest where
  distinct := (List.nodup_append.mp usable.distinct).2.1
  usable := by
    -- A frame that was not used yet is still new: the tables that were added are the used ones.
    intro frame member
    obtain ⟨whole, positive, bound, fresh, pt, covered⟩ :=
      usable.usable frame (List.mem_append_right _ member)
    refine ⟨whole, positive, bound, ?_, pt, grows covered⟩
    intro path found
    rcases origin found with old | new
    · exact fresh path old
    · exact (List.nodup_append.mp usable.distinct).2.2 frame new frame member rfl

/-- A supplied call returns, takes the first frames it needs and updates the translation. -/
theorem pagingMapPage_supplied (fuel : Nat) {paging : Paging (List Nat)} {tables : Tables}
    {pages : Nat → Option Nat} (rep : PagingRep paging tables pages)
    (usable : TableFrames tables paging.pmm) {virt phys flags : Nat} (fits : phys < 2 ^ 64)
    (small : flags < 4096)
    (supplied : tablesNeeded paging.mem paging.pml4Root virt ≤ paging.pmm.length) :
    ∃ used next, paging.pmm = used ++ next.pmm ∧
      pagingMapPage popFrame (fuel + 2) paging virt phys flags = .ok (virt, next) ∧
      PagingReached (next, Function.update (identityMap pages used) (pageNumber virt)
        (some (phys / 4096 * 4096))) := by
  rw [rep.tree.tablesNeeded_eq rep.root] at supplied
  -- The call takes exactly as many frames off the front of the list as tables are missing.
  obtain ⟨used, rest, split, length⟩ : ∃ used rest, paging.pmm = used ++ rest ∧
      used.length = missingTables tables [] (tablePath virt) :=
    ⟨_, _, (List.take_append_drop _ _).symm, List.length_take_of_le supplied⟩
  rw [split] at usable
  have supplies : Supplies popFrame paging.pmm used rest := split ▸ supplies_popFrame used rest
  have usedUsable : TableFrames tables used :=
    ⟨(List.nodup_append.mp usable.distinct).1,
      fun frame member => usable.usable frame (List.mem_append_left _ member)⟩
  obtain ⟨inRange, points⟩ := frameOf_leafValue fits small
  obtain ⟨next, grown, called, left, mapped, grows, origin⟩ :=
    pagingMapPage_create rep inRange supplies usedUsable length
  rw [points] at mapped
  refine ⟨used, next, by rw [left]; exact split, called, grown, mapped, ?_⟩
  rw [left]
  exact usable.rest grows origin

/-- An unmapping call returns and removes the translation of its page. -/
theorem pagingUnmapPage_rep {σ : Type} (alloc : σ → Except Halt (Nat × σ)) {paging : Paging σ}
    {tables : Tables} {pages : Nat → Option Nat} (rep : PagingRep paging tables pages) (virt : Nat) :
    ∃ next, pagingUnmapPage alloc paging virt = .ok next ∧ next.pmm = paging.pmm ∧
      PagingRep next tables (Function.update pages (pageNumber virt) none) := by
  cases here : tables (tablePath virt) with
  | none =>
    -- A page without a last table is not translated, so removing it changes nothing.
    have unmapped : pages (pageNumber virt) = none := by
      rw [← rep.translates virt]
      simp [leafEntry, here]
    refine ⟨paging, ?_, rfl, ?_⟩
    · simp [pagingUnmapPage, walkExisting, walk_absent rep.tree rep.root here, Bind.bind,
        Except.bind, Pure.pure, Except.pure]
    · rw [← unmapped, Function.update_eq_self]
      exact rep
  | some pt =>
    have nonzero : pt ≠ 0 := by have := (rep.tree.aligned here).2.1; omega
    refine ⟨{ paging with mem := setEntry paging.mem pt (ptIndex virt) 0 }, ?_, rfl, ?_⟩
    · simp [pagingUnmapPage, walkExisting, walk_present rep.tree rep.root here, nonzero, Bind.bind,
        Except.bind, Pure.pure, Except.pure]
    · exact rep.setLeaf virt here (by decide)

/-- Translating through the tables is translating through the abstract map. -/
theorem pagingVirtToPhys_rep {σ : Type} {alloc : σ → Except Halt (Nat × σ)} {paging : Paging σ}
    {tables : Tables} {pages : Nat → Option Nat} (rep : PagingRep paging tables pages) (virt : Nat) :
    pagingVirtToPhys alloc paging virt = .ok (translate pages virt) := by
  have offset : virt &&& 0xFFF = virt % 4096 := Nat.and_two_pow_sub_one_eq_mod virt 12
  have translated := rep.translates virt
  cases here : tables (tablePath virt) with
  | none =>
    have unmapped : pages (pageNumber virt) = none := by
      rw [← translated]
      simp [leafEntry, here]
    simp [pagingVirtToPhys, walkExisting, walk_absent rep.tree rep.root here, translate, unmapped,
      Bind.bind, Except.bind, Pure.pure, Except.pure]
  | some pt =>
    have nonzero : pt ≠ 0 := by have := (rep.tree.aligned here).2.1; omega
    have bound : entryAt paging.mem pt (ptIndex virt) < 2 ^ 64 := read64_lt _ _
    simp only [leafEntry, here, Option.map_some, Option.bind_some] at translated
    -- The entry is absent or present, as the abstract map says.
    by_cases even : entryAt paging.mem pt (ptIndex virt) % 2 = 0
    · rw [frameOf, if_pos even] at translated
      have clear : entryAt paging.mem pt (ptIndex virt) &&& pagePresent = 0 := by
        rw [pagePresent, Nat.and_one_is_mod]
        exact even
      simp [pagingVirtToPhys, walkExisting, walk_present rep.tree rep.root here, nonzero, clear,
        translate, ← translated, Bind.bind, Except.bind, Pure.pure, Except.pure]
    · rw [frameOf, if_neg even] at translated
      have present : entryAt paging.mem pt (ptIndex virt) &&& pagePresent ≠ 0 :=
        (and_one_ne_zero _).mpr (by omega)
      have sum : add64 (entryAt paging.mem pt (ptIndex virt) &&& highMask 12) (virt % 4096) =
          entryAt paging.mem pt (ptIndex virt) / 4096 * 4096 + virt % 4096 := by
        rw [and_highMask (by omega) bound]
        exact add64_of_lt (by omega)
      simp [pagingVirtToPhys, walkExisting, walk_present rep.tree rep.root here, nonzero, present,
        offset, sum, translate, ← translated, Bind.bind, Except.bind, Pure.pure, Except.pure]

/-- One call keeps the tables and the abstract map together. -/
theorem PagingReached.step {fuel : Nat} {state next : Paging (List Nat) × (Nat → Option Nat)}
    {op : PagingOp} (reached : PagingReached state) (step : PagingStep fuel state op next) :
    PagingReached next := by
  obtain ⟨tables, rep, usable⟩ := reached
  cases step with
  | @map paging final pages virt phys flags used fits small supplied called taken =>
    obtain ⟨frames, other, split, result, mapped⟩ :=
      pagingMapPage_supplied fuel rep usable fits small supplied
    rw [called] at result
    cases result
    -- The two ways to split off the remaining frames agree on what was used.
    obtain rfl : used = frames := List.append_cancel_right (taken.symm.trans split)
    exact mapped
  | unmap called =>
    obtain ⟨other, result, left, removed⟩ := pagingUnmapPage_rep popFrame rep _
    rw [called] at result
    cases result
    exact ⟨tables, removed, by rw [left]; exact usable⟩

/-- The state after boot, with usable frames left for the tables. -/
theorem pagingReached_init {boot : BootTables} {mem : Memory} {frames : List Nat}
    (cleared : ClearedBss mem boot) (lowFrames : LowFrames boot frames) :
    PagingReached (pagingInit boot mem frames, bootPages) := by
  -- The root, its two tables and the last one are static, and no free frame is one of them.
  refine ⟨bootTree boot, pagingInit_rep boot mem frames cleared, lowFrames.distinct, ?_⟩
  intro frame member
  obtain ⟨whole, positive, low⟩ := lowFrames.low frame member
  refine ⟨whole, positive, by omega, ?_, boot.pt, ?_⟩
  · intro path found
    apply lowFrames.notBoot frame member
    rcases bootTree_cases found with ⟨_, rfl⟩ | ⟨_, rfl⟩ | ⟨_, rfl⟩ | ⟨_, rfl⟩ <;> simp
  · -- The first two megabytes are covered by the boot table.
    rw [(tablePath_low (by simp only [pageNumber]; omega)).1]
    rfl

/--
The page tables refine a finite map over page numbers.

In every state reached from boot each address translates as the abstract map says, and each further
call that the page allocator can supply returns.
-/
theorem paging_refines_map {boot : BootTables} {mem : Memory} {frames : List Nat} {fuel : Nat}
    {ops : List PagingOp} {final : Paging (List Nat)} {pages : Nat → Option Nat}
    (cleared : ClearedBss mem boot) (lowFrames : LowFrames boot frames)
    (run : Run (PagingStep fuel) (pagingInit boot mem frames, bootPages) ops (final, pages)) :
    (∀ virt, pagingVirtToPhys popFrame final virt = .ok (translate pages virt)) ∧
    (∀ virt phys flags, phys < 2 ^ 64 → flags < 4096 →
      tablesNeeded final.mem final.pml4Root virt ≤ final.pmm.length →
      ∃ next, pagingMapPage popFrame (fuel + 2) final virt phys flags = .ok (virt, next)) ∧
    ∀ virt, ∃ next, pagingUnmapPage popFrame final virt = .ok next := by
  -- The invariant holds after boot and over every call.
  have reached := run.preserves PagingReached (fun reached step => reached.step step)
    (pagingReached_init cleared lowFrames)
  obtain ⟨tables, rep, usable⟩ := reached
  refine ⟨pagingVirtToPhys_rep rep, ?_, ?_⟩
  · intro virt phys flags fits small supplied
    obtain ⟨_, next, _, called, _⟩ := pagingMapPage_supplied fuel rep usable fits small supplied
    exact ⟨next, called⟩
  · intro virt
    obtain ⟨next, called, _⟩ := pagingUnmapPage_rep popFrame rep virt
    exact ⟨next, called⟩

/-- Boot tables in four pages of a small kernel image. -/
def smallBootTables : BootTables where
  pml4 := 0x110000
  pt := 0x111000
  pd := 0x112000
  pdpt := 0x113000
  aligned := by decide
  distinct := by decide

/-- Memory that is clear everywhere is clear in the static tables. -/
theorem cleared_zero : ClearedBss (fun _ => 0) smallBootTables := by
  -- Every byte of the cleared memory is zero, so every entry is.
  intro index _
  simp [entryAt, read64, readLE]

/-- Mapping the first heap page with three low frames at hand translates it to its frame. -/
theorem heap_page_translates :
    ∃ final pages, Run (PagingStep 0)
      (pagingInit smallBootTables (fun _ => 0) [0x150000, 0x151000, 0x152000], bootPages)
      [.map 0x40000000 0x200000 0] (final, pages) ∧
      pagingVirtToPhys popFrame final 0x40000123 = .ok 0x200123 := by
  have cleared := cleared_zero
  have lowFrames : LowFrames smallBootTables [0x150000, 0x151000, 0x152000] :=
    ⟨by decide, by decide, by decide⟩
  have needed := tablesNeeded_le (pagingInit smallBootTables (fun _ => 0)
    [0x150000, 0x151000, 0x152000]).mem smallBootTables.pml4 0x40000000
  obtain ⟨tables, rep, usable⟩ := pagingReached_init cleared lowFrames
  obtain ⟨used, next, taken, called, _⟩ :=
    pagingMapPage_supplied 0 rep usable (show 0x200000 < 2 ^ 64 by decide)
      (show 0 < 4096 by decide) needed
  have step : PagingStep 0
      (pagingInit smallBootTables (fun _ => 0) [0x150000, 0x151000, 0x152000], bootPages)
      (.map 0x40000000 0x200000 0)
      (next, Function.update (identityMap bootPages used) (pageNumber 0x40000000)
        (some (0x200000 / 4096 * 4096))) :=
    .map (by decide) (by decide) needed called taken
  have run := Run.cons step (Run.nil _)
  refine ⟨_, _, run, ?_⟩
  rw [(paging_refines_map cleared lowFrames run).1 0x40000123]
  -- Both addresses lie in the page that the call has mapped.
  have same : pageNumber 0x40000123 = pageNumber 0x40000000 := by decide
  simp [translate, same]

end MiraOS
