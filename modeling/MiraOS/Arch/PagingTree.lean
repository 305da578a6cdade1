import MiraOS.Arch.Paging
import Mathlib.Logic.Function.Basic

/-! Page tables form a tree, so that every entry belongs to one address range only. -/

namespace MiraOS

open Machine

/-- The number of the page an address lies in, over the 36 translated bits. -/
def pageNumber (virt : Nat) : Nat := virt / 4096 % 2 ^ 36

/-- The indices that lead from the root to the last table of an address. -/
def tablePath (virt : Nat) : List Nat := [pml4Index virt, pdptIndex virt, pdIndex virt]

/-- Masking nine bits of a shifted address is a quotient and a remainder. -/
private theorem shift_and_mask (virt shift : Nat) :
    (virt >>> shift) &&& 0x1FF = virt / 2 ^ shift % 512 := by
  rw [Nat.shiftRight_eq_div_pow]
  exact Nat.and_two_pow_sub_one_eq_mod _ 9

/-- The last table index of an address as arithmetic. -/
theorem ptIndex_eq (virt : Nat) : ptIndex virt = virt / 4096 % 512 := shift_and_mask virt 12

/-- The table path of an address as arithmetic. -/
theorem tablePath_eq (virt : Nat) :
    tablePath virt = [virt / 2 ^ 39 % 512, virt / 2 ^ 30 % 512, virt / 2 ^ 21 % 512] := by
  simp only [tablePath, pml4Index, pdptIndex, pdIndex, shift_and_mask]

/-- The indices of an address decompose its page number uniquely. -/
theorem pageNumber_eq_iff (virt other : Nat) :
    pageNumber virt = pageNumber other ↔
      tablePath virt = tablePath other ∧ ptIndex virt = ptIndex other := by
  rw [tablePath_eq, tablePath_eq, ptIndex_eq, ptIndex_eq]
  simp only [List.cons.injEq, and_true, pageNumber]
  omega

/-- Every index of a table path is an entry of a table. -/
theorem index_lt (virt : Nat) :
    pml4Index virt < 512 ∧ pdptIndex virt < 512 ∧ pdIndex virt < 512 ∧ ptIndex virt < 512 := by
  simp only [pml4Index, pdptIndex, pdIndex, ptIndex, shift_and_mask]
  refine ⟨?_, ?_, ?_, ?_⟩ <;> exact Nat.mod_lt _ (by decide)

/-- A word stored in a table is read back. -/
theorem entryAt_setEntry_same {mem : Memory} {table index value : Nat} (fits : value < 2 ^ 64) :
    entryAt (setEntry mem table index value) table index = value :=
  read64_write64 fits

/-- Storing an entry leaves every other entry of every page-aligned table alone. -/
theorem entryAt_setEntry_other {mem : Memory} {table other index position value : Nat}
    (aligned : table % 4096 = 0) (otherAligned : other % 4096 = 0) (inside : index < 512)
    (otherInside : position < 512) (differ : table = other → index ≠ position) :
    entryAt (setEntry mem table index value) other position = entryAt mem other position := by
  -- Entries of one table are eight bytes apart, and entries of two tables are in different pages.
  apply readLE_writeLE_apart
  by_cases same : table = other
  · have := differ same
    omega
  · omega

/-- Filling the first entries of a table, read back in that table. -/
theorem entryAt_fill_same {mem : Memory} {table : Nat} (value : Nat → Nat)
    (aligned : table % 4096 = 0) (fits : ∀ i, i < 512 → value i < 2 ^ 64) :
    ∀ count, count ≤ 512 → ∀ position, position < 512 →
      entryAt ((List.range count).foldl (fun mem i => setEntry mem table i (value i)) mem)
        table position = if position < count then value position else entryAt mem table position := by
  -- Induction on the number of entries filled so far; the last store is peeled off.
  intro count
  induction count with
  | zero => intro _ position _; simp
  | succ count ih =>
    intro bound position inside
    rw [List.range_succ, List.foldl_append, List.foldl_cons, List.foldl_nil]
    by_cases last : position = count
    · rw [last, entryAt_setEntry_same (fits count (by omega)), if_pos (by omega)]
    · rw [entryAt_setEntry_other aligned aligned (by omega) inside (fun _ => by omega),
        ih (by omega) position inside]
      by_cases before : position < count
      · rw [if_pos before, if_pos (by omega)]
      · rw [if_neg before, if_neg (by omega)]

/-- Filling entries of one table leaves the other tables alone. -/
theorem entryAt_fill_other {mem : Memory} {table other position : Nat} (value : Nat → Nat)
    (aligned : table % 4096 = 0) (otherAligned : other % 4096 = 0) (differ : table ≠ other)
    (inside : position < 512) :
    ∀ count, count ≤ 512 →
      entryAt ((List.range count).foldl (fun mem i => setEntry mem table i (value i)) mem)
        other position = entryAt mem other position := by
  -- No store of the loop reaches the other table.
  intro count
  induction count with
  | zero => intro _; simp
  | succ count ih =>
    intro bound
    rw [List.range_succ, List.foldl_append, List.foldl_cons, List.foldl_nil,
      entryAt_setEntry_other aligned otherAligned (by omega) inside (fun same => absurd same differ),
      ih (by omega)]

/-- Where the tables are, indexed by the path that leads to each of them. -/
abbrev Tables := List Nat → Option Nat

/-- Memory holds exactly these tables, each reached by one path only. -/
structure Tree (mem : Memory) (tables : Tables) : Prop where
  aligned : ∀ {path table}, tables path = some table →
    table % 4096 = 0 ∧ 0 < table ∧ table < 2 ^ 64
  -- No table is shared between two slots.
  single : ∀ {path other table}, tables path = some table → tables other = some table → path = other
  parent : ∀ {path index table}, tables (path ++ [index]) = some table →
    path.length < 3 ∧ index < 512 ∧ ∃ above, tables path = some above
  linked : ∀ {path index table next}, tables path = some table →
    tables (path ++ [index]) = some next → entryAt mem table index = next + 3
  missing : ∀ {path index table}, tables path = some table → path.length < 3 → index < 512 →
    tables (path ++ [index]) = none → entryAt mem table index % 2 = 0

/-- The entry that maps an address, when its last table exists. -/
def leafEntry (mem : Memory) (tables : Tables) (virt : Nat) : Option Nat :=
  (tables (tablePath virt)).map fun pt => entryAt mem pt (ptIndex virt)

/-- The frame an entry points to, when the entry is present. -/
def frameOf (entry : Nat) : Option Nat := if entry % 2 = 0 then none else some (entry / 4096 * 4096)

/-- The tables translate every page as the abstract map does. -/
def Translates (mem : Memory) (tables : Tables) (pages : Nat → Option Nat) : Prop :=
  ∀ virt, (leafEntry mem tables virt).bind frameOf = pages (pageNumber virt)

/-- A tree depends only on the entries of its own tables. -/
theorem Tree.congr {mem other : Memory} {tables : Tables} (tree : Tree mem tables)
    (same : ∀ {path table index}, tables path = some table → path.length < 3 → index < 512 →
      entryAt other table index = entryAt mem table index) : Tree other tables where
  -- Only the two fields about entries read memory, and both are about entries of tables on the path.
  aligned := tree.aligned
  single := tree.single
  parent := tree.parent
  linked := by
    intro path index table next here below
    obtain ⟨short, inside, _⟩ := tree.parent below
    rw [same here short inside]
    exact tree.linked here below
  missing := by
    intro path index table here short inside absent
    rw [same here short inside]
    exact tree.missing here short inside absent

/-- A frame that is no table of the tree. -/
def Fresh (tables : Tables) (frame : Nat) : Prop := ∀ path, tables path ≠ some frame

/-- A present entry of the tree, as the walk reads it. -/
theorem Tree.entry_present {mem : Memory} {tables : Tables} (tree : Tree mem tables)
    {path : List Nat} {index table next : Nat} (here : tables path = some table)
    (below : tables (path ++ [index]) = some next) :
    entryAt mem table index &&& pagePresent ≠ 0 ∧ entryAt mem table index &&& pageSizeFlag = 0 ∧
      entryAt mem table index &&& highMask 12 = next := by
  -- A linked entry is the table with its two lowest bits set, which an aligned table has clear.
  obtain ⟨whole, _, bound⟩ := tree.aligned below
  rw [tree.linked here below]
  refine ⟨?_, ?_, ?_⟩
  · exact (and_one_ne_zero _).mpr (by omega)
  · -- Bit seven lies inside the page offset, where only the two lowest bits are set.
    have clear : (next + 3).testBit 7 = false := by
      rw [Nat.testBit_eq_decide_div_mod_eq, decide_eq_false_iff_not]
      omega
    have masked := Nat.and_two_pow (next + 3) 7
    rw [clear] at masked
    simpa [pageSizeFlag] using masked
  · rw [and_highMask (by omega) (by omega)]
    omega

/-- An absent entry of the tree, as the walk reads it. -/
theorem Tree.entry_absent {mem : Memory} {tables : Tables} (tree : Tree mem tables)
    {path : List Nat} {index table : Nat} (here : tables path = some table)
    (short : path.length < 3) (inside : index < 512) (absent : tables (path ++ [index]) = none) :
    entryAt mem table index &&& pagePresent = 0 := by
  have even := tree.missing here short inside absent
  rw [pagePresent, Nat.and_one_is_mod]
  exact even

/-- Paths of equal length that end in one index each agree in both parts. -/
theorem path_append_inj {path other : List Nat} {index position : Nat}
    (same : path ++ [index] = other ++ [position]) : path = other ∧ index = position := by
  have parts := List.append_inj' same rfl
  exact ⟨parts.1, (List.cons.inj parts.2).1⟩

/-- A path is never one of its own extensions. -/
private theorem path_ne_append (path : List Nat) (index : Nat) : path ≠ path ++ [index] := by
  -- The two paths have different lengths.
  intro same
  simpa using congrArg List.length same

/-- Entries of two slots of the tree are apart unless they are the same slot. -/
theorem Tree.entry_other {mem memory : Memory} {tables : Tables} (tree : Tree mem tables)
    {path other : List Nat} {table position index value : Nat} {next : Nat}
    (here : tables path = some table) (there : tables other = some next) (inside : index < 512)
    (otherInside : position < 512) (differ : path = other → index ≠ position) :
    entryAt (setEntry memory table index value) next position = entryAt memory next position := by
  -- Another entry lies in another table, or in another slot of the same one.
  apply entryAt_setEntry_other (tree.aligned here).1 (tree.aligned there).1 inside otherInside
  rintro rfl
  exact differ (tree.single here there)

/-- Storing a last-level entry keeps the tree of tables. -/
theorem Tree.setLeaf {mem : Memory} {tables : Tables} (tree : Tree mem tables)
    {virt pt : Nat} (value : Nat) (here : tables (tablePath virt) = some pt) :
    Tree (setEntry mem pt (ptIndex virt) value) tables := by
  apply tree.congr
  intro path table index there short inside
  -- A table above the last level has a shorter path, hence another address.
  apply tree.entry_other here there (index_lt virt).2.2.2 inside
  rintro rfl
  simp [tablePath] at short

/-- Storing a last-level entry changes the translation of its own page only. -/
theorem Translates.setLeaf {mem : Memory} {tables : Tables} {pages : Nat → Option Nat}
    (tree : Tree mem tables) (translates : Translates mem tables pages) {virt pt value : Nat}
    (here : tables (tablePath virt) = some pt) (fits : value < 2 ^ 64) :
    Translates (setEntry mem pt (ptIndex virt) value) tables
      (Function.update pages (pageNumber virt) (frameOf value)) := by
  -- The page is the one of the call, or its entry is in another slot.
  intro other
  by_cases same : pageNumber other = pageNumber virt
  · obtain ⟨path, index⟩ := (pageNumber_eq_iff other virt).mp same
    simp [leafEntry, path, index, here, same, entryAt_setEntry_same fits]
  · rw [Function.update_of_ne same, ← translates other]
    cases there : tables (tablePath other) with
    | none => simp [leafEntry, there]
    | some table =>
      have unchanged : entryAt (setEntry mem pt (ptIndex virt) value) table (ptIndex other) =
          entryAt mem table (ptIndex other) := by
        apply tree.entry_other here there (index_lt virt).2.2.2 (index_lt other).2.2.2
        intro path index
        exact same ((pageNumber_eq_iff other virt).mpr ⟨path.symm, index.symm⟩)
      simp [leafEntry, there, unchanged]

/-- Memory after a fresh frame has been cleared and linked into a slot. -/
def linkTable (mem : Memory) (table index frame : Nat) : Memory :=
  setEntry (zeroTable mem frame) table index (frame + 3)

section Link

-- A slot of the tree that holds no table yet, and a frame to put there.
variable {mem : Memory} {tables : Tables} {path : List Nat} {table index frame : Nat}

/-- Entries of the existing tables, except the slot itself, survive the linking of a fresh frame. -/
theorem Tree.entry_link (tree : Tree mem tables) (here : tables path = some table)
    (inside : index < 512) (whole : frame % 4096 = 0) (fresh : Fresh tables frame)
    {other : List Nat} {next position : Nat} (there : tables other = some next)
    (otherInside : position < 512) (differ : path = other → index ≠ position) :
    entryAt (linkTable mem table index frame) next position = entryAt mem next position := by
  -- The new table takes a fresh frame, so the table that is read is not the one written.
  have apart : frame ≠ next := by rintro rfl; exact fresh other there
  rw [linkTable, tree.entry_other here there inside otherInside differ]
  exact entryAt_fill_other (fun _ => 0) whole (tree.aligned there).1 apart otherInside 512
    (Nat.le_refl _)

/-- Every entry of the new table is clear. -/
theorem Tree.entry_new (tree : Tree mem tables) (here : tables path = some table)
    (inside : index < 512) (whole : frame % 4096 = 0) (fresh : Fresh tables frame) {position : Nat}
    (otherInside : position < 512) :
    entryAt (linkTable mem table index frame) frame position = 0 := by
  -- The link goes into the parent, which is not the frame of the new table.
  have apart : table ≠ frame := by rintro rfl; exact fresh path here
  rw [linkTable, entryAt_setEntry_other (tree.aligned here).1 whole inside otherInside
    (fun same => absurd same apart), zeroTable,
    entryAt_fill_same (fun _ => 0) whole (fun _ _ => by decide) 512 (Nat.le_refl _) _ otherInside,
    if_pos otherInside]

/-- Linking a fresh frame into an empty slot grows the tree by one table. -/
theorem Tree.link (tree : Tree mem tables) (here : tables path = some table)
    (short : path.length < 3) (inside : index < 512) (absent : tables (path ++ [index]) = none)
    (whole : frame % 4096 = 0) (positive : 0 < frame) (bound : frame < 2 ^ 64)
    (fresh : Fresh tables frame) :
    Tree (linkTable mem table index frame)
      (Function.update tables (path ++ [index]) (some frame)) := by
  -- The new path is no path of an old table, so the old tables keep their places.
  have oldPath : ∀ {other next}, tables other = some next → other ≠ path ++ [index] := by
    rintro other next there rfl
    rw [absent] at there
    cases there
  have old : ∀ {other next}, tables other = some next →
      Function.update tables (path ++ [index]) (some frame) other = some next := by
    intro other next there
    rwa [Function.update_of_ne (oldPath there)]
  constructor
  -- Each clause is the frame's own if the path is the new one, and the old tree's otherwise.
  case aligned =>
    intro other next there
    by_cases new : other = path ++ [index]
    · rw [new, Function.update_self] at there
      cases there
      exact ⟨whole, positive, bound⟩
    · rw [Function.update_of_ne new] at there
      exact tree.aligned there
  case single =>
    intro first second next one two
    by_cases newFirst : first = path ++ [index] <;> by_cases newSecond : second = path ++ [index]
    · rw [newFirst, newSecond]
    · rw [newFirst, Function.update_self] at one
      rw [Function.update_of_ne newSecond] at two
      cases one
      exact absurd two (fresh second)
    · rw [newSecond, Function.update_self] at two
      rw [Function.update_of_ne newFirst] at one
      cases two
      exact absurd one (fresh first)
    · rw [Function.update_of_ne newFirst] at one
      rw [Function.update_of_ne newSecond] at two
      exact tree.single one two
  case parent =>
    intro other position next there
    by_cases new : other ++ [position] = path ++ [index]
    · obtain ⟨rfl, rfl⟩ := path_append_inj new
      exact ⟨short, inside, table, old here⟩
    · rw [Function.update_of_ne new] at there
      obtain ⟨otherShort, otherInside, above, found⟩ := tree.parent there
      exact ⟨otherShort, otherInside, above, old found⟩
  -- The new link is read back from its slot, and the others lie elsewhere.
  case linked =>
    intro other position next below there deeper
    by_cases new : other ++ [position] = path ++ [index]
    · obtain ⟨rfl, rfl⟩ := path_append_inj new
      rw [Function.update_self] at deeper
      rw [Function.update_of_ne (path_ne_append _ _), here] at there
      cases there
      cases deeper
      exact entryAt_setEntry_same (by omega)
    · rw [Function.update_of_ne new] at deeper
      obtain ⟨_, otherInside, above, found⟩ := tree.parent deeper
      rw [old found] at there
      cases there
      rw [tree.entry_link here inside whole fresh found otherInside
        (fun same position => new (by rw [same, position]))]
      exact tree.linked found deeper
  -- A slot without a table is empty: the new table was cleared, and the other slots were not written.
  case missing =>
    intro other position next there otherShort otherInside gone
    by_cases new : other = path ++ [index]
    · rw [new, Function.update_self] at there
      cases there
      rw [tree.entry_new here inside whole fresh otherInside]
    · rw [Function.update_of_ne new] at there
      have empty : other ++ [position] ≠ path ++ [index] := by
        intro same
        rw [same, Function.update_self] at gone
        cases gone
      rw [Function.update_of_ne empty] at gone
      rw [tree.entry_link here inside whole fresh there otherInside
        (fun same position => empty (by rw [same, position]))]
      exact tree.missing there otherShort otherInside gone

/-- Linking a fresh frame changes no translation. -/
theorem Translates.link {pages : Nat → Option Nat} (tree : Tree mem tables)
    (translates : Translates mem tables pages) (here : tables path = some table)
    (short : path.length < 3) (inside : index < 512) (absent : tables (path ++ [index]) = none)
    (whole : frame % 4096 = 0) (fresh : Fresh tables frame) :
    Translates (linkTable mem table index frame)
      (Function.update tables (path ++ [index]) (some frame)) pages := by
  intro virt
  rw [← translates virt]
  by_cases new : tablePath virt = path ++ [index]
  · -- A new last-level table maps nothing, as its address range did before.
    have cleared := tree.entry_new here inside whole fresh (index_lt virt).2.2.2
    simp [leafEntry, new, absent, cleared, frameOf]
  -- Every other page keeps its last table and its entry.
  · simp only [leafEntry, Function.update_of_ne new]
    cases there : tables (tablePath virt) with
    | none => rw [Option.map_none, Option.map_none]
    | some next =>
      have unchanged : entryAt (linkTable mem table index frame) next (ptIndex virt) =
          entryAt mem next (ptIndex virt) := by
        apply tree.entry_link here inside whole fresh there (index_lt virt).2.2.2
        rintro rfl
        simp [tablePath] at short
      simp [unchanged]

end Link

end MiraOS
