import Mathlib.Logic.Relation
import MiraOS.Machine.Bytes
import MiraOS.Machine.Run
import MiraOS.Machine.Words

/-! The four-level page tables of arch/x86_64/paging.c, accessed at their physical addresses. -/

namespace MiraOS

open Machine

/-- Entry flag: the entry points to a table or a page. -/
def pagePresent : Nat := 1

/-- Entry flag: the page may be written. -/
def pageWrite : Nat := 2

/-- Entry flag: the entry maps a large page. -/
def pageSizeFlag : Nat := 128

/-- Index of an address in the top table. -/
def pml4Index (virt : Nat) : Nat := (virt >>> 39) &&& 0x1FF

/-- Index of an address in its second table. -/
def pdptIndex (virt : Nat) : Nat := (virt >>> 30) &&& 0x1FF

/-- Index of an address in its third table. -/
def pdIndex (virt : Nat) : Nat := (virt >>> 21) &&& 0x1FF

/-- Index of an address in its last table. -/
def ptIndex (virt : Nat) : Nat := (virt >>> 12) &&& 0x1FF

/-- Entry `index` of the table at `table`. -/
def entryAt (mem : Memory) (table index : Nat) : Nat := read64 mem (table + 8 * index)

/-- Store an entry of a table. -/
def setEntry (mem : Memory) (table index value : Nat) : Memory := write64 mem (table + 8 * index) value

/-- The loop that clears the 512 entries of a table. -/
def zeroTable (mem : Memory) (table : Nat) : Memory :=
  (List.range 512).foldl (fun mem i => setEntry mem table i 0) mem

/-- Physical memory, the root table and the state of the page allocator. -/
structure Paging (σ : Type) where
  mem : Memory
  pml4Root : Nat
  pmm : σ

section

-- The page allocator is a parameter: a result of zero stands for its null pointer.
variable {σ : Type} (alloc : σ → Except Halt (Nat × σ))

/-- Take a frame for a new table, identity-map it and clear it. -/
def tableAlloc (mapPage : Paging σ → Nat → Nat → Nat → Except Halt (Nat × Paging σ))
    (paging : Paging σ) : Except Halt (Nat × Paging σ) := do
  let (phys, pmm) ← alloc paging.pmm
  if phys = 0 then throw (.panic "paging oom")
  let (_, paging) ← mapPage { paging with pmm := pmm } phys phys 0
  return (phys, { paging with mem := zeroTable paging.mem phys })

/-- One level of the walk: the table below an entry, made on demand; none stands for a null return. -/
def enterTable (newTable : Paging σ → Except Halt (Nat × Paging σ)) (create : Bool)
    (paging : Paging σ) (table index : Nat) : Except Halt (Option Nat × Paging σ) :=
  if entryAt paging.mem table index &&& pagePresent = 0 then
    if create then do
      let (next, paging) ← newTable paging
      return (some next,
        { paging with mem := setEntry paging.mem table index (next ||| pagePresent ||| pageWrite) })
    else .ok (none, paging)
  else .ok (some (entryAt paging.mem table index &&& highMask 12), paging)

/-- Find the last table of an address, or zero. -/
def walk (newTable : Paging σ → Except Halt (Nat × Paging σ)) (create : Bool)
    (paging : Paging σ) (virt : Nat) : Except Halt (Nat × Paging σ) := do
  match ← enterTable newTable create paging paging.pml4Root (pml4Index virt) with
  | (none, paging) => return (0, paging)
  | (some pdpt, paging) =>
    match ← enterTable newTable create paging pdpt (pdptIndex virt) with
    | (none, paging) => return (0, paging)
    | (some pd, paging) =>
      -- Only this level refuses a large page.
      let entry := entryAt paging.mem pd (pdIndex virt)
      if entry &&& pagePresent ≠ 0 ∧ entry &&& pageSizeFlag ≠ 0 then return (0, paging)
      else
        match ← enterTable newTable create paging pd (pdIndex virt) with
        | (none, paging) => return (0, paging)
        | (some pt, paging) => return (pt, paging)

/-- Map one page; the recursion through the allocation of tables is cut off by the fuel. -/
def pagingMapPage : Nat → Paging σ → Nat → Nat → Nat → Except Halt (Nat × Paging σ)
  | 0, _, _, _, _ => .error .outOfFuel
  | fuel + 1, paging, virt, phys, flags => do
    let (pt, paging) ← walk (tableAlloc alloc (pagingMapPage fuel)) true paging virt
    if pt = 0 then throw (.panic "paging walk fail")
    let entry := (phys &&& highMask 12) ||| flags ||| pagePresent ||| pageWrite
    return (virt, { paging with mem := setEntry paging.mem pt (ptIndex virt) entry })

/-- With more fuel for its mappings, allocating a table gives the same outcome. -/
theorem tableAlloc_extends {short long : Paging σ → Nat → Nat → Nat → Except Halt (Nat × Paging σ)}
    (extends_ : ∀ paging virt phys flags,
      Extends (short paging virt phys flags) (long paging virt phys flags)) (paging : Paging σ) :
    Extends (tableAlloc alloc short paging) (tableAlloc alloc long paging) := by
  -- The answer of the allocator does not depend on the fuel, and only the mapping behind it takes some.
  unfold tableAlloc
  refine .bind (.refl _) fun (phys, pmm) => ?_
  dsimp only
  split
  · exact .refl _
  · exact .bind (extends_ _ _ _ _) fun _ => .refl _

/-- With more fuel for its tables, the walk gives the same outcome. -/
theorem walk_extends {short long : Paging σ → Except Halt (Nat × Paging σ)}
    (extends_ : ∀ paging, Extends (short paging) (long paging)) (create : Bool) (paging : Paging σ)
    (virt : Nat) : Extends (walk short create paging virt) (walk long create paging virt) := by
  -- Each level calls for a table at most once.
  have level : ∀ paging table index, Extends (enterTable short create paging table index)
      (enterTable long create paging table index) := by
    intro paging table index
    unfold enterTable
    split
    · split
      · exact .bind (extends_ paging) fun _ => .refl _
      · exact .refl _
    · exact .refl _
  unfold walk
  -- The three levels one after the other; a missing table ends the walk with what was taken so far.
  refine .bind (level _ _ _) fun (pdpt, paging) => ?_
  cases pdpt with
  | none => exact .refl _
  | some pdpt =>
    refine .bind (level _ _ _) fun (pd, paging) => ?_
    cases pd with
    | none => exact .refl _
    | some pd =>
      dsimp only
      split
      · exact .refl _
      · refine .bind (level _ _ _) fun (pt, paging) => ?_
        cases pt <;> exact .refl _

/-- With more fuel a mapping gives the same outcome. -/
theorem pagingMapPage_extends {fuel more : Nat} (le : fuel ≤ more) (paging : Paging σ)
    (virt phys flags : Nat) : Extends (pagingMapPage alloc fuel paging virt phys flags)
      (pagingMapPage alloc more paging virt phys flags) := by
  -- A mapping with one unit more comes from the recursion below, whose tables have one unit less.
  induction fuel generalizing more paging virt phys flags with
  | zero => exact .inl rfl
  | succ fuel ih =>
    obtain ⟨more, rfl⟩ : ∃ rest, more = rest + 1 := ⟨more - 1, by omega⟩
    rw [pagingMapPage, pagingMapPage]
    have tables := tableAlloc_extends alloc (fun paging => ih (show fuel ≤ more by omega) paging)
    exact .bind (walk_extends tables true paging virt) fun _ => .refl _

/-- The states that a page allocator comes to by handing out frames. -/
def Allocations : σ → σ → Prop :=
  Relation.ReflTransGen fun before after => ∃ page, alloc before = .ok (page, after)

/-- One level of the walk hands out frames only, if making a table does. -/
theorem enterTable_allocations {newTable : Paging σ → Except Halt (Nat × Paging σ)}
    (making : ∀ {paging frame made}, newTable paging = .ok (frame, made) →
      Allocations alloc paging.pmm made.pmm) {create : Bool} {paging next : Paging σ} {table index : Nat}
    {result : Option Nat} (ran : enterTable newTable create paging table index = .ok (result, next)) :
    Allocations alloc paging.pmm next.pmm := by
  -- Only a missing entry makes a table, and every other branch leaves the allocator alone.
  unfold enterTable at ran
  split at ran
  · split at ran
    · obtain ⟨⟨frame, made⟩, called, rest⟩ := bind_eq_ok.mp ran
      have handed := making called
      cases rest
      exact handed
    · cases ran
      exact .refl
  · cases ran
    exact .refl

/-- The walk hands out frames only, if making a table does. -/
theorem walk_allocations {newTable : Paging σ → Except Halt (Nat × Paging σ)}
    (making : ∀ {paging frame made}, newTable paging = .ok (frame, made) →
      Allocations alloc paging.pmm made.pmm) {create : Bool} {paging next : Paging σ} {virt pt : Nat}
    (ran : walk newTable create paging virt = .ok (pt, next)) : Allocations alloc paging.pmm next.pmm := by
  -- One level after the other, and no further where a table is missing.
  obtain ⟨⟨result, first⟩, entered, rest⟩ := bind_eq_ok.mp ran
  have top := enterTable_allocations alloc making entered
  cases result with
  | none =>
    cases rest
    exact top
  | some pdpt =>
    obtain ⟨⟨result, second⟩, entered, rest⟩ := bind_eq_ok.mp rest
    have middle := top.trans (enterTable_allocations alloc making entered)
    cases result with
    | none =>
      cases rest
      exact middle
    | some pd =>
      dsimp only at rest
      split at rest
      · cases rest
        exact middle
      · obtain ⟨⟨result, third⟩, entered, rest⟩ := bind_eq_ok.mp rest
        have low := middle.trans (enterTable_allocations alloc making entered)
        cases result with
        | none =>
          cases rest
          exact low
        | some pt =>
          cases rest
          exact low

/-- Making a table hands out its frame, and those that its own mapping takes. -/
theorem tableAlloc_allocations {mapPage : Paging σ → Nat → Nat → Nat → Except Halt (Nat × Paging σ)}
    (mapping : ∀ {virt phys flags result : Nat} {paging next : Paging σ},
      mapPage paging virt phys flags = .ok (result, next) → Allocations alloc paging.pmm next.pmm)
    {paging made : Paging σ} {frame : Nat} (making : tableAlloc alloc mapPage paging = .ok (frame, made)) :
    Allocations alloc paging.pmm made.pmm := by
  -- The frame is handed out first, and the mapping of the new table comes behind it.
  obtain ⟨⟨page, pmm⟩, allocated, rest⟩ := bind_eq_ok.mp making
  dsimp only at rest
  split at rest
  · cases rest
  obtain ⟨⟨virt, paged⟩, mapped, result⟩ := bind_eq_ok.mp rest
  have nested := mapping mapped
  cases result
  exact (Relation.ReflTransGen.single ⟨_, allocated⟩).trans nested

/-- Mapping a page does nothing else to the page allocator than that it hands out frames. -/
theorem pagingMapPage_allocations {fuel virt phys flags result : Nat} {paging next : Paging σ}
    (called : pagingMapPage alloc fuel paging virt phys flags = .ok (result, next)) :
    Allocations alloc paging.pmm next.pmm := by
  induction fuel generalizing virt phys flags result paging next with
  | zero => cases called
  | succ fuel ih =>
    rw [pagingMapPage] at called
    obtain ⟨⟨pt, last⟩, walked, rest⟩ := bind_eq_ok.mp called
    dsimp only at rest
    split at rest
    · cases rest
    have handed : Allocations alloc paging.pmm last.pmm := by
      refine walk_allocations alloc ?_ walked
      -- A new table is mapped by the same function with less fuel.
      intro paging frame made making
      exact tableAlloc_allocations alloc ih making
    cases rest
    exact handed

/-- Find the last table of an address without making any, which needs no fuel. -/
def walkExisting (paging : Paging σ) (virt : Nat) : Except Halt (Nat × Paging σ) :=
  walk (tableAlloc alloc (pagingMapPage alloc 0)) false paging virt

/-- Unmap one page. -/
def pagingUnmapPage (paging : Paging σ) (virt : Nat) : Except Halt (Paging σ) := do
  let (pt, paging) ← walkExisting alloc paging virt
  if pt = 0 then return paging
  return { paging with mem := setEntry paging.mem pt (ptIndex virt) 0 }

/-- Translate an address, giving zero when its page is not mapped. -/
def pagingVirtToPhys (paging : Paging σ) (virt : Nat) : Except Halt Nat := do
  let (pt, paging) ← walkExisting alloc paging virt
  if pt = 0 then return 0
  let entry := entryAt paging.mem pt (ptIndex virt)
  if entry &&& pagePresent = 0 then return 0
  return add64 (entry &&& highMask 12) (virt &&& 0xFFF)

end

/-- A page allocator that hands out a given list of frames, and null once it is used up. -/
def popFrame (frames : List Nat) : Except Halt (Nat × List Nat) := .ok (frames.headD 0, frames.tail)

/-- That allocator only drops answers from the front of its list. -/
theorem Allocations.suffix {before after : List Nat} (handed : Allocations popFrame before after) :
    after <:+ before := by
  -- Each answer takes one frame off the front of the list.
  induction handed with
  | refl => exact List.suffix_refl before
  | tail _ step ih =>
    obtain ⟨page, allocated⟩ := step
    cases allocated
    exact (List.tail_suffix _).trans ih

section Answers

variable {paging : Paging (List Nat)} {halt : Halt}

/-- A table takes an answer of the page allocator before it is mapped, so that its mapping has fewer of them. -/
theorem tableAlloc_answers {mapPage : Paging (List Nat) → Nat → Nat → Nat → Except Halt (Nat × Paging (List Nat))}
    (mapping : ∀ fewer : Paging (List Nat), fewer.pmm.length < paging.pmm.length →
      ∀ virt phys flags, mapPage fewer virt phys flags = .error halt → halt.IsPanic)
    (stopped : tableAlloc popFrame mapPage paging = .error halt) : halt.IsPanic := by
  -- The only stop of the allocation itself is the panic on the null answer.
  unfold tableAlloc popFrame at stopped
  rw [ok_bind] at stopped
  dsimp only at stopped
  split at stopped
  · exact ⟨_, (Except.error.inj stopped).symm⟩
  · -- An answer that is not null was in the list.
    rename_i some
    rcases bind_eq_error.mp stopped with inside | ⟨_, _, last⟩
    · refine mapping _ ?_ _ _ _ inside
      cases answers : paging.pmm with
      | nil => exact absurd (by rw [answers]; rfl) some
      | cons frame rest => simp
    · cases last

/-- One level of the walk stops only where a table is made. -/
theorem enterTable_answers {newTable : Paging (List Nat) → Except Halt (Nat × Paging (List Nat))}
    {create : Bool} {table index : Nat} (making : newTable paging = .error halt → halt.IsPanic)
    (stopped : enterTable newTable create paging table index = .error halt) : halt.IsPanic := by
  -- A branch that goes on cannot have stopped.
  unfold enterTable at stopped
  split at stopped
  · split at stopped
    · rcases bind_eq_error.mp stopped with inside | ⟨_, _, last⟩
      · exact making inside
      · cases last
    · cases stopped
  · cases stopped

/-- The walk stops only where a table is made, with no more answers than at its start. -/
theorem walk_answers {newTable : Paging (List Nat) → Except Halt (Nat × Paging (List Nat))}
    (handing : ∀ {paging frame made}, newTable paging = .ok (frame, made) →
      Allocations popFrame paging.pmm made.pmm)
    (making : ∀ fewer : Paging (List Nat), fewer.pmm.length ≤ paging.pmm.length →
      newTable fewer = .error halt → halt.IsPanic) {create : Bool} {virt : Nat}
    (stopped : walk newTable create paging virt = .error halt) : halt.IsPanic := by
  -- No level has more answers than the one above it.
  rcases bind_eq_error.mp stopped with inside | ⟨⟨pdpt, first⟩, entered, rest⟩
  · exact enterTable_answers (making _ (Nat.le_refl _)) inside
  have top := (enterTable_allocations popFrame handing entered).suffix.length_le
  cases pdpt with
  | none => cases rest
  | some pdpt =>
    rcases bind_eq_error.mp rest with inside | ⟨⟨pd, second⟩, entered, rest⟩
    · exact enterTable_answers (making _ top) inside
    have middle := (enterTable_allocations popFrame handing entered).suffix.length_le.trans top
    cases pd with
    | none => cases rest
    | some pd =>
      dsimp only at rest
      split at rest
      · cases rest
      · rcases bind_eq_error.mp rest with inside | ⟨⟨pt, third⟩, entered, rest⟩
        · exact enterTable_answers (making _ middle) inside
        cases pt with
        | none => cases rest
        | some pt => cases rest

/-- With one step more than there are answers, mapping a page runs out of frames rather than of fuel. -/
theorem pagingMapPage_answers {fuel virt phys flags : Nat} (enough : paging.pmm.length < fuel)
    (stopped : pagingMapPage popFrame fuel paging virt phys flags = .error halt) : halt.IsPanic := by
  -- Every new table takes an answer from the list, so that the fuel outlasts the recursion.
  induction fuel generalizing paging virt phys flags with
  | zero => omega
  | succ fuel ih =>
    rw [pagingMapPage] at stopped
    rcases bind_eq_error.mp stopped with inside | ⟨⟨pt, last⟩, _, rest⟩
    · refine walk_answers ?_ (fun fewer le => ?_) inside
      · intro paging frame made making
        exact tableAlloc_allocations popFrame (pagingMapPage_allocations popFrame) making
      · exact tableAlloc_answers fun least less _ _ _ => ih (show least.pmm.length < fuel by omega)
    · -- Behind the walk the only stop left is the test for a missing table, which is a panic.
      dsimp only at rest
      split at rest
      · exact ⟨_, (Except.error.inj rest).symm⟩
      · cases rest

end Answers

/-- The addresses of the static boot tables: four distinct pages of the kernel image. -/
structure BootTables where
  pml4 : Nat
  pt : Nat
  pd : Nat
  pdpt : Nat
  aligned : ∀ table ∈ [pml4, pdpt, pd, pt], table % 4096 = 0 ∧ 0 < table ∧ table < 2 ^ 64
  distinct : [pml4, pdpt, pd, pt].Nodup

/-- Identity-map the first two megabytes through the boot tables and make them the root. -/
def pagingInit {σ : Type} (boot : BootTables) (mem : Memory) (pmm : σ) : Paging σ :=
  let mem := zeroTable mem boot.pml4
  let mem := (List.range 512).foldl
    (fun mem i => setEntry mem boot.pt i (i * 4096 ||| pagePresent ||| pageWrite)) mem
  let mem := setEntry mem boot.pd 0 (boot.pt ||| pagePresent ||| pageWrite)
  let mem := setEntry mem boot.pdpt 0 (boot.pd ||| pagePresent ||| pageWrite)
  let mem := setEntry mem boot.pml4 0 (boot.pdpt ||| pagePresent ||| pageWrite)
  { mem := mem, pml4Root := boot.pml4, pmm := pmm }

/-- Base of the virtual window the kernel heap grows in. -/
def pagingHeapBase : Nat := 0x40000000

/-- The base as a number, for proofs in which it is not unfolded. -/
theorem pagingHeapBase_eq : pagingHeapBase = 0x40000000 := rfl

end MiraOS
