import MiraOS.Kernel.MemBoot
import MiraOS.Kernel.ProcessLaws
import MiraOS.Machine.Chain

/-! Who owns the pages of a stack: what is freed with a process is what was taken for it, as long as the
pages of each stack are consecutive. -/

namespace MiraOS

open Machine

/-- The kernel, the pages that each live process took when it was created, and those of other owners. -/
structure StackSystem where
  kernel : Kernel
  owners : List (Nat × List Nat)
  held : List Nat

/-- What happens to processes and pages. -/
inductive StackOp where
  | create (proc : Nat) (name : List UInt8) (entryPoint : Nat)
  | destroy (proc : Nat)
  | alloc
  | free (page : Nat)

/-- One call: the heap answers with memory of no live process, only live processes are destroyed, and the
other owners give back only what they hold. -/
inductive StackStep : StackSystem → StackOp → StackSystem → Prop where
  | created {system : StackSystem} {proc entryPoint : Nat} {name : List UInt8} {kernel : Kernel}
      {pages : List Nat} (fresh : proc ∉ system.owners.map Prod.fst) (real : proc ≠ 0)
      (ran : processCreate proc name entryPoint system.kernel = .ok (proc, kernel))
      -- The pages are the answers that the two loops of the creation got.
      (taken : allocPages stackPages system.kernel.pmm = .ok (pages, kernel.pmm)) :
      StackStep system (.create proc name entryPoint)
        ⟨kernel, (proc, pages) :: system.owners, system.held⟩
  | failed {system : StackSystem} {proc entryPoint : Nat} {name : List UInt8} {kernel : Kernel}
      (fresh : proc ∉ system.owners.map Prod.fst)
      (ran : processCreate proc name entryPoint system.kernel = .ok (0, kernel)) :
      StackStep system (.create proc name entryPoint) ⟨kernel, system.owners, system.held⟩
  | destroyed {system : StackSystem} {proc : Nat} {kernel : Kernel}
      (alive : proc ∈ system.owners.map Prod.fst)
      (ran : processDestroy proc system.kernel = .ok kernel) :
      StackStep system (.destroy proc)
        ⟨kernel, system.owners.filter fun entry => entry.1 ≠ proc, system.held⟩
  | null {system : StackSystem} {pmm : Pmm} (ran : pmmAllocPage system.kernel.pmm = .ok (0, pmm)) :
      StackStep system .alloc ⟨system.kernel.withPmm pmm, system.owners, system.held⟩
  | page {system : StackSystem} {page : Nat} {pmm : Pmm} (real : page ≠ 0)
      (ran : pmmAllocPage system.kernel.pmm = .ok (page, pmm)) :
      StackStep system .alloc ⟨system.kernel.withPmm pmm, system.owners, page :: system.held⟩
  | free {system : StackSystem} {page : Nat} {pmm : Pmm} (holds : page ∈ system.held)
      (ran : pmmFreePage system.kernel.pmm page = .ok pmm) :
      StackStep system (.free page) ⟨system.kernel.withPmm pmm, system.owners, system.held.erase page⟩

/-- The lowest free pages, as many as a stack takes or as there are, are consecutive. -/
def Consecutive (pmm : Pmm) : Prop :=
  ∃ first count, FreeRun pmm first count ∧
    (count = stackPages ∨ count < stackPages ∧ FullFrom pmm (first + count))

/-- A process is created only while the lowest free pages are consecutive. -/
def StackFits (system : StackSystem) : StackOp → Prop
  | .create _ _ _ => Consecutive system.kernel.pmm
  | _ => True

/-- Every live process has the pages it took for its stack, the stacks are apart, and destroying a process
frees exactly the pages that were taken for it and that nobody else holds. -/
structure OwnsStacks (system : StackSystem) : Prop where
  taken : ∀ entry ∈ system.owners, ∀ i, i < stackPages →
    (system.kernel.procs entry.1).stackBottom + i * pageSize ∈ entry.2
  size : ∀ entry ∈ system.owners, (system.kernel.procs entry.1).stackTop =
    (system.kernel.procs entry.1).stackBottom + stackPages * pageSize
  apart : ∀ one ∈ system.owners, ∀ two ∈ system.owners, one.1 ≠ two.1 →
    (system.kernel.procs one.1).stackTop ≤ (system.kernel.procs two.1).stackBottom ∨
      (system.kernel.procs two.1).stackTop ≤ (system.kernel.procs one.1).stackBottom
  inUse : ∀ entry ∈ system.owners, ∀ page ∈ entry.2,
    system.kernel.pmm.pageBitmap.test (page / pageSize) = true
  freed : ∀ entry ∈ system.owners, ∃ last, processDestroy entry.1 system.kernel = .ok last ∧
    ∀ frame, last.pmm.pageBitmap.test frame =
      (decide (frame * pageSize ∉ entry.2) && system.kernel.pmm.pageBitmap.test frame)
  alone : ∀ entry ∈ system.owners, ∀ page ∈ entry.2,
    page ∉ system.held ∧ ∀ other ∈ system.owners, other.1 ≠ entry.1 → page ∉ other.2

/-- The stack of a process is a run of pages that it took. -/
structure StackAt (kernel : Kernel) (entry : Nat × List Nat) (first : Nat) : Prop where
  positive : 0 < first
  within : first + stackPages ≤ maxPhysPages
  bottom : (kernel.procs entry.1).stackBottom = first * pageSize
  top : (kernel.procs entry.1).stackTop = first * pageSize + processStackSize
  pages : entry.2 = stride (first * pageSize) pageSize stackPages

/-- All pages of a system that have an owner. -/
def StackSystem.owned (system : StackSystem) : List Nat :=
  system.owners.flatMap Prod.snd ++ system.held

/-- Every stack is a run of pages, and no page has two owners. -/
structure StacksHold (system : StackSystem) : Prop where
  names : (system.owners.map Prod.fst).Nodup
  solid : 0 ∉ system.owners.map Prod.fst
  runs : ∀ entry ∈ system.owners, ∃ first, StackAt system.kernel entry first
  owned : HeldInUse ⟨system.kernel.pmm, system.owned⟩

section

variable {pmm after : Pmm} {first count more : Nat} {held : List Nat}

/-- The pages of a run, by their numbers. -/
theorem mem_run {page : Nat} : page ∈ stride (first * pageSize) pageSize count ↔
    ∃ frame, first ≤ frame ∧ frame < first + count ∧ page = frame * pageSize := by
  -- The index of a page in the run is its distance from the first one.
  rw [mem_stride]
  constructor
  · intro found
    obtain ⟨i, small, rfl⟩ := found
    exact ⟨first + i, by omega, by omega, by rw [Nat.add_mul]⟩
  · intro found
    obtain ⟨frame, low, high, rfl⟩ := found
    refine ⟨frame - first, by omega, ?_⟩
    rw [← Nat.add_mul]
    congr 1
    omega

/-- The answers on a run of free pages are its pages, in order. -/
theorem allocPages_run (run : FreeRun pmm first (count + more)) :
    allocPages count pmm = .ok (stride (first * pageSize) pageSize count, pmm.takeRun first count) := by
  -- Each answer is the first page of what is left of the run.
  induction count generalizing pmm first with
  | zero => rfl
  | succ count ih =>
    have run : FreeRun pmm first (count + more + 1) := by
      have same : count + 1 + more = count + more + 1 := by omega
      rwa [same] at run
    obtain ⟨taken, rest⟩ := pmmAllocPage_run run
    have pages : stride (first * pageSize) pageSize (count + 1) =
        first * pageSize :: stride ((first + 1) * pageSize) pageSize count := by
      rw [stride_succ, Nat.add_mul, Nat.one_mul]
    rw [pages]
    exact bind_eq_ok.mpr ⟨_, taken, bind_eq_ok.mpr ⟨_, ih rest, rfl⟩⟩

/-- A run of free pages that is taken is owned by nobody else. -/
theorem HeldInUse.takeRun (inUse : HeldInUse ⟨pmm, held⟩) (run : FreeRun pmm first (count + more))
    (some : 0 < count) :
    HeldInUse ⟨pmm.takeRun first count, stride (first * pageSize) pageSize count ++ held⟩ := by
  -- The pages of the run were clear before, and owned pages are in use.
  have top := run.managed (by omega)
  have bitmap := run.bitmap
  constructor
  · refine List.nodup_append.mpr ⟨stride_nodup (by decide) count, inUse.distinct, ?_⟩
    intro page taken other old same
    obtain ⟨frame, low, high, name⟩ := mem_run.mp taken
    have clear := run.clear frame low (by omega)
    exact inUse.not_held clear (by rw [← name, same]; exact old)
  · intro page among
    rcases List.mem_append.mp among with new | old
    · obtain ⟨frame, low, high, name⟩ := mem_run.mp new
      refine ⟨frame, name, by omega, ?_⟩
      simp [takeRun_test, low, high]
    · obtain ⟨frame, name, within, used⟩ := inUse.inUse page old
      refine ⟨frame, name, within, ?_⟩
      rw [takeRun_test, used, Bool.or_true]

/-- A run of owned pages that is given back leaves the others owned. -/
theorem HeldInUse.giveBackRun
    (inUse : HeldInUse ⟨pmm, stride (first * pageSize) pageSize count ++ held⟩) :
    HeldInUse ⟨pmm.giveBackRun first count, held⟩ := by
  -- No owned page is in the run, so its flag stays.
  obtain ⟨-, distinct, apart⟩ := List.nodup_append.mp inUse.distinct
  refine ⟨distinct, fun page among => ?_⟩
  obtain ⟨frame, name, within, used⟩ := inUse.inUse page (List.mem_append_right _ among)
  refine ⟨frame, name, within, ?_⟩
  have outside : ¬ (first ≤ frame ∧ frame < first + count) := fun inside =>
    apart page (mem_run.mpr ⟨frame, inside.1, inside.2, name⟩) page among rfl
  rw [giveBackRun_test, decide_eq_false outside, used]
  rfl

/-- What is owned depends on the flags only. -/
theorem HeldInUse.flags (inUse : HeldInUse ⟨pmm, held⟩)
    (same : ∀ frame, after.pageBitmap.test frame = pmm.pageBitmap.test frame) :
    HeldInUse ⟨after, held⟩ := by
  -- The pages and their numbers are the same, and so are the flags.
  refine ⟨inUse.distinct, fun page among => ?_⟩
  obtain ⟨frame, name, within, used⟩ := inUse.inUse page among
  exact ⟨frame, name, within, (same frame).trans used⟩

/-- What is owned does not depend on the order of the list. -/
theorem HeldInUse.perm {other : List Nat} (inUse : HeldInUse ⟨pmm, held⟩) (same : List.Perm held other) :
    HeldInUse ⟨pmm, other⟩ :=
  ⟨same.nodup_iff.mp inUse.distinct, fun page among => inUse.inUse page (same.mem_iff.mpr among)⟩

/-- The stack that is built from consecutive pages is a run of them. -/
theorem Consecutive.built (fits : Consecutive pmm) {stackBase : Nat}
    (built : BuiltStack pmm stackBase after) :
    ∃ first, FreeRun pmm first stackPages ∧ stackBase = first * pageSize ∧
      after = pmm.takeRun first stackPages := by
  obtain ⟨first, count, run, kind⟩ := fits
  obtain ⟨middle, taken, base, looped⟩ := built
  rcases kind with rfl | ⟨short, full⟩
  · -- Enough pages: both descriptions of the stack are of the same calls.
    obtain ⟨other, takenToo, -, loopedToo⟩ := @builtStack_run pmm first 0 run
    rw [taken] at takenToo
    cases takenToo
    rw [looped] at loopedToo
    cases loopedToo
    exact ⟨first, run, rfl, rfl⟩
  · -- Too few pages: the first request or a later one finds none.
    cases count with
    | zero =>
      rw [pmmAllocPage_full run full] at taken
      cases taken
      exact absurd rfl base
    | succ count =>
      obtain ⟨takenToo, rest⟩ := pmmAllocPage_run run
      rw [taken] at takenToo
      cases takenToo
      have others : FullFrom (pmm.take first) (first + 1 + count) := by
        rw [Nat.add_right_comm]
        exact full.take first
      rw [stackLoop_short rest others (by omega)] at looped
      cases freed : freeStackPages (first * pageSize) (1 + count) 0
          ((pmm.take first).takeRun (first + 1) count) with
      | error halt => rw [freed] at looped; cases looped
      | ok last => rw [freed] at looped; cases looped

/-- A stack that could not be built from consecutive pages leaves every flag as it was. -/
theorem Consecutive.failed (fits : Consecutive pmm) (failed : FailedStack pmm after) (page : Nat) :
    after.pageBitmap.test page = pmm.pageBitmap.test page := by
  obtain ⟨first, count, run, kind⟩ := fits
  cases count with
  | zero =>
    -- Without a free page the first request fails, and nothing was taken.
    have full : FullFrom pmm first := by
      rcases kind with none | ⟨-, full⟩
      · exact absurd none (by decide)
      · exact full
    rcases failed with taken | ⟨stackBase, middle, taken, base, -⟩
    · rw [pmmAllocPage_full run full] at taken
      cases taken
      rfl
    · rw [pmmAllocPage_full run full] at taken
      cases taken
      exact absurd rfl base
  | succ count =>
    obtain ⟨taken, rest⟩ := pmmAllocPage_run run
    rcases failed with takenToo | ⟨stackBase, middle, takenToo, -, looped⟩
    · rw [taken] at takenToo
      have null : first * pageSize = 0 := congrArg Prod.fst (Except.ok.inj takenToo)
      exact absurd null run.address_ne_zero
    rw [taken] at takenToo
    cases takenToo
    rcases kind with enough | ⟨short, full⟩
    · -- With enough pages the loop does not fail.
      have length : stackPages - 1 = count := by omega
      rw [length, @stackLoop_complete _ _ count _ _ 0 rest] at looped
      cases looped
    · -- The pages taken are given back one by one, from the first on.
      have others : FullFrom (pmm.take first) (first + 1 + count) := by
        rw [Nat.add_right_comm]
        exact full.take first
      have top := run.managed (Nat.succ_pos count)
      have bitmap := run.bitmap
      have all : (pmm.take first).takeRun (first + 1) count = pmm.takeRun first (1 + count) := by
        rw [Nat.add_comm 1 count]
        rfl
      have freed := @freeStackPages_run (pmm.takeRun first (1 + count)) first (1 + count) 0 (by omega)
        fun page low high => by
          have taken : first ≤ page ∧ page < first + (1 + count) := by omega
          rw [takeRun_test, decide_eq_true taken, Bool.true_or]
      rw [stackLoop_short rest others (by omega), all, freed] at looped
      cases looped
      rw [Nat.add_comm count 1] at run
      exact @FreeRun.takenBack_test _ _ (1 + count) 0 run page

end

section

variable {system next : StackSystem} {entry : Nat × List Nat} {kernel : Kernel} {first : Nat}

/-- A stack whose pages are in use can be given back. -/
theorem StackAt.freeStack (place : StackAt kernel entry first)
    (used : ∀ page ∈ entry.2, ∃ frame, page = frame * pageSize ∧ frame < maxPhysPages ∧
      kernel.pmm.pageBitmap.test frame = true) :
    freeStack (kernel.procs entry.1).stackBottom kernel.pmm =
      .ok (kernel.pmm.giveBackRun first stackPages) := by
  have null : first * pageSize ≠ 0 := Nat.mul_ne_zero (Nat.ne_of_gt place.positive) (by decide)
  rw [place.bottom, MiraOS.freeStack, if_neg null]
  refine freeStackPages_run place.within fun page low high => ?_
  -- The page is one of the stack, so its own flag is set.
  have among : page * pageSize ∈ entry.2 := by
    rw [place.pages]
    exact mem_run.mpr ⟨page, low, high, rfl⟩
  obtain ⟨frame, same, -, set⟩ := used _ among
  obtain rfl : page = frame := Nat.eq_of_mul_eq_mul_right (by decide) same
  exact set

/-- The place of a stack depends on the two ends in the process only. -/
theorem StackAt.of_ends {last : Kernel} (place : StackAt kernel entry first)
    (bottom : (last.procs entry.1).stackBottom = (kernel.procs entry.1).stackBottom)
    (top : (last.procs entry.1).stackTop = (kernel.procs entry.1).stackTop) :
    StackAt last entry first :=
  ⟨place.positive, place.within, bottom.trans place.bottom, top.trans place.top, place.pages⟩

/-- Pages that are owned are in use. -/
theorem StacksHold.used (holds : StacksHold system) (among : entry ∈ system.owners) :
    ∀ page ∈ entry.2, ∃ frame, page = frame * pageSize ∧ frame < maxPhysPages ∧
      system.kernel.pmm.pageBitmap.test frame = true := by
  -- The pages of a stack are among all that are owned.
  intro page inside
  apply holds.owned.inUse
  exact List.mem_append_left _ (List.mem_flatMap.mpr ⟨entry, among, inside⟩)

/-- Creating a process on consecutive pages gives it a run of them. -/
theorem StacksHold.created {proc entryPoint : Nat} {name : List UInt8} {pages : List Nat}
    (holds : StacksHold system) (fits : Consecutive system.kernel.pmm)
    (fresh : proc ∉ system.owners.map Prod.fst) (real : proc ≠ 0)
    (ran : processCreate proc name entryPoint system.kernel = .ok (proc, kernel))
    (taken : allocPages stackPages system.kernel.pmm = .ok (pages, kernel.pmm)) :
    StacksHold ⟨kernel, (proc, pages) :: system.owners, system.held⟩ := by
  have positive : 0 < stackPages := by decide
  -- Only the last of the three outcomes answers with the process itself.
  rcases processCreate_cases ran with ⟨null, -, -⟩ | ⟨-, null, -⟩ | ⟨-, -, stackBase, pmm, built, rfl⟩
  · exact absurd null real
  · exact absurd null real
  obtain ⟨first, run, rfl, same⟩ := fits.built built
  have only := @onlyLinks_linkProcess (system.kernel.withProcess proc
    (newProcess system.kernel.nextPid name entryPoint (first * pageSize)) pmm) proc
  have written := withProcess_self system.kernel proc
    (newProcess system.kernel.nextPid name entryPoint (first * pageSize)) pmm
  generalize linkProcess proc (system.kernel.withProcess proc _ pmm) = last at only taken
  have after : last.pmm = system.kernel.pmm.takeRun first stackPages := only.pmm.trans same
  have answers : pages = stride (first * pageSize) pageSize stackPages := by
    rw [@allocPages_run _ _ stackPages 0 run] at taken
    exact (congrArg Prod.fst (Except.ok.inj taken)).symm
  have top := run.managed positive
  have bitmap := run.bitmap
  refine ⟨List.nodup_cons.mpr ⟨fresh, holds.names⟩, ?_, fun entry among => ?_, ?_⟩
  · intro null
    rcases List.mem_cons.mp null with same | old
    · exact real same.symm
    · exact holds.solid old
  · rcases List.mem_cons.mp among with rfl | old
    · -- The new process got the run.
      refine ⟨first, ?_, by omega, ?_, ?_, answers⟩
      · have above := run.above
        have start := run.positive
        omega
      · exact (only.stackBottom proc).trans (congrArg Process.stackBottom written)
      · refine ((only.stackTop proc).trans (congrArg Process.stackTop written)).trans ?_
        apply add64_of_lt
        simp only [maxPhysPages, stackPages, processStackSize, pageSize] at *
        omega
    · -- The others keep their ends.
      obtain ⟨start, place⟩ := holds.runs entry old
      have apart : entry.1 ≠ proc := fun same =>
        fresh (same ▸ List.mem_map.mpr ⟨entry, old, rfl⟩)
      have kept := @withProcess_of_ne system.kernel proc entry.1
        (newProcess system.kernel.nextPid name entryPoint (first * pageSize)) pmm apart
      refine ⟨start, place.of_ends ?_ ?_⟩
      · exact (only.stackBottom entry.1).trans (congrArg Process.stackBottom kept)
      · exact (only.stackTop entry.1).trans (congrArg Process.stackTop kept)
  · have grown := @HeldInUse.takeRun _ _ stackPages 0 _ holds.owned run positive
    rw [StackSystem.owned, List.flatMap_cons, List.append_assoc, after, answers]
    exact grown

/-- A failed creation leaves the owners as they were. -/
theorem StacksHold.failed {proc entryPoint : Nat} {name : List UInt8} (holds : StacksHold system)
    (fits : Consecutive system.kernel.pmm) (fresh : proc ∉ system.owners.map Prod.fst)
    (ran : processCreate proc name entryPoint system.kernel = .ok (0, kernel)) :
    StacksHold ⟨kernel, system.owners, system.held⟩ := by
  rcases processCreate_cases ran with ⟨-, -, rfl⟩ | ⟨-, -, process, pmm, failed, rfl⟩ | ⟨real, null, -⟩
  · exact holds
  · -- The memory of the process that failed is that of no live one, and all pages are back.
    refine ⟨holds.names, holds.solid, fun entry among => ?_, holds.owned.flags (fits.failed failed)⟩
    obtain ⟨first, place⟩ := holds.runs entry among
    have apart : entry.1 ≠ proc := fun same => fresh (same ▸ List.mem_map.mpr ⟨entry, among, rfl⟩)
    have kept := @withProcess_of_ne system.kernel proc entry.1 process pmm apart
    exact ⟨first, place.of_ends (congrArg Process.stackBottom kept) (congrArg Process.stackTop kept)⟩
  · exact absurd null.symm real

/-- The owners apart from one of them. -/
theorem owners_perm {owners : List (Nat × List Nat)} (names : (owners.map Prod.fst).Nodup)
    (among : entry ∈ owners) :
    List.Perm owners (entry :: owners.filter fun other => other.1 ≠ entry.1) := by
  -- The names differ, so the entry occurs once and the filter drops nothing else.
  obtain ⟨before, after, rfl⟩ := List.append_of_mem among
  rw [filter_others names]
  exact List.perm_middle

/-- Destroying a process gives back its run of pages. -/
theorem StacksHold.destroyed {proc : Nat} (holds : StacksHold system)
    (alive : proc ∈ system.owners.map Prod.fst)
    (ran : processDestroy proc system.kernel = .ok kernel) :
    StacksHold ⟨kernel, system.owners.filter fun entry => entry.1 ≠ proc, system.held⟩ := by
  -- The stack that is given back is the run that the process took.
  obtain ⟨entry, among, rfl⟩ := List.mem_map.mp alive
  have real : entry.1 ≠ 0 := fun null => holds.solid (null ▸ alive)
  obtain ⟨first, place⟩ := holds.runs entry among
  obtain ⟨pmm, freed, rfl⟩ := processDestroy_cases real ran
  rw [place.freeStack (holds.used among)] at freed
  cases freed
  have only := @onlyLinks_unlinkProcess
    (system.kernel.withPmm (system.kernel.pmm.giveBackRun first stackPages)) entry.1
  refine ⟨?_, ?_, fun other inside => ?_, ?_⟩
  · exact holds.names.sublist (List.filter_sublist.map Prod.fst)
  · intro null
    exact holds.solid ((List.filter_sublist.map Prod.fst).subset null)
  · obtain ⟨start, placed⟩ := holds.runs other (List.mem_filter.mp inside).1
    exact ⟨start, placed.of_ends (only.stackBottom other.1) (only.stackTop other.1)⟩
  · -- The pages of the process come first in some order of all that are owned.
    have order : List.Perm system.owned (stride (first * pageSize) pageSize stackPages ++
        ((system.owners.filter fun other => other.1 ≠ entry.1).flatMap Prod.snd ++ system.held)) := by
      rw [← place.pages, ← List.append_assoc]
      exact (((owners_perm holds.names among).flatMap_right Prod.snd).append_right system.held)
    have rest := (holds.owned.perm order).giveBackRun
    rw [destroyed_pmm]
    exact rest

/-- What the other owners do leaves the stacks where they are. -/
theorem StacksHold.withHeld {pmm : Pmm} {held : List Nat} (holds : StacksHold system)
    (owned : HeldInUse ⟨pmm, system.owners.flatMap Prod.snd ++ held⟩) :
    StacksHold ⟨system.kernel.withPmm pmm, system.owners, held⟩ := by
  -- The processes do not change, so their stacks stay at the same places.
  refine ⟨holds.names, holds.solid, fun entry among => ?_, owned⟩
  obtain ⟨first, place⟩ := holds.runs entry among
  exact ⟨first, place.of_ends rfl rfl⟩

/-- One call keeps every stack a run of pages of its own. -/
theorem StacksHold.step {op : StackOp} (holds : StacksHold system) (fits : StackFits system op)
    (step : StackStep system op next) : StacksHold next := by
  -- Every call either moves pages between owners or leaves them where they are.
  cases step with
  | created fresh real ran taken => exact holds.created fits fresh real ran taken
  | failed fresh ran => exact holds.failed fits fresh ran
  | destroyed alive ran => exact holds.destroyed alive ran
  | null ran =>
    apply holds.withHeld
    rcases pmmAllocPage_ok ran with ⟨-, rfl⟩ | ⟨frame, within, clear, -, rfl⟩
    · exact holds.owned
    · -- The page at address zero is taken and handed to nobody.
      have grown := holds.owned.take within clear
      exact ⟨holds.owned.distinct, fun page among => grown.inUse page (List.mem_cons_of_mem _ among)⟩
  | page real ran =>
    apply holds.withHeld
    rcases pmmAllocPage_ok ran with ⟨null, -⟩ | ⟨frame, within, clear, rfl, rfl⟩
    · exact absurd null real
    · exact (holds.owned.take within clear).perm List.perm_middle.symm
  | @free page pmm held ran =>
    apply holds.withHeld
    obtain ⟨frame, rfl, within, used⟩ := holds.owned.inUse page (List.mem_append_right _ held)
    rw [pmmFreePage_used within used] at ran
    cases ran
    -- The page is in the list of the other owners only.
    obtain ⟨-, -, apart⟩ := List.nodup_append.mp holds.owned.distinct
    have others : frame * pageSize ∉ system.owners.flatMap Prod.snd := fun among =>
      apart _ among _ held rfl
    have rest := holds.owned.giveBack frame
    rw [StackSystem.owned, List.erase_append_right _ others] at rest
    exact rest

/-- Runs of pages with one owner each are what the processes were promised. -/
theorem StacksHold.ownsStacks (holds : StacksHold system) : OwnsStacks system := by
  have size : processStackSize = stackPages * pageSize := by decide
  obtain ⟨stacked, -, apart⟩ := List.nodup_append.mp holds.owned.distinct
  -- No page is owned twice, so the pages of two processes are apart.
  have disjoint : ∀ one ∈ system.owners, ∀ two ∈ system.owners, one.1 ≠ two.1 →
      List.Disjoint one.2 two.2 := by
    intro one first two second differ
    have symm : Std.Symm (Function.onFun List.Disjoint (Prod.snd : Nat × List Nat → List Nat)) :=
      ⟨fun _ _ apart => apart.symm⟩
    exact (List.nodup_flatMap.mp stacked).2.forall first second fun same => differ (same ▸ rfl)
  refine ⟨fun entry among i small => ?_, fun entry among => ?_, ?_, ?_, fun entry among => ?_, ?_⟩
  · obtain ⟨first, place⟩ := holds.runs entry among
    rw [place.bottom, place.pages]
    exact mem_stride.mpr ⟨i, small, rfl⟩
  · obtain ⟨first, place⟩ := holds.runs entry among
    rw [place.bottom, place.top, size]
  · intro one first two second differ
    obtain ⟨low, place⟩ := holds.runs one first
    obtain ⟨high, placed⟩ := holds.runs two second
    have separate := disjoint one first two second differ
    rw [place.pages, placed.pages] at separate
    rw [place.top, place.bottom, placed.top, placed.bottom, size, ← Nat.add_mul, ← Nat.add_mul]
    -- If the ranges met, the first page of the later stack would be in both.
    have ranges : low + stackPages ≤ high ∨ high + stackPages ≤ low := by
      have positive : 0 < stackPages := by decide
      by_contra meet
      have one : max low high * pageSize ∈ stride (low * pageSize) pageSize stackPages :=
        mem_run.mpr ⟨max low high, by omega, by omega, rfl⟩
      have two : max low high * pageSize ∈ stride (high * pageSize) pageSize stackPages :=
        mem_run.mpr ⟨max low high, by omega, by omega, rfl⟩
      exact separate one two
    rcases ranges with below | above
    · exact .inl (Nat.mul_le_mul_right _ below)
    · exact .inr (Nat.mul_le_mul_right _ above)
  · intro entry among page inside
    obtain ⟨frame, rfl, -, used⟩ := holds.used among page inside
    rwa [Nat.mul_div_cancel _ (by decide)]
  · obtain ⟨first, place⟩ := holds.runs entry among
    have real : entry.1 ≠ 0 := fun null =>
      holds.solid (null ▸ List.mem_map.mpr ⟨entry, among, rfl⟩)
    refine ⟨_, processDestroy_freed real (place.freeStack (holds.used among)), fun frame => ?_⟩
    -- The flags that are cleared are those of the run, which are the pages that were taken.
    rw [destroyed_pmm, giveBackRun_test, place.pages, ← decide_not]
    congr 1
    apply decide_eq_decide.mpr
    apply not_congr
    rw [mem_run]
    constructor
    · intro inside
      exact ⟨frame, inside.1, inside.2, rfl⟩
    · intro found
      obtain ⟨other, low, high, equal⟩ := found
      obtain rfl : frame = other := Nat.eq_of_mul_eq_mul_right (by decide) equal
      exact ⟨low, high⟩
  · intro entry among page inside
    constructor
    · intro held
      exact apart page (List.mem_flatMap.mpr ⟨entry, among, inside⟩) page held rfl
    · intro other found differ both
      exact disjoint other found entry among differ both inside

end

/-- A loop that got all pages got that many answers. -/
theorem allocPages_of_loop {stackBottom count i : Nat} {pmm after : Pmm}
    (looped : stackLoop stackBottom count i pmm = .ok (true, after)) :
    ∃ pages, allocPages count pmm = .ok (pages, after) := by
  -- The loop asks for the pages one by one, as the count of answers does.
  induction count generalizing i pmm with
  | zero =>
    cases looped
    exact ⟨[], rfl⟩
  | succ count ih =>
    obtain ⟨⟨page, middle⟩, taken, looped⟩ := bind_eq_ok.mp looped
    by_cases null : page = 0
    · -- A request that fails ends the loop without a stack.
      replace looped := (if_pos null).symm.trans looped
      obtain ⟨freed, -, ended⟩ := bind_eq_ok.mp looped
      cases ended
    · obtain ⟨pages, rest⟩ := ih ((if_neg null).symm.trans looped)
      exact ⟨page :: pages, bind_eq_ok.mpr ⟨_, taken, bind_eq_ok.mpr ⟨_, rest, rfl⟩⟩⟩

/-- Whatever pages a creation gets, it is a step that gives them to the process. -/
theorem stackStep_of_create {system : StackSystem} {proc entryPoint : Nat} {name : List UInt8}
    {kernel : Kernel} (fresh : proc ∉ system.owners.map Prod.fst) (real : proc ≠ 0)
    (ran : processCreate proc name entryPoint system.kernel = .ok (proc, kernel)) :
    ∃ pages, allocPages stackPages system.kernel.pmm = .ok (pages, kernel.pmm) ∧
      StackStep system (.create proc name entryPoint)
        ⟨kernel, (proc, pages) :: system.owners, system.held⟩ := by
  -- The first page is asked for before the loop, and its answer comes first.
  rcases processCreate_cases ran with ⟨null, -, -⟩ | ⟨-, null, -⟩ | ⟨-, -, stackBase, pmm, built, last⟩
  · exact absurd null real
  · exact absurd null real
  obtain ⟨middle, first, -, looped⟩ := built
  obtain ⟨pages, rest⟩ := allocPages_of_loop looped
  have length : stackPages = stackPages - 1 + 1 := by decide
  have taken : allocPages stackPages system.kernel.pmm = .ok (stackBase :: pages, pmm) := by
    rw [length]
    exact bind_eq_ok.mpr ⟨_, first, bind_eq_ok.mpr ⟨_, rest, rfl⟩⟩
  have same : kernel.pmm = pmm := by
    rw [last]
    exact (@onlyLinks_linkProcess (system.kernel.withProcess proc
      (newProcess system.kernel.nextPid name entryPoint stackBase) pmm) proc).pmm
  rw [← same] at taken
  exact ⟨_, taken, .created fresh real ran taken⟩

/--
Every live process owns the pages of its stack, over every run of processes and other page owners.

Each creation happens while the lowest free pages are consecutive, as many as a stack takes.
Where fewer are left the creation fails, and those that are left are consecutive.
-/
theorem stacks_owned {boot : Kernel} {held : List Nat} {ops : List StackOp} {last : StackSystem}
    (inUse : HeldInUse ⟨boot.pmm, held⟩)
    (run : Run (fun system op next => StackFits system op ∧ StackStep system op next)
      ⟨processInit boot, [], held⟩ ops last) : OwnsStacks last := by
  -- Before the first process only the other owners hold pages.
  have start : StacksHold ⟨processInit boot, [], held⟩ :=
    ⟨List.nodup_nil, List.not_mem_nil, fun _ among => absurd among List.not_mem_nil, inUse⟩
  have kept := run.preserves StacksHold (fun holds step => holds.step step.1 step.2) start
  exact kept.ownsStacks

/-- A process created on the spacious allocator owns its stack. -/
theorem spacious_stack_owned : ∃ last : StackSystem, last.owners.map Prod.fst = [16] ∧
    OwnsStacks last := by
  -- The free pages are a run long enough for the stack.
  have run : FreeRun (processInit (bootKernel spaciousPmm)).pmm 256 (stackPages + 512) := spaciousPmm_run
  obtain ⟨kernel, ran, -⟩ := @created_run _ 16 256 512 [0x61] 0 (by decide) (by decide) run
  obtain ⟨pages, -, step⟩ := @stackStep_of_create ⟨processInit (bootKernel spaciousPmm), [], []⟩ 16 0
    [0x61] kernel List.not_mem_nil (by decide) ran
  have fits : StackFits ⟨processInit (bootKernel spaciousPmm), [], []⟩ (.create 16 [0x61] 0) :=
    ⟨256, stackPages, @FreeRun.shorten _ _ stackPages 512 spaciousPmm_run, .inl rfl⟩
  have empty : HeldInUse ⟨(bootKernel spaciousPmm).pmm, []⟩ := ⟨List.nodup_nil, by simp⟩
  exact ⟨_, rfl, stacks_owned empty (.cons ⟨fits, step⟩ (.nil _))⟩

/-- The spacious allocator after another owner took two pages and gave the first one back. -/
def gappedPmm : Pmm := ((spaciousPmm.take 256).take 257).giveBack 256

/-- One page is in use, right after the first free one. -/
theorem gappedPmm_test (page : Nat) : gappedPmm.pageBitmap.test page = decide (page = 257) := by
  have clear : spaciousPmm.pageBitmap.test page = false := by simp [spaciousPmm, Bitmap.test]
  -- Two pages were taken, and the first of them was given back.
  rw [gappedPmm, giveBack_test, take_test, take_test, clear]
  by_cases first : page = 256
  · simp [first]
  · simp [first]

/-- The stack that is built there leaves out the page in use. -/
theorem gappedPmm_stack : allocPages stackPages gappedPmm =
      .ok (256 * pageSize :: stride (258 * pageSize) pageSize 255, (gappedPmm.take 256).takeRun 258 255) ∧
    BuiltStack gappedPmm (256 * pageSize) ((gappedPmm.take 256).takeRun 258 255) := by
  -- The scan takes the first page, skips the one in use and goes on behind it.
  have bounds : gappedPmm.memStart / pageSize = 256 ∧ gappedPmm.memEnd / pageSize = 1024 := by decide
  have run : FreeRun gappedPmm 256 (0 + 1) := by
    refine ⟨by decide, by decide, fun _ => by decide, by decide, fun page _ _ => by omega, ?_⟩
    intro page low high
    rw [gappedPmm_test]
    exact decide_eq_false (by omega)
  have rest : FreeRun (gappedPmm.take 256) 258 (255 + 0) := by
    refine ⟨by decide, by decide, fun _ => by decide, by decide, fun page low high => ?_, ?_⟩
    · have start : 256 ≤ page := bounds.1 ▸ low
      rw [take_test, gappedPmm_test]
      have cases : page = 256 ∨ page = 257 := by omega
      simpa using cases
    · intro page low high
      rw [take_test, gappedPmm_test, decide_eq_false (by omega), decide_eq_false (by omega)]
      rfl
  have taken := (pmmAllocPage_run run).1
  constructor
  · exact bind_eq_ok.mpr ⟨_, taken, bind_eq_ok.mpr ⟨_, allocPages_run rest, rfl⟩⟩
  · exact ⟨_, taken, run.address_ne_zero, stackLoop_complete rest⟩

/-- A stack that is built around a page in use includes that page. -/
theorem gapped_stack_not_owned : ¬ ∀ (boot : Kernel) (held : List Nat) (ops : List StackOp)
    (last : StackSystem), HeldInUse ⟨boot.pmm, held⟩ →
    Run StackStep ⟨processInit boot, [], held⟩ ops last → OwnsStacks last := by
  intro claim
  -- Another owner takes two pages and gives the first one back.
  have first := (pmmAllocPage_run spaciousPmm_run).1
  have second := (pmmAllocPage_run (pmmAllocPage_run spaciousPmm_run).2).1
  have back : pmmFreePage ((spaciousPmm.take 256).take 257) (256 * pageSize) = .ok gappedPmm :=
    pmmFreePage_used (by decide) (by simp)
  obtain ⟨taken, built⟩ := gappedPmm_stack
  generalize (gappedPmm.take 256).takeRun 258 255 = after at taken built
  let boot := processInit (bootKernel spaciousPmm)
  have ran := @processCreate_built (boot.withPmm gappedPmm) 16 0 [0x61] _ after (by decide) (by decide)
    built
  obtain ⟨pages, answers, step⟩ := @stackStep_of_create
    ⟨boot.withPmm gappedPmm, [], [257 * pageSize]⟩ 16 0 [0x61] _ List.not_mem_nil (by decide) ran
  have empty : HeldInUse ⟨(bootKernel spaciousPmm).pmm, []⟩ := ⟨List.nodup_nil, by simp⟩
  have owns := claim (bootKernel spaciousPmm) [] _ _ empty
    (.cons (.page (by decide) first) (.cons (.page (by decide) second)
      (.cons (.free (by decide) back) (.cons step (.nil _)))))
  -- The second page of the stack is not among the pages taken.
  have among := owns.taken _ (List.mem_singleton.mpr rfl) 1 (by decide)
  have bottom := (@onlyLinks_linkProcess ((boot.withPmm gappedPmm).withProcess 16
    (newProcess 1 [0x61] 0 (256 * pageSize)) after) 16).stackBottom 16
  have written := withProcess_self (boot.withPmm gappedPmm) 16
    (newProcess 1 [0x61] 0 (256 * pageSize)) after
  obtain rfl : pages = 256 * pageSize :: stride (258 * pageSize) pageSize 255 := by
    rw [show (boot.withPmm gappedPmm).pmm = gappedPmm from rfl, taken] at answers
    exact (congrArg Prod.fst (Except.ok.inj answers)).symm
  replace among := (bottom.trans (congrArg Process.stackBottom written)) ▸ among
  rcases List.mem_cons.mp among with same | later
  · exact absurd same (by decide)
  · obtain ⟨i, -, same⟩ := mem_stride.mp later
    simp only [newProcess, pageSize] at same
    omega

end MiraOS
