import MiraOS.Kernel.PageRuns
import MiraOS.Kernel.ReadyQueue

/-! What creating and destroying a process can do, and what the scheduler leaves alone. -/

namespace MiraOS

open Machine

/-- A stack was built: the first page, and as many more as a stack has. -/
def BuiltStack (pmm : Pmm) (stackBase : Nat) (after : Pmm) : Prop :=
  ∃ middle, pmmAllocPage pmm = .ok (stackBase, middle) ∧ stackBase ≠ 0 ∧
    stackLoop stackBase (stackPages - 1) 1 middle = .ok (true, after)

/-- There were not enough pages for a stack. -/
def FailedStack (pmm after : Pmm) : Prop :=
  pmmAllocPage pmm = .ok (0, after) ∨
    ∃ stackBase middle, pmmAllocPage pmm = .ok (stackBase, middle) ∧ stackBase ≠ 0 ∧
      stackLoop stackBase (stackPages - 1) 1 middle = .ok (false, after)

/-- A process as it is created. -/
def newProcess (pid : Nat) (name : List UInt8) (entryPoint stackBase : Nat) : Process where
  pid := pid
  name := name
  state := .ready
  stackTop := add64 stackBase processStackSize
  stackBottom := stackBase
  entryPoint := entryPoint
  context := { rip := entryPoint, rflags := 0x202, rsp := add64 stackBase processStackSize }

/-- The kernel with a process at an address, another page allocator and the next process number. -/
def Kernel.withProcess (kernel : Kernel) (proc : Nat) (process : Process) (pmm : Pmm) : Kernel :=
  { kernel with
    procs := Function.update kernel.procs proc process
    nextPid := (kernel.nextPid + 1) % 2 ^ 32
    pmm := pmm }

/-- The process that was written. -/
theorem withProcess_self (kernel : Kernel) (proc : Nat) (process : Process) (pmm : Pmm) :
    (kernel.withProcess proc process pmm).procs proc = process := Function.update_self ..

/-- The processes elsewhere. -/
theorem withProcess_of_ne {kernel : Kernel} {proc other : Nat} {process : Process} {pmm : Pmm}
    (apart : other ≠ proc) :
    (kernel.withProcess proc process pmm).procs other = kernel.procs other :=
  Function.update_of_ne apart ..

section

variable {kernel last : Kernel} {proc result entryPoint : Nat} {name : List UInt8}

/-- Creating a process does nothing, fails with the memory given back, or links a new process. -/
theorem processCreate_cases (ran : processCreate proc name entryPoint kernel = .ok (result, last)) :
    (proc = 0 ∧ result = 0 ∧ last = kernel) ∨
    (proc ≠ 0 ∧ result = 0 ∧ ∃ process pmm, FailedStack kernel.pmm pmm ∧
      last = (kernel.withProcess proc process pmm).kfree proc) ∨
    (proc ≠ 0 ∧ result = proc ∧ ∃ stackBase pmm, BuiltStack kernel.pmm stackBase pmm ∧
      last = linkProcess proc (kernel.withProcess proc
        (newProcess kernel.nextPid name entryPoint stackBase) pmm)) := by
  -- The cases follow the tests of the code: no memory, a long name, no page, too few pages.
  unfold processCreate at ran
  by_cases null : proc = 0
  · rw [if_pos null] at ran
    cases ran
    exact .inl ⟨null, rfl, rfl⟩
  rw [if_neg null] at ran
  by_cases long : processNameMax ≤ name.length
  · rw [if_pos long] at ran
    cases ran
  rw [if_neg long] at ran
  obtain ⟨⟨stackBase, middle⟩, first, ran⟩ := bind_eq_ok.mp ran
  by_cases base : stackBase = 0
  -- Without a first page only the memory of the process is given back.
  · replace ran := (if_pos base).symm.trans ran
    cases ran
    rw [base] at first
    exact .inr (.inl ⟨null, rfl, _, _, .inl first, rfl⟩)
  replace ran := (if_neg base).symm.trans ran
  obtain ⟨⟨complete, after⟩, looped, ran⟩ := bind_eq_ok.mp ran
  cases complete with
  -- The loop gave its pages back, and the process still holds the address of the first.
  | false =>
    cases ran
    refine .inr (.inl ⟨null, rfl,
      { pid := kernel.nextPid, name := name, entryPoint := entryPoint, stackBottom := stackBase }, after,
      .inr ⟨stackBase, middle, first, base, looped⟩, ?_⟩)
    simp [Kernel.kfree, Kernel.withProcess, Kernel.modify, Kernel.withPmm]
  -- The stores into the process amount to writing it whole.
  | true =>
    cases ran
    refine .inr (.inr ⟨null, rfl, stackBase, after, ⟨middle, first, base, looped⟩, ?_⟩)
    apply congrArg (linkProcess proc)
    simp [Kernel.withProcess, Kernel.modify, Kernel.withPmm, newProcess]

/-- With a stack a process is created. -/
theorem processCreate_built {stackBase : Nat} {pmm : Pmm} (real : proc ≠ 0)
    (short : name.length < processNameMax) (built : BuiltStack kernel.pmm stackBase pmm) :
    processCreate proc name entryPoint kernel = .ok (proc, linkProcess proc (kernel.withProcess proc
      (newProcess kernel.nextPid name entryPoint stackBase) pmm)) := by
  -- With the stack given, every test of the code has a known outcome.
  obtain ⟨middle, first, base, looped⟩ := built
  unfold processCreate
  rw [if_neg real, if_neg (Nat.not_le.mpr short)]
  refine bind_eq_ok.mpr ⟨_, first, (if_neg base).trans (bind_eq_ok.mpr ⟨_, looped, ?_⟩)⟩
  apply congrArg (fun last => Except.ok (proc, linkProcess proc last))
  simp [Kernel.withProcess, Kernel.modify, Kernel.withPmm, newProcess]

/-- A run of free pages gives a stack. -/
theorem builtStack_run {pmm : Pmm} {first more : Nat} (run : FreeRun pmm first (stackPages + more)) :
    BuiltStack pmm (first * pageSize) (pmm.takeRun first stackPages) := by
  -- The first page is asked for on its own, the others in the loop.
  have positive : 0 < stackPages := by decide
  have length : stackPages + more = stackPages - 1 + more + 1 := by omega
  rw [length] at run
  obtain ⟨taken, rest⟩ := pmmAllocPage_run run
  rw [takeRun_first pmm first positive]
  exact ⟨pmm.take first, taken, run.address_ne_zero, stackLoop_complete rest⟩

/-- Destroying a process gives back its stack, links it out and gives back its memory. -/
theorem processDestroy_cases (real : proc ≠ 0) (ran : processDestroy proc kernel = .ok last) :
    ∃ pmm, freeStack (kernel.procs proc).stackBottom kernel.pmm = .ok pmm ∧
      last = (unlinkProcess proc (kernel.withPmm pmm)).kfree proc := by
  -- The stack is given back first, and nothing after that can stop.
  unfold processDestroy at ran
  rw [if_neg real] at ran
  obtain ⟨pmm, freed, ran⟩ := bind_eq_ok.mp ran
  cases ran
  exact ⟨pmm, freed, rfl⟩

/-- A process whose stack can be given back is destroyed. -/
theorem processDestroy_freed {pmm : Pmm} (real : proc ≠ 0)
    (freed : freeStack (kernel.procs proc).stackBottom kernel.pmm = .ok pmm) :
    processDestroy proc kernel = .ok ((unlinkProcess proc (kernel.withPmm pmm)).kfree proc) := by
  rw [processDestroy, if_neg real]
  exact bind_eq_ok.mpr ⟨pmm, freed, rfl⟩

/-- The links after a process is put at the front of the process list. -/
theorem linkProcess_links (other : Nat) :
    (linkProcess proc kernel).next other =
        (if other = proc then kernel.processList else kernel.next other) ∧
      (linkProcess proc kernel).prev other =
        (if kernel.processList ≠ 0 ∧ other = kernel.processList then proc else kernel.prev other) := by
  -- Only an old head has a link back to store.
  unfold linkProcess Kernel.next Kernel.prev
  by_cases empty : kernel.processList = 0
  · simp [empty]
  · simp [empty]

/-- The links after the two sides of a process are joined. -/
theorem joinAround_links (other : Nat) :
    (joinAround proc kernel).next other =
        (if kernel.prev proc ≠ 0 ∧ other = kernel.prev proc then kernel.next proc
          else kernel.next other) ∧
      (joinAround proc kernel).prev other =
        (if kernel.next proc ≠ 0 ∧ other = kernel.next proc then kernel.prev proc
          else kernel.prev other) := by
  unfold joinAround Kernel.next Kernel.prev
  by_cases first : (kernel.procs proc).prev = 0
  · by_cases last : (kernel.procs proc).next = 0
    · simp [first, last]
    · simp [first, last]
  · -- The link of the process itself reads the same after the first store.
    by_cases last : (kernel.procs proc).next = 0
    · simp [first, last]
    · simp [first, last]

/-- The processes after one is taken out of the process list. -/
theorem unlinkProcess_procs : (unlinkProcess proc kernel).procs = (joinAround proc kernel).procs := by
  -- Moving the head of the list changes no process.
  unfold unlinkProcess
  by_cases head : (joinAround proc kernel).processList = proc
  · rw [if_pos head]
  · rw [if_neg head]

end

/-- Nothing changed but links, states, the ready queue's ends and the current process. -/
structure OnlyLinks (kernel last : Kernel) : Prop where
  pid : ∀ other, (last.procs other).pid = (kernel.procs other).pid
  stackBottom : ∀ other, (last.procs other).stackBottom = (kernel.procs other).stackBottom
  stackTop : ∀ other, (last.procs other).stackTop = (kernel.procs other).stackTop
  nextPid : last.nextPid = kernel.nextPid
  pmm : last.pmm = kernel.pmm
  processList : last.processList = kernel.processList
  freed : last.freed = kernel.freed

section

variable {kernel middle last : Kernel} {proc link : Nat}

/-- Nothing changed. -/
theorem OnlyLinks.refl (kernel : Kernel) : OnlyLinks kernel kernel :=
  ⟨fun _ => rfl, fun _ => rfl, fun _ => rfl, rfl, rfl, rfl, rfl⟩

/-- One change after another. -/
theorem OnlyLinks.trans (first : OnlyLinks kernel middle) (second : OnlyLinks middle last) :
    OnlyLinks kernel last :=
  ⟨fun other => (second.pid other).trans (first.pid other),
    fun other => (second.stackBottom other).trans (first.stackBottom other),
    fun other => (second.stackTop other).trans (first.stackTop other),
    second.nextPid.trans first.nextPid, second.pmm.trans first.pmm,
    second.processList.trans first.processList, second.freed.trans first.freed⟩

/-- One of two changes. -/
theorem OnlyLinks.either {other : Kernel} (one : OnlyLinks kernel last) (two : OnlyLinks kernel other)
    (test : Prop) [Decidable test] : OnlyLinks kernel (if test then last else other) := by
  -- Both branches change links only.
  by_cases holds : test
  · rwa [if_pos holds]
  · rwa [if_neg holds]

/-- A change that may not be made. -/
theorem OnlyLinks.unless (changed : OnlyLinks kernel last) (missing : Prop) [Decidable missing] :
    OnlyLinks kernel (if missing then kernel else last) :=
  (OnlyLinks.refl kernel).either changed missing

/-- A change of one process that keeps its number and its stack. -/
theorem onlyLinks_modify {change : Process → Process}
    (pid : (change (kernel.procs proc)).pid = (kernel.procs proc).pid)
    (bottom : (change (kernel.procs proc)).stackBottom = (kernel.procs proc).stackBottom)
    (top : (change (kernel.procs proc)).stackTop = (kernel.procs proc).stackTop) :
    OnlyLinks kernel (kernel.modify proc change) :=
  ⟨fun other => modify_keeps kernel proc change other Process.pid pid,
    fun other => modify_keeps kernel proc change other Process.stackBottom bottom,
    fun other => modify_keeps kernel proc change other Process.stackTop top, rfl, rfl, rfl, rfl⟩

/-- A link is stored. -/
theorem onlyLinks_setNext : OnlyLinks kernel (kernel.setNext proc link) := onlyLinks_modify rfl rfl rfl

/-- A link back is stored. -/
theorem onlyLinks_setPrev : OnlyLinks kernel (kernel.setPrev proc link) := onlyLinks_modify rfl rfl rfl

/-- The ends of the ready queue and the current process do not count. -/
theorem onlyLinks_of_procs (procs : last.procs = kernel.procs) (nextPid : last.nextPid = kernel.nextPid)
    (pmm : last.pmm = kernel.pmm) (processList : last.processList = kernel.processList)
    (freed : last.freed = kernel.freed) : OnlyLinks kernel last :=
  ⟨fun _ => by rw [procs], fun _ => by rw [procs], fun _ => by rw [procs], nextPid, pmm, processList,
    freed⟩

/-- Joining the two sides of a process. -/
theorem onlyLinks_joinAround : OnlyLinks kernel (joinAround proc kernel) :=
  (onlyLinks_setNext.unless _).trans (onlyLinks_setPrev.unless _)

/-- The head of the process list after a process is taken out of it. -/
theorem unlinkProcess_head : (unlinkProcess proc kernel).processList =
    if kernel.processList = proc then (joinAround proc kernel).next proc else kernel.processList := by
  -- Joining the two sides leaves the head alone, so the test is about the old one.
  unfold unlinkProcess
  by_cases head : kernel.processList = proc
  · simp only [onlyLinks_joinAround.processList, if_pos head]
    rfl
  · simp only [onlyLinks_joinAround.processList, if_neg head]

/-- Putting a process at the front of the process list, apart from the head. -/
theorem onlyLinks_linkProcess :
    OnlyLinks kernel { linkProcess proc kernel with processList := kernel.processList } := by
  -- The link forward is always stored, the link back only into an old head.
  have first := @onlyLinks_setNext kernel proc kernel.processList
  have both := first.trans ((@onlyLinks_setPrev (kernel.setNext proc kernel.processList)
    kernel.processList proc).unless (kernel.processList = 0))
  exact ⟨both.pid, both.stackBottom, both.stackTop, both.nextPid, both.pmm, rfl, both.freed⟩

/-- Taking a process out of the process list, apart from the head. -/
theorem onlyLinks_unlinkProcess :
    OnlyLinks kernel { unlinkProcess proc kernel with processList := kernel.processList } := by
  -- Apart from the head of the list this is joining the two sides.
  have joined := @onlyLinks_joinAround kernel proc
  unfold unlinkProcess
  by_cases head : (joinAround proc kernel).processList = proc
  · simp only [if_pos head]
    exact ⟨joined.pid, joined.stackBottom, joined.stackTop, joined.nextPid, joined.pmm, rfl,
      joined.freed⟩
  · simp only [if_neg head]
    exact ⟨joined.pid, joined.stackBottom, joined.stackTop, joined.nextPid, joined.pmm, rfl,
      joined.freed⟩

/-- The page allocator after a process is destroyed. -/
theorem destroyed_pmm (kernel : Kernel) (proc : Nat) (pmm : Pmm) :
    ((unlinkProcess proc (kernel.withPmm pmm)).kfree proc).pmm = pmm :=
  (@onlyLinks_unlinkProcess (kernel.withPmm pmm) proc).pmm

/-- Adding a process to the ready queue. -/
theorem onlyLinks_schedulerAdd : OnlyLinks kernel (schedulerAdd proc kernel) := by
  -- The state is stored first, then one of the two branches stores links.
  have state := @onlyLinks_modify kernel proc (fun process => { process with state := .ready })
    rfl rfl rfl
  refine OnlyLinks.unless (state.trans (OnlyLinks.either ?_ ?_ _)) _
  · generalize kernel.modify proc _ = first
    have moved : OnlyLinks first { first with readyQueue := proc, readyQueueTail := proc } :=
      onlyLinks_of_procs rfl rfl rfl rfl rfl
    exact moved.trans (onlyLinks_setNext.trans onlyLinks_setPrev)
  · generalize kernel.modify proc _ = first
    have back := @onlyLinks_setNext first first.readyQueueTail proc
    have forth := @onlyLinks_setPrev (first.setNext first.readyQueueTail proc) proc first.readyQueueTail
    exact ((back.trans forth).trans onlyLinks_setNext).trans (onlyLinks_of_procs rfl rfl rfl rfl rfl)

/-- Taking a process out of the ready queue. -/
theorem onlyLinks_schedulerRemove : OnlyLinks kernel (schedulerRemove proc kernel) := by
  -- Each side of the process is one choice between an end of the queue and a link.
  refine OnlyLinks.unless (OnlyLinks.trans (OnlyLinks.either ?_ onlyLinks_setNext _)
    (OnlyLinks.trans (OnlyLinks.either ?_ onlyLinks_setPrev _)
      (onlyLinks_setNext.trans onlyLinks_setPrev))) _
  · exact onlyLinks_of_procs rfl rfl rfl rfl rfl
  · exact onlyLinks_of_procs rfl rfl rfl rfl rfl

/-- Moving the head of the ready queue to its tail. -/
theorem onlyLinks_rotateQueue : OnlyLinks kernel (rotateQueue kernel) := by
  -- Four links and the two ends of the queue are stored.
  have start : OnlyLinks kernel { kernel with readyQueue := (kernel.procs kernel.readyQueue).next } :=
    onlyLinks_of_procs rfl rfl rfl rfl rfl
  exact (((start.trans onlyLinks_setPrev).trans onlyLinks_setNext).trans
    (onlyLinks_setPrev.trans onlyLinks_setNext)).trans (onlyLinks_of_procs rfl rfl rfl rfl rfl)

/-- Making a process the current one. -/
theorem onlyLinks_processSwitch : OnlyLinks kernel (processSwitch proc kernel) := by
  have moved : OnlyLinks kernel { kernel with currentProcess := proc } :=
    onlyLinks_of_procs rfl rfl rfl rfl rfl
  exact (moved.unless _).unless _

/-- A tick. -/
theorem onlyLinks_schedulerTick : OnlyLinks kernel (schedulerTick kernel) :=
  OnlyLinks.unless ((onlyLinks_rotateQueue.unless _).trans
    (onlyLinks_processSwitch.either (OnlyLinks.refl _) _)) _

end

/-- The ready queue is not touched by the process list. -/
theorem linkProcess_ends (proc : Nat) (kernel : Kernel) :
    (linkProcess proc kernel).readyQueue = kernel.readyQueue ∧
      (linkProcess proc kernel).readyQueueTail = kernel.readyQueueTail ∧
      (linkProcess proc kernel).freed = kernel.freed := by
  -- The process list has a head of its own.
  unfold linkProcess
  by_cases empty : kernel.processList = 0
  · simp [empty, Kernel.setNext, Kernel.modify]
  · simp [empty, Kernel.setNext, Kernel.setPrev, Kernel.modify]

/-- Taking out the entry of a name leaves the entries before and behind it. -/
theorem filter_others {Data : Type} {before after : List (Nat × Data)} {entry : Nat × Data}
    (names : ((before ++ entry :: after).map Prod.fst).Nodup) :
    (before ++ entry :: after).filter (fun other => other.1 ≠ entry.1) = before ++ after := by
  rw [List.map_append, List.map_cons, List.nodup_middle, ← List.map_append, List.nodup_cons] at names
  rw [List.filter_append, List.filter_cons_of_neg (by simp), ← List.filter_append, List.filter_eq_self]
  -- No other entry has the name.
  intro other member
  have apart : other.1 ≠ entry.1 := fun same => names.1 (same ▸ List.mem_map_of_mem member)
  exact decide_eq_true apart

/-- What holds after a process was created from a run of free pages. -/
structure CreatedFrom (kernel : Kernel) (proc first more : Nat) (last : Kernel) : Prop where
  run : FreeRun last.pmm (first + stackPages) more
  pmm : last.pmm = kernel.pmm.takeRun first stackPages
  pid : (last.procs proc).pid = kernel.nextPid
  stackBottom : (last.procs proc).stackBottom = first * pageSize
  nextPid : last.nextPid = (kernel.nextPid + 1) % 2 ^ 32
  processList : last.processList = proc
  readyQueue : last.readyQueue = kernel.readyQueue
  readyQueueTail : last.readyQueueTail = kernel.readyQueueTail
  freed : last.freed = kernel.freed
  others : ∀ other, other ≠ proc → (last.procs other).pid = (kernel.procs other).pid

/-- A process is created from a run of free pages. -/
theorem created_run {kernel : Kernel} {proc first more : Nat} {name : List UInt8} (entryPoint : Nat)
    (real : proc ≠ 0) (short : name.length < processNameMax)
    (run : FreeRun kernel.pmm first (stackPages + more)) :
    ∃ last, processCreate proc name entryPoint kernel = .ok (proc, last) ∧
      CreatedFrom kernel proc first more last := by
  have built := builtStack_run run
  have rest := run.rest
  -- The allocator afterwards is kept as one name, so that its pages are never counted out.
  generalize taken : kernel.pmm.takeRun first stackPages = after at built rest
  have only := @onlyLinks_linkProcess (kernel.withProcess proc
    (newProcess kernel.nextPid name entryPoint (first * pageSize)) after) proc
  have written := withProcess_self kernel proc
    (newProcess kernel.nextPid name entryPoint (first * pageSize)) after
  refine ⟨_, processCreate_built real short built, ?_⟩
  refine ⟨?_, only.pmm.trans taken.symm, ?_, ?_, only.nextPid, rfl, (linkProcess_ends ..).1,
    (linkProcess_ends ..).2.1, (linkProcess_ends ..).2.2, fun other apart => ?_⟩
  · have same : (linkProcess proc (kernel.withProcess proc (newProcess kernel.nextPid name entryPoint
        (first * pageSize)) after)).pmm = after := only.pmm
    rwa [same]
  · exact (only.pid proc).trans (congrArg Process.pid written)
  · exact (only.stackBottom proc).trans (congrArg Process.stackBottom written)
  · exact (only.pid other).trans (congrArg Process.pid (withProcess_of_ne apart))

end MiraOS
