import MiraOS.Kernel.Mem
import Mathlib.Logic.Function.Basic

/-! Processes and the ready queue of kernel/process.c, and the system call that ends a process. -/

namespace MiraOS

open Machine

/-- Bytes of a process name, with its terminator. -/
def processNameMax : Nat := 64

/-- Bytes of a process stack. -/
def processStackSize : Nat := 0x100000

/-- Pages of a process stack. -/
def stackPages : Nat := processStackSize / pageSize

/-- What a process is doing. -/
inductive ProcessState where
  | ready | running | blocked | zombie
  deriving DecidableEq, Repr

/-- The registers a new process starts with, apart from those that are zero. -/
structure Context where
  rip : Nat := 0
  rflags : Nat := 0
  rsp : Nat := 0
  deriving DecidableEq, Repr

/-- A process, cleared at first. -/
structure Process where
  pid : Nat := 0
  name : List UInt8 := []
  state : ProcessState := .ready
  stackTop : Nat := 0
  stackBottom : Nat := 0
  entryPoint : Nat := 0
  context : Context := {}
  -- One pair of links for the process list and the ready queue.
  next : Nat := 0
  prev : Nat := 0
  exitStatus : Int := 0
  deriving DecidableEq, Repr

/-- The static variables of the process code, the processes by address, and what it uses. -/
structure Kernel where
  procs : Nat → Process
  currentProcess : Nat
  processList : Nat
  nextPid : Nat
  readyQueue : Nat
  readyQueueTail : Nat
  pmm : Pmm
  -- Pointers given back to the heap, in order.
  freed : List Nat

/-- The kernel before any process, with a page allocator. -/
def bootKernel (pmm : Pmm) : Kernel where
  procs := fun _ => {}
  currentProcess := 0
  processList := 0
  nextPid := 1
  readyQueue := 0
  readyQueueTail := 0
  pmm := pmm
  freed := []

/-- Change the process at an address. -/
def Kernel.modify (kernel : Kernel) (proc : Nat) (change : Process → Process) : Kernel :=
  { kernel with procs := Function.update kernel.procs proc (change (kernel.procs proc)) }

/-- Store the link to the next process. -/
def Kernel.setNext (kernel : Kernel) (proc next : Nat) : Kernel :=
  kernel.modify proc fun process => { process with next := next }

/-- Store the link to the process before. -/
def Kernel.setPrev (kernel : Kernel) (proc prev : Nat) : Kernel :=
  kernel.modify proc fun process => { process with prev := prev }

/-- The kernel with another state of the page allocator. -/
def Kernel.withPmm (kernel : Kernel) (pmm : Pmm) : Kernel := { kernel with pmm := pmm }

/-- Give memory back to the heap. -/
def Kernel.kfree (kernel : Kernel) (pointer : Nat) : Kernel :=
  { kernel with freed := kernel.freed ++ [pointer] }

/-- Give back a number of pages of a stack, from one of them on. -/
def freeStackPages (stackBottom : Nat) : Nat → Nat → Pmm → Except Halt Pmm
  | 0, _, pmm => .ok pmm
  | count + 1, i, pmm => do
    let pmm ← pmmFreePage pmm (add64 stackBottom (i * pageSize))
    freeStackPages stackBottom count (i + 1) pmm

/-- The loop that asks for the other pages of a stack, and whether it got them all. -/
def stackLoop (stackBottom : Nat) : Nat → Nat → Pmm → Except Halt (Bool × Pmm)
  | 0, _, pmm => .ok (true, pmm)
  | count + 1, i, pmm => do
    let (pg, pmm) ← pmmAllocPage pmm
    if pg = 0 then
      -- The pages so far are taken to be those right after the first one.
      let pmm ← freeStackPages stackBottom i 0 pmm
      return (false, pmm)
    else stackLoop stackBottom count (i + 1) pmm

/-- The next process number, a 32-bit counter. -/
def processAllocPid (kernel : Kernel) : Nat × Kernel :=
  (kernel.nextPid, { kernel with nextPid := (kernel.nextPid + 1) % 2 ^ 32 })

/-- Put a process at the front of the process list. -/
def linkProcess (proc : Nat) (kernel : Kernel) : Kernel :=
  let kernel := kernel.setNext proc kernel.processList
  let kernel :=
    if kernel.processList = 0 then kernel else kernel.setPrev kernel.processList proc
  { kernel with processList := proc }

/-- A new process in the memory that the heap answered with, or zero. -/
def processCreate (proc : Nat) (name : List UInt8) (entryPoint : Nat) (kernel : Kernel) :
    Except Halt (Nat × Kernel) :=
  if proc = 0 then .ok (0, kernel)
  -- A name that does not fit would run over the fields after it.
  else if processNameMax ≤ name.length then .error .outOfBounds
  else do
    -- The number is used up even where the stack cannot be built.
    let (pid, kernel) := processAllocPid kernel
    let kernel := kernel.modify proc fun _ =>
      { pid := pid, name := name, state := .ready, entryPoint := entryPoint }
    let (stackBase, pmm) ← pmmAllocPage kernel.pmm
    let kernel := kernel.withPmm pmm
    if stackBase = 0 then return (0, kernel.kfree proc)
    else
      let kernel := kernel.modify proc fun process => { process with stackBottom := stackBase }
      let (complete, pmm) ← stackLoop stackBase (stackPages - 1) 1 kernel.pmm
      let kernel := kernel.withPmm pmm
      if complete then
        let stackTop := add64 stackBase processStackSize
        let kernel := kernel.modify proc fun process =>
          { process with
            stackTop := stackTop
            context := { rip := entryPoint, rflags := 0x202, rsp := stackTop } }
        return (proc, linkProcess proc kernel)
      else return (0, kernel.kfree proc)

/-- Link the processes on both sides of a process to each other. -/
def joinAround (proc : Nat) (kernel : Kernel) : Kernel :=
  let kernel :=
    if (kernel.procs proc).prev = 0 then kernel
    else kernel.setNext (kernel.procs proc).prev (kernel.procs proc).next
  -- The link forward is read again, after the first store.
  if (kernel.procs proc).next = 0 then kernel
  else kernel.setPrev (kernel.procs proc).next (kernel.procs proc).prev

/-- Take a process out of the process list. -/
def unlinkProcess (proc : Nat) (kernel : Kernel) : Kernel :=
  let kernel := joinAround proc kernel
  if kernel.processList = proc then { kernel with processList := (kernel.procs proc).next }
  else kernel

/-- Give back the pages from the bottom of a stack on, if there is one. -/
def freeStack (stackBottom : Nat) (pmm : Pmm) : Except Halt Pmm :=
  if stackBottom = 0 then .ok pmm else freeStackPages stackBottom stackPages 0 pmm

/-- Give back a process and its stack. -/
def processDestroy (proc : Nat) (kernel : Kernel) : Except Halt Kernel :=
  if proc = 0 then .ok kernel
  else do
    -- The ready queue is not looked at here.
    let pmm ← freeStack (kernel.procs proc).stackBottom kernel.pmm
    return (unlinkProcess proc (kernel.withPmm pmm)).kfree proc

/-- Make a process the current one; the registers are left out. -/
def processSwitch (next : Nat) (kernel : Kernel) : Kernel :=
  if next = 0 then kernel
  else if kernel.currentProcess = next then kernel
  else { kernel with currentProcess := next }

/-- The static variables of the processes before the first one. -/
def processInit (kernel : Kernel) : Kernel :=
  { kernel with currentProcess := 0, processList := 0, nextPid := 1 }

/-- The walk along the process list. -/
def findLoop (kernel : Kernel) (pid : Nat) : Nat → Nat → Except Halt Nat
  -- The list may run in a circle once a link is overwritten, so the walk has fuel.
  | 0, proc => if proc = 0 then .ok 0 else .error .outOfFuel
  | fuel + 1, proc =>
    if proc = 0 then .ok 0
    else if (kernel.procs proc).pid = pid then .ok proc
    else findLoop kernel pid fuel (kernel.procs proc).next

/-- The process with a number, or zero. -/
def processFindByPid (fuel pid : Nat) (kernel : Kernel) : Except Halt Nat :=
  findLoop kernel pid fuel kernel.processList

/-- The static variables of the ready queue before the first process. -/
def schedulerInit (kernel : Kernel) : Kernel :=
  { kernel with readyQueue := 0, readyQueueTail := 0 }

/-- Move the head of the ready queue to its tail. -/
def rotateQueue (kernel : Kernel) : Kernel :=
  let head := kernel.readyQueue
  let kernel := { kernel with readyQueue := (kernel.procs head).next }
  -- The new head has nothing before it; then the old head is linked behind the tail.
  let kernel := kernel.setPrev kernel.readyQueue 0
  let kernel := kernel.setNext head 0
  let kernel := kernel.setPrev head kernel.readyQueueTail
  let kernel := kernel.setNext kernel.readyQueueTail head
  { kernel with readyQueueTail := head }

/-- A tick of the timer. -/
def schedulerTick (kernel : Kernel) : Kernel :=
  if kernel.readyQueue = 0 then kernel
  else
    -- A queue of one process does not turn.
    let kernel :=
      if (kernel.procs kernel.readyQueue).next = 0 then kernel else rotateQueue kernel
    let next := kernel.readyQueue
    if next ≠ 0 ∧ kernel.currentProcess ≠ next then processSwitch next kernel else kernel

/-- Put a process at the end of the ready queue. -/
def schedulerAdd (proc : Nat) (kernel : Kernel) : Kernel :=
  if proc = 0 then kernel
  else
    let kernel := kernel.modify proc fun process => { process with state := .ready }
    -- The first process is head and tail at once.
    if kernel.readyQueue = 0 then
      let kernel := { kernel with readyQueue := proc, readyQueueTail := proc }
      (kernel.setNext proc 0).setPrev proc 0
    else
      let kernel := kernel.setNext kernel.readyQueueTail proc
      let kernel := kernel.setPrev proc kernel.readyQueueTail
      let kernel := kernel.setNext proc 0
      { kernel with readyQueueTail := proc }

/-- Take a process out of the ready queue. -/
def schedulerRemove (proc : Nat) (kernel : Kernel) : Kernel :=
  if proc = 0 then kernel
  else
    let kernel :=
      -- Without a process before, this one is taken to be the head; without one behind, the tail.
      if (kernel.procs proc).prev = 0 then { kernel with readyQueue := (kernel.procs proc).next }
      else kernel.setNext (kernel.procs proc).prev (kernel.procs proc).next
    let kernel :=
      if (kernel.procs proc).next = 0 then { kernel with readyQueueTail := (kernel.procs proc).prev }
      else kernel.setPrev (kernel.procs proc).next (kernel.procs proc).prev
    (kernel.setNext proc 0).setPrev proc 0

/-- A 64-bit word cut down to a signed 32-bit number. -/
def toInt32 (word : Nat) : Int :=
  -- The upper half of the 32-bit range stands for the negative numbers.
  if word % 2 ^ 32 < 2 ^ 31 then (word % 2 ^ 32 : Nat) else (word % 2 ^ 32 : Nat) - 2 ^ 32

/-- Store the status a process ends with. -/
def Kernel.markExited (kernel : Kernel) (cur status : Nat) : Kernel :=
  kernel.modify cur fun process => { process with exitStatus := toInt32 status, state := .zombie }

/-- End a process, if there is one. -/
def endProcess (cur status : Nat) (kernel : Kernel) : Except Halt Kernel :=
  if cur = 0 then .ok kernel
  else processDestroy cur (schedulerRemove cur (kernel.markExited cur status))

/-- The system call that ends the current process. -/
def syscallExit (status : Nat) (kernel : Kernel) : Except Halt Kernel := do
  let kernel ← endProcess kernel.currentProcess status kernel
  return schedulerTick kernel

section

variable (kernel : Kernel) (proc : Nat) (change : Process → Process) (other link : Nat)

/-- Only the process at the address changes. -/
theorem modify_procs : (kernel.modify proc change).procs other =
    if other = proc then change (kernel.procs proc) else kernel.procs other := by
  -- One process is written, and the others stay.
  by_cases same : other = proc
  · rw [same, if_pos rfl]
    exact Function.update_self ..
  · rw [if_neg same]
    exact Function.update_of_ne same ..

@[simp] theorem setNext_next : ((kernel.setNext proc link).procs other).next =
    if other = proc then link else (kernel.procs other).next := by
  rw [Kernel.setNext, modify_procs]
  -- The link of this process, or the one that was there.
  by_cases same : other = proc
  · rw [if_pos same, if_pos same]
  · rw [if_neg same, if_neg same]

@[simp] theorem setPrev_prev : ((kernel.setPrev proc link).procs other).prev =
    if other = proc then link else (kernel.procs other).prev := by
  rw [Kernel.setPrev, modify_procs]
  -- The link of this process, or the one that was there.
  by_cases same : other = proc
  · rw [if_pos same, if_pos same]
  · rw [if_neg same, if_neg same]

/-- A change that keeps a field of one process keeps it of all. -/
theorem modify_keeps {Field : Type} (field : Process → Field)
    (kept : field (change (kernel.procs proc)) = field (kernel.procs proc)) :
    field ((kernel.modify proc change).procs other) = field (kernel.procs other) := by
  -- At the address the change itself keeps the field, elsewhere nothing changed.
  rw [modify_procs]
  by_cases same : other = proc
  · rw [if_pos same, kept, same]
  · rw [if_neg same]

@[simp] theorem setNext_prev : ((kernel.setNext proc link).procs other).prev =
    (kernel.procs other).prev := modify_keeps kernel proc _ other Process.prev rfl

@[simp] theorem setPrev_next : ((kernel.setPrev proc link).procs other).next =
    (kernel.procs other).next := modify_keeps kernel proc _ other Process.next rfl

@[simp] theorem setNext_readyQueue : (kernel.setNext proc link).readyQueue = kernel.readyQueue := rfl
@[simp] theorem setPrev_readyQueue : (kernel.setPrev proc link).readyQueue = kernel.readyQueue := rfl
@[simp] theorem setNext_readyQueueTail :
    (kernel.setNext proc link).readyQueueTail = kernel.readyQueueTail := rfl
@[simp] theorem setPrev_readyQueueTail :
    (kernel.setPrev proc link).readyQueueTail = kernel.readyQueueTail := rfl
@[simp] theorem setNext_currentProcess :
    (kernel.setNext proc link).currentProcess = kernel.currentProcess := rfl
@[simp] theorem setPrev_currentProcess :
    (kernel.setPrev proc link).currentProcess = kernel.currentProcess := rfl
@[simp] theorem setNext_processList :
    (kernel.setNext proc link).processList = kernel.processList := rfl
@[simp] theorem setPrev_processList :
    (kernel.setPrev proc link).processList = kernel.processList := rfl

end

end MiraOS
