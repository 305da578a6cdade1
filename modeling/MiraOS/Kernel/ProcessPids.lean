import MiraOS.Kernel.ProcessLaws

/-! Process numbers: distinct among the live processes until the counter wraps around. -/

namespace MiraOS

open Machine

/-- The kernel and the processes that were created and not destroyed since. -/
structure PidSystem where
  kernel : Kernel
  live : List Nat

/-- What happens to processes. -/
inductive PidOp where
  | create (proc : Nat) (name : List UInt8) (entryPoint : Nat)
  | destroy (proc : Nat)

/-- One call: the heap answers with memory of no live process, and only live processes are destroyed. -/
inductive PidStep : PidSystem → PidOp → PidSystem → Prop where
  | created {system : PidSystem} {proc entryPoint : Nat} {name : List UInt8} {kernel : Kernel}
      (fresh : proc ∉ system.live) (real : proc ≠ 0)
      (ran : processCreate proc name entryPoint system.kernel = .ok (proc, kernel)) :
      PidStep system (.create proc name entryPoint) ⟨kernel, proc :: system.live⟩
  | failed {system : PidSystem} {proc entryPoint : Nat} {name : List UInt8} {kernel : Kernel}
      (fresh : proc ∉ system.live)
      (ran : processCreate proc name entryPoint system.kernel = .ok (0, kernel)) :
      PidStep system (.create proc name entryPoint) ⟨kernel, system.live⟩
  | destroyed {system : PidSystem} {proc : Nat} {kernel : Kernel} (alive : proc ∈ system.live)
      (ran : processDestroy proc system.kernel = .ok kernel) :
      PidStep system (.destroy proc) ⟨kernel, system.live.filter fun other => other ≠ proc⟩

/-- Whether a call takes a process number: a creation that got memory for the process. -/
def PidOp.numbers : PidOp → Bool
  | .create proc _ _ => proc ≠ 0
  | .destroy _ => false

/-- The process numbers that a sequence of calls takes. -/
def numbersTaken (ops : List PidOp) : Nat := ops.countP PidOp.numbers

/-- Different live processes have different numbers, and none has number zero. -/
structure PidsDistinct (system : PidSystem) : Prop where
  apart : ∀ one ∈ system.live, ∀ two ∈ system.live, one ≠ two →
    (system.kernel.procs one).pid ≠ (system.kernel.procs two).pid
  positive : ∀ proc ∈ system.live, (system.kernel.procs proc).pid ≠ 0

/-- The live processes have different numbers among those taken so far. -/
structure Numbered (system : PidSystem) (taken : Nat) : Prop where
  next : system.kernel.nextPid = (taken + 1) % 2 ^ 32
  solid : 0 ∉ system.live
  distinct : PidsDistinct system
  bounded : ∀ proc ∈ system.live, (system.kernel.procs proc).pid ≤ taken

section

variable {system next : PidSystem} {kernel : Kernel} {taken proc entryPoint : Nat} {name : List UInt8}

/-- A system in which every live process was live before, with the same number. -/
theorem Numbered.of_pids (numbered : Numbered system taken) {more : Nat}
    (counted : next.kernel.nextPid = (more + 1) % 2 ^ 32) (grown : taken ≤ more)
    (live : ∀ other ∈ next.live, other ∈ system.live)
    (pids : ∀ other ∈ next.live, (next.kernel.procs other).pid = (system.kernel.procs other).pid) :
    Numbered next more := by
  -- Each condition is about the number of live processes, which are the same ones.
  refine ⟨counted, fun null => numbered.solid (live 0 null), ⟨?_, ?_⟩, fun other among => ?_⟩
  · intro one first two second differ
    rw [pids one first, pids two second]
    exact numbered.distinct.apart one (live one first) two (live two second) differ
  · intro other among
    rw [pids other among]
    exact numbered.distinct.positive other (live other among)
  · rw [pids other among]
    exact Nat.le_trans (numbered.bounded other (live other among)) grown

/-- The number after the next one. -/
theorem Numbered.nextPid_succ (numbered : Numbered system taken) :
    (system.kernel.nextPid + 1) % 2 ^ 32 = (taken + 1 + 1) % 2 ^ 32 := by
  rw [numbered.next, Nat.mod_add_mod]

/-- A new process gets a number above those taken so far. -/
theorem Numbered.created (numbered : Numbered system taken) (few : taken + 1 < 2 ^ 32)
    (fresh : proc ∉ system.live) (real : proc ≠ 0)
    (ran : processCreate proc name entryPoint system.kernel = .ok (proc, kernel)) :
    Numbered ⟨kernel, proc :: system.live⟩ (taken + 1) := by
  rcases processCreate_cases ran with ⟨null, -⟩ | ⟨-, null, -⟩ | ⟨-, -, stackBase, pmm, -, made⟩
  · exact absurd null real
  · exact absurd null real
  have only := @onlyLinks_linkProcess (system.kernel.withProcess proc
    (newProcess system.kernel.nextPid name entryPoint stackBase) pmm) proc
  have counted : kernel.nextPid = (taken + 1 + 1) % 2 ^ 32 := by
    rw [made]
    exact only.nextPid.trans numbered.nextPid_succ
  -- As long as the counter has not wrapped, the number is one more than all before it.
  have number : (kernel.procs proc).pid = taken + 1 := by
    rw [made]
    refine ((only.pid proc).trans (congrArg Process.pid (withProcess_self ..))).trans ?_
    exact numbered.next.trans (Nat.mod_eq_of_lt few)
  have others : ∀ other ∈ system.live, (kernel.procs other).pid = (system.kernel.procs other).pid := by
    intro other among
    have apart : other ≠ proc := fun same => fresh (same ▸ among)
    rw [made]
    exact (only.pid other).trans (congrArg Process.pid (withProcess_of_ne apart))
  -- The old processes keep their numbers, all of them below the new one.
  have old : Numbered ⟨kernel, system.live⟩ (taken + 1) :=
    numbered.of_pids counted (Nat.le_succ taken) (fun _ among => among) others
  have below : ∀ other ∈ system.live, (kernel.procs other).pid ≤ taken := by
    intro other among
    rw [others other among]
    exact numbered.bounded other among
  refine ⟨counted, ?_, ⟨?_, ?_⟩, ?_⟩
  · intro null
    rcases List.mem_cons.mp null with same | among
    · exact real same.symm
    · exact numbered.solid among
  · intro one first two second differ
    show (kernel.procs one).pid ≠ (kernel.procs two).pid
    -- At most one of the two is the new process.
    rcases List.mem_cons.mp first with rfl | oneOld
    · rcases List.mem_cons.mp second with rfl | twoOld
      · exact absurd rfl differ
      · have small := below two twoOld
        omega
    · rcases List.mem_cons.mp second with rfl | twoOld
      · have small := below one oneOld
        omega
      · exact old.distinct.apart one oneOld two twoOld differ
  · intro other among
    rcases List.mem_cons.mp among with rfl | among
    · show (kernel.procs other).pid ≠ 0
      omega
    · exact old.distinct.positive other among
  · intro other among
    rcases List.mem_cons.mp among with rfl | among
    · exact Nat.le_of_eq number
    · exact old.bounded other among

/-- A creation that failed takes a number, if there was memory for the process. -/
theorem Numbered.failed (numbered : Numbered system taken) (fresh : proc ∉ system.live)
    (ran : processCreate proc name entryPoint system.kernel = .ok (0, kernel)) :
    Numbered ⟨kernel, system.live⟩ (taken + if proc ≠ 0 then 1 else 0) := by
  -- The number is taken before the stack is asked for.
  rcases processCreate_cases ran with ⟨null, -, same⟩ | ⟨real, -, process, pmm, -, made⟩ | ⟨real, null, -⟩
  · rw [same, if_neg (not_not.mpr null)]
    exact numbered
  · rw [if_pos real]
    refine numbered.of_pids ?_ (Nat.le_succ taken) (fun _ among => among) fun other among => ?_
    · rw [made]
      exact numbered.nextPid_succ
    · have apart : other ≠ proc := fun same => fresh (same ▸ among)
      rw [made]
      exact congrArg Process.pid (@withProcess_of_ne _ _ _ process pmm apart)
  · exact absurd null.symm real

/-- Destroying a process leaves the numbers of the others. -/
theorem Numbered.destroyed (numbered : Numbered system taken) (alive : proc ∈ system.live)
    (ran : processDestroy proc system.kernel = .ok kernel) :
    Numbered ⟨kernel, system.live.filter fun other => other ≠ proc⟩ taken := by
  -- A destruction changes links and pages only.
  have real : proc ≠ 0 := fun null => numbered.solid (null ▸ alive)
  obtain ⟨pmm, -, made⟩ := processDestroy_cases real ran
  have only := @onlyLinks_unlinkProcess (system.kernel.withPmm pmm) proc
  refine numbered.of_pids ?_ (Nat.le_refl taken) (fun other among => (List.mem_filter.mp among).1)
    fun other among => ?_
  · rw [made]
    exact only.nextPid.trans numbered.next
  · rw [made]
    exact only.pid other

/-- One call takes at most one number. -/
theorem Numbered.step {op : PidOp} (numbered : Numbered system taken) (step : PidStep system op next)
    (few : taken + numbersTaken [op] < 2 ^ 32) : Numbered next (taken + numbersTaken [op]) := by
  -- Each kind of call counts the numbers it takes.
  cases step with
  | @created proc entryPoint name kernel fresh real ran =>
    have one : numbersTaken [.create proc name entryPoint] = 1 := by
      simp [numbersTaken, PidOp.numbers, real]
    rw [one] at few ⊢
    exact numbered.created few fresh real ran
  | @failed proc entryPoint name kernel fresh ran =>
    have count : numbersTaken [.create proc name entryPoint] = if proc ≠ 0 then 1 else 0 := by
      by_cases null : proc = 0
      · simp [numbersTaken, PidOp.numbers, null]
      · simp [numbersTaken, PidOp.numbers, null]
    rw [count]
    exact numbered.failed fresh ran
  | destroyed alive ran => exact numbered.destroyed alive ran

end

/-- A run that takes few enough numbers keeps them distinct. -/
theorem Numbered.run {first last : PidSystem} {ops : List PidOp} {taken : Nat}
    (run : Run PidStep first ops last) (numbered : Numbered first taken)
    (few : taken + numbersTaken ops < 2 ^ 32) : Numbered last (taken + numbersTaken ops) := by
  -- The numbers taken add up along the run and stay below the limit at every step.
  induction run generalizing taken with
  | nil state => exact numbered
  | @cons first middle last op rest head tail ih =>
    have split : numbersTaken (op :: rest) = numbersTaken [op] + numbersTaken rest := by
      simp only [numbersTaken]
      rw [← List.countP_append]
      rfl
    rw [split, ← Nat.add_assoc] at few ⊢
    exact ih (numbered.step head (by omega)) few

/-- In every run that takes fewer than 2^32 process numbers, different live processes have different
numbers, and none has number zero. -/
theorem live_pids_distinct (boot : Kernel) {ops : List PidOp} {last : PidSystem}
    (run : Run PidStep ⟨processInit boot, []⟩ ops last) (few : numbersTaken ops < 2 ^ 32) :
    PidsDistinct last := by
  -- Before the first process no number is taken.
  have none : ∀ proc, proc ∉ (⟨processInit boot, []⟩ : PidSystem).live := fun _ => List.not_mem_nil
  have start : Numbered ⟨processInit boot, []⟩ 0 :=
    ⟨rfl, none 0, ⟨fun one among => absurd among (none one), fun one among => absurd among (none one)⟩,
      fun one among => absurd among (none one)⟩
  rw [← Nat.zero_add (numbersTaken ops)] at few
  exact (Numbered.run run start few).distinct

/-- A process that was just created is destroyed, which gives its pages back. -/
theorem created_destroyed {kernel made : Kernel} {proc first more : Nat} (real : proc ≠ 0)
    (run : FreeRun kernel.pmm first (stackPages + more)) (created : CreatedFrom kernel proc first more made) :
    ∃ last, processDestroy proc made = .ok last ∧ FreeRun last.pmm first (stackPages + more) ∧
      last.nextPid = made.nextPid ∧ ∀ other, (last.procs other).pid = (made.procs other).pid := by
  -- The pages of the new stack are all in use, so giving them back succeeds.
  have top := run.managed (Nat.add_pos_left (by decide) more)
  have bitmap := run.bitmap
  have used : ∀ page, first + 0 ≤ page → page < first + 0 + stackPages →
      made.pmm.pageBitmap.test page = true := by
    intro page low high
    have taken : first ≤ page ∧ page < first + stackPages := by omega
    rw [created.pmm, takeRun_test, decide_eq_true taken, Bool.true_or]
  have freed := freeStackPages_run (by omega) used
  have stack : freeStack (made.procs proc).stackBottom made.pmm =
      .ok (made.pmm.giveBackRun first stackPages) := by
    rw [created.stackBottom, freeStack, if_neg run.address_ne_zero]
    exact freed
  have only := @onlyLinks_unlinkProcess (made.withPmm (made.pmm.giveBackRun first stackPages)) proc
  refine ⟨_, processDestroy_freed real stack, ?_, only.nextPid, only.pid⟩
  rw [destroyed_pmm, created.pmm]
  exact run.takenBack

/-- Creating and destroying a process, a number of times. -/
def createDestroy (proc : Nat) : Nat → List PidOp
  | 0 => []
  | count + 1 => .create proc [] 0 :: .destroy proc :: createDestroy proc count

/-- Creating and destroying a process takes numbers and leaves everything else. -/
theorem createDestroy_run {kernel : Kernel} {live : List Nat} {proc first more : Nat} (real : proc ≠ 0)
    (fresh : proc ∉ live) (run : FreeRun kernel.pmm first (stackPages + more))
    (word : kernel.nextPid < 2 ^ 32) (count : Nat) :
    ∃ last, Run PidStep ⟨kernel, live⟩ (createDestroy proc count) ⟨last, live⟩ ∧
      FreeRun last.pmm first (stackPages + more) ∧ last.nextPid = (kernel.nextPid + count) % 2 ^ 32 ∧
      ∀ other, other ≠ proc → (last.procs other).pid = (kernel.procs other).pid := by
  -- Each turn starts from a kernel like the first one, one number further on.
  induction count generalizing kernel with
  | zero => exact ⟨kernel, .nil _, run, (Nat.mod_eq_of_lt word).symm, fun _ _ => rfl⟩
  | succ count ih =>
    obtain ⟨made, ran, created⟩ := @created_run kernel proc first more [] 0 real (by decide) run
    obtain ⟨after, ended, room, number, pids⟩ := created_destroyed real run created
    have small : after.nextPid < 2 ^ 32 := by
      rw [number, created.nextPid]
      exact Nat.mod_lt _ (by decide)
    obtain ⟨last, rest, lastRoom, lastNumber, lastPids⟩ := ih room small
    -- Destroying the process leaves the live ones as they were before it.
    have back : (proc :: live).filter (fun other => other ≠ proc) = live := by
      rw [List.filter_cons_of_neg (by simp), List.filter_eq_self]
      intro other among
      exact decide_eq_true fun same => fresh (same ▸ among)
    have step : PidStep ⟨made, proc :: live⟩ (.destroy proc) ⟨after, live⟩ := by
      have destroyed := @PidStep.destroyed ⟨made, proc :: live⟩ proc after List.mem_cons_self ended
      rwa [back] at destroyed
    refine ⟨last, .cons (.created fresh real ran) (.cons step rest), lastRoom, ?_, ?_⟩
    · rw [lastNumber, number, created.nextPid, Nat.mod_add_mod]
      congr 1
      omega
    · intro other apart
      rw [lastPids other apart, pids other, created.others other apart]

/-- Each turn takes one number. -/
theorem numbersTaken_createDestroy {proc : Nat} (real : proc ≠ 0) (count : Nat) :
    numbersTaken (createDestroy proc count) = count := by
  -- A destruction takes no number.
  induction count with
  | zero => rfl
  | succ count ih =>
    rw [createDestroy, numbersTaken, List.countP_cons_of_pos (by simp [PidOp.numbers, real]),
      List.countP_cons_of_neg (by simp [PidOp.numbers])]
    exact congrArg (· + 1) ih

/-- Of two processes that are created one after the other, the numbers differ. -/
theorem second_pid_differs : ∃ last : PidSystem,
    Run PidStep ⟨processInit (bootKernel spaciousPmm), []⟩ [.create 16 [] 0, .create 32 [] 0] last ∧
      last.live = [32, 16] ∧ PidsDistinct last := by
  -- Two processes are made from a long run of free pages.
  obtain ⟨one, oneRan, oneMade⟩ := @created_run (processInit (bootKernel spaciousPmm)) 16 256 512 [] 0
    (by decide) (by decide) spaciousPmm_run
  obtain ⟨two, twoRan, -⟩ := @created_run one 32 512 256 [] 0 (by decide) (by decide) oneMade.run
  have run : Run PidStep ⟨processInit (bootKernel spaciousPmm), []⟩ [.create 16 [] 0, .create 32 [] 0]
      ⟨two, [32, 16]⟩ :=
    .cons (.created List.not_mem_nil (by decide) oneRan)
      (.cons (.created (by simp) (by decide) twoRan) (.nil _))
  exact ⟨_, run, rfl, live_pids_distinct _ run (by decide)⟩

/-- The counter wraps around: the process created with the last of 2^32 numbers has number zero, and the
one after it has the number of the first process, which is still alive. -/
theorem pids_wrap_around :
    (∃ ops last, Run PidStep ⟨processInit (bootKernel spaciousPmm), []⟩ ops last ∧
      numbersTaken ops = 2 ^ 32 ∧ ∃ proc ∈ last.live, (last.kernel.procs proc).pid = 0) ∧
    ∃ ops last, Run PidStep ⟨processInit (bootKernel spaciousPmm), []⟩ ops last ∧
      ∃ one ∈ last.live, ∃ two ∈ last.live, one ≠ two ∧
        (last.kernel.procs one).pid = (last.kernel.procs two).pid := by
  have room : FreeRun (processInit (bootKernel spaciousPmm)).pmm 256 (stackPages + 512) := spaciousPmm_run
  constructor
  · -- All numbers but one are taken by processes that do not live long.
    obtain ⟨kernel, run, left, next, -⟩ := @createDestroy_run (processInit (bootKernel spaciousPmm)) []
      16 256 512 (by decide) List.not_mem_nil room (by decide) (2 ^ 32 - 1)
    obtain ⟨last, ran, made⟩ := @created_run kernel 16 256 512 [] 0 (by decide) (by decide) left
    refine ⟨_, ⟨last, [16]⟩, run.append (.cons (.created List.not_mem_nil (by decide) ran) (.nil _)), ?_,
      16, List.mem_singleton.mpr rfl, ?_⟩
    · have turns := numbersTaken_createDestroy (show 16 ≠ 0 by decide) (2 ^ 32 - 1)
      rw [numbersTaken] at turns ⊢
      rw [List.countP_append, turns]
      rfl
    · exact made.pid.trans next
  · -- The first process lives on while the others come and go.
    obtain ⟨one, oneRan, oneMade⟩ := @created_run (processInit (bootKernel spaciousPmm)) 32 256 512 [] 0
      (by decide) (by decide) room
    have number : one.nextPid = 2 := oneMade.nextPid
    obtain ⟨kernel, run, left, next, pids⟩ := @createDestroy_run one [32] 16 512 256 (by decide)
      (by decide) oneMade.run (by rw [number]; decide) (2 ^ 32 - 1)
    obtain ⟨last, ran, made⟩ := @created_run kernel 16 512 256 [] 0 (by decide) (by decide) left
    refine ⟨_, ⟨last, [16, 32]⟩, .cons (.created List.not_mem_nil (by decide) oneRan)
      (run.append (.cons (.created (by simp) (by decide) ran) (.nil _))), 16, List.mem_cons_self, 32,
      List.mem_cons_of_mem _ List.mem_cons_self, by decide, ?_⟩
    -- The first process still has the first number.
    have first : (last.procs 32).pid = 1 := by
      rw [made.others 32 (by decide), pids 32 (by decide), oneMade.pid]
      rfl
    have again : (last.procs 16).pid = 1 := by
      rw [made.pid, next, number]
      rfl
    exact again.trans first.symm

end MiraOS
