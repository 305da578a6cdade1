import MiraOS.Machine.Processor

/-! How arch/x86_64/syscall_entry.asm takes a system call to the kernel and back, as kernel/syscall.c sets it up. -/

namespace MiraOS

open Machine Machine.Cpu

/-- Selectors of the descriptor table. -/
def gdtKernelCode : UInt16 := 0x08
def gdtKernelData : UInt16 := 0x10
def gdtUserCode : UInt16 := 0x18
def gdtUserData : UInt16 := 0x20
def gdtTss : UInt16 := 0x28

/-- The registers of the processor that say where a system call goes. -/
structure SyscallMsrs where
  efer : UInt64
  star : UInt64
  lstar : UInt64
  sfmask : UInt64
  gsBase : UInt64
  kernelGsBase : UInt64

/-- The size of the stack for system calls. -/
def syscallStackSize : UInt64 := 16384

/-- Set up the two words that the entry uses, and the registers; the addresses are those of the objects. -/
def syscallInit (data stack entry efer : UInt64) (mem : Memory) : SyscallMsrs × Memory :=
  let mem := storeWord mem data 0
  let mem := storeWord mem (data + 8) (stack + syscallStackSize)
  ({ efer := efer ||| 1
     star := gdtKernelCode.toUInt64 <<< 32 ||| (gdtUserCode ||| 3).toUInt64 <<< 48
     lstar := entry
     sfmask := (1 : UInt64) <<< 9
     gsBase := data
     kernelGsBase := data }, mem)

/-- The selectors that the processor takes from the star register, for the kernel and for going back. -/
def syscallCs (msrs : SyscallMsrs) : UInt16 := (msrs.star >>> 32).toUInt16
def syscallSs (msrs : SyscallMsrs) : UInt16 := (msrs.star >>> 32).toUInt16 + 8
def sysretCs (msrs : SyscallMsrs) : UInt16 := (msrs.star >>> 48).toUInt16 + 16 ||| 3
def sysretSs (msrs : SyscallMsrs) : UInt16 := (msrs.star >>> 48).toUInt16 + 8 ||| 3

/-- What the processor does at a system call, from behind the instruction on. -/
def syscallDeliver (msrs : SyscallMsrs) (cpu : Cpu) : Cpu :=
  { cpu with
    reg := Function.update (Function.update cpu.reg .rcx cpu.rip) .r11 cpu.rflags
    rip := msrs.lstar
    rflags := cpu.rflags &&& ~~~msrs.sfmask
    cs := syscallCs msrs
    ss := syscallSs msrs }

/-- The entry up to the call. -/
def syscallEnter : List Instruction :=
  -- Save the stack pointer of the user, and switch to the stack of the kernel.
  [.swapgs, .storeRspGs 0, .loadRspGs 8, .swapgs, .push .rcx, .push .r11] ++
    -- The arguments are moved to where the convention for calls has them.
    [.mov .r9 .r8, .mov .r8 .r10, .mov .rcx .rdx, .mov .rdx .rsi, .mov .rsi .rdi, .mov .rdi .rax]

/-- What is behind the call. -/
def syscallLeave : List Instruction := [.pop .r11, .pop .rcx, .swapgs, .loadRspGs 0, .swapgs, .sysretq]

/-- The whole entry. -/
def syscallEntry : List Instruction := syscallEnter ++ .call :: syscallLeave

/-- The registers that a function must leave as they are. -/
def calleeSaved : List Register := [.rbx, .rbp, .r12, .r13, .r14, .r15]

/-- A function that returns as the convention for calls asks, and leaves the two words of the entry alone. -/
structure KeepsConvention (data : UInt64) (dispatch : Cpu → Cpu) : Prop where
  rsp : ∀ cpu, (dispatch cpu).rsp = cpu.rsp
  reg : ∀ cpu, ∀ r ∈ calleeSaved, (dispatch cpu).reg r = cpu.reg r
  -- The words of its caller are on the stack behind the return address.
  frame : ∀ cpu, ∀ i < 2, (dispatch cpu).stackWord (i + 1) = cpu.stackWord (i + 1)
  words : ∀ cpu, ∀ i < 2, loadWord (dispatch cpu).mem (wordAt data i) = loadWord cpu.mem (wordAt data i)
  gsBase : ∀ cpu, (dispatch cpu).gsBase = cpu.gsBase
  kernelGsBase : ∀ cpu, (dispatch cpu).kernelGsBase = cpu.kernelGsBase

/-- The two words and the stack are objects of their own, and aligned. -/
structure SyscallLayout (data stack : UInt64) : Prop where
  dataAligned : data.toNat % 16 = 0
  stackAligned : stack.toNat % 16 = 0
  inside : data.toNat + 16 ≤ 2 ^ 64 ∧ stack.toNat + 16384 < 2 ^ 64
  apart : data.toNat + 16 ≤ stack.toNat ∨ stack.toNat + 16384 ≤ data.toNat

/-- A processor that is ready for a system call. -/
structure SyscallReady (data stack : UInt64) (cpu : Cpu) : Prop where
  gs : cpu.kernelGsBase = data
  kernelRsp : loadWord cpu.mem (wordAt data 1) = stack + syscallStackSize

/-- The arguments of syscall_dispatch are those of the system call, on the stack of the kernel. -/
structure Dispatched (data stack : UInt64) (cpu called : Cpu) : Prop where
  num : called.reg .rdi = cpu.reg .rax
  a1 : called.reg .rsi = cpu.reg .rdi
  a2 : called.reg .rdx = cpu.reg .rsi
  a3 : called.reg .rcx = cpu.reg .rdx
  a4 : called.reg .r8 = cpu.reg .r10
  a5 : called.reg .r9 = cpu.reg .r8
  -- The return address and two words are on the stack, which was aligned in front of the call.
  rsp : wordAt called.rsp 3 = stack + syscallStackSize
  aligned : (wordAt called.rsp 1).toNat % 16 = 0
  -- Only these words and the one for the stack pointer of the user were written.
  outside : ∀ p, WordAligned p → p ≠ data → (∀ i < 3, p ≠ wordAt called.rsp i) →
    loadWord called.mem p = loadWord cpu.mem p

/-- The user goes on behind the system call, with the result. -/
structure SyscallReturns (cpu after : Cpu) (result : UInt64) : Prop where
  rax : after.reg .rax = result
  reg : ∀ r ∈ calleeSaved, after.reg r = cpu.reg r
  rsp : after.rsp = cpu.rsp
  rip : after.rip = cpu.rip
  rflags : after.rflags = cpu.rflags
  gsBase : after.gsBase = cpu.gsBase
  kernelGsBase : after.kernelGsBase = cpu.kernelGsBase

section

variable {dispatch : Cpu → Cpu} {link userRip : UInt64} {userCs userSs : UInt16}

/-- The registers after the arguments were moved. -/
def movedArguments (reg : Register → UInt64) : Register → UInt64
  | .rdi => reg .rax
  | .rsi => reg .rdi
  | .rdx => reg .rsi
  | .rcx => reg .rdx
  | .r8 => reg .r10
  | .r9 => reg .r8
  | other => reg other

/-- The processor on the stack of the kernel, with the stack pointer of the user saved. -/
def onKernelStack (cpu : Cpu) : Cpu :=
  let mem := storeWord cpu.mem (cpu.kernelGsBase + 0) cpu.rsp
  { cpu with rsp := loadWord mem (cpu.kernelGsBase + 8), mem := mem }

/-- No argument is overwritten before it is moved. -/
theorem run_syscallMoves (cpu : Cpu) :
    cpu.run dispatch link userCs userSs
        [.mov .r9 .r8, .mov .r8 .r10, .mov .rcx .rdx, .mov .rdx .rsi, .mov .rsi .rdi, .mov .rdi .rax] =
      { cpu with reg := movedArguments cpu.reg } := by
  simp only [run, List.foldl_cons, List.foldl_nil, step]
  congr 1
  -- No move reads a register that an earlier one has written.
  funext r
  cases r <;> simp [movedArguments, Function.update]

/-- The arguments moved, on the stack of the kernel. -/
def argumentsMoved (cpu : Cpu) : Cpu := { onKernelStack cpu with reg := movedArguments cpu.reg }

/-- Up to the call the stack is switched, the arguments are moved and two words are pushed. -/
theorem run_syscallEnter (cpu : Cpu) :
    cpu.run dispatch link userCs userSs syscallEnter =
      ((argumentsMoved cpu).push (cpu.reg .rcx)).push (cpu.reg .r11) := by
  -- Everything is stored and pushed before an argument moves, so that the user's registers are still there.
  have pushed : cpu.run dispatch link userCs userSs
      [.swapgs, .storeRspGs 0, .loadRspGs 8, .swapgs, .push .rcx, .push .r11] =
      ((onKernelStack cpu).push (cpu.reg .rcx)).push (cpu.reg .r11) := by
    simp only [run, List.foldl_cons, List.foldl_nil, step, push, onKernelStack]
  -- Moving registers reads none that a push changed.
  have same : (((onKernelStack cpu).push (cpu.reg .rcx)).push (cpu.reg .r11)).reg = cpu.reg := by
    simp only [push_reg, onKernelStack]
  rw [syscallEnter, run_append, pushed, run_syscallMoves, same]
  simp only [push, argumentsMoved]

/-- Behind the call the two words and the stack pointer of the user are taken back. -/
theorem run_syscallLeave (cpu : Cpu) :
    cpu.run dispatch link userCs userSs syscallLeave =
      { cpu with
        reg := Function.update (Function.update cpu.reg .r11 (cpu.stackWord 0)) .rcx (cpu.stackWord 1)
        rsp := loadWord cpu.mem (cpu.kernelGsBase + 0)
        rip := cpu.stackWord 1
        rflags := cpu.stackWord 0
        cs := userCs
        ss := userSs } := by
  -- Two words are popped, and the stack of the user is loaded behind them.
  have second : loadWord cpu.mem (wordAt (wordAt cpu.rsp 1) 0) = cpu.stackWord 1 := by rw [wordAt_wordAt, stackWord]
  rw [← second]
  rfl

/-- The first word of the entry is the pointer to it. -/
theorem syscallLayout_slots (data : UInt64) : data + 0 = wordAt data 0 ∧ data + 8 = wordAt data 1 := by
  rw [wordAt_zero, UInt64.add_zero]
  exact ⟨rfl, rfl⟩

variable {data stack : UInt64}

/-- The end of the stack is aligned. -/
theorem SyscallLayout.top (layout : SyscallLayout data stack) :
    (stack + syscallStackSize).toNat = stack.toNat + 16384 ∧ (stack + syscallStackSize).toNat % 16 = 0 := by
  have inside := layout.inside
  have aligned := layout.stackAligned
  -- The stack lies inside the address space, so that its end does not wrap.
  have sum : (stack + syscallStackSize).toNat = stack.toNat + 16384 := by
    rw [UInt64.toNat_add, show syscallStackSize.toNat = 16384 from rfl]
    omega
  exact ⟨sum, by omega⟩

/-- The words of the entry are not among the first words of the stack. -/
theorem SyscallLayout.slot_ne (layout : SyscallLayout data stack) {rsp : UInt64}
    (place : wordAt rsp 3 = stack + syscallStackSize) {i j : Nat} (slot : i < 2) (inside : j < 3) :
    wordAt data i ≠ wordAt rsp j := by
  -- The three words below the top of the stack are on the stack, and the two of the entry are not.
  intro same
  have top := layout.top.1
  have low := rsp.toNat_lt
  have sum := congrArg UInt64.toNat place
  have equal := congrArg UInt64.toNat same
  rw [toNat_wordAt, top] at sum
  rw [toNat_wordAt, toNat_wordAt] at equal
  obtain ⟨dataEnd, stackEnd⟩ := layout.inside
  have apart := layout.apart
  omega

/-- On the stack of the kernel only the word for the stack pointer of the user was written. -/
theorem onKernelStack_ready (layout : SyscallLayout data stack) {cpu : Cpu} (ready : SyscallReady data stack cpu) :
    (onKernelStack cpu).rsp = stack + syscallStackSize ∧
      loadWord (onKernelStack cpu).mem (wordAt data 0) = cpu.rsp ∧
      ∀ p, WordAligned p → p ≠ data → loadWord (onKernelStack cpu).mem p = loadWord cpu.mem p := by
  -- The entry saves the stack pointer in one of its words, and takes the kernel's from the other one.
  obtain ⟨first, second⟩ := syscallLayout_slots data
  have aligned : WordAligned data := by
    have multiple := layout.dataAligned
    rw [WordAligned]
    omega
  have others : ∀ p, WordAligned p → p ≠ data →
      loadWord (storeWord cpu.mem data cpu.rsp) p = loadWord cpu.mem p :=
    fun p place apart => loadWord_storeWord_of_ne cpu.mem cpu.rsp aligned place apart
  -- The word that is read is not the one that was just written.
  have apart : wordAt data 1 ≠ data := by
    intro same
    have equal := (@wordAt_inj data 1 0 (by omega) (by omega)).mp (by rw [same, wordAt_zero])
    omega
  rw [onKernelStack, ready.gs, first, second, wordAt_zero]
  refine ⟨?_, loadWord_storeWord _ _ _, others⟩
  rw [others _ (aligned.wordAt 1) apart, ready.kernelRsp]

/-- The function is called with the arguments and two words on the stack of the kernel. -/
theorem syscall_dispatched (layout : SyscallLayout data stack) {cpu : Cpu} (ready : SyscallReady data stack cpu)
    (msrs : SyscallMsrs) :
    let called := ((syscallDeliver msrs cpu).run dispatch link userCs userSs syscallEnter).push link
    Dispatched data stack cpu called ∧ StackHolds called.mem called.rsp [link, cpu.rflags, cpu.rip] ∧
      loadWord called.mem data = cpu.rsp := by
  -- Delivery changes neither of the two words.
  set user := syscallDeliver msrs cpu with userIs
  have there : SyscallReady data stack user := ⟨ready.gs, ready.kernelRsp⟩
  obtain ⟨top, slot, others⟩ := onKernelStack_ready layout there
  have start : WordAligned (argumentsMoved user).rsp := by
    have multiple := layout.top.2
    rw [show (argumentsMoved user).rsp = (onKernelStack user).rsp from rfl, top, WordAligned]
    omega
  -- The call pushes three words on the new stack: both that are needed to go back, and its own return.
  have pushed := ((Pushed.nil start).push (by simp) cpu.rip).push (by simp) cpu.rflags
  have all := pushed.push (by simp) link
  have entered : user.run dispatch link userCs userSs syscallEnter =
      ((argumentsMoved user).push cpu.rip).push cpu.rflags := run_syscallEnter user
  rw [entered]
  intro called
  have place : wordAt called.rsp 3 = stack + syscallStackSize := all.place.trans top
  have reg : called.reg = movedArguments user.reg := all.reg
  have dataPlace : WordAligned data := by
    have multiple := layout.dataAligned
    rw [WordAligned]
    omega
  refine ⟨⟨?_, ?_, ?_, ?_, ?_, ?_, place, ?_, ?_⟩, all.stack, ?_⟩
  · exact congrFun reg .rdi
  · exact congrFun reg .rsi
  · exact congrFun reg .rdx
  · exact congrFun reg .rcx
  · exact congrFun reg .r8
  · exact congrFun reg .r9
  · -- Aligned as the convention asks: the top of the stack is a multiple of sixteen, and three words lie
    -- below it.
    have multiple := layout.top
    have low := called.rsp.toNat_lt
    have sum := congrArg UInt64.toNat place
    rw [toNat_wordAt] at sum
    rw [toNat_wordAt]
    omega
  · intro p aligned apart below
    exact (all.outside p aligned below).trans (others p aligned apart)
  · -- The word of the entry is not on the stack.
    have differ : ∀ j < 3, data ≠ wordAt called.rsp j := by
      intro j inside
      have apart := layout.slot_ne place (show 0 < 2 by omega) inside
      rwa [wordAt_zero] at apart
    rw [wordAt_zero] at slot
    exact (all.outside data dataPlace differ).trans slot

/-- Up to the call nothing that the user relies on is lost but what the entry saves. -/
theorem syscallEnter_keeps (msrs : SyscallMsrs) (cpu : Cpu) :
    let entered := (syscallDeliver msrs cpu).run dispatch link userCs userSs syscallEnter
    (∀ r ∈ calleeSaved, entered.reg r = cpu.reg r) ∧ entered.gsBase = cpu.gsBase ∧
      entered.kernelGsBase = cpu.kernelGsBase := by
  -- Moves and pushes write none of the registers that calls keep.
  rw [run_syscallEnter]
  refine ⟨fun r among => ?_, ?_, ?_⟩
  · simp only [push_reg]
    simp only [calleeSaved, List.mem_cons, List.not_mem_nil, or_false] at among
    rcases among with rfl | rfl | rfl | rfl | rfl | rfl <;> rfl
  · simp only [push_gsBase]
    rfl
  · simp only [push_kernelGsBase]
    rfl

/-- The user goes on with the result, and the next system call can come. -/
theorem syscall_returns (layout : SyscallLayout data stack) (keeps : KeepsConvention data dispatch) {cpu : Cpu}
    (ready : SyscallReady data stack cpu) (msrs : SyscallMsrs) :
    let called := ((syscallDeliver msrs cpu).run dispatch link userCs userSs syscallEnter).push link
    let after := (syscallDeliver msrs cpu).run dispatch link userCs userSs syscallEntry
    SyscallReturns cpu after ((dispatch called).reg .rax) ∧ SyscallReady data stack after ∧
      after.cs = userCs ∧ after.ss = userSs := by
  obtain ⟨dispatched, stacked, slot⟩ := @syscall_dispatched dispatch link userCs userSs data stack layout cpu ready msrs
  obtain ⟨saved, gs, kernelGs⟩ := @syscallEnter_keeps dispatch link userCs userSs msrs cpu
  set entered := (syscallDeliver msrs cpu).run dispatch link userCs userSs syscallEnter with enteredIs
  intro called after
  set returned := dispatch called with returnedIs
  -- The function returns with the stack pointer in front of the two words.
  have left : after = ({ returned with rsp := wordAt returned.rsp 1 } : Cpu).run dispatch link userCs userSs
      syscallLeave := by
    show Cpu.run dispatch link userCs userSs (syscallDeliver msrs cpu) syscallEntry = _
    rw [syscallEntry, run_append, run_cons]
    rfl
  have word : ∀ i < 2, loadWord returned.mem (wordAt (wordAt returned.rsp 1) i) =
      loadWord called.mem (wordAt called.rsp (i + 1)) := by
    intro i inside
    rw [wordAt_wordAt, Nat.add_comm 1]
    exact keeps.frame called i inside
  have flags : loadWord returned.mem (wordAt (wordAt returned.rsp 1) 0) = cpu.rflags :=
    (word 0 (by omega)).trans (stacked 1 cpu.rflags rfl)
  have back : loadWord returned.mem (wordAt (wordAt returned.rsp 1) 1) = cpu.rip :=
    (word 1 (by omega)).trans (stacked 2 cpu.rip rfl)
  -- The words of the entry are those that it left.
  have base : returned.kernelGsBase = data :=
    (keeps.kernelGsBase called).trans ((push_kernelGsBase entered link).trans (kernelGs.trans ready.gs))
  have top : loadWord returned.mem data = cpu.rsp := by
    have kept := keeps.words called 0 (by omega)
    rw [wordAt_zero] at kept
    exact kept.trans slot
  have kernelWord : loadWord returned.mem (wordAt data 1) = stack + syscallStackSize := by
    have aligned := layout.dataAligned
    have apart : wordAt data 1 ≠ data := by
      intro same
      have equal := (@wordAt_inj data 1 0 (by omega) (by omega)).mp (by rw [same, wordAt_zero])
      omega
    -- The word of the kernel stack is the second of the data, which the entry does not write.
    have outside := dispatched.outside (wordAt data 1) (WordAligned.wordAt (by rw [WordAligned]; omega) 1) apart
      fun j inside => layout.slot_ne dispatched.rsp (by omega) inside
    exact (keeps.words called 1 (by omega)).trans (outside.trans ready.kernelRsp)
  rw [left, run_syscallLeave]
  refine ⟨⟨rfl, fun r among => ?_, ?_, back, flags, ?_, ?_⟩, ⟨base, kernelWord⟩, rfl, rfl⟩
  · -- The registers that the convention keeps are none of the two that the return uses.
    have apart : ∀ other ∈ calleeSaved, other ≠ .rcx ∧ other ≠ .r11 := by decide
    obtain ⟨first, second⟩ := apart r among
    have kept : returned.reg r = cpu.reg r :=
      (keeps.reg called r among).trans ((congrFun (push_reg entered link) r).trans (saved r among))
    exact (Function.update_of_ne first _ _).trans ((Function.update_of_ne second _ _).trans kept)
  · show loadWord returned.mem (returned.kernelGsBase + 0) = cpu.rsp
    rw [base, UInt64.add_zero]
    exact top
  · exact (keeps.gsBase called).trans ((push_gsBase entered link).trans gs)
  · exact (keeps.kernelGsBase called).trans ((push_kernelGsBase entered link).trans kernelGs)

/-- A system call, with the selectors that were set up. -/
def syscallStep (dispatch : Cpu → Cpu) (link : UInt64) (msrs : SyscallMsrs) (cpu : Cpu) : Cpu :=
  (syscallDeliver msrs cpu).run dispatch link (sysretCs msrs) (sysretSs msrs) syscallEntry

/-- The processor at the first instruction of the function that a system call calls. -/
def syscallCalled (dispatch : Cpu → Cpu) (link : UInt64) (msrs : SyscallMsrs) (cpu : Cpu) : Cpu :=
  ((syscallDeliver msrs cpu).run dispatch link (sysretCs msrs) (sysretSs msrs) syscallEnter).push link

/-- Code of the user, which has no access to what the entry uses. -/
structure KeepsKernel (data : UInt64) (program : Cpu → Cpu) : Prop where
  gs : ∀ cpu, (program cpu).kernelGsBase = cpu.kernelGsBase
  kernelRsp : ∀ cpu, loadWord (program cpu).mem (wordAt data 1) = loadWord cpu.mem (wordAt data 1)

/-- Programs of the user one after another, each up to a system call and with it. -/
def syscallRun (dispatch : Cpu → Cpu) (link : UInt64) (msrs : SyscallMsrs) (cpu : Cpu) (programs : List (Cpu → Cpu)) :
    Cpu :=
  programs.foldl (fun cpu program => syscallStep dispatch link msrs (program cpu)) cpu

/-- Code of the user leaves the processor ready. -/
theorem KeepsKernel.ready {program : Cpu → Cpu} (keeps : KeepsKernel data program) {cpu : Cpu}
    (ready : SyscallReady data stack cpu) : SyscallReady data stack (program cpu) :=
  ⟨(keeps.gs cpu).trans ready.gs, (keeps.kernelRsp cpu).trans ready.kernelRsp⟩

/-- System calls leave the processor ready. -/
theorem syscallRun_ready (layout : SyscallLayout data stack) (keeps : KeepsConvention data dispatch)
    (msrs : SyscallMsrs)
    {programs : List (Cpu → Cpu)} (users : ∀ program ∈ programs, KeepsKernel data program) {cpu : Cpu}
    (ready : SyscallReady data stack cpu) : SyscallReady data stack (syscallRun dispatch link msrs cpu programs) := by
  -- Every program finds the processor as the call before it left it.
  induction programs generalizing cpu with
  | nil => exact ready
  | cons program rest ih =>
    have there := (users program List.mem_cons_self).ready ready
    exact ih (fun other among => users other (List.mem_cons_of_mem program among))
      (syscall_returns layout keeps there msrs).2.1

/-- The selectors that system calls return with. -/
theorem syscallInit_selectors (data stack entry efer : UInt64) (mem : Memory) :
    let msrs := (syscallInit data stack entry efer mem).1
    sysretCs msrs = gdtTss ||| 3 ∧ sysretSs msrs = gdtUserData ||| 3 := by
  dsimp only [syscallInit, sysretCs, sysretSs]
  decide

/-- The processor after system calls were set up. -/
def syscallBoot (data stack entry efer : UInt64) (cpu : Cpu) : Cpu :=
  let (msrs, mem) := syscallInit data stack entry efer cpu.mem
  { cpu with gsBase := msrs.gsBase, kernelGsBase := msrs.kernelGsBase, mem := mem }

/-- It is ready for them. -/
theorem syscallBoot_ready (data stack entry efer : UInt64) (cpu : Cpu) :
    SyscallReady data stack (syscallBoot data stack entry efer cpu) := by
  refine ⟨rfl, ?_⟩
  rw [← (syscallLayout_slots data).2]
  exact loadWord_storeWord _ _ _

end

/--
In every run after system calls were set up, each of them gets its arguments to the function on the stack of the kernel,
and the user goes on behind it with the result, its stack, its flags and the registers that calls keep.

Only the code segment is not the one of the user but the selector of the task state.
-/
theorem syscalls_return {data stack : UInt64} (layout : SyscallLayout data stack) {dispatch : Cpu → Cpu}
    (keeps : KeepsConvention data dispatch) (entry efer link : UInt64) (boot : Cpu) {programs : List (Cpu → Cpu)}
    (users : ∀ program ∈ programs, KeepsKernel data program) {program : Cpu → Cpu} (last : KeepsKernel data program) :
    let msrs := (syscallInit data stack entry efer boot.mem).1
    let user := program (syscallRun dispatch link msrs (syscallBoot data stack entry efer boot) programs)
    let called := syscallCalled dispatch link msrs user
    let after := syscallStep dispatch link msrs user
    Dispatched data stack user called ∧ SyscallReturns user after ((dispatch called).reg .rax) ∧
      after.cs = gdtTss ||| 3 ∧ after.ss = gdtUserData ||| 3 := by
  obtain ⟨cs, ss⟩ := syscallInit_selectors data stack entry efer boot.mem
  intro msrs user called after
  -- The last program, too, leaves the processor ready.
  have ready : SyscallReady data stack user :=
    last.ready (syscallRun_ready layout keeps msrs users (syscallBoot_ready data stack entry efer boot))
  have returns := @syscall_returns dispatch link (sysretCs msrs) (sysretSs msrs) data stack layout keeps _ ready msrs
  exact ⟨(syscall_dispatched layout ready msrs).1, returns.1, returns.2.2.1.trans cs, returns.2.2.2.trans ss⟩

/-- Code that only sets the register for numbers and results. -/
def setsRax (value : UInt64) (cpu : Cpu) : Cpu := { cpu with reg := Function.update cpu.reg .rax value }

@[simp] theorem setsRax_rax (value : UInt64) (cpu : Cpu) : (setsRax value cpu).reg .rax = value := rfl

/-- As a function it keeps the convention for calls. -/
theorem setsRax_keeps (data value : UInt64) : KeepsConvention data (setsRax value) where
  rsp _ := rfl
  reg cpu r among := by
    -- The result goes into a register that calls need not keep.
    have apart : ∀ other ∈ calleeSaved, other ≠ .rax := by decide
    exact Function.update_of_ne (apart r among) _ _
  frame _ _ _ := rfl
  words _ _ _ := rfl
  gsBase _ := rfl
  kernelGsBase _ := rfl

/-- The processor before system calls are set up, in the code of the kernel. -/
def kernelCpu : Cpu := ⟨fun _ => 0, 0x9000, 0x300000, 2, gdtKernelCode, gdtKernelData, 0, 0, fun _ => 0⟩

/-- Behind the second of two calls for the ticks the user has their number, its stack and its place in the code. -/
theorem second_call_returns :
    let msrs := (syscallInit 0x1000 0x10000 0x200000 0 kernelCpu.mem).1
    let user :=
      setsRax 7 (syscallRun (setsRax 100) 0 msrs (syscallBoot 0x1000 0x10000 0x200000 0 kernelCpu) [setsRax 7])
    let after := syscallStep (setsRax 100) 0 msrs user
    after.reg .rax = 100 ∧ after.rsp = user.rsp ∧ after.rip = user.rip := by
  -- The only user asks for call number seven, and the function answers with 100.
  have asks : KeepsKernel 0x1000 (setsRax 7) := ⟨fun _ => rfl, fun _ => rfl⟩
  have layout : SyscallLayout 0x1000 0x10000 := ⟨by decide, by decide, by decide, by decide⟩
  have users : ∀ program ∈ [setsRax 7], KeepsKernel 0x1000 program := fun program among =>
    List.mem_singleton.mp among ▸ asks
  have returns := (syscalls_return layout (setsRax_keeps 0x1000 100) 0x200000 0 0 kernelCpu users asks).2.1
  exact ⟨returns.rax.trans (setsRax_rax 100 _), returns.rsp, returns.rip⟩

end MiraOS
