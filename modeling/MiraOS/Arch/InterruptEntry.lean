import MiraOS.Machine.Processor
import MiraOS.Machine.Words

/-! How arch/x86_64/isr.asm enters the handler of interrupts and returns to the code that was interrupted. -/

namespace MiraOS

open Machine Machine.Cpu

/-- The words on the stack when the handler is called, in their order in memory. -/
structure Registers where
  r15 : UInt64
  r14 : UInt64
  r13 : UInt64
  r12 : UInt64
  r11 : UInt64
  r10 : UInt64
  r9 : UInt64
  r8 : UInt64
  rdi : UInt64
  rsi : UInt64
  rbp : UInt64
  rbx : UInt64
  rdx : UInt64
  rcx : UInt64
  rax : UInt64
  intNo : UInt64
  errCode : UInt64
  rip : UInt64
  cs : UInt64
  rflags : UInt64
  rsp : UInt64
  ss : UInt64

/-- The structure in memory. -/
def Registers.words (regs : Registers) : List UInt64 :=
  [regs.r15, regs.r14, regs.r13, regs.r12, regs.r11, regs.r10, regs.r9, regs.r8, regs.rdi, regs.rsi, regs.rbp,
    regs.rbx, regs.rdx, regs.rcx, regs.rax, regs.intNo, regs.errCode, regs.rip, regs.cs, regs.rflags, regs.rsp, regs.ss]

/-- The registers in the order in which they are pushed. -/
def isrSave : List Register :=
  [.rax, .rcx, .rdx, .rbx, .rbp, .rsi, .rdi, .r8, .r9, .r10, .r11, .r12, .r13, .r14, .r15]

/-- The registers in the order in which they are popped. -/
def isrRestore : List Register :=
  [.r15, .r14, .r13, .r12, .r11, .r10, .r9, .r8, .rdi, .rsi, .rbp, .rbx, .rdx, .rcx, .rax]

/-- What the common stub does in front of the call, and behind it. -/
def isrEnter : List Instruction := isrSave.map .push ++ [.movFromRsp .rdi]
def isrLeave : List Instruction := isrRestore.map .pop ++ [.addRsp 16, .iretq]

/-- What the stubs push themselves: in place of an error code and the number, or the number alone. -/
def isrNoerrcode (vector : Nat) : List UInt64 := [0, UInt64.ofNat vector]
def isrErrcode (vector : Nat) : List UInt64 := [UInt64.ofNat vector]

/-- The values that the stub of a vector pushes. -/
def isrPushes (vector : Nat) : List UInt64 :=
  if vector ∈ [8, 10, 11, 12, 13, 14] then isrErrcode vector else isrNoerrcode vector

/-- The stub of a vector up to the call of the handler. -/
def isrEntry (vector : Nat) : List Instruction := (isrPushes vector).map .pushImmediate ++ isrEnter

/-- The stub of a vector. -/
def isr (vector : Nat) : List Instruction := isrEntry vector ++ .call :: isrLeave

/-- The exceptions for which the processor pushes an error code. -/
def errorCodeVectors : List Nat := [8, 10, 11, 12, 13, 14, 17, 21, 29, 30]

/-- Where the processor pushes: on the stack that is in use if this is the kernel's, and aligned. -/
def interruptStack (cpu : Cpu) (rsp0 : UInt64) : UInt64 :=
  (if cpu.cs &&& 3 = 0 then cpu.rsp else rsp0) &&& 0xFFFFFFFFFFFFFFF0

/-- The processor with the words of the interrupted code not yet pushed. -/
def interruptState (cpu : Cpu) (entry rsp0 : UInt64) : Cpu :=
  { cpu with
    rsp := interruptStack cpu rsp0
    rip := entry
    -- The flags for single steps, interrupts, nested tasks, resuming and virtual mode are cleared.
    rflags := cpu.rflags &&& 0xFFFFFFFFFFFCBCFF
    cs := 0x08
    ss := if cpu.cs &&& 3 = 0 then cpu.ss else 0 }

/-- The words that the processor pushes about the interrupted code, as they lie in memory. -/
def interruptWords (cpu : Cpu) : List UInt64 :=
  [cpu.rip, cpu.cs.toUInt64, cpu.rflags, cpu.rsp, cpu.ss.toUInt64]

/-- What the processor does for a vector before the first instruction of its stub. -/
def interruptDeliver (cpu : Cpu) (entry rsp0 : UInt64) (code : Option UInt64) : Cpu :=
  (code.toList ++ interruptWords cpu).foldr (fun word cpu => cpu.push word) (interruptState cpu entry rsp0)

/-- The structure that describes the interrupted code. -/
def interruptedRegisters (cpu : Cpu) (vector : Nat) (code : UInt64) : Registers where
  r15 := cpu.reg .r15
  r14 := cpu.reg .r14
  r13 := cpu.reg .r13
  r12 := cpu.reg .r12
  r11 := cpu.reg .r11
  r10 := cpu.reg .r10
  r9 := cpu.reg .r9
  r8 := cpu.reg .r8
  rdi := cpu.reg .rdi
  rsi := cpu.reg .rsi
  rbp := cpu.reg .rbp
  rbx := cpu.reg .rbx
  rdx := cpu.reg .rdx
  rcx := cpu.reg .rcx
  rax := cpu.reg .rax
  intNo := UInt64.ofNat vector
  errCode := code
  rip := cpu.rip
  cs := cpu.cs.toUInt64
  rflags := cpu.rflags
  rsp := cpu.rsp
  ss := cpu.ss.toUInt64

/-- A handler that returns, and leaves the structure it was given as it is. -/
structure LeavesFrame (handler : Cpu → Cpu) : Prop where
  rsp : ∀ cpu, (handler cpu).rsp = cpu.rsp
  frame : ∀ cpu, ∀ i < 22, (handler cpu).stackWord (i + 1) = cpu.stackWord (i + 1)

/-- The handler is given a pointer to the structure, on a stack that is aligned as the convention for calls asks. -/
structure GivenFrame (called : Cpu) (regs : Registers) : Prop where
  frame : StackHolds called.mem (called.reg .rdi) regs.words
  above : called.reg .rdi = wordAt called.rsp 1
  aligned : (called.reg .rdi).toNat % 16 = 0

/-- Code goes on with everything that it can see in the processor. -/
structure Resumes (cpu after : Cpu) : Prop where
  reg : after.reg = cpu.reg
  rsp : after.rsp = cpu.rsp
  rip : after.rip = cpu.rip
  rflags : after.rflags = cpu.rflags
  cs : after.cs = cpu.cs
  ss : after.ss = cpu.ss

/-- Whatever is interrupted, the handler is told about it, and it goes on afterwards. -/
def InterruptTransparent (vector : Nat) : Prop :=
  ∀ (cpu : Cpu) (entry rsp0 code link : UInt64) (userCs userSs : UInt16) (handler : Cpu → Cpu), LeavesFrame handler →
    let pushed := if vector ∈ errorCodeVectors then some code else none
    let entered := interruptDeliver cpu entry rsp0 pushed
    GivenFrame ((entered.run handler link userCs userSs (isrEntry vector)).push link)
        (interruptedRegisters cpu vector (pushed.getD 0)) ∧
      Resumes cpu (entered.run handler link userCs userSs (isr vector))

section

variable {link : UInt64} {userCs userSs : UInt16} {handler : Cpu → Cpu}

/-- The stack of an interrupt is aligned before anything is pushed. -/
theorem interruptStack_aligned (cpu : Cpu) (rsp0 : UInt64) : (interruptStack cpu rsp0).toNat % 16 = 0 := by
  rw [interruptStack]
  -- Whichever stack is taken, its top is rounded down to a multiple of 16.
  generalize (if cpu.cs &&& 3 = 0 then cpu.rsp else rsp0) = top
  rw [UInt64.toNat_and, show (0xFFFFFFFFFFFFFFF0 : UInt64).toNat = highMask 4 from rfl,
    and_highMask (by decide) top.toNat_lt]
  omega

/-- Up to the call a stub pushes its own words and the registers, and hands over the stack pointer. -/
theorem isrEntry_pushes {cpu : Cpu} (aligned : WordAligned cpu.rsp) (vector : Nat) :
    ∃ saved, Pushed cpu saved (isrRestore.map cpu.reg ++ (isrPushes vector).reverse) ∧
      cpu.run handler link userCs userSs (isrEntry vector) =
        { saved with reg := Function.update saved.reg .rdi saved.rsp } := by
  -- A stub pushes one word or two, and the common part the fifteen registers.
  have two : (isrPushes vector).length ≤ 2 := by
    rw [isrPushes]
    split_ifs
    · exact Nat.le_succ 1
    · exact Nat.le_refl 2
  have own := @run_pushImmediate handler link userCs userSs cpu aligned (isrPushes vector) (by omega)
  have all := @run_save handler link userCs userSs _ own.aligned isrSave (by decide)
  rw [own.reg] at all
  refine ⟨_, own.trans all ?_, ?_⟩
  · have many : (isrRestore.map cpu.reg).length = 15 := rfl
    rw [many, List.length_reverse]
    omega
  · rw [isrEntry, isrEnter, run_append, run_append]
    rfl

/-- Behind the call a stub takes the registers and the interrupted code from the words that the handler left. -/
theorem isrLeave_takes {called : Cpu} (leaves : LeavesFrame handler) (aligned : WordAligned called.rsp)
    {saved : Register → UInt64} {vector code rip cs rflags rsp ss : UInt64}
    (frame : StackHolds called.mem called.rsp (isrRestore.map saved ++ [vector, code, rip, cs, rflags, rsp, ss])) :
    Resumes { called with reg := saved, rsp := rsp, rip := rip, rflags := rflags, cs := cs.toUInt16, ss := ss.toUInt16 }
      (called.run handler link userCs userSs (.call :: isrLeave)) := by
  have pushed := pushed_push aligned link
  set returned := handler (called.push link) with returnedIs
  -- The handler leaves the words above the return address.
  have place : wordAt returned.rsp 1 = called.rsp := by
    rw [returnedIs, leaves.rsp]
    exact pushed.place
  have words : ∀ i < 22, loadWord returned.mem (wordAt called.rsp i) = loadWord called.mem (wordAt called.rsp i) := by
    intro i inside
    have left := leaves.frame (called.push link) i inside
    have kept := @Pushed.stackWord _ _ _ pushed aligned i (by rw [List.length_singleton]; omega)
    rw [List.length_singleton, Nat.add_comm 1] at kept
    rw [kept, Cpu.stackWord, Cpu.stackWord, Nat.add_comm, ← wordAt_wordAt, ← returnedIs, place] at left
    exact left
  have held : StackHolds returned.mem called.rsp
      (isrRestore.map saved ++ [vector, code, rip, cs, rflags, rsp, ss]) := by
    intro i word found
    have inside : i < 22 := (List.getElem?_eq_some_iff.mp found).1
    rw [words i inside]
    exact frame i word found
  -- The cleanup leaves the stack pointer where the saved registers lie.
  set back : Cpu := { returned with rsp := called.rsp } with backIs
  have restored := @run_restore handler link userCs userSs back saved _ _ held
  -- The fifteen restored registers are all the registers there are.
  have every : (fun r => if r ∈ isrRestore then saved r else back.reg r) = saved := by
    funext r
    rw [if_pos (by cases r <;> decide)]
  have step : called.step handler link userCs userSs .call = back := by
    rw [Cpu.step, Cpu.call, ← returnedIs, place]
  -- The words of the interrupted code lie behind the registers and the two words of the stub.
  have behind : wordAt called.rsp 15 + 16 = wordAt called.rsp 17 := by
    rw [show (17 : Nat) = 15 + 2 from rfl, ← wordAt_wordAt]
    rfl
  have word : ∀ i value, [rip, cs, rflags, rsp, ss][i]? = some value →
      loadWord returned.mem (wordAt (wordAt called.rsp 15 + 16) i) = value := by
    intro i value found
    rw [behind, wordAt_wordAt]
    exact held (17 + i) value (by rw [Nat.add_comm]; exact found)
  rw [isrLeave, run_cons, step, run_append, restored, every]
  refine ⟨rfl, word 3 rsp rfl, word 0 rip rfl, word 2 rflags rfl, ?_, ?_⟩
  · exact congrArg UInt64.toUInt16 (word 1 cs rfl)
  · exact congrArg UInt64.toUInt16 (word 4 ss rfl)

/-- What is on the stack at the call: the registers, the words of the stub, and those of the processor. -/
theorem isr_frame (cpu : Cpu) (vector : Nat) (entry rsp0 : UInt64) (code : Option UInt64) :
    ∃ saved : Cpu, saved.reg = cpu.reg ∧ saved.rsp.toNat % 8 = 0 ∧
      wordAt saved.rsp (15 + (isrPushes vector).length + code.toList.length + 5) = interruptStack cpu rsp0 ∧
      StackHolds saved.mem saved.rsp
        (isrRestore.map cpu.reg ++ (isrPushes vector).reverse ++ code.toList ++ interruptWords cpu) ∧
      (interruptDeliver cpu entry rsp0 code).run handler link userCs userSs (isrEntry vector) =
        { saved with reg := Function.update saved.reg .rdi saved.rsp } := by
  -- The processor aligns the stack before it pushes, so that every push after it is aligned as well.
  have start : WordAligned (interruptState cpu entry rsp0).rsp := by
    have top := interruptStack_aligned cpu rsp0
    rw [WordAligned, interruptState]
    dsimp only
    omega
  have short : code.toList.length ≤ 1 := by
    cases code with
    | none => exact Nat.zero_le 1
    | some code => exact Nat.le_refl 1
  have few : (code.toList ++ interruptWords cpu).length < 2 ^ 60 := by
    rw [List.length_append, show (interruptWords cpu).length = 5 from rfl]
    omega
  -- Delivery is itself a run of pushes, and the stub goes on from where it ends.
  have delivered := pushed_words start (code.toList ++ interruptWords cpu) few
  obtain ⟨saved, pushed, ran⟩ := @isrEntry_pushes link userCs userSs handler _ delivered.aligned vector
  have two : (isrPushes vector).length ≤ 2 := by
    rw [isrPushes]
    split_ifs
    · exact Nat.le_succ 1
    · exact Nat.le_refl 2
  have all := delivered.trans pushed (by
    rw [List.length_append, List.length_map, List.length_reverse, List.length_append,
      show (interruptWords cpu).length = 5 from rfl, show isrRestore.length = 15 from rfl]
    omega)
  have same : ((code.toList ++ interruptWords cpu).foldr (fun word cpu => cpu.push word)
      (interruptState cpu entry rsp0)).reg = cpu.reg := delivered.reg
  rw [same, ← List.append_assoc] at all
  refine ⟨saved, all.reg, all.aligned, ?_, all.stack, ran⟩
  -- The stack pointer at the start is that of the interrupted code as the processor aligned it.
  have place := all.place
  rw [List.length_append, List.length_append, List.length_append, List.length_map, List.length_reverse] at place
  exact place

/-- The stubs that push as many words as the processor leaves out. -/
theorem isr_transparent_of_words {vector : Nat} {pushed : UInt64 → Option UInt64}
    (given : ∀ code, (if vector ∈ errorCodeVectors then some code else none) = pushed code)
    (words : ∀ code, (isrPushes vector).reverse ++ (pushed code).toList =
      [UInt64.ofNat vector, (pushed code).getD 0]) : InterruptTransparent vector := by
  intro cpu entry rsp0 code link userCs userSs handler leaves
  dsimp only
  rw [given code]
  obtain ⟨saved, registers, aligned, top, stack, ran⟩ :=
    @isr_frame link userCs userSs handler cpu vector entry rsp0 (pushed code)
  rw [List.append_assoc (isrRestore.map cpu.reg), words code] at stack
  set called : Cpu := { saved with reg := Function.update saved.reg .rdi saved.rsp } with calledIs
  have link_pushed := @pushed_push called aligned link
  -- Twenty-two words are between the stack pointer and the aligned top.
  have count : (isrPushes vector).length + (pushed code).toList.length = 2 := by
    have lengths := congrArg List.length (words code)
    rwa [List.length_append, List.length_reverse] at lengths
  have sixteen : saved.rsp.toNat % 16 = 0 := by
    have low := saved.rsp.toNat_lt
    have height := congrArg UInt64.toNat top
    rw [toNat_wordAt] at height
    have multiple := interruptStack_aligned cpu rsp0
    omega
  constructor
  · rw [ran]
    refine ⟨?_, ?_, ?_⟩
    · exact link_pushed.keeps aligned (show 1 + 22 < 2 ^ 60 by omega) stack
    · exact link_pushed.place.symm
    · exact sixteen
  · rw [isr, run_append, ran]
    have back := @isrLeave_takes link userCs userSs handler called leaves aligned cpu.reg _ _ _ _ _ _ _ stack
    rw [UInt16.toUInt16_toUInt64, UInt16.toUInt16_toUInt64] at back
    exact ⟨back.reg, back.rsp, back.rip, back.rflags, back.cs, back.ss⟩

/-- Where the processor pushes an error code that the stub does not expect, the handler reads it as an address. -/
theorem isr_shifted {vector : Nat} (pushes : vector ∈ errorCodeVectors)
    (stub : isrPushes vector = isrNoerrcode vector) :
    ¬ InterruptTransparent vector := by
  intro transparent
  -- Code at the address one, interrupted with an error code of zero.
  set cpu : Cpu := ⟨fun _ => 0, 0, 1, 0, 0x08, 0, 0, 0, fun _ => 0⟩ with cpuIs
  obtain ⟨⟨frame, -, -⟩, -⟩ := transparent cpu 0 0 0 0 0 0 id ⟨fun _ => rfl, fun _ _ _ => rfl⟩
  obtain ⟨saved, registers, aligned, top, stack, ran⟩ := @isr_frame 0 0 0 id cpu vector 0 0 (some 0)
  rw [if_pos pushes, ran] at frame
  set called : Cpu := { saved with reg := Function.update saved.reg .rdi saved.rsp } with calledIs
  rw [stub] at stack
  have few : [(0 : UInt64)].length + (isrRestore.map cpu.reg ++ (isrNoerrcode vector).reverse ++
      (some (0 : UInt64)).toList ++ interruptWords cpu).length < 2 ^ 60 := show 1 + 23 < 2 ^ 60 by omega
  have kept := (@pushed_push called aligned 0).keeps aligned few stack
  -- The word that should be the address of the code is the error code.
  have zero := kept 17 0 rfl
  have one := frame 17 1 rfl
  have differ : (0 : UInt64) = 1 := zero.symm.trans one
  exact absurd differ (by decide)

end

/--
Every interrupt is transparent but for four exceptions.

The handler is given the vector, the error code and all registers of the interrupted code, on an aligned stack, and the
code goes on with all of them. For the four the processor pushes an error code, but their stubs push another one.
-/
theorem isr_transparent_iff (vector : Nat) : InterruptTransparent vector ↔ vector ∉ [17, 21, 29, 30] := by
  constructor
  · -- For the four vectors two error codes lie on the stack, and the return takes the wrong words.
    intro transparent among
    have every : ∀ v ∈ [17, 21, 29, 30], v ∈ errorCodeVectors ∧ isrPushes v = isrNoerrcode v := by decide
    exact isr_shifted (every vector among).1 (every vector among).2 transparent
  · intro other
    -- With a stub for an error code the word that the processor pushes is in the place of the field.
    by_cases stub : vector ∈ [8, 10, 11, 12, 13, 14]
    · have every : ∀ v ∈ [8, 10, 11, 12, 13, 14], v ∈ errorCodeVectors := by decide
      refine isr_transparent_of_words (fun code => if_pos (every vector stub)) fun code => ?_
      rw [isrPushes, if_pos stub]
      rfl
    · -- Without one the stub pushes the word for the field itself.
      have bare : vector ∉ errorCodeVectors := by
        rw [errorCodeVectors]
        simp only [List.mem_cons, List.not_mem_nil, or_false, not_or] at stub other ⊢
        omega
      refine isr_transparent_of_words (fun code => if_neg bare) fun code => ?_
      rw [isrPushes, if_neg stub]
      rfl

end MiraOS
