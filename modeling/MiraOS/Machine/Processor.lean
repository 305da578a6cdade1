import Mathlib.Data.List.Induction
import Mathlib.Logic.Function.Basic
import MiraOS.Machine.StackWords

/-! The part of a processor of 64 bits that is used to enter and to leave a kernel, and to save registers. -/

namespace Machine

/-- The general registers, without the stack pointer. -/
inductive Register where
  | rax | rcx | rdx | rbx | rbp | rsi | rdi | r8 | r9 | r10 | r11 | r12 | r13 | r14 | r15
  deriving DecidableEq, Repr

/-- A processor and its memory. -/
structure Cpu where
  reg : Register → UInt64
  rsp : UInt64
  rip : UInt64
  rflags : UInt64
  cs : UInt16
  ss : UInt16
  -- The base of addresses with the prefix gs, and the one that swapgs exchanges it with.
  gsBase : UInt64
  kernelGsBase : UInt64
  mem : Memory

/-- Instructions, in the words of the assembler. -/
inductive Instruction where
  | push (source : Register)
  | pushImmediate (value : UInt64)
  | pop (destination : Register)
  | mov (destination source : Register)
  -- The stack pointer as the source, and as one of the operands with an offset from gs.
  | movFromRsp (destination : Register)
  | storeRspGs (offset : UInt64)
  | loadRspGs (offset : UInt64)
  | addRsp (value : UInt64)
  | swapgs
  | call
  | iretq
  | sysretq

namespace Cpu

/-- Put a word on the stack. -/
def push (cpu : Cpu) (value : UInt64) : Cpu :=
  { cpu with rsp := cpu.rsp - 8, mem := storeWord cpu.mem (cpu.rsp - 8) value }

@[simp] theorem push_reg (cpu : Cpu) (value : UInt64) : (cpu.push value).reg = cpu.reg := rfl
@[simp] theorem push_rsp (cpu : Cpu) (value : UInt64) : (cpu.push value).rsp = cpu.rsp - 8 := rfl
@[simp] theorem push_gsBase (cpu : Cpu) (value : UInt64) : (cpu.push value).gsBase = cpu.gsBase := rfl
@[simp] theorem push_kernelGsBase (cpu : Cpu) (value : UInt64) :
    (cpu.push value).kernelGsBase = cpu.kernelGsBase := rfl

/-- The word at a place of the stack. -/
def stackWord (cpu : Cpu) (i : Nat) : UInt64 := loadWord cpu.mem (wordAt cpu.rsp i)

section

variable (callee : Cpu → Cpu) (link : UInt64)

/-- Call a function: the return address is on the stack until it returns. -/
def call (cpu : Cpu) : Cpu :=
  let returned := callee (cpu.push link)
  { returned with rsp := wordAt returned.rsp 1 }

/-- Do an instruction; the selectors that sysretq loads are given. -/
def step (userCs userSs : UInt16) (cpu : Cpu) : Instruction → Cpu
  | .push source => cpu.push (cpu.reg source)
  | .pushImmediate value => cpu.push value
  | .pop destination =>
    { cpu with reg := Function.update cpu.reg destination (cpu.stackWord 0), rsp := wordAt cpu.rsp 1 }
  | .mov destination source => { cpu with reg := Function.update cpu.reg destination (cpu.reg source) }
  | .movFromRsp destination => { cpu with reg := Function.update cpu.reg destination cpu.rsp }
  | .storeRspGs offset => { cpu with mem := storeWord cpu.mem (cpu.gsBase + offset) cpu.rsp }
  | .loadRspGs offset => { cpu with rsp := loadWord cpu.mem (cpu.gsBase + offset) }
  | .addRsp value => { cpu with rsp := cpu.rsp + value }
  | .swapgs => { cpu with gsBase := cpu.kernelGsBase, kernelGsBase := cpu.gsBase }
  | .call => cpu.call callee link
  | .iretq =>
    -- The words are the instruction pointer, the code segment, the flags, the stack pointer and its segment.
    { cpu with
      rip := cpu.stackWord 0
      cs := (cpu.stackWord 1).toUInt16
      rflags := cpu.stackWord 2
      rsp := cpu.stackWord 3
      ss := (cpu.stackWord 4).toUInt16 }
  | .sysretq => { cpu with rip := cpu.reg .rcx, rflags := cpu.reg .r11, cs := userCs, ss := userSs }

/-- Do instructions one after another. -/
def run (userCs userSs : UInt16) (cpu : Cpu) (code : List Instruction) : Cpu :=
  code.foldl (step callee link userCs userSs) cpu

end

/-- After some words were pushed, these are on the stack, and nothing else was changed. -/
structure Pushed (cpu after : Cpu) (words : List UInt64) : Prop where
  rest : after = { cpu with rsp := after.rsp, mem := after.mem }
  place : wordAt after.rsp words.length = cpu.rsp
  aligned : WordAligned after.rsp
  stack : StackHolds after.mem after.rsp words
  outside : ∀ p, WordAligned p → (∀ i < words.length, p ≠ wordAt after.rsp i) →
    loadWord after.mem p = loadWord cpu.mem p

section

variable {cpu middle after : Cpu} {words more : List UInt64}

theorem Pushed.reg (pushed : Pushed cpu after words) : after.reg = cpu.reg := by
  rw [pushed.rest]

/-- Nothing pushed. -/
theorem Pushed.nil (aligned : WordAligned cpu.rsp) : Pushed cpu cpu [] :=
  ⟨rfl, wordAt_zero _, aligned, .nil, fun _ _ _ => rfl⟩

/-- One word. -/
theorem pushed_push (aligned : WordAligned cpu.rsp) (value : UInt64) : Pushed cpu (cpu.push value) [value] := by
  -- The stack pointer went down by one word, and stays aligned.
  have place : wordAt (cpu.rsp - 8) 1 = cpu.rsp := (wordAt_below cpu.rsp 0).trans (wordAt_zero _)
  have lower : WordAligned (cpu.rsp - 8) := by
    have low := cpu.rsp.toNat_lt
    rw [WordAligned] at aligned ⊢
    rw [UInt64.toNat_sub, show (8 : UInt64).toNat = 8 from rfl]
    omega
  -- Only the new word was written, and no other aligned one overlaps it.
  refine ⟨rfl, place, lower, StackHolds.nil.push aligned (by simp) value, fun p other apart => ?_⟩
  refine loadWord_storeWord_of_ne cpu.mem value lower other ?_
  have first := apart 0 Nat.one_pos
  rwa [wordAt_zero] at first

/-- Words that are pushed later come in front of those pushed before. -/
theorem Pushed.trans (one : Pushed cpu middle words) (two : Pushed middle after more)
    (few : more.length + words.length < 2 ^ 60) : Pushed cpu after (more ++ words) := by
  have places : ∀ i, wordAt after.rsp (more.length + i) = wordAt middle.rsp i := by
    intro i
    rw [← wordAt_wordAt, two.place]
  refine ⟨?_, ?_, two.aligned, fun i word found => ?_, fun p aligned apart => ?_⟩
  · rw [two.rest, one.rest]
  · rw [List.length_append, places, one.place]
  · by_cases front : i < more.length
    · rw [List.getElem?_append_left front] at found
      exact two.stack i word found
    · -- The words pushed before lie above those pushed later.
      obtain ⟨j, rfl⟩ : ∃ j, i = more.length + j := ⟨i - more.length, by omega⟩
      rw [List.getElem?_append_right (by omega), Nat.add_sub_cancel_left] at found
      have inside := (List.getElem?_eq_some_iff.mp found).1
      rw [places, two.outside _ (one.aligned.wordAt j) fun k lower same => ?_]
      · exact one.stack j word found
      · rw [← places] at same
        have equal := (wordAt_inj (by omega) (by omega)).mp same
        omega
  · rw [List.length_append] at apart
    rw [two.outside p aligned fun i inside => apart i (by omega)]
    refine one.outside p aligned fun i inside => ?_
    rw [← places]
    exact apart _ (by omega)

/-- Pushing a word in front of others. -/
theorem Pushed.push (pushed : Pushed cpu after words) (few : words.length + 1 < 2 ^ 60) (value : UInt64) :
    Pushed cpu (after.push value) (value :: words) :=
  pushed.trans (pushed_push pushed.aligned value) (by rw [List.length_singleton]; omega)

/-- Words pushed from the last one on lie in memory in their order. -/
theorem pushed_words (aligned : WordAligned cpu.rsp) (words : List UInt64) (few : words.length < 2 ^ 60) :
    Pushed cpu (words.foldr (fun word cpu => cpu.push word) cpu) words := by
  -- Induction on the words: the last of them is pushed first.
  induction words with
  | nil => exact .nil aligned
  | cons first rest ih =>
    rw [List.length_cons] at few
    exact (ih (by omega)).push few first

/-- What is pushed leaves the words of the stack where they were. -/
theorem Pushed.stackWord (pushed : Pushed cpu after words) (aligned : WordAligned cpu.rsp) {i : Nat}
    (few : words.length + i < 2 ^ 60) : after.stackWord (words.length + i) = cpu.stackWord i := by
  -- A word above the pushed ones is none of them, as no place on the stack is reached twice.
  have place : wordAt after.rsp (words.length + i) = wordAt cpu.rsp i := by rw [← wordAt_wordAt, pushed.place]
  rw [Cpu.stackWord, Cpu.stackWord, place]
  refine pushed.outside _ (aligned.wordAt i) fun j inside same => ?_
  rw [← place] at same
  have equal := (wordAt_inj (by omega) (by omega)).mp same
  omega

/-- Words that were on the stack before stay there. -/
theorem Pushed.keeps (pushed : Pushed cpu after words) (aligned : WordAligned cpu.rsp)
    (few : words.length + more.length < 2 ^ 60) (held : StackHolds cpu.mem cpu.rsp more) :
    StackHolds after.mem cpu.rsp more := by
  refine held.congr fun i inside => ?_
  have kept := pushed.stackWord aligned (show words.length + i < 2 ^ 60 by omega)
  rwa [Cpu.stackWord, Cpu.stackWord, ← wordAt_wordAt, pushed.place] at kept

end

section

variable {callee : Cpu → Cpu} {link : UInt64} {userCs userSs : UInt16}

theorem run_append (cpu : Cpu) (code rest : List Instruction) :
    cpu.run callee link userCs userSs (code ++ rest) =
      (cpu.run callee link userCs userSs code).run callee link userCs userSs rest := List.foldl_append

theorem run_cons (cpu : Cpu) (first : Instruction) (rest : List Instruction) :
    cpu.run callee link userCs userSs (first :: rest) =
      (cpu.step callee link userCs userSs first).run callee link userCs userSs rest := rfl

/-- Saving registers puts them on the stack, the last one in front. -/
theorem run_save {cpu : Cpu} (aligned : WordAligned cpu.rsp) (registers : List Register)
    (few : registers.length < 2 ^ 60) :
    Pushed cpu (cpu.run callee link userCs userSs (registers.map .push)) (registers.map cpu.reg).reverse := by
  -- The induction is from the last register on, which is pushed behind the others.
  induction registers using List.reverseRecOn with
  | nil => exact .nil aligned
  | append_singleton front last ih =>
    rw [List.length_append, List.length_singleton] at few
    have before := ih (by omega)
    rw [List.map_append, List.map_append, run_append, List.reverse_append]
    have value := before.push (by rw [List.length_reverse, List.length_map]; exact few) (cpu.reg last)
    rw [List.map_singleton, run_cons, step, before.reg]
    exact value

/-- Constants are pushed one after another, and the last one is in front. -/
theorem run_pushImmediate {cpu : Cpu} (aligned : WordAligned cpu.rsp) (values : List UInt64)
    (few : values.length < 2 ^ 60) :
    Pushed cpu (cpu.run callee link userCs userSs (values.map .pushImmediate)) values.reverse := by
  have pushed := pushed_words aligned values.reverse (by rw [List.length_reverse]; exact few)
  rw [run, List.foldl_map, ← List.foldr_reverse]
  exact pushed

/-- Restoring registers takes the values that were saved for them from the stack. -/
theorem run_restore {cpu : Cpu} {saved : Register → UInt64} {words : List UInt64} {registers : List Register}
    (holds : StackHolds cpu.mem cpu.rsp (registers.map saved ++ words)) :
    cpu.run callee link userCs userSs (registers.map .pop) =
      { cpu with
        reg := fun r => if r ∈ registers then saved r else cpu.reg r
        rsp := wordAt cpu.rsp registers.length } := by
  induction registers generalizing cpu with
  | nil =>
    rw [List.length_nil, wordAt_zero]
    simp only [List.not_mem_nil, if_false]
    rfl
  | cons first rest ih =>
    obtain ⟨top, behind⟩ := stackHolds_cons.mp holds
    have popped : cpu.step callee link userCs userSs (.pop first) =
        { cpu with reg := Function.update cpu.reg first (saved first), rsp := wordAt cpu.rsp 1 } := by
      rw [step, stackWord, wordAt_zero, top]
    have later := @ih { cpu with reg := Function.update cpu.reg first (saved first), rsp := wordAt cpu.rsp 1 } behind
    rw [List.map_cons, run_cons, popped, later, List.length_cons, wordAt_wordAt, Nat.add_comm 1]
    -- A register that is taken again gets the same value.
    congr 1
    funext r
    dsimp only
    by_cases same : r = first
    · subst same
      rw [Function.update_self, if_pos List.mem_cons_self, ite_self]
    · rw [Function.update_of_ne same]
      simp only [List.mem_cons, same, false_or]

end

end Cpu

end Machine
