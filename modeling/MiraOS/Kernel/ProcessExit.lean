import MiraOS.Kernel.ProcessLaws

/-! What still refers to a process after it has ended. -/

namespace MiraOS

open Machine

/-- The walk along the process list meets the process right after one or more processes that are not in
the ready queue. -/
inductive BehindIdle (kernel : Kernel) (proc : Nat) : Nat → Prop where
  | next {node : Nat} (real : node ≠ 0) (idle : ¬ InQueue kernel node)
      (link : kernel.next node = proc) : BehindIdle kernel proc node
  | later {node : Nat} (real : node ≠ 0) (idle : ¬ InQueue kernel node)
      (rest : BehindIdle kernel proc (kernel.next node)) : BehindIdle kernel proc node

/-- The process that the walk starts at is not in the ready queue. -/
theorem BehindIdle.idle {kernel : Kernel} {proc node : Nat} (behind : BehindIdle kernel proc node) :
    ¬ InQueue kernel node := by
  -- Either way the node itself is not in the queue.
  cases behind with
  | next _ idle _ => exact idle
  | later _ idle _ => exact idle

/-- Nothing refers to the process any more: it is not current, the process list followed through its
links does not meet it, it is at neither end of the ready queue, and another exit does not give its memory
back again. -/
structure Forgotten (last : Kernel) (proc : Nat) : Prop where
  current : last.currentProcess ≠ proc
  list : ¬ Met 0 last.next last.processList proc
  head : last.readyQueue ≠ proc
  tail : last.readyQueueTail ≠ proc
  once : ∀ status again, syscallExit status last = .ok again →
    again.freed.count proc = last.freed.count proc

/-- Every page of a stack has its flag in the page bitmap, or there is no stack. -/
def StackDescribed (stackBottom : Nat) : Prop :=
  stackBottom = 0 ∨ ∀ i, i < stackPages → add64 stackBottom (i * pageSize) / pageSize < maxPhysPages

section

variable {kernel last : Kernel} {queue front back : List Nat} {proc : Nat}

/-- Giving back a page succeeds exactly when the bitmap describes the page. -/
theorem pmmFreePage_ok_iff (pmm : Pmm) (page : Nat) :
    (∃ after, pmmFreePage pmm page = .ok after) ↔ page / pageSize < maxPhysPages := by
  constructor
  · rintro ⟨after, freed⟩
    -- The flag is tested first, and the test stops at an index past the array.
    obtain ⟨used, tested, -⟩ := bind_eq_ok.mp freed
    unfold bitmapTest at tested
    split at tested
    · rename_i inside
      simp only [bitmapSize, maxPhysPages] at inside ⊢
      omega
    · cases tested
  · intro within
    -- A page that is free already is left alone, and one in use is given back.
    have inside := page_in_bitmap within
    cases used : pmm.pageBitmap.test (page / pageSize) with
    | false =>
      refine ⟨pmm, ?_⟩
      simp [pmmFreePage, bitmapTest, inside, used, Bind.bind, Except.bind, Pure.pure, Except.pure]
    | true =>
      refine ⟨pmm.giveBack (page / pageSize), ?_⟩
      simp [pmmFreePage, bitmapTest, bitmapClear, inside, used, Pmm.giveBack, Bind.bind, Except.bind,
        Pure.pure, Except.pure]

/-- Giving back pages of a stack succeeds exactly when the bitmap describes all of them. -/
theorem freeStackPages_ok_iff (pmm : Pmm) (stackBottom count i : Nat) :
    (∃ after, freeStackPages stackBottom count i pmm = .ok after) ↔
      ∀ j, i ≤ j → j < i + count → add64 stackBottom (j * pageSize) / pageSize < maxPhysPages := by
  -- Induction on the pages that are left: the first of them, and then the loop from the next one on.
  induction count generalizing pmm i with
  | zero => exact ⟨fun _ j low high => by omega, fun _ => ⟨pmm, rfl⟩⟩
  | succ count ih =>
    constructor
    · rintro ⟨after, ran⟩ j low high
      obtain ⟨middle, freed, rest⟩ := bind_eq_ok.mp ran
      rcases Nat.eq_or_lt_of_le low with same | later
      · rw [← same]
        exact (pmmFreePage_ok_iff pmm _).mp ⟨middle, freed⟩
      · exact (ih middle (i + 1)).mp ⟨after, rest⟩ j later (by omega)
    · intro within
      obtain ⟨middle, freed⟩ := (pmmFreePage_ok_iff pmm _).mpr (within i (Nat.le_refl i) (by omega))
      obtain ⟨after, rest⟩ := (ih middle (i + 1)).mpr fun j low high =>
        within j (by omega) (by omega)
      exact ⟨after, bind_eq_ok.mpr ⟨middle, freed, rest⟩⟩

/-- Giving back a stack succeeds exactly when the bitmap describes it. -/
theorem freeStack_ok_iff (pmm : Pmm) (stackBottom : Nat) :
    (∃ after, freeStack stackBottom pmm = .ok after) ↔ StackDescribed stackBottom := by
  unfold freeStack StackDescribed
  -- Without a stack nothing is freed, and otherwise every page of it needs a bit in the bitmap.
  by_cases none : stackBottom = 0
  · simp [none]
  · rw [if_neg none, freeStackPages_ok_iff]
    simp only [none, false_or, Nat.zero_le, true_implies, Nat.zero_add]

/-- A stack that lies in the memory of the bitmap is described by it. -/
theorem stackDescribed_of_le {stackBottom : Nat}
    (within : stackBottom + processStackSize ≤ maxPhysPages * pageSize) :
    StackDescribed stackBottom := by
  refine .inr fun i small => ?_
  -- The end of the stack is far below the range of a word, so no sum wraps around.
  simp only [processStackSize, maxPhysPages, stackPages, pageSize] at within small ⊢
  rw [add64_of_lt (by omega)]
  omega

/-- A process without neighbours is taken out of the process list. -/
theorem unlinkProcess_alone (next : kernel.next proc = 0) (prev : kernel.prev proc = 0) :
    unlinkProcess proc kernel =
      { kernel with processList := if kernel.processList = proc then 0 else kernel.processList } := by
  -- Neither side has a process to join, so at most the head moves.
  have next : (kernel.procs proc).next = 0 := next
  have prev : (kernel.procs proc).prev = 0 := prev
  unfold unlinkProcess joinAround
  by_cases head : kernel.processList = proc
  · simp [next, prev, head]
  · simp [next, prev, head]

/-- Storing the status changes no link and no stack. -/
theorem onlyLinks_markExited (status : Nat) : OnlyLinks kernel (kernel.markExited proc status) :=
  onlyLinks_modify rfl rfl rfl

/-- Storing the status and taking a process out of the ready queue. -/
theorem onlyLinks_removed (status : Nat) :
    OnlyLinks kernel (schedulerRemove proc (kernel.markExited proc status)) :=
  (onlyLinks_markExited status).trans onlyLinks_schedulerRemove

/-- The kernel after a process has ended, before the tick. -/
structure Ended (kernel : Kernel) (proc : Nat) (front back : List Nat) (after : Kernel) : Prop where
  isQueue : IsQueue after (front ++ back)
  outside : ∀ other, other ∉ front ++ proc :: back → after.next other = kernel.next other
  list : after.processList = if kernel.processList = proc then 0 else kernel.processList
  current : after.currentProcess = kernel.currentProcess
  freed : after.freed = kernel.freed ++ [proc]

/-- A process of the ready queue is ended. -/
theorem endProcess_ended (status : Nat) (isQueue : IsQueue kernel (front ++ proc :: back))
    (stack : StackDescribed (kernel.procs proc).stackBottom) :
    ∃ after, endProcess proc status kernel = .ok after ∧ Ended kernel proc front back after := by
  have real : proc ≠ 0 := fun null => isQueue.list.solid (by rw [null]; simp)
  -- First the status is stored, which touches no link.
  have nexts : ∀ other, (kernel.markExited proc status).next other = kernel.next other :=
    fun other => modify_keeps kernel proc _ other Process.next rfl
  have prevs : ∀ other, (kernel.markExited proc status).prev other = kernel.prev other :=
    fun other => modify_keeps kernel proc _ other Process.prev rfl
  have marked : IsQueue (kernel.markExited proc status) (front ++ proc :: back) :=
    ⟨isQueue.list.frame (fun a _ => nexts a) (fun a _ => prevs a), isQueue.head, isQueue.tail⟩
  -- Then the process is taken out of the ready queue, which leaves it without neighbours.
  have only := @onlyLinks_removed kernel proc status
  have removed := schedulerRemove_queue marked
  have links := @schedulerRemove_links (kernel.markExited proc status) proc real proc
  rw [if_pos rfl, if_pos rfl] at links
  -- At last it is destroyed.
  rw [← only.stackBottom] at stack
  obtain ⟨pmm, freed⟩ :=
    (freeStack_ok_iff (schedulerRemove proc (kernel.markExited proc status)).pmm _).mpr stack
  have alone := @unlinkProcess_alone
    ((schedulerRemove proc (kernel.markExited proc status)).withPmm pmm) proc links.1 links.2
  refine ⟨_, (if_neg real).trans (processDestroy_freed real freed), ?_⟩
  rw [alone]
  refine ⟨⟨removed.list, removed.head, removed.tail⟩, fun other outside => ?_, ?_, ?_, ?_⟩
  · exact (schedulerRemove_outside marked outside).trans (nexts other)
  · show (if (schedulerRemove proc (kernel.markExited proc status)).processList = proc then 0
      else (schedulerRemove proc (kernel.markExited proc status)).processList) = _
    rw [only.processList]
  · exact schedulerRemove_current
  · exact congrArg (· ++ [proc]) only.freed

/-- A process that could be ended has its stack in the bitmap. -/
theorem endProcess_described {status : Nat} {after : Kernel} (real : proc ≠ 0)
    (ran : endProcess proc status kernel = .ok after) :
    StackDescribed (kernel.procs proc).stackBottom := by
  -- The status and the queue are stored elsewhere, so the stack that is given back is the one from before.
  unfold endProcess at ran
  rw [if_neg real] at ran
  obtain ⟨pmm, freed, -⟩ := processDestroy_cases real ran
  rw [← (onlyLinks_removed status).stackBottom]
  exact (freeStack_ok_iff _ _).mp ⟨pmm, freed⟩

/-- An exit gives back the memory of the current process, if there is one. -/
theorem syscallExit_freed {status : Nat} (ran : syscallExit status kernel = .ok last) :
    last.freed = kernel.freed ++ if kernel.currentProcess = 0 then [] else [kernel.currentProcess] := by
  -- The tick frees nothing, so the log is what ending the process leaves.
  obtain ⟨after, ended, ran⟩ := bind_eq_ok.mp ran
  cases ran
  rw [onlyLinks_schedulerTick.freed]
  unfold endProcess at ended
  by_cases null : kernel.currentProcess = 0
  · rw [if_pos null] at ended
    cases ended
    rw [if_pos null, List.append_nil]
  · rw [if_neg null] at ended
    obtain ⟨pmm, -, rfl⟩ := processDestroy_cases null ended
    rw [if_neg null]
    -- Only the last of the steps adds to the log.
    have unlinked := (@onlyLinks_unlinkProcess ((schedulerRemove kernel.currentProcess
      (kernel.markExited kernel.currentProcess status)).withPmm pmm) kernel.currentProcess).freed
    exact congrArg (· ++ [kernel.currentProcess])
      (unlinked.trans (onlyLinks_removed status).freed)

/-- After the process has ended, the walk along the process list meets it exactly when it stood right
behind processes that are not in the ready queue. -/
theorem met_iff_behindIdle {node : Nat} (isQueue : IsQueue kernel queue) (inside : proc ∈ queue)
    (lastQueue : ∀ a ∈ queue, a ≠ proc → last.next a ≠ 0 → last.next a ∈ queue ∧ last.next a ≠ proc)
    (outside : ∀ other, other ∉ queue → last.next other = kernel.next other) (apart : node ≠ proc) :
    Met 0 last.next node proc ↔ BehindIdle kernel proc node := by
  -- The links of the queue stay among its other processes, and the links outside did not change.
  constructor
  · intro met
    generalize target : proc = goal at met
    induction met with
    | here => exact absurd target.symm apart
    | @later node goal real rest ih =>
      subst target
      by_cases queued : node ∈ queue
      · -- From a process of the queue the walk stays among the others.
        have closed : ∀ a ∈ queue.filter fun a => a ≠ proc, last.next a ≠ 0 →
            last.next a ∈ queue.filter fun a => a ≠ proc := by
          intro a among solid
          obtain ⟨member, other⟩ := List.mem_filter.mp among
          have other : a ≠ proc := by simpa using other
          obtain ⟨next, differs⟩ := lastQueue a member other solid
          exact List.mem_filter.mpr ⟨next, by simpa using differs⟩
        have start : node ∈ queue.filter fun a => a ≠ proc :=
          List.mem_filter.mpr ⟨queued, by simpa using apart⟩
        have found := (Met.later real rest).among closed start
        simp at found
      -- Outside the queue the walk follows the links of the state before.
      · have idle : ¬ InQueue kernel node := fun met => queued ((isQueue.inQueue_iff node).mp met)
        have link := outside node queued
        by_cases direct : kernel.next node = proc
        · exact .next real idle direct
        · refine .later real idle ?_
          rw [← link]
          exact ih (by rw [link]; exact direct) rfl
  -- The other way round, the same walk is taken step by step in the state after.
  · intro behind
    have solid : proc ≠ 0 := fun null => isQueue.list.solid (null ▸ inside)
    induction behind with
    | @next node real idle link =>
      have outer : node ∉ queue := fun member => idle ((isQueue.inQueue_iff node).mpr member)
      refine .later real ?_
      rw [outside node outer, link]
      exact .here solid
    | @later node real idle rest ih =>
      have outer : node ∉ queue := fun member => idle ((isQueue.inQueue_iff node).mpr member)
      refine .later real ?_
      rw [outside node outer]
      -- The next node is not in the queue either, so it is another process.
      exact ih fun same => rest.idle ((isQueue.inQueue_iff _).mpr (same ▸ inside))

/-- The first process of a queue that is not empty is one of it. -/
theorem headD_mem (filled : queue ≠ []) : queue.headD 0 ∈ queue := by
  -- A queue with processes has a first one.
  cases queue with
  | nil => exact absurd rfl filled
  | cons first rest => exact List.mem_cons_self

/-- The process list does not lead to the ended process exactly when it was not behind idle ones. -/
theorem Ended.list_iff {after : Kernel} (isQueue : IsQueue kernel (front ++ proc :: back))
    (ended : Ended kernel proc front back after) :
    ¬ Met 0 (schedulerTick after).next (schedulerTick after).processList proc ↔
      ¬ BehindIdle kernel proc kernel.processList := by
  -- The tick turns what is left of the queue, and only stores links inside it.
  have inside : proc ∈ front ++ proc :: back := by simp
  have once := List.nodup_middle.mp isQueue.list.nodup
  have gone : proc ∉ front ++ back := (List.nodup_cons.mp once).1
  have turned := (schedulerTick_queue ended.isQueue).1
  have list : (schedulerTick after).processList =
      if kernel.processList = proc then 0 else kernel.processList :=
    onlyLinks_schedulerTick.processList.trans ended.list
  rw [list]
  by_cases head : kernel.processList = proc
  · -- The list was emptied, and a process of the ready queue is not idle.
    rw [if_pos head]
    refine ⟨fun _ behind => ?_, fun _ => not_met_null⟩
    exact behind.idle ((isQueue.inQueue_iff _).mpr (by rw [head]; exact inside))
  · rw [if_neg head]
    apply not_congr
    apply met_iff_behindIdle isQueue inside
    · intro a among other solid
      -- The links of the turned queue lead to its own processes only.
      have member : a ∈ (front ++ back).rotate 1 := by
        rw [List.mem_rotate]
        simp only [List.mem_append, List.mem_cons] at among ⊢
        tauto
      have next := turned.list.closed a member solid
      rw [List.mem_rotate] at next
      constructor
      · simp only [List.mem_append, List.mem_cons] at next ⊢
        tauto
      · exact fun same => gone (same ▸ next)
    · intro other outer
      have apart : other ∉ front ++ back := by
        simp only [List.mem_append, List.mem_cons, not_or] at outer ⊢
        tauto
      rw [schedulerTick_outside ended.isQueue apart]
      exact ended.outside other outer
    · exact head

end

/-- For every state with a well-formed ready queue that the current process is in, its exit returns a state
in which nothing refers to the process and the other ready processes are still queued exactly when the queue
holds another process, the process list does not lead to it over processes outside the queue only, and the
bitmap describes its stack. -/
theorem exit_forgets_iff {kernel : Kernel} {queue : List Nat} (isQueue : IsQueue kernel queue)
    (current : kernel.currentProcess ∈ queue) (status : Nat) :
    (∃ last, syscallExit status kernel = .ok last ∧ Forgotten last kernel.currentProcess ∧
        ∀ other ∈ queue, other ≠ kernel.currentProcess → InQueue last other) ↔
      queue ≠ [kernel.currentProcess] ∧
        ¬ BehindIdle kernel kernel.currentProcess kernel.processList ∧
        StackDescribed (kernel.procs kernel.currentProcess).stackBottom := by
  obtain ⟨front, back, split⟩ := List.append_of_mem current
  rw [split] at isQueue
  have solid : kernel.currentProcess ≠ 0 := fun null => isQueue.list.solid (by rw [null]; simp)
  constructor
  · rintro ⟨last, exited, clean, -⟩
    -- The call returned, so the stack could be given back.
    obtain ⟨middle, left, -⟩ := bind_eq_ok.mp exited
    have stack := endProcess_described solid left
    obtain ⟨after, ran, ended⟩ := endProcess_ended status isQueue stack
    have result : syscallExit status kernel = .ok (schedulerTick after) :=
      bind_eq_ok.mpr ⟨after, ran, rfl⟩
    obtain rfl : schedulerTick after = last := Except.ok.inj (result.symm.trans exited)
    refine ⟨fun alone => ?_, (ended.list_iff isQueue).mp clean.list, stack⟩
    -- With no other process the tick does nothing and the current process stays.
    have empty : front ++ back = [] := by
      rw [split] at alone
      have lengths := congrArg List.length alone
      simp only [List.length_append, List.length_cons, List.length_nil] at lengths
      apply List.eq_nil_of_length_eq_zero
      rw [List.length_append]
      omega
    have idle : schedulerTick after = after := if_pos (ended.isQueue.head_null.mpr empty)
    apply clean.current
    rw [idle, ended.current]
  · rintro ⟨others, apart, stack⟩
    -- The exit leaves the queue without the process, and the tick turns what is left.
    obtain ⟨after, ran, ended⟩ := endProcess_ended status isQueue stack
    have once := List.nodup_middle.mp isQueue.list.nodup
    have gone : kernel.currentProcess ∉ front ++ back := (List.nodup_cons.mp once).1
    obtain ⟨turned, switched⟩ := schedulerTick_queue ended.isQueue
    have members : ∀ other, other ∈ (front ++ back).rotate 1 → other ≠ kernel.currentProcess :=
      fun other among same => gone (by rwa [List.mem_rotate, same] at among)
    have filled : front ++ back ≠ [] := by
      intro empty
      obtain ⟨noFront, noBack⟩ := List.append_eq_nil_iff.mp empty
      exact others (by rw [split, noFront, noBack]; rfl)
    have turnedFilled : (front ++ back).rotate 1 ≠ [] := fun none =>
      filled (List.rotate_eq_nil_iff.mp none)
    -- With another process the tick makes that one current.
    have moved : (schedulerTick after).currentProcess ≠ kernel.currentProcess := by
      rw [switched filled]
      exact members _ (headD_mem turnedFilled)
    refine ⟨schedulerTick after, bind_eq_ok.mpr ⟨after, ran, rfl⟩,
      ⟨moved, (ended.list_iff isQueue).mpr apart, ?_, ?_, ?_⟩, ?_⟩
    · rw [turned.head]
      exact members _ (headD_mem turnedFilled)
    · intro same
      have last := (getLast?_eq_some_iff turned.list.solid).mpr ⟨solid, same ▸ turned.tail⟩
      exact members _ (List.mem_of_getLast? last) rfl
    · intro again later exited
      -- Another exit frees the process that is current then.
      rw [syscallExit_freed exited, List.count_append]
      by_cases null : (schedulerTick after).currentProcess = 0
      · rw [if_pos null, List.count_nil, Nat.add_zero]
      · rw [if_neg null, List.count_singleton]
        simp [moved]
    · intro other among apart
      -- Turning and taking out keep the other processes in the queue.
      rw [turned.inQueue_iff, List.mem_rotate]
      rw [split] at among
      simp only [List.mem_append, List.mem_cons] at among ⊢
      tauto

/-- An exit of a process whose stack the bitmap describes succeeds, and the process keeps its stack's
address. -/
theorem syscallExit_ok {kernel : Kernel} (status : Nat)
    (stack : StackDescribed (kernel.procs kernel.currentProcess).stackBottom) :
    ∃ last, syscallExit status kernel = .ok last ∧
      ∀ other, (last.procs other).stackBottom = (kernel.procs other).stackBottom := by
  -- Giving back the stack is the only step that could stop.
  by_cases null : kernel.currentProcess = 0
  · have idle : endProcess kernel.currentProcess status kernel = .ok kernel := if_pos null
    exact ⟨_, bind_eq_ok.mpr ⟨kernel, idle, rfl⟩, onlyLinks_schedulerTick.stackBottom⟩
  · have only := @onlyLinks_removed kernel kernel.currentProcess status
    rw [← only.stackBottom] at stack
    obtain ⟨pmm, freed⟩ := (freeStack_ok_iff _ _).mpr stack
    have ended : endProcess kernel.currentProcess status kernel = .ok _ :=
      (if_neg null).trans (processDestroy_freed null freed)
    refine ⟨_, bind_eq_ok.mpr ⟨_, ended, rfl⟩, fun other => ?_⟩
    have unlinked := @onlyLinks_unlinkProcess ((schedulerRemove kernel.currentProcess
      (kernel.markExited kernel.currentProcess status)).withPmm pmm) kernel.currentProcess
    exact (onlyLinks_schedulerTick.stackBottom other).trans
      ((unlinked.stackBottom other).trans (only.stackBottom other))

/-- A process that was created and made ready, with a tick that made it current. -/
theorem one_ready_process :
    ∃ kernel, IsQueue kernel [16] ∧ kernel.currentProcess = 16 ∧ kernel.freed = [] ∧
      (kernel.procs 16).stackBottom = 0x100000 ∧ kernel.processList = 16 := by
  -- The queue is empty after the creation, so the process becomes its only member.
  obtain ⟨one, -, made⟩ := @created_run (bootKernel spaciousPmm) 16 256 512 [] 0 (by decide)
    (by decide) spaciousPmm_run
  have empty : IsQueue one [] := ⟨dList_nil, made.readyQueue, made.readyQueueTail⟩
  have added := schedulerAdd_queue empty (show 16 ≠ 0 by decide) (by simp)
  obtain ⟨isQueue, current⟩ := schedulerTick_queue added
  have only := (@onlyLinks_schedulerAdd one 16).trans onlyLinks_schedulerTick
  exact ⟨_, isQueue, current (by simp), only.freed.trans made.freed,
    (only.stackBottom 16).trans made.stackBottom, only.processList.trans made.processList⟩

/-- The first of two ready processes is forgotten after its exit. -/
theorem first_of_two_forgotten :
    ∃ kernel last, kernel.currentProcess = 16 ∧ syscallExit 0 kernel = .ok last ∧
      Forgotten last 16 ∧ InQueue last 32 := by
  -- The second process keeps the queue filled, so the tick has something to switch to.
  obtain ⟨one, isQueue, current, -, bottom, list⟩ := one_ready_process
  have added : IsQueue (schedulerAdd 32 one) [16, 32] :=
    schedulerAdd_queue isQueue (by decide) (by simp)
  have only := @onlyLinks_schedulerAdd one 32
  have same : (schedulerAdd 32 one).currentProcess = 16 := schedulerAdd_current.trans current
  have stack : StackDescribed ((schedulerAdd 32 one).procs 16).stackBottom := by
    rw [only.stackBottom, bottom]
    exact stackDescribed_of_le (by decide)
  -- The process list starts with the process itself, which is in the queue.
  have apart : ¬ BehindIdle (schedulerAdd 32 one) 16 (schedulerAdd 32 one).processList := by
    intro behind
    apply behind.idle
    rw [added.inQueue_iff, only.processList, list]
    simp
  have exits := exit_forgets_iff added (by rw [same]; simp) 0
  rw [same] at exits
  obtain ⟨last, ran, clean, queued⟩ := exits.mpr ⟨by simp, apart, stack⟩
  exact ⟨_, last, same, ran, clean, queued 32 (by simp) (by decide)⟩

/-- The only ready process stays the current one after its exit, and a second exit gives its memory back
again. -/
theorem only_process_freed_twice :
    ∃ kernel last again, IsQueue kernel [16] ∧ kernel.currentProcess = 16 ∧
      syscallExit 0 kernel = .ok last ∧ last.currentProcess = 16 ∧ ¬ Forgotten last 16 ∧
      syscallExit 0 last = .ok again ∧ again.freed = [16, 16] := by
  obtain ⟨kernel, isQueue, current, freed, bottom, -⟩ := one_ready_process
  have stack : StackDescribed (kernel.procs kernel.currentProcess).stackBottom := by
    rw [current, bottom]
    exact stackDescribed_of_le (by decide)
  have ready : IsQueue kernel ([] ++ kernel.currentProcess :: []) := by
    rw [current]
    exact isQueue
  obtain ⟨after, ran, ended⟩ := endProcess_ended 0 ready stack
  -- The queue is empty, so the tick leaves the ended process current.
  have idle : schedulerTick after = after := if_pos (ended.isQueue.head_null.mpr rfl)
  have exited : syscallExit 0 kernel = .ok after :=
    bind_eq_ok.mpr ⟨after, ran, congrArg Except.ok idle⟩
  have stays : after.currentProcess = 16 := ended.current.trans current
  obtain ⟨same, sameRan, bottoms⟩ := syscallExit_ok 0 stack
  obtain rfl : same = after := Except.ok.inj (sameRan.symm.trans exited)
  obtain ⟨again, againRan, -⟩ := @syscallExit_ok same 0 (by
    rw [bottoms, stays, bottom]
    exact stackDescribed_of_le (by decide))
  refine ⟨kernel, same, again, isQueue, current, exited, stays, fun clean => clean.current stays,
    againRan, ?_⟩
  rw [syscallExit_freed againRan, syscallExit_freed exited, stays, current, freed]
  rfl

end MiraOS
