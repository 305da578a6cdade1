import MiraOS.Kernel.Process
import MiraOS.Machine.DoublyLinked
import Mathlib.Data.List.Rotate

/-! The ready queue is a sequence of processes that every tick turns by one. -/

namespace MiraOS

open Machine

/-- The link of a process to the next one. -/
def Kernel.next (kernel : Kernel) (proc : Nat) : Nat := (kernel.procs proc).next

/-- The link of a process to the one before. -/
def Kernel.prev (kernel : Kernel) (proc : Nat) : Nat := (kernel.procs proc).prev

/-- The ready queue holds the processes, in order. -/
structure IsQueue (kernel : Kernel) (queue : List Nat) : Prop where
  list : DList 0 kernel.next kernel.prev queue
  head : kernel.readyQueue = queue.headD 0
  tail : kernel.readyQueueTail = queue.getLastD 0

/-- The process is met on the way along the ready queue. -/
def InQueue (kernel : Kernel) (proc : Nat) : Prop := Met 0 kernel.next kernel.readyQueue proc

/-- The processes met along the ready queue are those of the sequence. -/
theorem IsQueue.inQueue_iff {kernel : Kernel} {queue : List Nat} (isQueue : IsQueue kernel queue)
    (proc : Nat) : InQueue kernel proc ↔ proc ∈ queue := by
  -- The walk starts at the head of the sequence and ends at the null behind its last process.
  rw [InQueue, isQueue.head]
  exact isQueue.list.linked.met_iff isQueue.list.solid

section

variable {kernel : Kernel} {queue front back : List Nat} {proc : Nat}

/-- The links after adding a process. -/
theorem schedulerAdd_links (real : proc ≠ 0) (other : Nat) :
    (schedulerAdd proc kernel).next other =
        (if other = proc then 0
          else if kernel.readyQueue ≠ 0 ∧ other = kernel.readyQueueTail then proc
          else kernel.next other) ∧
      (schedulerAdd proc kernel).prev other =
        (if other = proc then if kernel.readyQueue = 0 then 0 else kernel.readyQueueTail
          else kernel.prev other) := by
  -- The state is stored first, which changes no link and no end of the queue.
  have nexts := modify_keeps kernel proc (fun process => { process with state := .ready }) other
    Process.next rfl
  have prevs := modify_keeps kernel proc (fun process => { process with state := .ready }) other
    Process.prev rfl
  have queue : ∀ change, (kernel.modify proc change).readyQueue = kernel.readyQueue := fun _ => rfl
  have tail : ∀ change, (kernel.modify proc change).readyQueueTail = kernel.readyQueueTail :=
    fun _ => rfl
  unfold schedulerAdd Kernel.next Kernel.prev
  rw [if_neg real]
  by_cases empty : kernel.readyQueue = 0
  · simp [queue, empty, nexts, prevs]
  · simp [queue, empty, nexts, prevs, tail]

/-- The ends of the queue after adding a process. -/
theorem schedulerAdd_ends (real : proc ≠ 0) :
    (schedulerAdd proc kernel).readyQueue =
        (if kernel.readyQueue = 0 then proc else kernel.readyQueue) ∧
      (schedulerAdd proc kernel).readyQueueTail = proc := by
  -- An empty queue begins with the process, another one keeps its head.
  unfold schedulerAdd
  rw [if_neg real]
  by_cases empty : kernel.readyQueue = 0
  · have same : (kernel.modify proc fun process => { process with state := .ready }).readyQueue = 0 :=
      empty
    simp [empty, same]
  · have same : (kernel.modify proc fun process => { process with state := .ready }).readyQueue =
      kernel.readyQueue := rfl
    simp [empty, same]

/-- Adding a process leaves the current process as it is. -/
theorem schedulerAdd_current : (schedulerAdd proc kernel).currentProcess = kernel.currentProcess := by
  -- Both branches store links and ends of the queue only.
  unfold schedulerAdd
  by_cases null : proc = 0
  · rw [if_pos null]
  · rw [if_neg null]
    by_cases empty : kernel.readyQueue = 0
    · simp [empty, Kernel.modify]
    · simp [empty, Kernel.modify]

/-- The links after taking out a process. -/
theorem schedulerRemove_links (real : proc ≠ 0) (other : Nat) :
    (schedulerRemove proc kernel).next other =
        (if other = proc then 0
          else if kernel.prev proc ≠ 0 ∧ other = kernel.prev proc then kernel.next proc
          else kernel.next other) ∧
      (schedulerRemove proc kernel).prev other =
        (if other = proc then 0
          else if kernel.next proc ≠ 0 ∧ other = kernel.next proc then kernel.prev proc
          else kernel.prev other) := by
  -- The four cases are a process alone, at the head, at the tail and between two others.
  unfold schedulerRemove Kernel.next Kernel.prev
  rw [if_neg real]
  by_cases first : (kernel.procs proc).prev = 0
  · by_cases last : (kernel.procs proc).next = 0
    · simp [first, last]
    · simp [first, last]
  · by_cases last : (kernel.procs proc).next = 0
    · simp [first, last]
    · simp [first, last]

/-- The ends of the queue after taking out a process. -/
theorem schedulerRemove_ends (real : proc ≠ 0) :
    (schedulerRemove proc kernel).readyQueue =
        (if kernel.prev proc = 0 then kernel.next proc else kernel.readyQueue) ∧
      (schedulerRemove proc kernel).readyQueueTail =
        (if kernel.next proc = 0 then kernel.prev proc else kernel.readyQueueTail) := by
  -- Only a process at the head moves the head, and only one at the tail moves the tail.
  unfold schedulerRemove Kernel.next Kernel.prev
  rw [if_neg real]
  by_cases first : (kernel.procs proc).prev = 0
  · by_cases last : (kernel.procs proc).next = 0
    · simp [first, last]
    · simp [first, last]
  · by_cases last : (kernel.procs proc).next = 0
    · simp [first, last]
    · simp [first, last]

/-- Taking out a process leaves the current process as it is. -/
theorem schedulerRemove_current :
    (schedulerRemove proc kernel).currentProcess = kernel.currentProcess := by
  -- Links and the head of the queue are written, and the current process is neither.
  unfold schedulerRemove
  by_cases null : proc = 0
  · rw [if_pos null]
  · rw [if_neg null]
    by_cases first : (kernel.procs proc).prev = 0
    · by_cases last : (kernel.procs proc).next = 0
      · simp [first, last]
      · simp [first, last]
    · by_cases last : (kernel.procs proc).next = 0
      · simp [first, last]
      · simp [first, last]

/-- The links after the head is moved to the tail. -/
theorem rotateQueue_links (other : Nat) :
    (rotateQueue kernel).next other =
        (if other = kernel.readyQueueTail then kernel.readyQueue
          else if other = kernel.readyQueue then 0
          else kernel.next other) ∧
      (rotateQueue kernel).prev other =
        (if other = kernel.readyQueue then kernel.readyQueueTail
          else if other = kernel.next kernel.readyQueue then 0
          else kernel.prev other) := by
  unfold rotateQueue Kernel.next Kernel.prev
  simp

/-- The ends of the queue after the head is moved to the tail. -/
theorem rotateQueue_ends :
    (rotateQueue kernel).readyQueue = kernel.next kernel.readyQueue ∧
      (rotateQueue kernel).readyQueueTail = kernel.readyQueue :=
  ⟨rfl, rfl⟩

/-- The queue is empty exactly when its head is null. -/
theorem IsQueue.head_null (isQueue : IsQueue kernel queue) : kernel.readyQueue = 0 ↔ queue = [] := by
  rw [isQueue.head]
  exact headD_eq_null isQueue.list.solid

/-- Adding a process appends it. -/
theorem schedulerAdd_queue (isQueue : IsQueue kernel queue) (real : proc ≠ 0) (new : proc ∉ queue) :
    IsQueue (schedulerAdd proc kernel) (queue ++ [proc]) := by
  -- The sequence grows at the back: the old tail is the only process whose link changes.
  have links := @schedulerAdd_links kernel proc real
  obtain ⟨head, tail⟩ := @schedulerAdd_ends kernel proc real
  have last := fun a => @getLast?_eq_some_iff _ a queue 0 isQueue.list.solid
  refine ⟨?_, ?_, ?_⟩
  · apply isQueue.list.pushBack new real
    · rw [(links proc).1, if_pos rfl]
    · rw [(links proc).2, if_pos rfl, isQueue.tail]
      by_cases empty : queue = []
      · rw [empty]
        exact ite_self _
      · rw [if_neg (fun null => empty (isQueue.head_null.mp null))]
    · intro a found
      have among := List.mem_of_getLast? found
      have other : a ≠ proc := fun same => new (same ▸ among)
      -- A queue with a last process is not empty, so the code takes the second branch.
      have filled : kernel.readyQueue ≠ 0 :=
        fun null => List.ne_nil_of_mem among (isQueue.head_null.mp null)
      have same : a = kernel.readyQueueTail := by
        rw [isQueue.tail]
        exact ((last a).mp found).2
      rw [(links a).1, if_neg other, if_pos ⟨filled, same⟩]
    · -- A process that is not the last keeps its link.
      intro a among notLast
      have other : a ≠ proc := fun same => new (same ▸ among)
      rw [(links a).1, if_neg other, if_neg]
      rintro ⟨-, same⟩
      apply notLast
      rw [last a, ← isQueue.tail]
      exact ⟨fun null => isQueue.list.solid (null ▸ among), same⟩
    · intro a among
      have other : a ≠ proc := fun same => new (same ▸ among)
      rw [(links a).2, if_neg other]
  · -- The head is the new process if there was none, and the old head otherwise.
    rw [head]
    by_cases empty : queue = []
    · rw [if_pos (isQueue.head_null.mpr empty), empty]
      rfl
    · rw [if_neg (fun null => empty (isQueue.head_null.mp null)), isQueue.head]
      cases queue with
      | nil => exact absurd rfl empty
      | cons first rest => rfl
  · rw [tail]
    simp

/-- Taking out a process keeps the order of the others. -/
theorem schedulerRemove_queue (isQueue : IsQueue kernel (front ++ proc :: back)) :
    IsQueue (schedulerRemove proc kernel) (front ++ back) := by
  -- The links of the process are those of the sequence, so the stores join its two sides.
  have solid := isQueue.list.solid
  simp only [List.mem_append, List.mem_cons, not_or] at solid
  obtain ⟨frontSolid, real, backSolid⟩ := solid
  have links := @schedulerRemove_links kernel proc (Ne.symm real)
  obtain ⟨head, tail⟩ := @schedulerRemove_ends kernel proc (Ne.symm real)
  have forward := isQueue.list.next_eq
  have backward := isQueue.list.prev_eq
  -- No process stands twice in the queue, so the others are apart from this one.
  have away : ∀ a ∈ front ++ back, a ≠ proc := by
    intro a among same
    have once := List.nodup_middle.mp isQueue.list.nodup
    exact (List.nodup_cons.mp once).1 (same ▸ among)
  rw [forward, backward] at head tail
  simp only [forward, backward] at links
  have last := fun a => @getLast?_eq_some_iff _ a front 0 frontSolid
  have first := fun a => @head?_eq_some_iff _ a back 0 backSolid
  refine ⟨?_, ?_, ?_⟩
  · apply isQueue.list.unlink
    · intro a found
      rw [(links a).1, if_neg (away a (List.mem_append_left _ (List.mem_of_getLast? found))), if_pos]
      obtain ⟨solid, same⟩ := (last a).mp found
      exact ⟨same ▸ solid, same⟩
    · intro a found
      rw [(links a).2, if_neg (away a (List.mem_append_right _ (List.mem_of_head? found))), if_pos]
      obtain ⟨solid, same⟩ := (first a).mp found
      exact ⟨same ▸ solid, same⟩
    · -- The links away from the gap stay.
      intro a among notLast
      rw [(links a).1, if_neg (away a among), if_neg]
      rintro ⟨solid, same⟩
      exact notLast ((last a).mpr ⟨same ▸ solid, same⟩)
    · intro a among notFirst
      rw [(links a).2, if_neg (away a among), if_neg]
      rintro ⟨solid, same⟩
      exact notFirst ((first a).mpr ⟨same ▸ solid, same⟩)
  -- The head moves only when nothing stands before the process.
  · rw [head, isQueue.head]
    by_cases alone : front = []
    · rw [if_pos ((getLastD_eq_null frontSolid).mpr alone), alone]
      rfl
    · rw [if_neg (fun null => alone ((getLastD_eq_null frontSolid).mp null))]
      cases front with
      | nil => exact absurd rfl alone
      | cons start rest => rfl
  -- The tail moves only when nothing stands behind it.
  · rw [tail, isQueue.tail]
    by_cases alone : back = []
    · rw [if_pos ((headD_eq_null backSolid).mpr alone), alone, List.append_nil]
    · rw [if_neg (fun null => alone ((headD_eq_null backSolid).mp null))]
      cases back with
      | nil => exact absurd rfl alone
      | cons stop rest => simp [List.getLastD_eq_getLast?, List.getLast?_append]

/-- Moving the head to the tail turns the queue by one. -/
theorem rotateQueue_queue {first second : Nat} {rest : List Nat}
    (isQueue : IsQueue kernel (first :: second :: rest)) :
    IsQueue (rotateQueue kernel) (second :: rest ++ [first]) := by
  -- The head is taken off the front and becomes a run of its own behind the others.
  have links := @rotateQueue_links kernel
  have head : kernel.readyQueue = first := isQueue.head
  have forward : kernel.next first = second := isQueue.list.linked.2.1
  have tail : kernel.readyQueueTail = (second :: rest).getLastD 0 := isQueue.tail
  obtain ⟨fresh, distinct⟩ := List.nodup_cons.mp isQueue.list.nodup
  have solid : 0 ∉ second :: rest := fun among => isQueue.list.solid (List.mem_cons_of_mem _ among)
  have last := fun a => @getLast?_eq_some_iff _ a (second :: rest) 0 solid
  have away : ∀ a ∈ second :: rest, a ≠ first := fun a among same => fresh (same ▸ among)
  -- With two processes the tail is one of the others, so its link is not the head's.
  have among : kernel.readyQueueTail ∈ second :: rest := by
    rw [tail, List.getLastD_eq_getLast?, List.getLast?_eq_getLast_of_ne_nil (by simp)]
    exact List.getLast_mem _
  simp only [head, forward] at links
  have turned : List.Perm (first :: second :: rest) (second :: rest ++ [first]) :=
    (List.perm_append_singleton first (second :: rest)).symm
  refine ⟨⟨turned.nodup_iff.mp isQueue.list.nodup,
    fun null => isQueue.list.solid (turned.mem_iff.mpr null), ?_⟩, ?_, ?_⟩
  · refine twoWay_append.mpr ⟨?_, ?_, ?_, trivial⟩
    -- The others keep their inner links; the tail gets the old head behind it.
    · apply isQueue.list.linked.2.2.rewire distinct
      · intro a member notLast
        rw [(links a).1, if_neg, if_neg (away a member)]
        intro same
        exact notLast ((last a).mpr ⟨fun null => solid (null ▸ member), same.trans tail⟩)
      · intro a found
        rw [(links a).1, if_pos (((last a).mp found).2.trans tail.symm)]
        rfl
      · intro a member notFirst
        rw [(links a).2, if_neg (away a member), if_neg (fun same => notFirst (by rw [same]; rfl))]
      · intro a found
        obtain rfl : second = a := Option.some.inj found
        rw [(links second).2, if_neg (away second List.mem_cons_self), if_pos rfl]
    · rw [(links first).2, if_pos rfl, tail]
    · rw [(links first).1, if_neg (away _ among).symm, if_pos rfl]
      rfl
  · rw [rotateQueue_ends.1, head, forward]
    rfl
  · rw [rotateQueue_ends.2, head, List.getLastD_concat]

/-- The kernel with another current process. -/
def Kernel.withCurrent (kernel : Kernel) (proc : Nat) : Kernel := { kernel with currentProcess := proc }

/-- The current process is no part of the queue. -/
theorem IsQueue.withCurrent (isQueue : IsQueue kernel queue) (proc : Nat) :
    IsQueue (kernel.withCurrent proc) queue :=
  ⟨isQueue.list, isQueue.head, isQueue.tail⟩

/-- The end of a tick makes the head of the queue the current process. -/
theorem switch_head (real : kernel.readyQueue ≠ 0) :
    (if kernel.readyQueue ≠ 0 ∧ kernel.currentProcess ≠ kernel.readyQueue then
      processSwitch kernel.readyQueue kernel else kernel) = kernel.withCurrent kernel.readyQueue := by
  -- A head that is current already is left alone, which comes to the same.
  by_cases current : kernel.currentProcess = kernel.readyQueue
  · rw [if_neg (fun both => both.2 current), ← current]
    rfl
  · rw [if_pos ⟨real, current⟩, processSwitch, if_neg real, if_neg current]
    rfl

/-- A tick of a queue of one process. -/
theorem schedulerTick_alone (filled : kernel.readyQueue ≠ 0)
    (alone : kernel.next kernel.readyQueue = 0) :
    schedulerTick kernel = kernel.withCurrent kernel.readyQueue := by
  -- The one process stays at the head.
  have turned : (if (kernel.procs kernel.readyQueue).next = 0 then kernel else rotateQueue kernel) =
    kernel := if_pos alone
  unfold schedulerTick
  simp only [if_neg filled, turned]
  exact switch_head filled

/-- A tick of a queue of several processes. -/
theorem schedulerTick_more (filled : kernel.readyQueue ≠ 0)
    (more : kernel.next kernel.readyQueue ≠ 0) :
    schedulerTick kernel = (rotateQueue kernel).withCurrent (rotateQueue kernel).readyQueue := by
  -- The head goes behind the others, and the next one becomes the head.
  have turned : (if (kernel.procs kernel.readyQueue).next = 0 then kernel else rotateQueue kernel) =
    rotateQueue kernel := if_neg more
  unfold schedulerTick
  simp only [if_neg filled, turned]
  exact switch_head more

/-- A tick turns the queue by one and makes the new head the current process. -/
theorem schedulerTick_queue (isQueue : IsQueue kernel queue) :
    IsQueue (schedulerTick kernel) (queue.rotate 1) ∧
      (queue ≠ [] → (schedulerTick kernel).currentProcess = (queue.rotate 1).headD 0) := by
  -- An empty queue, a single process and several of them go through different branches.
  cases queue with
  | nil =>
    have idle : schedulerTick kernel = kernel := if_pos isQueue.head
    rw [idle]
    exact ⟨isQueue, fun filled => absurd rfl filled⟩
  | cons first others =>
    have head : kernel.readyQueue = first := isQueue.head
    have filled : kernel.readyQueue ≠ 0 := fun null => List.cons_ne_nil _ _ (isQueue.head_null.mp null)
    have forward : kernel.next kernel.readyQueue = others.headD 0 := by
      rw [head]
      exact isQueue.list.linked.2.1
    have solid : 0 ∉ others := fun among => isQueue.list.solid (List.mem_cons_of_mem _ among)
    -- A single process stays at the head; of several the head goes to the end.
    cases others with
    | nil =>
      rw [schedulerTick_alone filled forward, List.rotate_singleton]
      exact ⟨isQueue.withCurrent _, fun _ => isQueue.head⟩
    | cons second rest =>
      have more : kernel.next kernel.readyQueue ≠ 0 := by
        rw [forward]
        exact fun null => List.cons_ne_nil _ _ ((headD_eq_null solid).mp null)
      have turned := rotateQueue_queue isQueue
      rw [schedulerTick_more filled more]
      exact ⟨turned.withCurrent _, fun _ => turned.head⟩

/-- Taking out a process keeps the links of processes outside the queue. -/
theorem schedulerRemove_outside (isQueue : IsQueue kernel (front ++ proc :: back)) {other : Nat}
    (outside : other ∉ front ++ proc :: back) :
    (schedulerRemove proc kernel).next other = kernel.next other := by
  have real : proc ≠ 0 := fun null => isQueue.list.solid (by rw [null]; simp)
  have solid : 0 ∉ front := fun among => isQueue.list.solid (List.mem_append_left _ among)
  have apart : other ≠ proc := fun same => outside (by rw [same]; simp)
  rw [(schedulerRemove_links real other).1, if_neg apart, if_neg]
  -- A process whose link is stored is the one before, which is in the queue.
  intro before
  rw [isQueue.list.prev_eq] at before
  have last := (getLast?_eq_some_iff solid).mpr ⟨before.2 ▸ before.1, before.2⟩
  exact outside (List.mem_append_left _ (List.mem_of_getLast? last))

/-- A tick keeps the links of processes outside the queue. -/
theorem schedulerTick_outside (isQueue : IsQueue kernel queue) {other : Nat} (outside : other ∉ queue) :
    (schedulerTick kernel).next other = kernel.next other := by
  by_cases empty : kernel.readyQueue = 0
  · have idle : schedulerTick kernel = kernel := if_pos empty
    rw [idle]
  by_cases alone : kernel.next kernel.readyQueue = 0
  · rw [schedulerTick_alone empty alone]
    rfl
  · -- The head and the tail are the only processes whose link forward changes.
    have filled : queue ≠ [] := fun none => empty (isQueue.head_null.mpr none)
    have head : queue.head? = some kernel.readyQueue :=
      (head?_eq_some_iff isQueue.list.solid).mpr ⟨empty, isQueue.head⟩
    have last : queue.getLast? = some kernel.readyQueueTail := by
      refine (getLast?_eq_some_iff isQueue.list.solid).mpr ⟨?_, isQueue.tail⟩
      rw [isQueue.tail]
      exact fun null => filled ((getLastD_eq_null isQueue.list.solid).mp null)
    rw [schedulerTick_more empty alone]
    show (rotateQueue kernel).next other = kernel.next other
    rw [(rotateQueue_links other).1, if_neg, if_neg]
    · exact fun same => outside (same ▸ List.mem_of_head? head)
    · exact fun same => outside (same ▸ List.mem_of_getLast? last)

/-- A number of ticks turns the queue as often. -/
theorem ticks_queue (isQueue : IsQueue kernel queue) (count : Nat) :
    IsQueue (schedulerTick^[count] kernel) (queue.rotate count) := by
  -- Turns add up, so each tick adds one to those before it.
  induction count with
  | zero => rwa [List.rotate_zero]
  | succ count ih =>
    rw [Function.iterate_succ_apply', ← List.rotate_rotate]
    exact (schedulerTick_queue ih).1

/-- The processes that the next ticks make current are those of the queue, in order, the head last. -/
theorem ticks_current (isQueue : IsQueue kernel queue) :
    (List.range queue.length).map (fun i => (schedulerTick^[i + 1] kernel).currentProcess) =
      queue.rotate 1 := by
  -- Tick by tick, the process made current is the head of the queue turned that far.
  apply List.ext_getElem
  · simp
  · intro i inside turns
    have bound : i < queue.length := by simpa using inside
    have filled : queue.rotate i ≠ [] := by
      intro empty
      have none := congrArg List.length empty
      rw [List.length_rotate] at none
      simp only [List.length_nil] at none
      omega
    have current := (schedulerTick_queue (ticks_queue isQueue i)).2 filled
    rw [List.rotate_rotate] at current
    -- Both sides are the process at the same place of the queue.
    have head : (queue.rotate (i + 1)).headD 0 = (queue[(0 + (i + 1)) % queue.length]?).getD 0 := by
      rw [List.headD_eq_head?_getD, List.head?_eq_getElem?, List.getElem?_rotate (by omega)]
    rw [List.getElem_map, List.getElem_range, Function.iterate_succ_apply', current, head,
      List.getElem_rotate, Nat.zero_add, List.getElem?_eq_getElem (Nat.mod_lt _ (by omega)),
      Option.getD_some]

end

/-- What happens to the ready queue. -/
inductive QueueOp where
  | add (proc : Nat)
  | remove (proc : Nat)
  | tick

/-- One call: only processes that are not in the queue are added, and only those in it removed. -/
inductive QueueStep : Kernel → QueueOp → Kernel → Prop where
  | add {kernel : Kernel} {proc : Nat} (real : proc ≠ 0) (new : ¬ InQueue kernel proc) :
      QueueStep kernel (.add proc) (schedulerAdd proc kernel)
  | remove {kernel : Kernel} {proc : Nat} (queued : InQueue kernel proc) :
      QueueStep kernel (.remove proc) (schedulerRemove proc kernel)
  | tick {kernel : Kernel} : QueueStep kernel .tick (schedulerTick kernel)

/-- What a call does to the sequence of processes. -/
def queueAfter (queue : List Nat) : QueueOp → List Nat
  | .add proc => queue ++ [proc]
  | .remove proc => queue.erase proc
  | .tick => queue.rotate 1

/-- A process of the queue is taken out of the sequence. -/
theorem schedulerRemove_erase {kernel : Kernel} {queue : List Nat} {proc : Nat}
    (isQueue : IsQueue kernel queue) (queued : proc ∈ queue) :
    IsQueue (schedulerRemove proc kernel) (queue.erase proc) := by
  -- The process stands once in the sequence, so erasing it leaves both sides as they are.
  obtain ⟨front, back, rfl⟩ := List.append_of_mem queued
  have once := List.nodup_middle.mp isQueue.list.nodup
  have before : proc ∉ front := fun among =>
    (List.nodup_cons.mp once).1 (List.mem_append_left _ among)
  rw [List.erase_append_right _ before, List.erase_cons_head]
  exact schedulerRemove_queue isQueue

/-- A call does to the queue what it does to the sequence. -/
theorem QueueStep.queue {kernel last : Kernel} {op : QueueOp} {queue : List Nat}
    (step : QueueStep kernel op last) (isQueue : IsQueue kernel queue) :
    IsQueue last (queueAfter queue op) := by
  -- What a caller knows about membership is about the sequence itself.
  cases step with
  | add real new =>
    exact schedulerAdd_queue isQueue real (fun among => new ((isQueue.inQueue_iff _).mpr among))
  | remove queued => exact schedulerRemove_erase isQueue ((isQueue.inQueue_iff _).mp queued)
  | tick => exact (schedulerTick_queue isQueue).1

/-- A run does to the queue what it does to the sequence. -/
theorem queueRun {kernel last : Kernel} {ops : List QueueOp} {queue : List Nat}
    (run : Run QueueStep kernel ops last) (isQueue : IsQueue kernel queue) :
    IsQueue last (ops.foldl queueAfter queue) := by
  -- The sequence is carried along the run, one call at a time.
  induction run generalizing queue with
  | nil => exact isQueue
  | cons head _ ih => exact ih (head.queue isQueue)

/-- At first the queue is empty. -/
theorem schedulerInit_queue (boot : Kernel) : IsQueue (schedulerInit boot) [] :=
  ⟨dList_nil, rfl, rfl⟩

/--
The ready queue is a round-robin sequence over every run.

In every state reached it is a doubly linked list of distinct processes.
Adding appends, taking out keeps the order of the others, and a tick turns the sequence by one and makes
the new head current.
As many ticks as there are processes make each of them current exactly once and restore the order.
-/
theorem ready_queue_round_robin (boot : Kernel) {last : Kernel} {ops : List QueueOp}
    (run : Run QueueStep (schedulerInit boot) ops last) :
    ∃ queue, queue = ops.foldl queueAfter [] ∧ IsQueue last queue ∧
      (∀ proc, proc ≠ 0 → ¬ InQueue last proc →
        IsQueue (schedulerAdd proc last) (queue ++ [proc])) ∧
      (∀ proc, InQueue last proc → IsQueue (schedulerRemove proc last) (queue.erase proc)) ∧
      IsQueue (schedulerTick last) (queue.rotate 1) ∧
      (queue ≠ [] → (schedulerTick last).currentProcess = (queue.rotate 1).headD 0) ∧
      (∀ proc ∈ queue, ((List.range queue.length).map fun i =>
        (schedulerTick^[i + 1] last).currentProcess).count proc = 1) ∧
      IsQueue (schedulerTick^[queue.length] last) queue := by
  -- The invariant of the run gives one sequence, and each clause is about one more call.
  have isQueue := queueRun run (schedulerInit_queue boot)
  refine ⟨_, rfl, isQueue, ?_, ?_, (schedulerTick_queue isQueue).1, (schedulerTick_queue isQueue).2,
    ?_, ?_⟩
  · exact fun proc real new => QueueStep.queue (.add real new) isQueue
  · exact fun proc queued => QueueStep.queue (.remove queued) isQueue
  · intro proc among
    -- A full round is the sequence turned by one, where every process stands once.
    rw [ticks_current isQueue, (List.rotate_perm _ 1).count_eq]
    exact List.count_eq_one_of_mem isQueue.list.nodup among
  · have turned := ticks_queue isQueue (ops.foldl queueAfter []).length
    rwa [List.rotate_length] at turned

/-- Of two processes that were added, the tick makes the second one current. -/
theorem second_process_current :
    ∃ last, Run QueueStep (schedulerInit (bootKernel pmmReset)) [.add 16, .add 32] last ∧
      (schedulerTick last).currentProcess = 32 ∧ IsQueue (schedulerTick^[2] last) [16, 32] := by
  -- The queue has the two processes in the order in which they were added.
  have start := schedulerInit_queue (bootKernel pmmReset)
  have one := schedulerAdd_queue start (show 16 ≠ 0 by decide) (by simp)
  have run : Run QueueStep (schedulerInit (bootKernel pmmReset)) [.add 16, .add 32] _ :=
    .cons (.add (by decide) (by rw [start.inQueue_iff]; simp))
      (.cons (.add (by decide) (by rw [one.inQueue_iff]; simp)) (.nil _))
  obtain ⟨queue, rfl, -, -, -, -, current, -, restored⟩ := ready_queue_round_robin _ run
  exact ⟨_, run, current (by simp [queueAfter]), restored⟩

end MiraOS
