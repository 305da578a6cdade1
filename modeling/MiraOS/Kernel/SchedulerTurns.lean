import MiraOS.Kernel.ProcessExit
import MiraOS.Machine.Threaded
import MiraOS.Machine.Turns

/-! Whose turn it is after an exit, and what taking out a process does to a queue that it is not in. -/

namespace MiraOS

open Machine

/-- Following the links of a list leads along its nodes. -/
theorem TwoWay.visits {next prev : Nat → Nat} {before : Nat} {nodes : List Nat}
    (linked : TwoWay next prev 0 before nodes) (solid : 0 ∉ nodes) : Visits next (nodes.headD 0) nodes := by
  -- Each link forward leads to the head of what is left.
  induction nodes generalizing before with
  | nil => rfl
  | cons node rest ih =>
    obtain ⟨-, forward, others⟩ := linked
    simp only [List.mem_cons, not_or] at solid
    refine ⟨rfl, Ne.symm solid.1, ?_⟩
    rw [forward]
    exact ih others solid.2

section

variable {kernel last : Kernel} {queue rest : List Nat} {first second proc status : Nat}

/-- Following the links from the head of the ready queue leads along its processes. -/
theorem IsQueue.visits (isQueue : IsQueue kernel queue) :
    Visits kernel.next kernel.readyQueue queue := by
  rw [isQueue.head]
  exact TwoWay.visits isQueue.list.linked isQueue.list.solid

/-- The ready queue holds one sequence of processes. -/
theorem IsQueue.unique {others : List Nat} (one : IsQueue kernel queue) (two : IsQueue kernel others) :
    queue = others :=
  one.visits.unique two.visits

/-- The exit of the head turns what is left of the queue and makes its new head current. -/
theorem syscallExit_turns (isQueue : IsQueue kernel (first :: second :: rest))
    (current : kernel.currentProcess = first)
    (stack : StackDescribed (kernel.procs first).stackBottom) :
    ∃ last, syscallExit status kernel = .ok last ∧ IsQueue last (rest ++ [second]) ∧
      last.currentProcess = (rest ++ [second]).headD 0 := by
  have whole : IsQueue kernel ([] ++ first :: (second :: rest)) := isQueue
  obtain ⟨after, ran, ended⟩ := endProcess_ended status whole stack
  -- Taking out the head has moved the queue on already; the tick moves it on once more.
  obtain ⟨turned, switched⟩ := schedulerTick_queue ended.isQueue
  have rotated : ([] ++ (second :: rest)).rotate 1 = rest ++ [second] := by
    rw [List.nil_append, List.rotate_cons_succ, List.rotate_zero]
  rw [rotated] at turned switched
  refine ⟨schedulerTick after, ?_, turned, switched (by simp)⟩
  rw [← current] at ran
  exact bind_eq_ok.mpr ⟨after, ran, rfl⟩

/-- An exit that returns found the stack of the process in the bitmap. -/
theorem syscallExit_described (real : kernel.currentProcess ≠ 0)
    (ran : syscallExit status kernel = .ok last) :
    StackDescribed (kernel.procs kernel.currentProcess).stackBottom := by
  -- The exit went through, so every page of the stack had a bit in the bitmap.
  obtain ⟨after, ended, -⟩ := bind_eq_ok.mp ran
  exact endProcess_described real ended

/-- After the exit of the head the next in line is current exactly when it is the only one left. -/
theorem syscallExit_second_iff (isQueue : IsQueue kernel (first :: second :: rest))
    (current : kernel.currentProcess = first) :
    (∃ last, syscallExit status kernel = .ok last ∧ last.currentProcess = second) ↔
      rest = [] ∧ StackDescribed (kernel.procs first).stackBottom := by
  constructor
  · rintro ⟨last, ran, next⟩
    have real : kernel.currentProcess ≠ 0 := by
      rw [current]
      exact fun null => isQueue.list.solid (by rw [null]; exact List.mem_cons_self)
    -- An exit that returned could give the stack back.
    have stack := syscallExit_described real ran
    rw [current] at stack
    obtain ⟨same, again, -, head⟩ := syscallExit_turns isQueue current stack
    obtain rfl : same = last := Except.ok.inj (again.symm.trans ran)
    refine ⟨?_, stack⟩
    -- With a third process that one stands at the front, and the processes are distinct.
    cases rest with
    | nil => rfl
    | cons third more =>
      have skipped : third = second := head.symm.trans next
      have distinct := isQueue.list.nodup
      rw [skipped] at distinct
      simp at distinct
  · rintro ⟨rfl, stack⟩
    obtain ⟨last, ran, -, head⟩ := syscallExit_turns isQueue current stack
    exact ⟨last, ran, head⟩

end

/-- The exit of a process that is current and first in the queue, with another one behind it. -/
structure ExitsHead (kernel next : Kernel) : Prop where
  current : kernel.currentProcess = kernel.readyQueue
  successor : kernel.next kernel.readyQueue ≠ 0
  called : ∃ status, syscallExit status kernel = .ok next

/-- A tick, or the exit of the head. -/
def Turn (kernel next : Kernel) : Prop := next = schedulerTick kernel ∨ ExitsHead kernel next

/-- The head of the ready queue has one process behind it, and no more. -/
def TwoQueued (kernel : Kernel) : Prop := kernel.next (kernel.next kernel.readyQueue) = 0

/-- A process that is current twice had every process that stayed queued current between. -/
def Fair (steps : Nat) (states : Nat → Kernel) : Prop :=
  ∀ i j, i < j → j ≤ steps → (states i).currentProcess = (states j).currentProcess →
    ∀ proc, (∀ k, i ≤ k → k ≤ j → InQueue (states k) proc) →
      ∃ k, i ≤ k ∧ k ≤ j ∧ (states k).currentProcess = proc

/-- The ready queue has processes, and the first of them is current. -/
structure RunsHead (kernel : Kernel) (queue : List Nat) : Prop where
  isQueue : IsQueue kernel queue
  filled : queue ≠ []
  current : kernel.currentProcess = queue.headD 0

/-- The current process is the first one of the sequence. -/
theorem RunsHead.head? {kernel : Kernel} {queue : List Nat} (runs : RunsHead kernel queue) :
    queue.head? = some kernel.currentProcess := by
  refine (head?_eq_some_iff runs.isQueue.list.solid).mpr ⟨?_, runs.current⟩
  rw [runs.current]
  exact fun null => runs.filled ((headD_eq_null runs.isQueue.list.solid).mp null)

/-- A tick turns the sequence. -/
theorem RunsHead.tick {kernel : Kernel} {queue : List Nat} (runs : RunsHead kernel queue) :
    RunsHead (schedulerTick kernel) (queue.rotate 1) := by
  -- The tick rotates the queue and switches to its new head.
  obtain ⟨turned, switched⟩ := schedulerTick_queue runs.isQueue
  exact ⟨turned, fun none => runs.filled (List.rotate_eq_nil_iff.mp none), switched runs.filled⟩

/-- The exit of the head, where the queue has another process behind it. -/
theorem RunsHead.exit {kernel next : Kernel} {queue : List Nat} (runs : RunsHead kernel queue)
    (exits : ExitsHead kernel next) :
    ∃ first second rest, queue = first :: second :: rest ∧ kernel.next kernel.readyQueue = second ∧
      kernel.next second = rest.headD 0 ∧ RunsHead next (rest ++ [second]) := by
  have isQueue := runs.isQueue
  have solid := isQueue.list.solid
  -- The successor of the head is the second process of the sequence.
  match queue, runs with
  | [], runs => exact absurd rfl runs.filled
  | [first], runs =>
    -- Alone in the queue, the head would have no successor.
    have forward : kernel.next first = 0 := isQueue.list.linked.2.1
    have head : kernel.readyQueue = first := isQueue.head
    exact absurd (by rw [head, forward]) exits.successor
  | first :: second :: rest, runs =>
    have head : kernel.readyQueue = first := isQueue.head
    have current : kernel.currentProcess = first := runs.current
    have real : kernel.currentProcess ≠ 0 := by
      rw [current]
      exact fun null => solid (by rw [null]; exact List.mem_cons_self)
    -- The exit is one of the head of a queue of two at least.
    obtain ⟨status, called⟩ := exits.called
    have stack := syscallExit_described real called
    rw [current] at stack
    obtain ⟨last, ran, turned, switched⟩ := @syscallExit_turns kernel rest first second status isQueue current stack
    obtain rfl : last = next := Except.ok.inj (ran.symm.trans called)
    refine ⟨first, second, rest, rfl, ?_, isQueue.list.linked.2.2.2.1, turned, by simp, switched⟩
    rw [head]
    exact isQueue.list.linked.2.1

/-- A turn, with exits of one of two processes only, is a turn of the sequence. -/
theorem RunsHead.turn {kernel next : Kernel} {queue : List Nat} (runs : RunsHead kernel queue)
    (turn : Turn kernel next) (two : ExitsHead kernel next → TwoQueued kernel) :
    ∃ others, RunsHead next others ∧ Turned queue others := by
  -- A tick turns the sequence, and an exit takes its head out first.
  rcases turn with rfl | exits
  · exact ⟨_, runs.tick, .rotate queue⟩
  · obtain ⟨first, second, rest, rfl, forward, behind, turned⟩ := runs.exit exits
    have solid : 0 ∉ rest := fun among =>
      runs.isQueue.list.solid (List.mem_cons_of_mem _ (List.mem_cons_of_mem _ among))
    -- Nobody is behind the second process.
    have none : rest.headD 0 = 0 := by
      rw [← behind, ← forward]
      exact two exits
    obtain rfl := (headD_eq_null solid).mp none
    exact ⟨[second], turned, .leave first second⟩

/-- A run of ticks and of exits of one of two processes turns one sequence of processes. -/
theorem turns_of_run {steps : Nat} {states : Nat → Kernel} {queue : List Nat}
    (start : RunsHead (states 0) queue) (turns : ∀ k, k < steps → Turn (states k) (states (k + 1)))
    (two : ∀ k, k < steps → ExitsHead (states k) (states (k + 1)) → TwoQueued (states k)) :
    ∃ queues : Nat → List Nat, (∀ k, k ≤ steps → RunsHead (states k) (queues k)) ∧
      ∀ k, k < steps → Turned (queues k) (queues (k + 1)) := by
  -- Every state has its sequence, by induction on the turns that led to it.
  have each : ∀ k, ∃ others, k ≤ steps → RunsHead (states k) others := by
    intro k
    induction k with
    | zero => exact ⟨queue, fun _ => start⟩
    | succ k ih =>
      obtain ⟨others, runs⟩ := ih
      by_cases inside : k + 1 ≤ steps
      · obtain ⟨next, later, -⟩ := (runs (by omega)).turn (turns k inside) (two k inside)
        exact ⟨next, fun _ => later⟩
      · exact ⟨[], fun here => absurd here inside⟩
  choose queues runs using each
  refine ⟨queues, runs, fun k inside => ?_⟩
  obtain ⟨next, later, turned⟩ := (runs k (by omega)).turn (turns k inside) (two k inside)
  -- A state has one sequence only, so the turned one is that of the next state.
  rw [(runs (k + 1) inside).isQueue.unique later.isQueue]
  exact turned

/-- Runs of ticks and of exits of one of two processes are fair. -/
theorem fair_of_two {steps : Nat} {states : Nat → Kernel} {queue : List Nat}
    (start : RunsHead (states 0) queue) (turns : ∀ k, k < steps → Turn (states k) (states (k + 1)))
    (two : ∀ k, k < steps → ExitsHead (states k) (states (k + 1)) → TwoQueued (states k)) :
    Fair steps states := by
  obtain ⟨queues, runs, turned⟩ := turns_of_run start turns two
  intro i j before inside same proc stays
  have here := runs i (by omega)
  have again := (runs j inside).head?
  rw [← same] at again
  have among : proc ∈ queues i := (here.isQueue.inQueue_iff proc).mp (stays i (Nat.le_refl _) (by omega))
  -- Between two turns of one process, each other one of the sequence has its turn.
  obtain ⟨k, low, high, front⟩ := turns_fair before (fun k _ below => turned k (by omega))
    here.isQueue.list.nodup here.head? again among
  refine ⟨k, low, high, ?_⟩
  rw [(runs k (by omega)).head?] at front
  exact Option.some.inj front

/--
Who is current after an exit.

The exit of the head of a queue with a successor makes that one current exactly when there is no third
process in the queue, given that the exit returns at all.
A run in which every exit of the head is of that kind is fair: nobody runs twice while another process
that stayed queued does not run.
-/
theorem exit_skips_nobody_iff {kernel : Kernel} {first second : Nat} {rest : List Nat}
    (isQueue : IsQueue kernel (first :: second :: rest)) (current : kernel.currentProcess = first) :
    (∀ status, (∃ last, syscallExit status kernel = .ok last ∧ last.currentProcess = second) ↔
      rest = [] ∧ StackDescribed (kernel.procs first).stackBottom) ∧
    ∀ steps states, states 0 = kernel → (∀ k, k < steps → Turn (states k) (states (k + 1))) →
      (∀ k, k < steps → ExitsHead (states k) (states (k + 1)) → TwoQueued (states k)) →
      Fair steps states := by
  refine ⟨fun status => syscallExit_second_iff isQueue current, ?_⟩
  -- The runs come from turns of one step each, which the law for two in the queue covers.
  intro steps states start turns two
  have runs : RunsHead (states 0) (first :: second :: rest) := by
    rw [start]
    exact ⟨isQueue, by simp, current⟩
  exact fair_of_two runs turns two

/-- Two processes without stacks in the ready queue, the first of them current. -/
def twoReady : Kernel :=
  (schedulerAdd 32 (schedulerAdd 16 (bootKernel pmmReset))).withCurrent 16

/-- The same with a third process behind them. -/
def threeReady : Kernel := (schedulerAdd 48 twoReady).withCurrent 16

/-- The two processes are queued in the order of their additions. -/
theorem twoReady_queue : IsQueue twoReady [16, 32] := by
  have empty : IsQueue (bootKernel pmmReset) [] := ⟨dList_nil, rfl, rfl⟩
  have one := schedulerAdd_queue empty (show 16 ≠ 0 by decide) (by simp)
  exact (schedulerAdd_queue one (show 32 ≠ 0 by decide) (by simp)).withCurrent 16

/-- The three processes are queued in the order of their additions. -/
theorem threeReady_queue : IsQueue threeReady [16, 32, 48] :=
  (schedulerAdd_queue twoReady_queue (show 48 ≠ 0 by decide) (by simp)).withCurrent 16

/-- Of two processes the second one is current after the exit of the first. -/
theorem exit_of_two : ∃ last, syscallExit 0 twoReady = .ok last ∧ last.currentProcess = 32 :=
  ((exit_skips_nobody_iff twoReady_queue rfl).1 0).mpr ⟨rfl, .inl rfl⟩

/-- Of three processes the second one is passed over. -/
theorem exit_skips_second :
    ¬ ∀ (kernel : Kernel) (first second : Nat) (rest : List Nat) (status : Nat),
      IsQueue kernel (first :: second :: rest) → kernel.currentProcess = first →
      StackDescribed (kernel.procs first).stackBottom →
      ∃ last, syscallExit status kernel = .ok last ∧ last.currentProcess = second := by
  intro claim
  -- With three processes ready, the one behind the first is passed over.
  have next := claim threeReady 16 32 [48] 0 threeReady_queue rfl (.inl rfl)
  have two := ((syscallExit_second_iff threeReady_queue rfl).mp next).1
  cases two

/-- The sequence of processes and both ends of the ready queue are as before. -/
structure Undisturbed (kernel after : Kernel) (queue : List Nat) : Prop where
  sequence : Visits after.next after.readyQueue queue
  head : after.readyQueue = kernel.readyQueue
  tail : after.readyQueueTail = kernel.readyQueueTail

/-- The links of a process outside of the queue agree with the queue wherever they point into it.

A null link says that the process is at an end of the queue, and another one that its neighbour there is
the process on its other side. -/
structure AgreesForward (kernel : Kernel) (queue : List Nat) (proc : Nat) : Prop where
  first : kernel.prev proc = 0 → kernel.next proc = kernel.readyQueue
  last : kernel.next proc = 0 → kernel.prev proc = kernel.readyQueueTail
  before : kernel.prev proc ∈ queue → kernel.next (kernel.prev proc) = kernel.next proc

section

variable {kernel : Kernel} {queue : List Nat} {proc : Nat}

/-- The links forward that taking out a process outside of the queue leaves in the queue. -/
theorem remove_next_iff (isQueue : IsQueue kernel queue) (real : proc ≠ 0) (outside : proc ∉ queue) :
    (∀ other ∈ queue, (schedulerRemove proc kernel).next other = kernel.next other) ↔
      (kernel.prev proc ∈ queue → kernel.next (kernel.prev proc) = kernel.next proc) := by
  have links := @schedulerRemove_links kernel proc real
  constructor
  · intro same among
    -- The store through the link backward happens only if that is not null.
    have solid : kernel.prev proc ≠ 0 := fun null => isQueue.list.solid (null ▸ among)
    have apart : kernel.prev proc ≠ proc := fun equal => outside (equal ▸ among)
    have kept := same _ among
    rw [(links (kernel.prev proc)).1, if_neg apart, if_pos ⟨solid, rfl⟩] at kept
    exact kept.symm
  · intro agrees other among
    have apart : other ≠ proc := fun equal => outside (equal ▸ among)
    rw [(links other).1, if_neg apart]
    -- Only the process that the link backward names gets another link.
    by_cases here : kernel.prev proc ≠ 0 ∧ other = kernel.prev proc
    · rw [if_pos here, here.2]
      exact (agrees (here.2 ▸ among)).symm
    · rw [if_neg here]

/-- The links backward, likewise. -/
theorem remove_prev_iff (isQueue : IsQueue kernel queue) (real : proc ≠ 0) (outside : proc ∉ queue) :
    (∀ other ∈ queue, (schedulerRemove proc kernel).prev other = kernel.prev other) ↔
      (kernel.next proc ∈ queue → kernel.prev (kernel.next proc) = kernel.prev proc) := by
  have links := @schedulerRemove_links kernel proc real
  constructor
  · intro same among
    have solid : kernel.next proc ≠ 0 := fun null => isQueue.list.solid (null ▸ among)
    have apart : kernel.next proc ≠ proc := fun equal => outside (equal ▸ among)
    have kept := same _ among
    rw [(links (kernel.next proc)).2, if_neg apart, if_pos ⟨solid, rfl⟩] at kept
    exact kept.symm
  · intro agrees other among
    have apart : other ≠ proc := fun equal => outside (equal ▸ among)
    rw [(links other).2, if_neg apart]
    -- Only the process that the link forward names gets another link.
    by_cases here : kernel.next proc ≠ 0 ∧ other = kernel.next proc
    · rw [if_pos here, here.2]
      exact (agrees (here.2 ▸ among)).symm
    · rw [if_neg here]

/-- The ends of the queue stay where they are exactly when the null links of the process are right. -/
theorem remove_ends_iff (real : proc ≠ 0) :
    ((schedulerRemove proc kernel).readyQueue = kernel.readyQueue ↔
        (kernel.prev proc = 0 → kernel.next proc = kernel.readyQueue)) ∧
      ((schedulerRemove proc kernel).readyQueueTail = kernel.readyQueueTail ↔
        (kernel.next proc = 0 → kernel.prev proc = kernel.readyQueueTail)) := by
  obtain ⟨head, tail⟩ := @schedulerRemove_ends kernel proc real
  rw [head, tail]
  -- Each end is stored only where the link on its side is null.
  constructor
  · by_cases null : kernel.prev proc = 0
    · simp [null]
    · simp [null]
  · by_cases null : kernel.next proc = 0
    · simp [null]
    · simp [null]

/-- Taking out a process that is not queued leaves the sequence exactly when its links agree with it. -/
theorem undisturbed_iff (isQueue : IsQueue kernel queue) (real : proc ≠ 0) (outside : proc ∉ queue) :
    Undisturbed kernel (schedulerRemove proc kernel) queue ↔ AgreesForward kernel queue proc := by
  obtain ⟨head, tail⟩ := @remove_ends_iff kernel proc real
  constructor
  · intro same
    refine ⟨head.mp same.head, tail.mp same.tail, (remove_next_iff isQueue real outside).mp ?_⟩
    -- The same sequence from the same head means the same links along it.
    have sequence := same.sequence
    rw [same.head] at sequence
    exact isQueue.visits.same_links sequence
  · intro agrees
    -- The links along the sequence are kept, and the sequence with them.
    have kept := (remove_next_iff isQueue real outside).mpr agrees.before
    refine ⟨?_, head.mpr agrees.first, tail.mpr agrees.last⟩
    rw [head.mpr agrees.first]
    exact isQueue.visits.congr kept

/-- The queue stays linked backward too exactly when the link forward agrees as well. -/
theorem remove_isQueue_iff (isQueue : IsQueue kernel queue) (real : proc ≠ 0) (outside : proc ∉ queue) :
    IsQueue (schedulerRemove proc kernel) queue ↔ AgreesForward kernel queue proc ∧
      (kernel.next proc ∈ queue → kernel.prev (kernel.next proc) = kernel.prev proc) := by
  rw [← undisturbed_iff isQueue real outside, ← remove_prev_iff isQueue real outside]
  constructor
  · intro still
    refine ⟨⟨still.visits, still.head.trans isQueue.head.symm, still.tail.trans isQueue.tail.symm⟩, ?_⟩
    -- The link backward of a process is the one before it in the sequence, then as now.
    intro other among
    obtain ⟨front, back, split⟩ := List.append_of_mem among
    rw [split] at still isQueue
    rw [still.list.prev_eq, isQueue.list.prev_eq]
  · rintro ⟨same, prevs⟩
    have sequence := same.sequence
    rw [same.head] at sequence
    -- The links forward are those of before, as the sequence is the same.
    have nexts := isQueue.visits.same_links sequence
    exact ⟨isQueue.list.frame nexts prevs, same.head.trans isQueue.head, same.tail.trans isQueue.tail⟩

end

/--
Taking a process out of a ready queue that it is not in.

The sequence of the queue and its two ends stay as they are exactly when the links of the process agree
with the queue, and the queue stays well formed exactly when its link forward does so as well.
-/
theorem remove_unqueued_iff {kernel : Kernel} {queue : List Nat} {proc : Nat}
    (isQueue : IsQueue kernel queue) (real : proc ≠ 0) (outside : proc ∉ queue) :
    (Undisturbed kernel (schedulerRemove proc kernel) queue ↔ AgreesForward kernel queue proc) ∧
      (IsQueue (schedulerRemove proc kernel) queue ↔ AgreesForward kernel queue proc ∧
        (kernel.next proc ∈ queue → kernel.prev (kernel.next proc) = kernel.prev proc)) :=
  ⟨undisturbed_iff isQueue real outside, remove_isQueue_iff isQueue real outside⟩

/-- A kernel with two processes on the process list, of which only the first one created is queued. -/
def oneReadyOfTwo : Kernel :=
  schedulerAdd 16 (linkProcess 32 (linkProcess 16 (bootKernel pmmReset)))

/-- The first process is queued alone. -/
theorem oneReadyOfTwo_queue : IsQueue oneReadyOfTwo [16] := by
  have empty : IsQueue (linkProcess 32 (linkProcess 16 (bootKernel pmmReset))) [] := ⟨dList_nil, rfl, rfl⟩
  exact schedulerAdd_queue empty (show 16 ≠ 0 by decide) (by simp)

/-- Taking out the other process, whose links are those of the process list, leaves the queue. -/
theorem remove_listed_keeps_queue :
    Undisturbed oneReadyOfTwo (schedulerRemove 32 oneReadyOfTwo) [16] ∧
      IsQueue (schedulerRemove 32 oneReadyOfTwo) [16] := by
  obtain ⟨undisturbed, queue⟩ :=
    remove_unqueued_iff oneReadyOfTwo_queue (show 32 ≠ 0 by decide) (by decide)
  -- Its link forward is the head of the queue, and its link backward is null as that of the head.
  have agrees : AgreesForward oneReadyOfTwo [16] 32 := ⟨fun _ => rfl, by decide, by decide⟩
  exact ⟨undisturbed.mpr agrees, queue.mpr ⟨agrees, fun _ => rfl⟩⟩

/-- Taking out a process that was never queued empties the queue of two others. -/
theorem remove_unqueued_empties :
    ¬ ∀ (kernel : Kernel) (queue : List Nat) (proc : Nat), IsQueue kernel queue → proc ≠ 0 →
      proc ∉ queue → Undisturbed kernel (schedulerRemove proc kernel) queue := by
  intro claim
  have same := claim twoReady [16, 32] 48 twoReady_queue (by decide) (by decide)
  -- The process is in no queue, and its null links make the source empty the queue.
  have emptied : (schedulerRemove 48 twoReady).readyQueue = 0 := rfl
  have head : twoReady.readyQueue = 16 := rfl
  exact absurd (emptied.symm.trans (same.head.trans head)) (by decide)

end MiraOS
