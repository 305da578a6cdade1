import MiraOS.Kernel.ProcessLaws

/-! The process list finds every process, as long as the ready queue leaves its links alone. -/

namespace MiraOS

open Machine

/-- The process list holds the processes, the newest first. -/
structure IsTable (kernel : Kernel) (table : List Nat) : Prop where
  list : DList 0 kernel.next kernel.prev table
  head : kernel.processList = table.headD 0

section

variable {kernel last : Kernel} {table front back : List Nat} {proc : Nat}

/-- A new process stands at the front of the process list. -/
theorem linkProcess_table (isTable : IsTable kernel table) (real : proc ≠ 0) (new : proc ∉ table)
    (fresh : kernel.prev proc = 0) : IsTable (linkProcess proc kernel) (proc :: table) := by
  -- The old head is the only process that gets a link back.
  have links := @linkProcess_links kernel proc
  have first := fun a => @head?_eq_some_iff _ a table 0 isTable.list.solid
  have head := isTable.head
  refine ⟨?_, rfl⟩
  apply isTable.list.pushFront new real
  · rw [(links proc).1, if_pos rfl, head]
  -- The process is not in the list, so the store into the old head misses it.
  · rw [(links proc).2, if_neg, fresh]
    rintro ⟨filled, same⟩
    have found := (first proc).mpr ⟨real, same.trans head⟩
    exact new (List.mem_of_head? found)
  · intro a found
    obtain ⟨solid, same⟩ := (first a).mp found
    rw [← head] at same
    rw [(links a).2, if_pos ⟨same ▸ solid, same⟩]
  · intro a among notFirst
    rw [(links a).2, if_neg]
    rintro ⟨filled, same⟩
    exact notFirst ((first a).mpr ⟨same ▸ filled, same.trans head⟩)
  · intro a among
    have other : a ≠ proc := fun same => new (same ▸ among)
    rw [(links a).1, if_neg other]

/-- A process is taken out of the process list. -/
theorem unlinkProcess_table (isTable : IsTable kernel (front ++ proc :: back)) :
    IsTable (unlinkProcess proc kernel) (front ++ back) := by
  -- Joining the two sides is linking the process out of the sequence.
  have solid := isTable.list.solid
  simp only [List.mem_append, List.mem_cons, not_or] at solid
  obtain ⟨frontSolid, real, backSolid⟩ := solid
  have forward := isTable.list.next_eq
  have backward := isTable.list.prev_eq
  have links := @joinAround_links kernel proc
  simp only [forward, backward] at links
  have last := fun a => @getLast?_eq_some_iff _ a front 0 frontSolid
  have first := fun a => @head?_eq_some_iff _ a back 0 backSolid
  -- Freeing the node changes no link, so the links are those of the join.
  have nexts : ∀ a, (unlinkProcess proc kernel).next a = (joinAround proc kernel).next a :=
    fun a => by unfold Kernel.next; rw [unlinkProcess_procs]
  have prevs : ∀ a, (unlinkProcess proc kernel).prev a = (joinAround proc kernel).prev a :=
    fun a => by unfold Kernel.prev; rw [unlinkProcess_procs]
  constructor
  · apply isTable.list.unlink
    · intro a found
      obtain ⟨solid, same⟩ := (last a).mp found
      rw [nexts, (links a).1, if_pos ⟨same ▸ solid, same⟩]
    · intro a found
      obtain ⟨solid, same⟩ := (first a).mp found
      rw [prevs, (links a).2, if_pos ⟨same ▸ solid, same⟩]
    · -- A process that is not the last in front keeps its link, and so does one that is not the first behind.
      intro a among notLast
      rw [nexts, (links a).1, if_neg]
      rintro ⟨solid, same⟩
      exact notLast ((last a).mpr ⟨same ▸ solid, same⟩)
    · intro a among notFirst
      rw [prevs, (links a).2, if_neg]
      rintro ⟨solid, same⟩
      exact notFirst ((first a).mpr ⟨same ▸ solid, same⟩)
  -- The head of the list is the process itself, or a process before it.
  · rw [unlinkProcess_head, isTable.head]
    cases front with
    | nil =>
      rw [(links proc).1]
      simp [forward]
    | cons start rest =>
      have once := List.nodup_middle.mp isTable.list.nodup
      have other : start ≠ proc := fun same =>
        (List.nodup_cons.mp once).1 (by rw [← same]; exact List.mem_cons_self)
      exact if_neg other

/-- The walk along linked processes finds the first one with the number. -/
theorem findLoop_linked {before : Nat} (linked : TwoWay kernel.next kernel.prev 0 before table)
    (solid : 0 ∉ table) (pid : Nat) {fuel : Nat} (enough : table.length ≤ fuel) :
    findLoop kernel pid fuel (table.headD 0) =
      .ok ((table.find? fun proc => (kernel.procs proc).pid = pid).getD 0) := by
  -- The walk takes one process off the front, or stops there.
  induction table generalizing before fuel with
  | nil =>
    cases fuel with
    | zero => rfl
    | succ fuel => rfl
  | cons proc rest ih =>
    obtain ⟨fuel, rfl⟩ : ∃ less, fuel = less + 1 := by
      refine ⟨fuel - 1, ?_⟩
      rw [List.length_cons] at enough
      omega
    have real : proc ≠ 0 := fun null => solid (by rw [null]; exact List.mem_cons_self)
    obtain ⟨-, forward, others⟩ := linked
    show findLoop kernel pid (fuel + 1) proc = _
    rw [findLoop, if_neg real]
    by_cases same : (kernel.procs proc).pid = pid
    · rw [if_pos same, List.find?_cons_of_pos (by simpa using same)]
      rfl
    · have later := ih others (fun among => solid (List.mem_cons_of_mem _ among))
        (show rest.length ≤ fuel by rw [List.length_cons] at enough; omega)
      rw [if_neg same, List.find?_cons_of_neg (by simpa using same), ← later]
      exact congrArg (findLoop kernel pid fuel) forward

/-- The walk along linked processes finds nothing but these, with whatever fuel. -/
theorem findLoop_among {before : Nat} (linked : TwoWay kernel.next kernel.prev 0 before table)
    (solid : 0 ∉ table) {pid fuel found : Nat}
    (walked : findLoop kernel pid fuel (table.headD 0) = .ok found) :
    found = 0 ∨ found ∈ table := by
  -- Every process the walk stops at was compared before, so it is one of the list.
  induction table generalizing before fuel with
  | nil =>
    left
    cases fuel with
    | zero => exact (Except.ok.inj walked).symm
    | succ fuel => exact (Except.ok.inj walked).symm
  | cons proc rest ih =>
    have real : proc ≠ 0 := fun null => solid (by rw [null]; exact List.mem_cons_self)
    obtain ⟨-, forward, others⟩ := linked
    have walked : findLoop kernel pid fuel proc = .ok found := walked
    cases fuel with
    | zero =>
      rw [findLoop, if_neg real] at walked
      cases walked
    | succ fuel =>
      rw [findLoop, if_neg real] at walked
      -- The walk stops at this process or goes on behind it.
      by_cases same : (kernel.procs proc).pid = pid
      · rw [if_pos same] at walked
        cases walked
        exact .inr List.mem_cons_self
      · rw [if_neg same] at walked
        have next : (kernel.procs proc).next = rest.headD 0 := forward
        rw [next] at walked
        rcases ih others (fun among => solid (List.mem_cons_of_mem _ among)) walked with null | among
        · exact .inl null
        · exact .inr (List.mem_cons_of_mem _ among)

end

/-- The kernel together with the processes that were created and not destroyed since, each with the
number it was created with. -/
structure TableSystem where
  kernel : Kernel
  live : List (Nat × Nat)

/-- What happens to processes. -/
inductive ProcessOp where
  | create (proc : Nat) (name : List UInt8) (entryPoint : Nat)
  | destroy (proc : Nat)
  | add (proc : Nat)
  | remove (proc : Nat)
  | tick

/-- One call: the heap answers with memory of no live process, only processes in the queue are taken out
of it, and only live processes that are not in it are destroyed. -/
inductive TableStep : TableSystem → ProcessOp → TableSystem → Prop where
  | created {system : TableSystem} {proc entryPoint : Nat} {name : List UInt8} {kernel : Kernel}
      (fresh : proc ∉ system.live.map Prod.fst) (real : proc ≠ 0)
      (ran : processCreate proc name entryPoint system.kernel = .ok (proc, kernel)) :
      TableStep system (.create proc name entryPoint)
        ⟨kernel, (proc, (kernel.procs proc).pid) :: system.live⟩
  | failed {system : TableSystem} {proc entryPoint : Nat} {name : List UInt8} {kernel : Kernel}
      (fresh : proc ∉ system.live.map Prod.fst)
      (ran : processCreate proc name entryPoint system.kernel = .ok (0, kernel)) :
      TableStep system (.create proc name entryPoint) ⟨kernel, system.live⟩
  | destroyed {system : TableSystem} {proc : Nat} {kernel : Kernel}
      (alive : proc ∈ system.live.map Prod.fst) (idle : ¬ InQueue system.kernel proc)
      (ran : processDestroy proc system.kernel = .ok kernel) :
      TableStep system (.destroy proc)
        ⟨kernel, system.live.filter fun entry => entry.1 ≠ proc⟩
  | add {system : TableSystem} {proc : Nat} (alive : proc ∈ system.live.map Prod.fst) :
      TableStep system (.add proc) ⟨schedulerAdd proc system.kernel, system.live⟩
  | remove {system : TableSystem} {proc : Nat} (queued : InQueue system.kernel proc) :
      TableStep system (.remove proc) ⟨schedulerRemove proc system.kernel, system.live⟩
  | tick {system : TableSystem} : TableStep system .tick ⟨schedulerTick system.kernel, system.live⟩

/-- The links that a call of the scheduler stores are there already, and a new process gets a number
that no live one has. -/
def LinksStay (system : TableSystem) : ProcessOp → Prop
  | .create _ _ _ => system.kernel.nextPid ∉ system.live.map Prod.snd
  | .destroy _ => True
  | .add proc =>
    system.kernel.next proc = 0 ∧
      if system.kernel.readyQueue = 0 then system.kernel.prev proc = 0
      else system.kernel.prev proc = system.kernel.readyQueueTail ∧
        system.kernel.next system.kernel.readyQueueTail = proc
  | .remove proc => system.kernel.next proc = 0 ∧ system.kernel.prev proc = 0
  | .tick => system.kernel.readyQueue = 0 ∨ system.kernel.next system.kernel.readyQueue = 0

/-- Every live process is found by its number, and nothing else is found. -/
def FindsLive (system : TableSystem) : Prop :=
  (∀ entry ∈ system.live, ∃ fuel, processFindByPid fuel entry.2 system.kernel = .ok entry.1) ∧
    ∀ pid fuel found, processFindByPid fuel pid system.kernel = .ok found →
      found = 0 ∨ found ∈ system.live.map Prod.fst

/-- The process list holds the live processes, which have different numbers. -/
structure TableHolds (system : TableSystem) : Prop where
  isTable : IsTable system.kernel (system.live.map Prod.fst)
  pids : ∀ entry ∈ system.live, (system.kernel.procs entry.1).pid = entry.2
  distinct : (system.live.map Prod.snd).Nodup

section

variable {kernel last : Kernel} {table : List Nat} {live : List (Nat × Nat)} {proc : Nat}

/-- A process list stays as it is when no link of its processes changes. -/
theorem IsTable.frame (isTable : IsTable kernel table)
    (nexts : ∀ a ∈ table, last.next a = kernel.next a)
    (prevs : ∀ a ∈ table, last.prev a = kernel.prev a)
    (head : last.processList = kernel.processList) : IsTable last table :=
  ⟨isTable.list.frame nexts prevs, head.trans isTable.head⟩

/-- A process list that holds the live processes finds them. -/
theorem TableHolds.findsLive {system : TableSystem} (holds : TableHolds system) : FindsLive system := by
  -- As much fuel as there are live processes is enough for the walk.
  obtain ⟨isTable, pids, distinct⟩ := holds
  refine ⟨fun entry among => ⟨(system.live.map Prod.fst).length, ?_⟩, fun pid fuel found walked => ?_⟩
  · rw [processFindByPid, isTable.head,
      findLoop_linked isTable.list.linked isTable.list.solid entry.2 (Nat.le_refl _)]
    -- The processes before it in the list have other numbers.
    obtain ⟨newer, older, split⟩ := List.append_of_mem among
    have others : ∀ proc ∈ newer.map Prod.fst, ¬ (system.kernel.procs proc).pid = entry.2 := by
      intro proc member same
      obtain ⟨other, otherAmong, rfl⟩ := List.mem_map.mp member
      have number := pids other (by rw [split]; exact List.mem_append_left _ otherAmong)
      rw [split, List.map_append, List.map_cons, List.nodup_middle] at distinct
      apply (List.nodup_cons.mp distinct).1
      rw [← same, number]
      exact List.mem_append_left _ (List.mem_map_of_mem otherAmong)
    have own : (system.kernel.procs entry.1).pid = entry.2 := pids entry among
    rw [split, List.map_append, List.find?_append, List.find?_eq_none.mpr (by simpa using others),
      List.map_cons, List.find?_cons_of_pos (by simpa using own)]
    rfl
  · rw [processFindByPid, isTable.head] at walked
    exact findLoop_among isTable.list.linked isTable.list.solid walked

/-- The memory of a process that is not in the list can be overwritten. -/
theorem IsTable.withProcess (isTable : IsTable kernel table) (new : proc ∉ table) (process : Process)
    (pmm : Pmm) : IsTable (kernel.withProcess proc process pmm) table := by
  -- The processes of the list lie elsewhere.
  have same : ∀ a ∈ table, (kernel.withProcess proc process pmm).procs a = kernel.procs a := by
    intro a among
    have other : a ≠ proc := fun alike => new (alike ▸ among)
    exact withProcess_of_ne other
  refine isTable.frame (fun a among => ?_) (fun a among => ?_) rfl
  · unfold Kernel.next
    rw [same a among]
  · unfold Kernel.prev
    rw [same a among]

/-- The scheduler leaves the process list alone where the links it stores are there already. -/
theorem TableHolds.scheduled {system : TableSystem} (holds : TableHolds system)
    (only : OnlyLinks system.kernel last)
    (links : last.next = system.kernel.next ∧ last.prev = system.kernel.prev) :
    TableHolds ⟨last, system.live⟩ := by
  obtain ⟨forward, backward⟩ := links
  -- Scheduling writes links only, and the table is threaded by the links it keeps.
  refine ⟨?_, fun entry among => ?_, holds.distinct⟩
  · exact holds.isTable.frame (fun a _ => congrFun forward a) (fun a _ => congrFun backward a)
      only.processList
  · exact (only.pid entry.1).trans (holds.pids entry among)

/-- A process that was created is found as well. -/
theorem TableHolds.created {system : TableSystem} {entryPoint : Nat} {name : List UInt8}
    (holds : TableHolds system) (fresh : proc ∉ system.live.map Prod.fst) (real : proc ≠ 0)
    (ran : processCreate proc name entryPoint system.kernel = .ok (proc, kernel))
    (unused : system.kernel.nextPid ∉ system.live.map Prod.snd) :
    TableHolds ⟨kernel, (proc, (kernel.procs proc).pid) :: system.live⟩ := by
  -- The new process is written first and linked then; its link back is clear.
  rcases processCreate_cases ran with ⟨null, -⟩ | ⟨-, null, -⟩ | ⟨-, -, stackBase, pmm, -, made⟩
  · exact absurd null real
  · exact absurd null real
  · -- The new process has the next number, and no link leads to it yet.
    have written : ((system.kernel.withProcess proc
        (newProcess system.kernel.nextPid name entryPoint stackBase) pmm).procs proc) =
        newProcess system.kernel.nextPid name entryPoint stackBase := withProcess_self ..
    have number : (kernel.procs proc).pid = system.kernel.nextPid := by
      rw [made, onlyLinks_linkProcess.pid, written]
      rfl
    refine ⟨?_, ?_, ?_⟩
    · rw [made]
      apply linkProcess_table (holds.isTable.withProcess fresh _ _) real fresh
      unfold Kernel.prev
      rw [written]
      rfl
    · -- The numbers of the others are as before, since the creation writes one process only.
      intro entry among
      rcases List.mem_cons.mp among with rfl | old
      · rfl
      · have other : entry.1 ≠ proc := fun same =>
          fresh (by rw [← same]; exact List.mem_map_of_mem old)
        rw [made, onlyLinks_linkProcess.pid, ← holds.pids entry old]
        exact congrArg Process.pid (withProcess_of_ne other)
    -- The number comes from the counter, which no live process has.
    · rw [List.map_cons, number]
      exact List.nodup_cons.mpr ⟨unused, holds.distinct⟩

/-- A process that could not be created changes nothing for the others. -/
theorem TableHolds.failed {system : TableSystem} {entryPoint : Nat} {name : List UInt8}
    (holds : TableHolds system) (fresh : proc ∉ system.live.map Prod.fst)
    (ran : processCreate proc name entryPoint system.kernel = .ok (0, kernel)) :
    TableHolds ⟨kernel, system.live⟩ := by
  -- What was written lies in memory of no live process.
  rcases processCreate_cases ran with ⟨-, -, same⟩ | ⟨-, -, process, pmm, -, made⟩ | ⟨real, null, -⟩
  · rw [same]
    exact holds
  · rw [made]
    have isTable := holds.isTable.withProcess fresh process pmm
    refine ⟨⟨isTable.list, isTable.head⟩, fun entry among => ?_, holds.distinct⟩
    have other : entry.1 ≠ proc := fun same =>
      fresh (by rw [← same]; exact List.mem_map_of_mem among)
    rw [← holds.pids entry among]
    exact congrArg Process.pid (@withProcess_of_ne _ _ _ process pmm other)
  · exact absurd null.symm real

/-- A process that was destroyed is not found any more. -/
theorem TableHolds.destroyed {system : TableSystem} (holds : TableHolds system)
    (alive : proc ∈ system.live.map Prod.fst)
    (ran : processDestroy proc system.kernel = .ok kernel) :
    TableHolds ⟨kernel, system.live.filter fun entry => entry.1 ≠ proc⟩ := by
  -- The entry splits the live processes into newer and older ones, as the list is split.
  have real : proc ≠ 0 := fun null => holds.isTable.list.solid (null ▸ alive)
  obtain ⟨pmm, -, made⟩ := processDestroy_cases real ran
  obtain ⟨entry, among, rfl⟩ := List.mem_map.mp alive
  obtain ⟨newer, older, split⟩ := List.append_of_mem among
  have addresses : system.live.map Prod.fst = newer.map Prod.fst ++ entry.1 :: older.map Prod.fst := by
    rw [split, List.map_append, List.map_cons]
  have once := holds.isTable.list.nodup
  -- The addresses differ, so leaving out the entry leaves the newer and the older ones.
  have kept : (system.live.filter fun other => other.1 ≠ entry.1) = newer ++ older := by
    rw [split] at once ⊢
    exact filter_others once
  have fewer : List.Sublist (newer ++ older) system.live := by
    rw [split]
    exact (List.Sublist.refl newer).append (List.sublist_cons_self entry older)
  have isTable := holds.isTable
  rw [addresses] at isTable
  have without : IsTable (system.kernel.withPmm pmm) _ := ⟨isTable.list, isTable.head⟩
  have unlinked := unlinkProcess_table without
  rw [made, kept]
  refine ⟨?_, fun other member => ?_, (fewer.map Prod.snd).nodup holds.distinct⟩
  · rw [List.map_append]
    exact ⟨unlinked.list, unlinked.head⟩
  · rw [← holds.pids other (fewer.subset member)]
    exact onlyLinks_unlinkProcess.pid other.1

/-- Adding a process stores the links that are there already. -/
theorem addLinks_stay {system : TableSystem} (real : proc ≠ 0) (stays : LinksStay system (.add proc)) :
    (schedulerAdd proc system.kernel).next = system.kernel.next ∧
      (schedulerAdd proc system.kernel).prev = system.kernel.prev := by
  -- Each link that is stored is compared with the one it replaces.
  have links := @schedulerAdd_links system.kernel proc real
  obtain ⟨forward, stays⟩ := stays
  -- An empty queue has no last process whose link would be stored.
  by_cases empty : system.kernel.readyQueue = 0
  · rw [if_pos empty] at stays
    constructor
    · funext other
      rw [(links other).1]
      split_ifs with own last
      · rw [own, forward]
      · exact absurd empty last.1
      · rfl
    · funext other
      rw [(links other).2, if_pos empty]
      split_ifs with own
      · rw [own, stays]
      · rfl
  · -- The last process links to the new one already.
    rw [if_neg empty] at stays
    obtain ⟨backward, tail⟩ := stays
    constructor
    · funext other
      rw [(links other).1]
      split_ifs with own last
      · rw [own, forward]
      · rw [last.2, tail]
      · rfl
    · funext other
      rw [(links other).2, if_neg empty]
      split_ifs with own
      · rw [own, backward]
      · rfl

/-- Taking out a process stores the links that are there already. -/
theorem removeLinks_stay {system : TableSystem} (real : proc ≠ 0)
    (stays : LinksStay system (.remove proc)) :
    (schedulerRemove proc system.kernel).next = system.kernel.next ∧
      (schedulerRemove proc system.kernel).prev = system.kernel.prev := by
  -- Without neighbours only the process's own links are stored, and they are null already.
  have links := @schedulerRemove_links system.kernel proc real
  obtain ⟨forward, backward⟩ := stays
  constructor
  · funext other
    rw [(links other).1]
    split_ifs with own before
    · rw [own, forward]
    · exact absurd backward before.1
    · rfl
  · funext other
    rw [(links other).2]
    split_ifs with own after
    · rw [own, backward]
    · exact absurd forward after.1
    · rfl

/-- A tick of at most one process stores no link. -/
theorem tickLinks_stay {system : TableSystem} (stays : LinksStay system .tick) :
    (schedulerTick system.kernel).next = system.kernel.next ∧
      (schedulerTick system.kernel).prev = system.kernel.prev := by
  -- An empty queue and a single process are the two cases without a turn.
  by_cases empty : system.kernel.readyQueue = 0
  · have idle : schedulerTick system.kernel = system.kernel := if_pos empty
    rw [idle]
    exact ⟨rfl, rfl⟩
  · rcases stays with null | alone
    · exact absurd null empty
    · rw [schedulerTick_alone empty alone]
      exact ⟨rfl, rfl⟩

/-- A call whose links are there already keeps the process list. -/
theorem TableHolds.step {system next : TableSystem} {op : ProcessOp} (holds : TableHolds system)
    (step : TableStep system op next) (stays : LinksStay system op) : TableHolds next := by
  -- Creations and destructions change the list, and the scheduler changes no link of it.
  cases step with
  | created fresh real ran => exact holds.created fresh real ran stays
  | failed fresh ran => exact holds.failed fresh ran
  | destroyed alive idle ran => exact holds.destroyed alive ran
  | @add proc alive =>
    have real : proc ≠ 0 := fun null => holds.isTable.list.solid (null ▸ alive)
    exact holds.scheduled onlyLinks_schedulerAdd (addLinks_stay real stays)
  | remove queued =>
    exact holds.scheduled onlyLinks_schedulerRemove (removeLinks_stay queued.ne_null stays)
  | tick => exact holds.scheduled onlyLinks_schedulerTick (tickLinks_stay stays)

end

/-- Before the first process the list is empty. -/
theorem processInit_holds (boot : Kernel) : TableHolds ⟨schedulerInit (processInit boot), []⟩ :=
  ⟨⟨dList_nil, rfl⟩, fun entry among => (by cases among), List.nodup_nil⟩

/-- In every run in which the scheduler stores only links that are there already, and no new process gets
the number of a live one, exactly the live processes are found, each by its number. -/
theorem live_processes_found (boot : Kernel) {last : TableSystem} {ops : List ProcessOp}
    (run : Run (fun system op next => TableStep system op next ∧ LinksStay system op)
      ⟨schedulerInit (processInit boot), []⟩ ops last) : FindsLive last :=
  (run.preserves TableHolds (fun holds step => holds.step step.1 step.2)
    (processInit_holds boot)).findsLive

/-- The first kernel of the runs below, with room for three stacks. -/
def tableBoot : Kernel := schedulerInit (processInit (bootKernel spaciousPmm))

/-- Two processes can be created. -/
theorem tableBoot_two :
    ∃ one two, processCreate 16 [] 0 tableBoot = .ok (16, one) ∧
      processCreate 32 [] 0 one = .ok (32, two) ∧ one.nextPid = 2 ∧ (one.procs 16).pid = 1 ∧
      (two.procs 16).pid = 1 ∧ (two.procs 32).pid = 2 ∧ two.readyQueue = 0 ∧ two.processList = 32 := by
  -- Each creation finds the run of free pages that the one before left.
  obtain ⟨one, oneRan, oneMade⟩ := @created_run tableBoot 16 256 512 [] 0 (by decide) (by decide)
    spaciousPmm_run
  obtain ⟨two, twoRan, twoMade⟩ := @created_run one 32 512 256 [] 0 (by decide) (by decide) oneMade.run
  refine ⟨one, two, oneRan, twoRan, oneMade.nextPid, oneMade.pid, ?_, ?_, ?_, twoMade.processList⟩
  · rw [twoMade.others 16 (by decide), oneMade.pid]
    rfl
  · rw [twoMade.pid, oneMade.nextPid]
    rfl
  · rw [twoMade.readyQueue, oneMade.readyQueue]
    rfl

/-- Of two processes that were created the older one is found. -/
theorem older_process_found :
    ∃ last, Run (fun system op next => TableStep system op next ∧ LinksStay system op) ⟨tableBoot, []⟩
        [.create 16 [] 0, .create 32 [] 0] last ∧ (16, 1) ∈ last.live ∧
      ∃ fuel, processFindByPid fuel 1 last.kernel = .ok 16 := by
  -- Before the scheduler is called, the list holds both processes.
  obtain ⟨one, two, oneRan, twoRan, next, first, -, second, -, -⟩ := tableBoot_two
  have run : Run (fun system op next => TableStep system op next ∧ LinksStay system op)
      ⟨tableBoot, []⟩ [.create 16 [] 0, .create 32 [] 0]
      ⟨two, [(32, (two.procs 32).pid), (16, (one.procs 16).pid)]⟩ := by
    refine .cons ⟨.created (by simp) (by decide) oneRan, by simp [LinksStay]⟩
      (.cons ⟨.created (by simp) (by decide) twoRan, ?_⟩ (.nil _))
    simp [LinksStay, next, first]
  have among : (16, 1) ∈ [(32, (two.procs 32).pid), (16, (one.procs 16).pid)] := by simp [first]
  exact ⟨_, run, among, (live_processes_found _ run).1 (16, 1) among⟩

/-- When the newer of two processes is put on the ready queue, the older one is not found any more. -/
theorem older_process_lost :
    ∃ last, Run TableStep ⟨tableBoot, []⟩ [.create 16 [] 0, .create 32 [] 0, .add 32] last ∧
      (16, 1) ∈ last.live ∧ (∀ fuel, processFindByPid fuel 1 last.kernel ≠ .ok 16) ∧
      ¬ FindsLive last := by
  obtain ⟨one, two, oneRan, twoRan, next, first, older, newer, empty, list⟩ := tableBoot_two
  have run : Run TableStep ⟨tableBoot, []⟩ [.create 16 [] 0, .create 32 [] 0, .add 32]
      ⟨schedulerAdd 32 two, [(32, (two.procs 32).pid), (16, (one.procs 16).pid)]⟩ :=
    .cons (.created (by simp) (by decide) oneRan)
      (.cons (.created (by simp) (by decide) twoRan) (.cons (.add (by simp)) (.nil _)))
  have among : (16, 1) ∈ [(32, (two.procs 32).pid), (16, (one.procs 16).pid)] := by simp [first]
  have only := @onlyLinks_schedulerAdd two 32
  -- The link from the newer process to the older one is overwritten with null.
  have cut : ((schedulerAdd 32 two).procs 32).next = 0 := by
    have links := (@schedulerAdd_links two 32 (by decide) 32).1
    rwa [if_pos rfl] at links
  -- The walk meets the newer process, and then the null that replaced its link.
  have missing : ∀ fuel, processFindByPid fuel 1 (schedulerAdd 32 two) ≠ .ok 16 := by
    intro fuel
    have head : (schedulerAdd 32 two).processList = 32 := only.processList.trans list
    have pid : ((schedulerAdd 32 two).procs 32).pid = 2 := (only.pid 32).trans newer
    cases fuel with
    | zero => simp [processFindByPid, findLoop, head]
    | succ fuel =>
      cases fuel with
      | zero => simp [processFindByPid, findLoop, head, pid, cut]
      | succ fuel => simp [processFindByPid, findLoop, head, pid, cut]
  refine ⟨_, run, among, missing, fun finds => ?_⟩
  obtain ⟨fuel, found⟩ := finds.1 (16, 1) among
  exact missing fuel found

end MiraOS
