import MiraOS.Machine.Histories
import MiraOS.Machine.Keyed
import MiraOS.Machine.Slots

/-! The jobs of ui/shell.c: their ids, and when these tell the jobs apart. -/

namespace MiraOS

open Machine

/-- Limit of the table of jobs. -/
def shellMaxJobs : Nat := 32

/-- A job of the shell. -/
structure ShellJob where
  jobId : UInt32
  command : List UInt8
  pid : UInt32
  running : Bool
  stopped : Bool
  exitStatus : Int
  deriving DecidableEq, Inhabited

/-- The table of jobs and their number. -/
structure ShellJobs where
  globalJobs : Nat → ShellJob
  globalJobCount : Nat

/-- The table before the first job, over whatever is in it. -/
def noJobs (globalJobs : Nat → ShellJob) : ShellJobs := ⟨globalJobs, 0⟩

/-- The jobs in the slots in use. -/
def ShellJobs.list (jobs : ShellJobs) : List ShellJob := slots jobs.globalJobs jobs.globalJobCount

/-- The id that the next job gets. -/
def ShellJobs.nextId (jobs : ShellJobs) : UInt32 := UInt32.ofNat (jobs.globalJobCount + 1)

/-- Add a job behind the others, unless the table is full. -/
def shellJobAdd (jobs : ShellJobs) (job : ShellJob) : ShellJobs :=
  if jobs.globalJobCount < shellMaxJobs then
    let job := { job with jobId := jobs.nextId }
    ⟨Function.update jobs.globalJobs jobs.globalJobCount job, jobs.globalJobCount + 1⟩
  else jobs

/-- The slot of the first job with an id. -/
def shellJobGet (jobs : ShellJobs) (jobId : UInt32) : Option Nat :=
  jobs.list.findIdx? (·.jobId = jobId)

/-- Remove the first job with an id. -/
def shellJobRemove (jobs : ShellJobs) (jobId : UInt32) : ShellJobs :=
  match shellJobGet jobs jobId with
  | some i =>
    -- The copy goes from low to high addresses, so every job lands one slot below its own.
    ⟨shiftDown jobs.globalJobs i (jobs.globalJobCount - 1 - i), jobs.globalJobCount - 1⟩
  | none => jobs

/-- Stop the first job with an id and remove it. -/
def shellJobKill (jobs : ShellJobs) (jobId : UInt32) : ShellJobs :=
  match shellJobGet jobs jobId with
  | some i =>
    -- The job is marked in its slot first, and then looked for again.
    let job := { jobs.globalJobs i with running := false }
    shellJobRemove { jobs with globalJobs := Function.update jobs.globalJobs i job } jobId
  | none => jobs

/-- A use of the table. -/
inductive JobUse where
  | add (job : ShellJob)
  | remove (jobId : UInt32)
  | kill (jobId : UInt32)

/-- The table after a use. -/
def jobStep (jobs : ShellJobs) : JobUse → ShellJobs
  | .add job => shellJobAdd jobs job
  | .remove jobId => shellJobRemove jobs jobId
  | .kill jobId => shellJobKill jobs jobId

/-- The table after uses one after another. -/
def jobRun (jobs : ShellJobs) (uses : List JobUse) : ShellJobs := uses.foldl jobStep jobs

/-- Ids tell the jobs apart: one id finds one job, and killing it leaves the jobs of other ids. -/
structure ShellJobs.Identified (jobs : ShellJobs) : Prop where
  unique : (jobs.list.map (·.jobId)).Nodup
  found : ∀ jobId i, shellJobGet jobs jobId = some i →
    ∀ k job, jobs.list[k]? = some job → (job.jobId = jobId ↔ k = i)
  killed : ∀ jobId, (shellJobKill jobs jobId).list = jobs.list.filter (·.jobId ≠ jobId)

/-- A use that leaves ids unique: where a job is added, no job has the id that it gets. -/
def JobUse.Safe (jobs : ShellJobs) : JobUse → Prop
  | .add _ => jobs.globalJobCount < shellMaxJobs → ∀ job ∈ jobs.list, job.jobId ≠ jobs.nextId
  | .remove _ => True
  | .kill _ => True

/-- A slot that is found is in use. -/
theorem shellJobGet_lt {jobs : ShellJobs} {jobId : UInt32} {i : Nat} (found : shellJobGet jobs jobId = some i) :
    i < jobs.globalJobCount := by
  -- The search runs over the jobs that are counted.
  obtain ⟨inside, -⟩ := List.findIdx?_eq_some_iff_getElem.mp found
  rwa [ShellJobs.list, slots_length] at inside

/-- A new job stands behind the others. -/
theorem shellJobAdd_list {jobs : ShellJobs} (room : jobs.globalJobCount < shellMaxJobs) (job : ShellJob) :
    (shellJobAdd jobs job).list = jobs.list ++ [{ job with jobId := jobs.nextId }] := by
  rw [shellJobAdd, if_pos room]
  exact slots_push _ _ _

/-- A removal takes the job that was found out of the list. -/
theorem shellJobRemove_list {jobs : ShellJobs} {jobId : UInt32} {i : Nat}
    (found : shellJobGet jobs jobId = some i) : (shellJobRemove jobs jobId).list = jobs.list.eraseIdx i := by
  rw [shellJobRemove, found]
  exact slots_shiftDown _ (shellJobGet_lt found)

/-- A search for an id sees the ids only. -/
theorem shellJobGet_eq (jobs : ShellJobs) (jobId : UInt32) :
    shellJobGet jobs jobId = (jobs.list.map (·.jobId)).findIdx? (· = jobId) := by
  rw [List.findIdx?_map]
  rfl

/-- Killing takes the same job out, since its mark has no part in the search. -/
theorem shellJobKill_list {jobs : ShellJobs} {jobId : UInt32} {i : Nat}
    (found : shellJobGet jobs jobId = some i) : (shellJobKill jobs jobId).list = jobs.list.eraseIdx i := by
  rw [shellJobKill, found]
  dsimp only
  set stopped : ShellJobs :=
    { jobs with globalJobs := Function.update jobs.globalJobs i { jobs.globalJobs i with running := false } }
    with stoppedIs
  have listed : stopped.list = jobs.list.set i { jobs.globalJobs i with running := false } :=
    slots_update _ _ _ _
  -- The job keeps its id when its mark changes.
  have ids : stopped.list.map (·.jobId) = jobs.list.map (·.jobId) := by
    have same := @update_field _ _ ShellJob.jobId jobs.globalJobs i
      { jobs.globalJobs i with running := false } rfl
    rw [ShellJobs.list, ShellJobs.list, slots, slots, List.map_map, List.map_map]
    exact List.map_congr_left fun k _ => same k
  have again : shellJobGet stopped jobId = some i := by
    rw [shellJobGet_eq, ids, ← shellJobGet_eq, found]
  rw [shellJobRemove_list again, listed, List.eraseIdx_set_eq]

/-- Without a job of the id nothing is removed or killed. -/
theorem shellJob_absent {jobs : ShellJobs} {jobId : UInt32} (absent : shellJobGet jobs jobId = none) :
    shellJobRemove jobs jobId = jobs ∧ shellJobKill jobs jobId = jobs := by
  constructor
  · rw [shellJobRemove, absent]
  · rw [shellJobKill, absent]

/-- Unique ids are all that it takes to tell the jobs apart. -/
theorem ShellJobs.identified_iff (jobs : ShellJobs) :
    jobs.Identified ↔ (jobs.list.map (·.jobId)).Nodup := by
  refine ⟨fun identified => identified.unique, fun unique => ⟨unique, ?_, ?_⟩⟩
  · intro jobId i found k job here
    obtain ⟨item, first, named, -⟩ := @getElem?_of_findIdx? _ _ _ ShellJob.jobId _ _ _ found
    constructor
    · intro same
      -- Two places of one id are one place.
      have one : (jobs.list.map (·.jobId))[k]? = some jobId := by
        rw [List.getElem?_map, here, Option.map_some, same]
      have two : (jobs.list.map (·.jobId))[i]? = some jobId := by
        rw [List.getElem?_map, first, Option.map_some, named]
      obtain ⟨inside, -⟩ := List.getElem?_eq_some_iff.mp one
      exact (List.getElem?_inj inside unique).mp (one.trans two.symm)
    · rintro rfl
      rw [first] at here
      rw [← Option.some.inj here, named]
  · intro jobId
    cases found : shellJobGet jobs jobId with
    | none =>
      rw [(shellJob_absent found).2]
      exact (dropKey_absent (findIdx?_key_eq_none.mp found)).symm
    | some i =>
      -- With unique ids, the first job of the id is the only one.
      rw [shellJobKill_list found]
      exact eraseIdx_findIdx? unique found

/-- From unique ids, a use leads to unique ids exactly when it is safe. -/
theorem jobStep_unique_iff {jobs : ShellJobs} (unique : (jobs.list.map (·.jobId)).Nodup) (use : JobUse) :
    ((jobStep jobs use).list.map (·.jobId)).Nodup ↔ use.Safe jobs := by
  -- A job that goes takes its id with it, whichever way it goes.
  have erased : ∀ i, ((jobs.list.eraseIdx i).map (·.jobId)).Nodup := fun i =>
    unique.sublist ((List.eraseIdx_sublist _ _).map _)
  cases use with
  | add job =>
    rw [jobStep, JobUse.Safe]
    by_cases room : jobs.globalJobCount < shellMaxJobs
    · -- The new id has to differ from those in the table.
      rw [shellJobAdd_list room, List.map_append, List.nodup_append]
      simp [unique, room]
    · -- A full table stays as it is.
      rw [shellJobAdd, if_neg room]
      simp [unique, room]
  | remove jobId =>
    refine iff_of_true ?_ trivial
    rw [jobStep]
    cases found : shellJobGet jobs jobId with
    | none => rwa [(shellJob_absent found).1]
    | some i =>
      rw [shellJobRemove_list found]
      exact erased i
  | kill jobId =>
    refine iff_of_true ?_ trivial
    rw [jobStep]
    cases found : shellJobGet jobs jobId with
    | none => rwa [(shellJob_absent found).2]
    | some i =>
      rw [shellJobKill_list found]
      exact erased i

/--
Ids tell the jobs apart throughout a history exactly when no job is added under an id in use.

The next id is one more than the number of jobs, which a removal lowers below ids that were given.
-/
theorem jobIds_identified_iff (globalJobs : Nat → ShellJob) (uses : List JobUse) :
    (∀ before, before <+: uses → (jobRun (noJobs globalJobs) before).Identified) ↔
      ∀ before use, before ++ [use] <+: uses → use.Safe (jobRun (noJobs globalJobs) before) := by
  -- No job is listed at first, so no two share a number.
  have empty : (noJobs globalJobs).Identified := (ShellJobs.identified_iff _).mpr List.nodup_nil
  refine @history_good_iff _ _ jobStep _ uses (fun _ => True) ShellJobs.Identified
    -- A history is identified throughout exactly if each of its steps is safe where it is taken.
    (fun jobs use => use.Safe jobs) trivial empty (fun _ _ _ _ => trivial) ?_
  intro jobs use _ _ identified
  rw [ShellJobs.identified_iff]
  exact jobStep_unique_iff identified.unique use

/-- Two jobs, the removal of the first one and a third job give two jobs the id two. -/
theorem jobIds_repeat :
    ¬ ∀ (globalJobs : Nat → ShellJob) (uses : List JobUse),
      (jobRun (noJobs globalJobs) uses).Identified := by
  intro all
  -- The number given to the third job is the one the second still has.
  have unique := (all (fun _ => default) [.add default, .add default, .remove 1, .add default]).unique
  exact absurd unique (by decide)

end MiraOS
