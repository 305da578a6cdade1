import MiraOS.Lib.StringSearch

/-! The builtin killall of ui/shell.c: which jobs it marks as not running. -/

namespace MiraOS

open Machine

/-- Bytes of a job: its id, its command, its process, two flags, two bytes of padding and its status. -/
def jobSize : Nat := 4112

/-- Where the command of a job is, and where the flag that it is running. -/
def jobCommand (table i : Nat) : Nat := table + i * jobSize + 4
def jobRunning (table i : Nat) : Nat := table + i * jobSize + 4104

/-- The loop over the jobs, with their number and the first of them that are left. -/
def killallLoop (fuel table arg : Nat) : Nat → Nat → Traced Memory CharRead Unit
  | 0, _ => pure ()
  | left + 1, i => do
    let found ← strstr fuel (jobCommand table i) arg
    Traced.onlyIf (found ≠ none) (.change fun globalJobs => Function.update globalJobs (jobRunning table i) 0)
    killallLoop fuel table arg left (i + 1)

/-- Mark the jobs whose command contains the first argument behind the name. -/
def builtinKillall (fuel table globalJobCount argCount arg : Nat) : Traced Memory CharRead Int := do
  if argCount < 2 then return 1
  killallLoop fuel table arg globalJobCount 0
  return 0

/-- Memory in which the jobs in front of one are marked, if their commands contain a text. -/
def killedBefore (mem : Memory) (table : Nat) (commands : Nat → List UInt8) (part : List UInt8) (count : Nat) :
    Memory := fun byte =>
  if ∃ i < count, byte = jobRunning table i ∧ part <:+: commands i then 0 else mem byte

/-- A table of jobs in memory, with their commands, and a text that is apart from their flags. -/
structure JobsAt (mem : Memory) (table count : Nat) (commands : Nat → List UInt8) (arg : Nat) (part : List UInt8) :
    Prop where
  command : ∀ i < count, TextAt mem (jobCommand table i) (commands i)
  fits : ∀ i < count, (commands i).length < 4096
  sought : TextAt mem arg part
  apart : ∀ i < count, jobRunning table i < arg ∨ arg + part.length < jobRunning table i

section

variable {mem : Memory} {table count arg : Nat} {commands : Nat → List UInt8} {part : List UInt8}

/-- Marking a further job. -/
theorem killedBefore_succ (i : Nat) :
    killedBefore mem table commands part (i + 1) =
      if part <:+: commands i then Function.update (killedBefore mem table commands part i) (jobRunning table i) 0
      else killedBefore mem table commands part i := by
  funext byte
  rw [killedBefore]
  simp only [Nat.exists_lt_succ_right]
  split_ifs with marked contains contains
  · by_cases here : byte = jobRunning table i
    · rw [here, Function.update_self]
    · -- The flag is one of a job in front.
      rw [Function.update_of_ne here, killedBefore, if_pos (marked.resolve_right fun last => here last.1)]
  · rw [killedBefore, if_pos (marked.resolve_right fun last => contains last.2)]
  · simp only [not_or] at marked
    rw [Function.update_of_ne fun here => marked.2 ⟨here, contains⟩, killedBefore, if_neg marked.1]
  · simp only [not_or] at marked
    rw [killedBefore, if_neg marked.1]

/-- Marking jobs leaves the commands and the text. -/
theorem JobsAt.killed (jobs : JobsAt mem table count commands arg part) {some : Nat} (few : some ≤ count) :
    JobsAt (killedBefore mem table commands part some) table count commands arg part := by
  -- Only flags are changed.
  have kept : ∀ byte, (∀ i < count, byte ≠ jobRunning table i) →
      killedBefore mem table commands part some byte = mem byte := by
    intro byte other
    rw [killedBefore, if_neg]
    rintro ⟨i, before, here, -⟩
    exact other i (Nat.lt_of_lt_of_le before few) here
  refine ⟨fun i inside => ?_, jobs.fits, ?_, jobs.apart⟩
  · refine (jobs.command i inside).congr fun k short => kept _ fun j _ => ?_
    have fits := jobs.fits i inside
    simp only [jobCommand, jobRunning, jobSize]
    omega
  · refine jobs.sought.congr fun k short => kept _ fun j inside => ?_
    have apart := jobs.apart j inside
    omega

/-- The loop marks the jobs that are left as well. -/
theorem killallLoop_goes {fuel left i : Nat} (jobs : JobsAt mem table count commands arg part)
    (turns : i + left = count) (enough : 4098 ≤ fuel) :
    (killallLoop fuel table arg left i (killedBefore mem table commands part i)).2 =
      .ok ((), killedBefore mem table commands part count) := by
  induction left generalizing i with
  | zero =>
    obtain rfl : i = count := turns
    rfl
  | succ left ih =>
    have now := jobs.killed (show i ≤ count by omega)
    have short := jobs.fits i (by omega)
    have found := (@strstr_guards _ _ _ _ _ fuel (now.command i (by omega)) now.sought (by omega)).goes trivial
    rw [killallLoop, Traced.bind_ok found]
    have rest := @ih (i + 1) (by omega)
    rw [killedBefore_succ] at rest
    -- The search succeeds exactly where the command contains the text.
    have succeeds : (firstOccurrence (commands i) part).map (jobCommand table i + ·) ≠ none ↔
        part <:+: commands i := by
      rw [Ne, Option.map_eq_none_iff, firstOccurrence_eq_none, exists_occursAt, not_not]
    rw [Traced.onlyIf]
    by_cases contains : part <:+: commands i
    · rw [if_pos contains] at rest
      rw [if_pos (succeeds.mpr contains)]
      exact rest
    · rw [if_neg contains] at rest
      rw [if_neg (mt succeeds.mp contains)]
      exact rest

/-- The builtin marks exactly the jobs whose command contains its argument, and changes nothing else. -/
theorem builtinKillall_marks {fuel argCount : Nat} (jobs : JobsAt mem table count commands arg part)
    (named : 2 ≤ argCount) (enough : 4098 ≤ fuel) :
    (builtinKillall fuel table count argCount arg mem).2 = .ok (0, killedBefore mem table commands part count) := by
  -- Before the first job nothing has been marked.
  have start : killedBefore mem table commands part 0 = mem := by
    funext byte
    rw [killedBefore, if_neg]
    rintro ⟨i, before, -⟩
    exact absurd before (Nat.not_lt_zero i)
  -- The loop invariant at the start of the table: the jobs before `i` are marked, the rest as they were.
  have ran := @killallLoop_goes mem table count arg commands part fuel count 0 jobs (Nat.zero_add count) enough
  rw [start] at ran
  rw [builtinKillall, if_neg (by omega), Traced.bind_ok ran]
  rfl

end

end MiraOS
