import Mathlib.Data.List.Basic

/-! Registers that are written one by one, and the commands that use what was written so far. -/

namespace Machine

section

variable {Register Event Command : Type} (latch : Register → Event → Register) (command : Event → Option Command)

/-- The commands of a log, each with the registers that the events in front of it leave. -/
def issued : Register → List Event → List (Command × Register)
  | _, [] => []
  | registers, event :: later =>
    ((command event).map fun found => (found, registers)).toList ++ issued (latch registers event) later

/-- An event that writes no register and is no command. -/
def Silent (event : Event) : Prop := command event = none ∧ ∀ registers, latch registers event = registers

variable {latch command} {log : List Event}

/-- Two logs one after another: the second one starts with the registers that the first one leaves. -/
theorem issued_append (registers : Register) (log later : List Event) :
    issued latch command registers (log ++ later) =
      issued latch command registers log ++ issued latch command (log.foldl latch registers) later := by
  -- Induction on the log, with the registers it leaves carried along.
  induction log generalizing registers with
  | nil => rfl
  | cons event rest ih => rw [List.cons_append, issued, issued, ih, List.foldl_cons, List.append_assoc]

/-- A silent log leaves the registers. -/
theorem foldl_silent (silent : ∀ event ∈ log, Silent latch command event) (registers : Register) :
    log.foldl latch registers = registers := by
  -- Induction on the log: a silent event leaves the registers.
  induction log with
  | nil => rfl
  | cons event rest ih =>
    rw [List.foldl_cons, (silent event List.mem_cons_self).2]
    exact ih fun other among => silent other (List.mem_cons_of_mem event among)

/-- A silent log has no commands. -/
theorem issued_silent (silent : ∀ event ∈ log, Silent latch command event) (registers : Register) :
    issued latch command registers log = [] := by
  -- An event that is no command leaves what the rest of the log finds.
  induction log with
  | nil => rfl
  | cons event rest ih =>
    obtain ⟨none, kept⟩ := silent event List.mem_cons_self
    rw [issued, none, kept]
    exact ih fun other among => silent other (List.mem_cons_of_mem event among)

/-- Between silent logs the commands are those of the log in the middle. -/
theorem issued_between {front back : List Event} (before : ∀ event ∈ front, Silent latch command event)
    (behind : ∀ event ∈ back, Silent latch command event) (registers : Register) :
    issued latch command registers (front ++ (log ++ back)) = issued latch command registers log := by
  rw [issued_append, issued_append, issued_silent before, foldl_silent before, issued_silent behind, List.append_nil,
    List.nil_append]

end

end Machine
