import Mathlib.Data.List.Basic
import MiraOS.Machine.Run

/-! Computations over a state that log events and may stop, and what can be said of the log of all of one. -/

namespace Machine

/-- A computation: the events it logs, and its result with the state after it unless it stops. -/
def Traced (State Event α : Type) : Type := State → List Event × Except Halt (α × State)

section

variable {State Event α β : Type}

/-- What a computation logs before it goes on, or in front of where it stops. -/
def Traced.andThen (first : Traced State Event α) (next : α → Traced State Event β) : Traced State Event β :=
  fun state =>
    match first state with
    | (log, .error halt) => (log, .error halt)
    | (log, .ok (value, after)) =>
      let (later, result) := next value after
      (log ++ later, result)

instance : Monad (Traced State Event) where
  pure value := fun state => ([], .ok (value, state))
  bind := Traced.andThen

/-- Log an event. -/
def Traced.emit (event : Event) : Traced State Event Unit := fun state => ([event], .ok ((), state))

/-- Stop. -/
def Traced.stop (halt : Halt) : Traced State Event α := fun _ => ([], .error halt)

/-- Read the state. -/
def Traced.look : Traced State Event State := fun state => ([], .ok (state, state))

/-- Change the state. -/
def Traced.change (update : State → State) : Traced State Event Unit := fun state => ([], .ok ((), update state))

/-- Take over the outcome of a computation that logs nothing. -/
def Traced.lift (outcome : Except Halt α) : Traced State Event α := fun state =>
  match outcome with
  | .ok value => ([], .ok (value, state))
  | .error halt => ([], .error halt)

/-- Do something only under a condition. -/
def Traced.onlyIf (condition : Prop) [Decidable condition] (body : Traced State Event Unit) :
    Traced State Event Unit :=
  if condition then body else pure ()

/-- A loop over items, each with its place. -/
def Traced.eachFrom (body : Nat → α → Traced State Event Unit) : Nat → List α → Traced State Event Unit
  | _, [] => pure ()
  | place, item :: rest => do
    body place item
    Traced.eachFrom body (place + 1) rest

/-- A loop that does the same a number of times. -/
def Traced.times (body : Traced State Event Unit) : Nat → Traced State Event Unit
  | 0 => pure ()
  | count + 1 => do
    body
    Traced.times body count

/-- A property of logs that holds of parts one after another. -/
class Composes (kind : List Event → Prop) : Prop where
  nil : kind []
  append : ∀ {log later}, kind log → kind later → kind (log ++ later)

/-- All logged events are of a sort. -/
def Every (sort : Event → Prop) (log : List Event) : Prop := ∀ event ∈ log, sort event

/-- Some logged event is of one sort exactly when some is of the other. -/
def Together (one other : Event → Prop) (log : List Event) : Prop :=
  (∃ event ∈ log, one event) ↔ ∃ event ∈ log, other event

/-- From every state a computation has a log of this kind. -/
def Logs (kind : List Event → Prop) (program : Traced State Event α) : Prop := ∀ state, kind (program state).1

instance (sort : Event → Prop) : Composes (Every sort) where
  nil := by simp [Every]
  append first second event among := (List.mem_append.mp among).elim (first event) (second event)

instance (one other : Event → Prop) : Composes (Together one other) where
  nil := by simp [Together]
  append first second := by
    rw [Together] at first second ⊢
    simp only [List.mem_append, or_and_right, exists_or, first, second]

/-- An event of neither sort alone. -/
theorem together_of_neither {one other : Event → Prop} {event : Event} (first : ¬ one event)
    (second : ¬ other event) : Together one other [event] := by
  simp [Together, first, second]

section

variable {kind : List Event → Prop} [Composes kind]

/-- A result alone. -/
theorem Logs.pure (value : α) : Logs kind (pure value : Traced State Event α) := fun _ => Composes.nil

/-- A result alone logs nothing in front of what goes on. -/
theorem Traced.pure_bind (value : α) (next : α → Traced State Event β) : (pure value >>= next) = next value := rfl

/-- One computation after another. -/
theorem Logs.bind {first : Traced State Event α} {next : α → Traced State Event β} (one : Logs kind first)
    (other : ∀ value, Logs kind (next value)) : Logs kind (first >>= next) := by
  intro state
  have before := one state
  show kind (first.andThen next state).1
  rw [Traced.andThen]
  -- The first computation stops, or the next one logs behind it.
  split
  · next log halt ran =>
    rw [ran] at before
    exact before
  · next log value after ran =>
    rw [ran] at before
    exact Composes.append before (other value after)

/-- Stopping. -/
theorem Logs.stop (halt : Halt) : Logs kind (Traced.stop halt : Traced State Event α) := fun _ => Composes.nil

/-- Reading the state. -/
theorem Logs.look : Logs kind (Traced.look : Traced State Event State) := fun _ => Composes.nil

/-- Changing the state. -/
theorem Logs.change (update : State → State) : Logs kind (Traced.change update : Traced State Event Unit) :=
  fun _ => Composes.nil

/-- Taking over an outcome. -/
theorem Logs.lift (outcome : Except Halt α) : Logs kind (Traced.lift outcome : Traced State Event α) := by
  intro state
  -- Neither a value nor an error logs anything.
  cases outcome <;> exact Composes.nil

/-- A condition. -/
theorem Logs.onlyIf {condition : Prop} [Decidable condition] {body : Traced State Event Unit}
    (logs : condition → Logs kind body) : Logs kind (Traced.onlyIf condition body) := by
  rw [Traced.onlyIf]
  -- Without the condition nothing is logged.
  split_ifs with holds
  · exact logs holds
  · exact Logs.pure ()

/-- A loop over items. -/
theorem Logs.eachFrom {body : Nat → α → Traced State Event Unit} {place : Nat} {items : List α}
    (logs : ∀ k item, items[k]? = some item → Logs kind (body (place + k) item)) :
    Logs kind (Traced.eachFrom body place items) := by
  -- The place of an item is the start and what stands in front of it.
  induction items generalizing place with
  | nil => exact Logs.pure ()
  | cons item rest ih =>
    refine Logs.bind (logs 0 item rfl) fun _ => ih fun k other found => ?_
    have later := logs (k + 1) other found
    rwa [show place + (k + 1) = place + 1 + k by omega] at later

/-- A loop that does the same a number of times. -/
theorem Logs.times {body : Traced State Event Unit} (logs : Logs kind body) (count : Nat) :
    Logs kind (Traced.times body count) := by
  -- Induction on the count.
  induction count with
  | zero => exact Logs.pure ()
  | succ count ih => exact Logs.bind logs fun _ => ih

end

/-- What the next computation logs comes behind what the first one logs before it goes on. -/
theorem Traced.bind_ok {first : Traced State Event α} {next : α → Traced State Event β} {state after : State}
    {value : α} (goes : (first state).2 = .ok (value, after)) :
    (first >>= next) state = ((first state).1 ++ (next value after).1, (next value after).2) := by
  -- The second part starts in the state that the first one ends in.
  show first.andThen next state = _
  rw [Traced.andThen]
  generalize first state = ran at goes ⊢
  obtain ⟨log, result⟩ := ran
  subst goes
  rfl

/-- Behind a computation that stops, the next one logs nothing and is stopped as well. -/
theorem Traced.bind_error {first : Traced State Event α} {next : α → Traced State Event β} {state : State}
    {halt : Halt} (stopped : (first state).2 = .error halt) :
    (first >>= next) state = ((first state).1, .error halt) := by
  -- Nothing is logged behind a stop.
  show first.andThen next state = _
  rw [Traced.andThen]
  generalize first state = ran at stopped ⊢
  obtain ⟨log, result⟩ := ran
  subst stopped
  rfl

/-- Everything that the first computation logs stays in the log. -/
theorem Traced.mem_bind {first : Traced State Event α} {next : α → Traced State Event β} {state : State}
    {event : Event} (among : event ∈ (first state).1) : event ∈ ((first >>= next) state).1 := by
  show event ∈ (first.andThen next state).1
  rw [Traced.andThen]
  -- Stopped or not, the log starts with that of the first computation.
  generalize first state = ran at among ⊢
  obtain ⟨log, _ | ⟨value, after⟩⟩ := ran
  · exact among
  · exact List.mem_append_left _ among

/-- From a state a computation goes on to a value and a state without a bad event when something fits, and
logs a bad event when it does not. -/
structure Guards (bad : Event → Prop) (program : Traced State Event α) (state : State) (fits : Prop) (value : α)
    (after : State) : Prop where
  goes : fits → (program state).2 = .ok (value, after)
  bad_iff : (∃ event ∈ (program state).1, bad event) ↔ ¬ fits

section

variable {bad : Event → Prop}

/-- A computation that always goes on without a bad event. -/
theorem Guards.quiet {program : Traced State Event α} {state after : State} {value : α} {log : List Event}
    (ran : program state = (log, .ok (value, after))) (good : ∀ event ∈ log, ¬ bad event) :
    Guards bad program state True value after where
  goes _ := by rw [ran]
  -- Nothing that was logged is bad.
  bad_iff := by
    rw [ran]
    simpa using good

/-- A result alone. -/
theorem Guards.pure (value : α) (state : State) :
    Guards bad (pure value : Traced State Event α) state True value state := .quiet rfl (by simp)

/-- Changing the state. -/
theorem Guards.change (update : State → State) (state : State) :
    Guards bad (Traced.change update : Traced State Event Unit) state True () (update state) :=
  .quiet rfl (by simp)

/-- What fits may be said in other words. -/
theorem Guards.congr {program : Traced State Event α} {state after : State} {value : α} {fits other : Prop}
    (guards : Guards bad program state fits value after) (same : fits ↔ other) :
    Guards bad program state other value after :=
  ⟨fun holds => guards.goes (same.mpr holds), guards.bad_iff.trans (not_congr same)⟩

/-- What is bad behind a computation that always fits is bad in the rest of it. -/
theorem Guards.later {first : Traced State Event α} {next : α → Traced State Event β} {state middle : State}
    {value : α} (one : Guards bad first state True value middle) :
    (∃ event ∈ ((first >>= next) state).1, bad event) ↔ ∃ event ∈ (next value middle).1, bad event := by
  -- The first computation logs nothing bad and goes on.
  have good : ¬ ∃ event ∈ (first state).1, bad event := fun found => one.bad_iff.mp found trivial
  rw [Traced.bind_ok (one.goes trivial)]
  simp only [List.mem_append, or_and_right, exists_or, good, false_or]

/-- One computation after another: both have to fit. -/
theorem Guards.bind {first : Traced State Event α} {next : α → Traced State Event β} {state middle after : State}
    {value : α} {result : β} {fits fitsNext : Prop} (one : Guards bad first state fits value middle)
    (other : Guards bad (next value) middle fitsNext result after) :
    Guards bad (first >>= next) state (fits ∧ fitsNext) result after := by
  by_cases holds : fits
  · have sure : Guards bad first state True value middle := one.congr (iff_true_intro holds)
    constructor
    · rintro ⟨-, holdsNext⟩
      rw [Traced.bind_ok (one.goes holds)]
      exact other.goes holdsNext
    · -- The first computation has no bad event, so one of the next is asked for.
      rw [sure.later, other.bad_iff]
      simp only [holds, true_and]
  · -- A bad event of the first computation stays in the log.
    obtain ⟨event, among, here⟩ := one.bad_iff.mpr holds
    exact ⟨fun both => absurd both.1 holds,
      ⟨fun _ both => holds both.1, fun _ => ⟨event, Traced.mem_bind among, here⟩⟩⟩

/-- Behind a computation that always fits, the next one decides. -/
theorem Guards.next {first : Traced State Event α} {next : α → Traced State Event β} {state middle after : State}
    {value : α} {result : β} {fits : Prop} (one : Guards bad first state True value middle)
    (other : Guards bad (next value) middle fits result after) : Guards bad (first >>= next) state fits result after :=
  (one.bind other).congr (by rw [true_and])

/-- Every item fits the state that those in front of it lead to. -/
def InTurn (fits : State → α → Prop) (step : State → α → State) : State → List α → Prop
  | _, [] => True
  | state, item :: rest => fits state item ∧ InTurn fits step (step state item) rest

/-- It is enough to look at a part of the state and of the items. -/
theorem inTurn_map {Part β : Type} {fits : State → α → Prop} {step : State → α → State}
    {fitsPart : Part → β → Prop} {stepPart : Part → β → Part} (part : State → Part) (text : α → β)
    (sameFits : ∀ state item, fits state item ↔ fitsPart (part state) (text item))
    (sameStep : ∀ state item, part (step state item) = stepPart (part state) (text item)) (state : State)
    (items : List α) :
    InTurn fits step state items ↔ InTurn fitsPart stepPart (part state) (items.map text) := by
  -- Induction on the items: both sides ask and change the same part of the state.
  induction items generalizing state with
  | nil => exact Iff.rfl
  | cons item rest ih =>
    rw [List.map_cons, InTurn, InTurn, ih, sameFits, sameStep]

/-- A loop over items: each of them has to fit. -/
theorem Guards.eachFrom {body : Nat → α → Traced State Event Unit} {items : List α} {fits : State → α → Prop}
    {step : State → α → State} {place : Nat}
    (one : ∀ k item, items[k]? = some item → ∀ state,
      Guards bad (body (place + k) item) state (fits state item) () (step state item)) (state : State) :
    Guards bad (Traced.eachFrom body place items) state (InTurn fits step state items) ()
      (items.foldl step state) := by
  -- The items behind the first one have to fit the state that it leads to.
  induction items generalizing place state with
  | nil => exact .pure () state
  | cons item rest ih =>
    refine (one 0 item rfl state).bind (ih (fun k other found => ?_) _)
    have later := one (k + 1) other found
    rwa [show place + (k + 1) = place + 1 + k by omega] at later

end

end

end Machine
