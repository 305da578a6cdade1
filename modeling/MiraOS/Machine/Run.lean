import Mathlib.Init

/-! Runs of a machine whose steps may stop without a result. -/

namespace Machine

/-- Why a computation stops without a result. -/
inductive Halt where
  -- The code stopped on purpose, with a message.
  | panic (message : String)
  -- An array was accessed outside its bounds.
  | outOfBounds
  -- A loop or a recursion needed more steps than it was given.
  | outOfFuel
  deriving DecidableEq, Repr

/-- The code stopped on purpose. -/
def Halt.IsPanic (halt : Halt) : Prop := ∃ message, halt = .panic message

/-- A sequence of two computations has a result exactly when both of them have one. -/
theorem bind_eq_ok {ε α β : Type} {first : Except ε α} {second : α → Except ε β} {result : β} :
    first >>= second = .ok result ↔ ∃ value, first = .ok value ∧ second value = .ok result := by
  -- An error stops the first computation, a value goes on to the second.
  cases first with
  | error halt => simp [Bind.bind, Except.bind]
  | ok value => simp [Bind.bind, Except.bind]

/-- A sequence of two computations stops where the first one does, or else where the second one does. -/
theorem bind_eq_error {ε α β : Type} {first : Except ε α} {second : α → Except ε β} {halt : ε} :
    first >>= second = .error halt ↔
      first = .error halt ∨ ∃ value, first = .ok value ∧ second value = .error halt := by
  -- The error is the first computation's, or the second's after a value of the first.
  cases first with
  | error other => simp [Bind.bind, Except.bind]
  | ok value => simp [Bind.bind, Except.bind]

/-- A computation that has a result already goes on from there. -/
theorem ok_bind {ε α β : Type} (value : α) (next : α → Except ε β) :
    (Except.ok value >>= next) = next value := rfl

/-- A check of the result of a computation, passed, shows that it has one. -/
theorem exists_ok {ε α : Type} {outcome : Except ε α} {check : α → Bool}
    (passed : (match outcome with | .ok value => check value | .error _ => false) = true) :
    ∃ value, outcome = .ok value ∧ check value = true := by
  -- A computation without a result fails every check.
  cases outcome with
  | error halt => cases passed
  | ok value => exact ⟨value, rfl, passed⟩

/-- What every turn of a loop keeps, the loop keeps. -/
theorem foldlM_keeps {ε σ α : Type} {turn : σ → α → Except ε σ} {inv : σ → Prop} {items : List α}
    {start final : σ} (ran : items.foldlM turn start = .ok final) (first : inv start)
    (kept : ∀ state item next, item ∈ items → inv state → turn state item = .ok next → inv next) :
    inv final := by
  -- Induction on the items: each turn keeps the invariant and hands it to the rest.
  induction items generalizing start with
  | nil =>
    rw [← Except.ok.inj ran]
    exact first
  | cons item rest ih =>
    rw [List.foldlM_cons] at ran
    obtain ⟨next, one, others⟩ := bind_eq_ok.mp ran
    refine ih others (kept start item next List.mem_cons_self first one) ?_
    exact fun state other next among => kept state other next (List.mem_cons_of_mem _ among)

/-- Loops whose turns do the same are the same. -/
theorem foldlM_same {ε σ α : Type} {turn other : σ → α → Except ε σ} {items : List α}
    (same : ∀ item ∈ items, ∀ state, turn state item = other state item) (start : σ) :
    items.foldlM turn start = items.foldlM other start := by
  -- The turns agree on every item, so that the states do after each of them.
  induction items generalizing start with
  | nil => rfl
  | cons item rest ih =>
    rw [List.foldlM_cons, List.foldlM_cons, same item List.mem_cons_self]
    congr 1
    funext next
    exact ih (fun item among => same item (List.mem_cons_of_mem _ among)) next

/-- With more fuel a computation gives the same outcome, unless the fuel was what stopped it. -/
def Extends {α : Type} (less more : Except Halt α) : Prop := less = .error .outOfFuel ∨ more = less

/-- A computation extends itself. -/
theorem Extends.refl {α : Type} (outcome : Except Halt α) : Extends outcome outcome := .inr rfl

/-- Sequencing keeps that more fuel gives the same outcome. -/
theorem Extends.bind {α β : Type} {less more : Except Halt α} {short long : α → Except Halt β}
    (first : Extends less more) (second : ∀ value, Extends (short value) (long value)) :
    Extends (less >>= short) (more >>= long) := by
  -- Where the fuel ran out in the first computation, the whole sequence ran out of it.
  rcases first with stopped | rfl
  · exact .inl (by rw [stopped]; rfl)
  · cases more with
    | error halt => exact .inr rfl
    | ok value => exact second value

/-- With enough fuel a computation has this result. -/
def Settles {α : Type} (run : Nat → Except Halt α) (result : α) : Prop :=
  ∃ enough, ∀ fuel, enough ≤ fuel → run fuel = .ok result

/-- A computation that needs no fuel. -/
theorem Settles.now {α : Type} {run : Nat → Except Halt α} {result : α}
    (ran : ∀ fuel, run fuel = .ok result) : Settles run result := ⟨0, fun fuel _ => ran fuel⟩

/-- A computation that has its result after a number of units of fuel. -/
theorem Settles.after {α : Type} {run : Nat → Except Halt α} {result : α} (needed : Nat)
    (ran : ∀ fuel, run (fuel + needed) = .ok result) : Settles run result := by
  refine ⟨needed, fun fuel enough => ?_⟩
  -- More fuel than is needed is the need and the rest.
  obtain ⟨more, rfl⟩ : ∃ more, fuel = more + needed := ⟨fuel - needed, by omega⟩
  exact ran more

/-- There is only one result. -/
theorem Settles.unique {α : Type} {run : Nat → Except Halt α} {one two : α} (first : Settles run one)
    (second : Settles run two) : one = two := by
  -- Fuel enough for both bounds gives both results at once.
  obtain ⟨enough, ran⟩ := first
  obtain ⟨plenty, again⟩ := second
  have both := (ran (enough + plenty) (by omega)).symm.trans (again (enough + plenty) (by omega))
  exact Except.ok.inj both

/-- One computation after another. -/
theorem Settles.bind {α β : Type} {run : Nat → Except Halt α} {next : Nat → α → Except Halt β} {middle : α}
    {result : β} (first : Settles run middle) (second : Settles (fun fuel => next fuel middle) result) :
    Settles (fun fuel => run fuel >>= next fuel) result := by
  -- Enough fuel for both computations is enough for each of them.
  obtain ⟨enough, ran⟩ := first
  obtain ⟨plenty, again⟩ := second
  refine ⟨enough + plenty, fun fuel more => ?_⟩
  exact bind_eq_ok.mpr ⟨middle, ran fuel (by omega), again fuel (by omega)⟩

/-- A computation that uses up one unit of fuel first. -/
theorem Settles.later {α : Type} {run next : Nat → Except Halt α} {result : α}
    (step : ∀ fuel, run (fuel + 1) = next fuel) (settles : Settles next result) :
    Settles run result := by
  -- One more unit than the rest needs is enough.
  obtain ⟨enough, ran⟩ := settles
  refine ⟨enough + 1, fun fuel more => ?_⟩
  obtain ⟨less, rfl⟩ : ∃ less, fuel = less + 1 := ⟨fuel - 1, by omega⟩
  rw [step]
  exact ran less (by omega)

/-- A computation that used up one unit of fuel first has its result from the rest. -/
theorem Settles.earlier {α : Type} {run next : Nat → Except Halt α} {result : α}
    (step : ∀ fuel, run (fuel + 1) = next fuel) (settles : Settles run result) :
    Settles next result := by
  obtain ⟨enough, ran⟩ := settles
  refine ⟨enough, fun fuel more => ?_⟩
  -- The run with one more unit of fuel is the next one.
  rw [← step]
  exact ran (fuel + 1) (by omega)

/-- A computation with fuel that stops with an error once it has enough. -/
def Stops {α : Type} (run : Nat → Except Halt α) (halt : Halt) : Prop :=
  ∃ enough, ∀ fuel, enough ≤ fuel → run fuel = .error halt

/-- A computation that stops has no result. -/
theorem Stops.not_settles {α : Type} {run : Nat → Except Halt α} {halt : Halt} {result : α}
    (stops : Stops run halt) : ¬ Settles run result := by
  rintro ⟨plenty, again⟩
  obtain ⟨enough, ran⟩ := stops
  -- The stopping and the settling run agree where both have enough fuel.
  have both := (ran (enough + plenty) (by omega)).symm.trans (again (enough + plenty) (by omega))
  cases both

/-- A computation that panics once it has enough fuel. -/
def Panics {α : Type} (run : Nat → Except Halt α) : Prop := ∃ message, Stops run (.panic message)

/-- A computation that panics has no result. -/
theorem Panics.not_settles {α : Type} {run : Nat → Except Halt α} {result : α} (panics : Panics run) :
    ¬ Settles run result := by
  obtain ⟨message, stops⟩ := panics
  exact stops.not_settles

/-- What follows a computation that stops is never reached. -/
theorem Stops.bind {α β : Type} {run : Nat → Except Halt α} {next : Nat → α → Except Halt β} {halt : Halt}
    (stops : Stops run halt) : Stops (fun fuel => run fuel >>= next fuel) halt := by
  obtain ⟨enough, ran⟩ := stops
  refine ⟨enough, fun fuel more => ?_⟩
  dsimp only
  rw [ran fuel more]
  rfl

/-- The second of two computations stops. -/
theorem Settles.bind_stops {α β : Type} {run : Nat → Except Halt α} {next : Nat → α → Except Halt β} {middle : α}
    {halt : Halt} (first : Settles run middle) (second : Stops (fun fuel => next fuel middle) halt) :
    Stops (fun fuel => run fuel >>= next fuel) halt := by
  -- With fuel for both parts the first one comes to its value, and the second one stops there.
  obtain ⟨enough, ran⟩ := first
  obtain ⟨plenty, again⟩ := second
  refine ⟨enough + plenty, fun fuel more => ?_⟩
  dsimp only
  rw [ran fuel (by omega)]
  exact again fuel (by omega)

/-- A computation that uses up one unit of fuel first, and then stops. -/
theorem Stops.later {α : Type} {run next : Nat → Except Halt α} {halt : Halt}
    (step : ∀ fuel, run (fuel + 1) = next fuel) (stops : Stops next halt) : Stops run halt := by
  obtain ⟨enough, ran⟩ := stops
  refine ⟨enough + 1, fun fuel more => ?_⟩
  -- One unit of fuel goes into the step.
  obtain ⟨less, rfl⟩ : ∃ less, fuel = less + 1 := ⟨fuel - 1, by omega⟩
  rw [step]
  exact ran less (by omega)

/-- A finite run: the actions performed, in order, between two states. -/
inductive Run {State Action : Type} (step : State → Action → State → Prop) :
    State → List Action → State → Prop where
  -- No action leaves the state as it is.
  | nil (state : State) : Run step state [] state
  -- One step, then the rest of the run.
  | cons {first middle last : State} {action : Action} {rest : List Action}
      (head : step first action middle) (tail : Run step middle rest last) :
      Run step first (action :: rest) last

/-- What every step keeps, a whole run keeps. -/
theorem Run.preserves {State Action : Type} {step : State → Action → State → Prop}
    (inv : State → Prop)
    (kept : ∀ {first action next}, inv first → step first action next → inv next)
    {first last : State} {actions : List Action} (run : Run step first actions last)
    (start : inv first) : inv last := by
  -- The invariant is carried from the first state on, one step at a time.
  induction run with
  | nil => exact start
  | cons head _ ih => exact ih (kept start head)

/-- A run of some steps is a run of any steps that include them. -/
theorem Run.mono {State Action : Type} {step wider : State → Action → State → Prop}
    (more : ∀ {first action next}, step first action next → wider first action next)
    {first last : State} {actions : List Action} (run : Run step first actions last) :
    Run wider first actions last := by
  -- Induction on the run, step by step.
  induction run with
  | nil state => exact .nil state
  | cons head _ ih => exact .cons (more head) ih

/-- A machine whose every step is one of another machine, seen through a view of its states, runs as
that machine does. -/
theorem Run.refines {Concrete Abstract Action : Type} {step : Concrete → Action → Concrete → Prop}
    {spec : Abstract → Action → Abstract → Prop} (inv : Concrete → Prop) (view : Concrete → Abstract)
    (simulates : ∀ {first action next}, inv first → step first action next →
      inv next ∧ spec (view first) action (view next))
    {first last : Concrete} {actions : List Action} (run : Run step first actions last)
    (start : inv first) : inv last ∧ Run spec (view first) actions (view last) := by
  -- Each step is matched on its own; the invariant is what the next match needs.
  induction run with
  | nil state => exact ⟨start, .nil _⟩
  | cons head _ ih =>
    obtain ⟨next, stepped⟩ := simulates start head
    obtain ⟨final, rest⟩ := ih next
    exact ⟨final, .cons stepped rest⟩

/-- One run after another. -/
theorem Run.append {State Action : Type} {step : State → Action → State → Prop}
    {first middle last : State} {actions more : List Action} (run : Run step first actions middle)
    (rest : Run step middle more last) : Run step first (actions ++ more) last := by
  -- Induction on the first run: its last state is where the second one starts.
  induction run with
  | nil => exact rest
  | cons head _ ih => exact .cons head (ih rest)

end Machine
