import MiraOS.Machine.Traced

/-! Programs whose events go to a device that answers them: conditions on the state and the device together. -/

namespace Machine

section

variable {State Event Device α β : Type} {accepts : Device → Event → Device → Prop}

/-- A run of two lists of actions passes a state between them. -/
theorem Run.split {first last : Device} {front back : List Event} (run : Run accepts first (front ++ back) last) :
    ∃ middle, Run accepts first front middle ∧ Run accepts middle back last := by
  -- Induction on the front part: its first event starts both runs.
  induction front generalizing first with
  | nil => exact ⟨first, .nil first, run⟩
  | cons event rest ih =>
    cases run with
    | cons head tail =>
      obtain ⟨middle, before, behind⟩ := ih tail
      exact ⟨middle, .cons head before, behind⟩

/-- Steps that a function takes one after another are a run. -/
theorem Run.of_foldlM {step : Device → Event → Option Device} {log : List Event} {first last : Device}
    (took : log.foldlM step first = some last) :
    Run (fun device event after => step device event = some after) first log last := by
  -- The fold goes on exactly as long as each step is defined.
  induction log generalizing first with
  | nil =>
    obtain rfl := Option.some.inj took
    exact .nil first
  | cons event rest ih =>
    rw [List.foldlM_cons] at took
    cases stepped : step first event with
    | none =>
      rw [stepped] at took
      cases took
    | some middle =>
      rw [stepped] at took
      exact .cons stepped (ih took)

/--
Whenever a program goes on from a state and the device accepts all of its events, a condition on both leads to
another one.
-/
def Serviced (accepts : Device → Event → Device → Prop) (program : Traced State Event α)
    (before : State → Device → Prop) (after : α → State → Device → Prop) : Prop :=
  ∀ state device value next final, before state device → (program state).2 = .ok (value, next) →
    Run accepts device (program state).1 final → after value next final

variable {before middle : State → Device → Prop} {after : β → State → Device → Prop}

/-- A result alone changes nothing. -/
theorem Serviced.pure {value : α} {after : α → State → Device → Prop}
    (holds : ∀ state device, before state device → after value state device) :
    Serviced accepts (pure value : Traced State Event α) before after := by
  intro state device result next final start goes run
  -- The program answers at once and asks the device nothing.
  obtain ⟨rfl, rfl⟩ := Prod.mk.inj (Except.ok.inj goes)
  cases run
  exact holds state device start

/-- One event. -/
theorem Serviced.event {program : Traced State Event α} (event : State → Event) {after : α → State → Device → Prop}
    (logs : ∀ state, (program state).1 = [event state])
    (holds : ∀ state device value next final, before state device → (program state).2 = .ok (value, next) →
      accepts device (event state) final → after value next final) : Serviced accepts program before after := by
  -- A program that logs one event leaves one step to the device.
  intro state device value next final start goes run
  rw [logs] at run
  cases run with
  | cons head tail =>
    cases tail
    exact holds state device value next _ start goes head

/-- Changing the state is no event. -/
theorem Serviced.change {update : State → State} {after : Unit → State → Device → Prop}
    (holds : ∀ state device, before state device → after () (update state) device) :
    Serviced accepts (Traced.change update : Traced State Event Unit) before after := by
  intro state device value next final start goes run
  -- Only the program's own state changes.
  obtain ⟨rfl, rfl⟩ := Prod.mk.inj (Except.ok.inj goes)
  cases run
  exact holds state device start

/-- Reading the state is no event. -/
theorem Serviced.look {next : State → Traced State Event β}
    (holds : ∀ seen, Serviced accepts (next seen) (fun state device => state = seen ∧ before state device) after) :
    Serviced accepts (Traced.look >>= next) before after := by
  intro state device value last final start goes run
  -- The program goes on with the state it has seen.
  exact holds state state device value last final ⟨rfl, start⟩ goes run

/-- A program that stops never goes on. -/
theorem Serviced.stop {halt : Halt} {after : α → State → Device → Prop} :
    Serviced accepts (Traced.stop halt : Traced State Event α) before after := by
  intro state device value next final start goes run
  -- A stopped program answers nothing.
  cases goes

/-- One program after another. -/
theorem Serviced.bind {first : Traced State Event α} {next : α → Traced State Event β}
    {middle : α → State → Device → Prop} (one : Serviced accepts first before middle)
    (other : ∀ value, Serviced accepts (next value) (middle value) after) :
    Serviced accepts (first >>= next) before after := by
  intro state device value last final start goes run
  -- The first program went on, or the whole would have stopped.
  cases ran : (first state).2 with
  | error halt =>
    rw [Traced.bind_error ran] at goes
    cases goes
  | ok result =>
    obtain ⟨given, between⟩ := result
    rw [Traced.bind_ok ran] at goes run
    obtain ⟨place, front, back⟩ := run.split
    exact other given between place value last final (one state device given between place start ran front) goes back

/-- Conditions may be weaker before and stronger after. -/
theorem Serviced.weaken {program : Traced State Event α} {wide : State → Device → Prop}
    {narrow after : α → State → Device → Prop} (serves : Serviced accepts program wide narrow)
    (given : ∀ state device, before state device → wide state device)
    (kept : ∀ value state device, narrow value state device → after value state device) :
    Serviced accepts program before after := by
  intro state device value next final start goes run
  exact kept value next final (serves state device value next final (given state device start) goes run)

/-- A loop over items goes through a condition for each number of items that are done. -/
theorem Serviced.eachFrom {body : Nat → α → Traced State Event Unit} {items : List α} {place : Nat}
    {inv : Nat → State → Device → Prop}
    (turn : ∀ k item, items[k]? = some item → Serviced accepts (body (place + k) item) (inv k) fun _ => inv (k + 1)) :
    Serviced accepts (Traced.eachFrom body place items) (inv 0) fun _ => inv items.length := by
  -- The items behind the first one start with one item done.
  induction items generalizing place inv with
  | nil => exact Serviced.pure fun _ _ start => start
  | cons item rest ih =>
    refine Serviced.bind (turn 0 item rfl) fun _ => ?_
    have behind := @ih (place + 1) (fun k => inv (k + 1)) fun k other found => by
      have later := turn (k + 1) other found
      rwa [show place + (k + 1) = place + 1 + k by omega] at later
    exact behind

/-- A loop over the numbers below one. -/
theorem Serviced.eachBelow {body : Nat → Nat → Traced State Event Unit} {count place : Nat}
    {inv : Nat → State → Device → Prop}
    (turn : ∀ k < count, Serviced accepts (body (place + k) k) (inv k) fun _ => inv (k + 1)) :
    Serviced accepts (Traced.eachFrom body place (List.range count)) (inv 0) fun _ => inv count := by
  have whole := @Serviced.eachFrom _ _ _ _ accepts body (List.range count) place inv fun k item found => by
    -- The items are their own places.
    obtain ⟨low, rfl⟩ := List.getElem?_eq_some_iff.mp found
    rw [List.getElem_range]
    rw [List.length_range] at low
    exact turn k low
  rwa [List.length_range] at whole

/-- From every state a program goes on. -/
def Completes (program : Traced State Event α) : Prop := ∀ state, ∃ value next, (program state).2 = .ok (value, next)

/-- A result alone goes on. -/
theorem Completes.pure (value : α) : Completes (pure value : Traced State Event α) := fun state => ⟨value, state, rfl⟩

/-- One program after another. -/
theorem Completes.bind {first : Traced State Event α} {next : α → Traced State Event β} (one : Completes first)
    (other : ∀ value, Completes (next value)) : Completes (first >>= next) := by
  intro state
  -- The first part ends, and the rest ends from every state.
  obtain ⟨value, between, ran⟩ := one state
  rw [Traced.bind_ok ran]
  exact other value between

/-- A loop over items. -/
theorem Completes.eachFrom {body : Nat → α → Traced State Event Unit} (turn : ∀ place item, Completes (body place item))
    (items : List α) (place : Nat) : Completes (Traced.eachFrom body place items) := by
  -- Induction on the items, each served in turn.
  induction items generalizing place with
  | nil => exact Completes.pure ()
  | cons item rest ih => exact (turn place item).bind fun _ => ih (place + 1)

end

end Machine
