import Mathlib.Data.List.Induction
import MiraOS.Machine.Run

/-! Histories of a machine: when all their states are good, said by what each action finds. -/

namespace Machine

section

variable {State Action : Type} {step : State → Action → State} {start : State} {actions : List Action}

/-- What every action of a history keeps holds at its end. -/
theorem foldl_keeps {base : State → Prop} (first : base start)
    (kept : ∀ state action, action ∈ actions → base state → base (step state action)) :
    base (actions.foldl step start) := by
  -- The last action is the one that is taken off, so that the start stays.
  induction actions using List.reverseRecOn with
  | nil => exact first
  | append_singleton front last ih =>
    have before := ih fun state action among => kept state action (List.mem_append_left _ among)
    rw [List.foldl_append]
    exact kept _ last (by simp) before

/--
All states of a history are good and all its actions are answered right exactly when each action is safe in
the state that it finds.

This needs what one action does: from a good state, the safe actions are those that are answered right and
lead to a good state.
-/
theorem history_right_iff {base good : State → Prop} {right safe : State → Action → Prop} (first : base start)
    (fine : good start)
    (kept : ∀ state action, action ∈ actions → base state → base (step state action))
    (settled : ∀ state action, action ∈ actions → base state → good state →
      (good (step state action) ∧ right state action ↔ safe state action)) :
    ((∀ before, before <+: actions → good (before.foldl step start)) ∧
        ∀ before action, before ++ [action] <+: actions → right (before.foldl step start) action) ↔
      ∀ before action, before ++ [action] <+: actions → safe (before.foldl step start) action := by
  -- Every state is one at the end of a shorter history, which the same invariant holds of.
  have based : ∀ before, before <+: actions → base (before.foldl step start) := fun before inside =>
    foldl_keeps first fun state action among => kept state action (inside.subset among)
  have next : ∀ before action, (before ++ [action]).foldl step start =
      step (before.foldl step start) action := by
    intro before action
    rw [List.foldl_append]
    rfl
  have among : ∀ before action, before ++ [action] <+: actions → action ∈ actions := fun _ _ inside =>
    inside.subset (by simp)
  have earlier : ∀ before action, before ++ [action] <+: actions → before <+: actions := fun _ _ inside =>
    (List.prefix_append _ _).trans inside
  constructor
  · rintro ⟨goods, rights⟩ before action inside
    have here := earlier before action inside
    refine (settled _ action (among before action inside) (based before here) (goods before here)).mp ?_
    refine ⟨?_, rights before action inside⟩
    rw [← next]
    exact goods _ inside
  · intro safes
    -- The states are good one after another, since the action between two of them is safe.
    have goods : ∀ before, before <+: actions → good (before.foldl step start) := by
      intro before
      induction before using List.reverseRecOn with
      | nil => exact fun _ => fine
      | append_singleton front last ih =>
        intro inside
        have here := earlier front last inside
        rw [next]
        exact ((settled _ last (among front last inside) (based front here) (ih here)).mpr
          (safes front last inside)).1
    refine ⟨goods, fun before action inside => ?_⟩
    have here := earlier before action inside
    exact ((settled _ action (among before action inside) (based before here) (goods before here)).mpr
      (safes before action inside)).2

/-- The same where only the states matter. -/
theorem history_good_iff {base good : State → Prop} {safe : State → Action → Prop} (first : base start)
    (fine : good start)
    (kept : ∀ state action, action ∈ actions → base state → base (step state action))
    (settled : ∀ state action, action ∈ actions → base state → good state →
      (good (step state action) ↔ safe state action)) :
    (∀ before, before <+: actions → good (before.foldl step start)) ↔
      ∀ before action, before ++ [action] <+: actions → safe (before.foldl step start) action := by
  -- Every answer counts as right.
  have whole := @history_right_iff _ _ step start actions base good (fun _ _ => True) safe first fine kept
    fun state action among based fine => by
      rw [and_true]
      exact settled state action among based fine
  rw [← whole]
  simp

end

section

variable {State Action : Type} {step : State → Action → State → Prop} {start last : State}
  {actions : List Action}

/-- A run up to its last action, and the step of that action. -/
theorem Run.split_last {before : List Action} {action : Action}
    (run : Run step start (before ++ [action]) last) :
    ∃ middle, Run step start before middle ∧ step middle action last := by
  -- The start moves on with the first action.
  induction before generalizing start with
  | nil =>
    cases run with
    | cons head tail =>
      cases tail with
      | nil => exact ⟨start, .nil start, head⟩
  | cons first rest ih =>
    cases run with
    | cons head tail =>
      obtain ⟨middle, front, final⟩ := ih tail
      exact ⟨middle, .cons head front, final⟩

/-- A run passes a state after every part of its actions. -/
theorem Run.reaches {before : List Action} (run : Run step start actions last) (inside : before <+: actions) :
    ∃ state, Run step start before state := by
  -- Induction on the run: a part that is not empty starts with the same action.
  induction run generalizing before with
  | nil state =>
    rw [List.prefix_nil.mp inside]
    exact ⟨state, .nil state⟩
  | cons head tail ih =>
    cases before with
    | nil => exact ⟨_, .nil _⟩
    | cons first rest =>
      obtain ⟨rfl, shorter⟩ := List.cons_prefix_cons.mp inside
      obtain ⟨state, front⟩ := ih shorter
      exact ⟨state, .cons head front⟩

/-- A run of actions with one outcome each has one outcome. -/
theorem Run.unique (certain : ∀ state action one two, step state action one → step state action two → one = two)
    {other : State} (run : Run step start actions last) (again : Run step start actions other) :
    last = other := by
  induction run with
  | nil state =>
    cases again with
    | nil => rfl
  | cons head tail ih =>
    cases again with
    | cons first rest =>
      -- Both runs take the same first step.
      obtain rfl := certain _ _ _ _ head first
      exact ih rest

/-- The rule for actions that are steps between states, with one outcome each. -/
theorem run_good_iff {base good : State → Prop} {safe : State → Action → Prop}
    (certain : ∀ state action one two, step state action one → step state action two → one = two)
    (run : Run step start actions last) (first : base start) (fine : good start)
    (kept : ∀ state action next, base state → step state action next → base next)
    (settled : ∀ state action next, base state → good state → step state action next →
      (good next ↔ safe state action)) :
    (∀ before state, before <+: actions → Run step start before state → good state) ↔
      ∀ before action state, before ++ [action] <+: actions → Run step start before state →
        safe state action := by
  have based : ∀ {before state}, Run step start before state → base state := fun front =>
    front.preserves base (fun here there => kept _ _ _ here there) first
  constructor
  · intro goods before action state inside front
    -- The history goes on from this state, since it is the one that the run passes.
    obtain ⟨next, further⟩ := run.reaches inside
    obtain ⟨middle, same, stepped⟩ := further.split_last
    obtain rfl := Run.unique certain front same
    have here := goods before state ((List.prefix_append _ _).trans inside) front
    exact (settled state action next (based front) here stepped).mp (goods _ next inside further)
  · intro safes before
    -- As for functions, the states are good one after another.
    induction before using List.reverseRecOn with
    | nil =>
      intro state _ front
      cases front with
      | nil => exact fine
    | append_singleton front action ih =>
      intro state inside whole
      obtain ⟨middle, short, stepped⟩ := whole.split_last
      have here := ih middle ((List.prefix_append _ _).trans inside) short
      exact (settled middle action state (based short) here stepped).mpr (safes front action middle inside short)

end

end Machine
