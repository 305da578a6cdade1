import Mathlib.Data.List.Rotate

/-! Members of a queue that take turns: nobody comes up twice while another one waits. -/

namespace Machine

variable {α : Type}

/-- A turn: the first member of a queue goes to its end, or one of two members leaves. -/
inductive Turned : List α → List α → Prop where
  | rotate (queue : List α) : Turned queue (queue.rotate 1)
  | leave (first second : α) : Turned [first, second] [second]

/-- The one member stands before the other. -/
def Ahead (one two : α) (queue : List α) : Prop :=
  ∃ front middle back, queue = front ++ one :: (middle ++ two :: back)

/-- A turn brings no new member. -/
theorem Turned.subset {queue next : List α} (turned : Turned queue next) : next ⊆ queue := by
  -- A turn rotates the queue, or the first of two members leaves it.
  cases turned with
  | rotate => exact fun member among => List.mem_rotate.mp among
  | leave first second => exact List.subset_cons_self first [second]

/-- A turn keeps the members distinct. -/
theorem Turned.nodup {queue next : List α} (turned : Turned queue next) (distinct : queue.Nodup) :
    next.Nodup := by
  -- A rotation moves no member twice, and a single member is no duplicate.
  cases turned with
  | rotate => exact List.nodup_rotate.mpr distinct
  | leave first second => exact List.nodup_singleton second

/-- Who waits behind another member is not first. -/
theorem Ahead.not_first {one two : α} {queue : List α} (ahead : Ahead one two queue)
    (distinct : queue.Nodup) : queue.head? ≠ some two := by
  obtain ⟨front, middle, back, rfl⟩ := ahead
  intro first
  -- The other member stands at the front as well, or has yet another one before it.
  cases front with
  | nil =>
    obtain rfl : one = two := by simpa using first
    simp at distinct
  | cons other front =>
    obtain rfl : other = two := by simpa using first
    simp at distinct

/-- A turn keeps the order of two members, unless the first of them is at the front already. -/
theorem Ahead.turned {one two : α} {queue next : List α} (ahead : Ahead one two queue)
    (turned : Turned queue next) : queue.head? = some one ∨ Ahead one two next := by
  obtain ⟨front, middle, back, split⟩ := ahead
  cases front with
  | nil =>
    left
    rw [split]
    rfl
  | cons other front =>
    right
    cases turned with
    | rotate =>
      refine ⟨front, middle, back ++ [other], ?_⟩
      rw [split, List.cons_append, List.rotate_cons_succ, List.rotate_zero]
      simp
    | leave first second =>
      -- A queue with both of them behind its first member has three members.
      have lengths := congrArg List.length split
      simp only [List.length_append, List.length_cons, List.length_nil] at lengths
      omega

/-- After a turn that moves the first member, every other one stands before it. -/
theorem Turned.ahead {one two : α} {queue next : List α} (turned : Turned queue next)
    (distinct : queue.Nodup) (first : queue.head? = some two) (among : one ∈ queue) (differ : one ≠ two)
    (stays : two ∈ next) : Ahead one two next := by
  cases turned with
  | rotate =>
    cases queue with
    | nil => cases among
    | cons head rest =>
      obtain rfl : head = two := by simpa using first
      obtain ⟨front, back, split⟩ := List.append_of_mem ((List.mem_cons.mp among).resolve_left differ)
      refine ⟨front, back, [], ?_⟩
      rw [List.rotate_cons_succ, List.rotate_zero, split]
      simp
  | leave head second =>
    -- The member that left is not in the queue any more.
    obtain rfl : head = two := by simpa using first
    obtain rfl := List.mem_singleton.mp stays
    simp at distinct

section

variable {queues : Nat → List α} {first last : Nat} {one two : α}

/-- Who stands before another member comes up first. -/
theorem Ahead.comes_first (ahead : Ahead one two (queues first)) (before : first ≤ last)
    (turned : ∀ k, first ≤ k → k < last → Turned (queues k) (queues (k + 1)))
    (distinct : (queues first).Nodup) (again : (queues last).head? = some two) :
    ∃ k, first ≤ k ∧ k ≤ last ∧ (queues k).head? = some one := by
  -- Induction on the turns that are left; the order holds until the first of the two is at the front.
  induction left : last - first generalizing first with
  | zero =>
    obtain rfl : first = last := by omega
    exact absurd again (ahead.not_first distinct)
  | succ left ih =>
    have turn := turned first (Nat.le_refl _) (by omega)
    rcases ahead.turned turn with front | still
    · exact ⟨first, Nat.le_refl _, before, front⟩
    · obtain ⟨k, low, high, front⟩ := ih still (by omega) (fun k low => turned k (by omega))
        (turn.nodup distinct) (by omega)
      exact ⟨k, by omega, high, front⟩

/-- Members of later queues were there before. -/
theorem turned_subset (before : first ≤ last)
    (turned : ∀ k, first ≤ k → k < last → Turned (queues k) (queues (k + 1))) :
    queues last ⊆ queues first := by
  -- Induction on the last turn.
  induction last, before using Nat.le_induction with
  | base => exact fun _ among => among
  | succ last low ih =>
    have earlier := ih fun k above below => turned k above (by omega)
    exact fun member among => earlier ((turned last low (by omega)).subset among)

/-- A member that is at the front twice has had every member that stayed at the front between. -/
theorem turns_fair (before : first < last)
    (turned : ∀ k, first ≤ k → k < last → Turned (queues k) (queues (k + 1)))
    (distinct : (queues first).Nodup) (start : (queues first).head? = some two)
    (again : (queues last).head? = some two) (stays : one ∈ queues first) :
    ∃ k, first ≤ k ∧ k ≤ last ∧ (queues k).head? = some one := by
  by_cases same : one = two
  · exact ⟨first, Nat.le_refl _, Nat.le_of_lt before, same ▸ start⟩
  · have turn := turned first (Nat.le_refl _) before
    -- The member comes back, so its turn moved it behind all others.
    have back : two ∈ queues (first + 1) :=
      turned_subset before (fun k low => turned k (by omega)) (List.mem_of_head? again)
    have ahead := turn.ahead distinct start stays same back
    obtain ⟨k, low, high, front⟩ := ahead.comes_first before (fun k low => turned k (by omega))
      (turn.nodup distinct) again
    exact ⟨k, by omega, high, front⟩

end

end Machine
