import MiraOS.Drivers.InterruptDesk

/-! No interrupt is lost: the processor can always take all that wait, one after another. -/

namespace MiraOS

open Machine

section

variable (inb : Nat → UInt8)

/-- The second part of taking an interrupt, where there is one. -/
def askUpper (sys : InterruptSystem) : Option InterruptSystem :=
  if sys.turn = .asking then interruptStep inb sys .answer else some sys

/-- The handler of the interrupt that was taken, with its vector. -/
def finishTaken (sys : InterruptSystem) : Option (Nat × InterruptSystem) :=
  match sys.turn with
  | .handling vector => (interruptStep inb sys .finish).map fun after => (vector, after)
  | _ => none

/-- The processor takes the next interrupt and handles it. -/
def serveNext (sys : InterruptSystem) : Option (Nat × InterruptSystem) := do
  let taken ← interruptStep inb sys .accept
  let asked ← askUpper inb taken
  finishTaken inb asked

/-- The processor takes interrupts as long as one is signalled. -/
def serveAll : Nat → InterruptSystem → Option (List Nat × InterruptSystem)
  | 0, sys => some ([], sys)
  | fuel + 1, sys =>
    if (sys.pics.master.signal sys.pics.wired).isSome then do
      let (vector, after) ← serveNext inb sys
      let (vectors, final) ← serveAll fuel after
      return (vector :: vectors, final)
    else some ([], sys)

end

section

variable {sys after : InterruptSystem} {line : Nat} {inb : Nat → UInt8}

/-- The lines are served in an order without ties. -/
theorem linePlace_inj {one other : Nat} (low : one < 16) (small : other < 16) (same : linePlace one = linePlace other) :
    one = other := by
  -- Lines 8 to 15 stand in the place of line 2, ahead of 3 to 7.
  simp only [linePlace] at same
  split_ifs at same <;> omega

/-- There is one line to be served next. -/
theorem InterruptSystem.first_unique {other : Nat} (first : sys.desk.First line) (again : sys.desk.First other) :
    line = other := by
  refine linePlace_inj (InterruptSystem.lt_of_open first.1) (InterruptSystem.lt_of_open again.1) ?_
  exact Nat.le_antisymm (first.2 other again.1) (again.2 line first.1)

/-- An upper line that is to be served next is the first one when the upper ones are asked. -/
theorem InterruptDesk.First.upper {desk : InterruptDesk} (first : desk.First line) (high : 8 ≤ line) :
    desk.FirstUpper line := by
  -- An upper line is first among the upper ones, since all of them share the place of line 2.
  obtain ⟨⟨waits, free, passes⟩, least⟩ := first
  refine ⟨⟨high, waits, free⟩, fun other above among unmasked => ?_⟩
  have place := least other ⟨among, unmasked, fun _ => passes high⟩
  simp only [linePlace] at place
  split_ifs at place <;> omega

/-- The end of a handler leaves the lines as they are. -/
theorem DeskStep.finish_eq {desk final : InterruptDesk} (step : DeskStep desk .finish final) :
    final = { desk with turn := .running } := by
  -- Only an interrupt in progress can finish.
  cases step
  rfl

/-- The next interrupt is that of the first open line, and its handler leaves the desk without it. -/
theorem serveNext_first (sound : sys.Sound) (running : sys.turn = .running) (first : sys.desk.First line) :
    ∃ after, serveNext inb sys = some (32 + line, after) ∧ after.Sound ∧
      after.desk = { sys.desk with waiting := sys.desk.waiting.erase line } := by
  obtain ⟨taken, accepts⟩ : ∃ taken, interruptStep inb sys .accept = some taken := ⟨_, if_pos running⟩
  obtain ⟨middle, accepted⟩ := interruptStep_simulates sound accepts
  -- Either way the processor comes to handle the line, and only its request has gone.
  obtain ⟨asked, answers, kept, desk⟩ : ∃ asked,
      askUpper inb taken = some asked ∧ asked.Sound ∧ asked.desk = sys.desk.serve line := by
    -- The desk's step tells a lower line, taken at once, from an upper one, asked for first.
    generalize seen : taken.desk = desk at accepted
    cases accepted with
    | @acceptLower other here again lower =>
      obtain rfl := InterruptSystem.first_unique first again
      refine ⟨taken, if_neg fun asking => ?_, middle, seen⟩
      have turn := congrArg InterruptDesk.turn seen
      rw [show taken.desk.turn = taken.turn from rfl, asking] at turn
      cases turn
    | @acceptUpper other here again upper =>
      obtain rfl := InterruptSystem.first_unique first again
      have turn : taken.turn = .asking := congrArg InterruptDesk.turn seen
      obtain ⟨asked, answers⟩ : ∃ asked, interruptStep inb taken .answer = some asked := ⟨_, if_pos turn⟩
      obtain ⟨last, answered⟩ := interruptStep_simulates middle answers
      refine ⟨asked, (if_pos turn).trans answers, last, ?_⟩
      rw [seen] at answered
      generalize shown : asked.desk = final at answered
      cases answered with
      -- The slave answers with the line that was first when the processor asked.
      | @answer inner waits leads =>
        have own := first.upper upper
        obtain rfl : line = inner := Nat.le_antisymm (own.2 inner leads.1.1 leads.1.2.1 leads.1.2.2)
          (leads.2 line own.1.1 own.1.2.1 own.1.2.2)
        rfl
      | answerNone waits none => exact absurd (first.upper upper) (none line)
    | acceptNone here none => exact absurd first.1 (none line)
  -- The line is handled and finished, which leaves the desk but for its request.
  have turn : asked.turn = .handling (32 + line) := congrArg InterruptDesk.turn desk
  obtain ⟨devices, clears⟩ := @finish_clears asked inb kept _ turn
  obtain ⟨last, finished⟩ := interruptStep_simulates kept clears
  refine ⟨_, ?_, last, ?_⟩
  · simp only [serveNext, accepts, Option.bind_eq_bind, Option.bind_some, answers, finishTaken, turn, clears,
      Option.map_some]
  · rw [finished.finish_eq, desk]
    exact congrArg (InterruptDesk.mk _ _) running.symm

/-- Taking interrupts until none is signalled serves these lines: all that wait and get through, each once and in
order, under their own vectors; the others go on waiting. -/
structure Drains (inb : Nat → UInt8) (fuel : Nat) (sys : InterruptSystem) (lines : List Nat) (final : InterruptSystem) :
    Prop where
  served : serveAll inb fuel sys = some (lines.map (32 + ·), final)
  ordered : lines.Pairwise fun one other => linePlace one < linePlace other
  all : ∀ line, line ∈ lines ↔ sys.desk.Open line
  desk : final.desk = { sys.desk with waiting := sys.desk.waiting \ lines.toFinset }

/-- Without an open line nothing is served. -/
theorem Drains.none {fuel : Nat} (none : ∀ line, ¬ sys.desk.Open line)
    (stays : serveAll inb fuel sys = some ([], sys)) : Drains inb fuel sys [] sys where
  -- Nothing is open, so nothing is served and the desk stays.
  served := stays
  ordered := .nil
  all line := ⟨fun among => absurd among List.not_mem_nil, fun opens => absurd opens (none line)⟩
  desk := by rw [List.toFinset_nil, Finset.sdiff_empty]

/-- With as many turns as lines wait, all open ones are served in order. -/
theorem serveAll_open {fuel : Nat} (sound : sys.Sound) (running : sys.turn = .running)
    (enough : sys.desk.waiting.card ≤ fuel) : ∃ lines final, Drains inb fuel sys lines final := by
  induction fuel generalizing sys with
  | zero =>
    -- No line waits at all.
    have empty : sys.desk.waiting = ∅ := Finset.card_eq_zero.mp (Nat.le_zero.mp enough)
    exact ⟨[], sys, .none (fun line opens => absurd (empty ▸ opens.1) (Finset.notMem_empty line)) rfl⟩
  | succ fuel ih =>
    cases signals : sys.pics.master.signal sys.pics.wired with
    | none =>
      refine ⟨[], sys, .none (InterruptSystem.none_open sound running signals) ?_⟩
      rw [serveAll, signals]
      rfl
    -- The first line is served, and the rest are open as before.
    | some seen =>
      obtain ⟨line, first⟩ : ∃ line, sys.desk.First line := by
        rcases InterruptSystem.first_of_signal sound running signals with ⟨-, -, first⟩ | ⟨-, upper, -, first⟩
        · exact ⟨seen, first⟩
        · exact ⟨upper, first⟩
      obtain ⟨after, served, kept, desk⟩ := @serveNext_first sys line inb sound running first
      -- One request less waits, so the fuel is enough.
      have fewer : after.desk.waiting.card ≤ fuel := by
        rw [desk]
        have := Finset.card_erase_of_mem first.1.1
        simp only
        omega
      have turn : after.turn = .running := (congrArg InterruptDesk.turn desk).trans running
      have opens : ∀ other, after.desk.Open other ↔ other ≠ line ∧ sys.desk.Open other := by
        intro other
        rw [desk, InterruptDesk.Open, Finset.mem_erase, and_assoc]
        rfl
      obtain ⟨lines, final, rest, ordered, all, left⟩ := ih kept turn fewer
      refine ⟨line :: lines, final, ?_, List.pairwise_cons.mpr ⟨fun other among => ?_, ordered⟩, fun other => ?_, ?_⟩
      · rw [serveAll, signals, served]
        show (do
          let (vectors, final) ← serveAll inb fuel after
          return ((32 + line) :: vectors, final)) = _
        rw [rest]
        rfl
      · -- The others are open as well, so they come later.
        obtain ⟨apart, among⟩ := (opens other).mp ((all other).mp among)
        refine Nat.lt_of_le_of_ne (first.2 other among) fun same => apart ?_
        exact (linePlace_inj (InterruptSystem.lt_of_open first.1) (InterruptSystem.lt_of_open among) same).symm
      · rw [List.mem_cons, all, opens]
        constructor
        · rintro (rfl | ⟨-, among⟩)
          · exact first.1
          · exact among
        · intro among
          by_cases same : other = line
          · exact .inl same
          · exact .inr ⟨same, among⟩
      · rw [left, desk, List.toFinset_cons]
        simp only [Finset.sdiff_insert, Finset.erase_sdiff_comm]

/--
In every reachable state in which the processor runs, it can take interrupts until none is signalled, and no interrupt
is lost: each line that waits and gets through is served exactly once, and the masked ones go on waiting.
-/
theorem interrupts_drain {before : Pics} {devices : Devices} {events : List InterruptEvent}
    (idle : before.master.service = ∅ ∧ before.slave.service = ∅)
    (run : Run (InterruptStep inb) ⟨picRemap.foldl Pics.write before, .running, devices⟩ events sys)
    (running : sys.turn = .running) :
    ∃ lines final, Drains inb 16 sys lines final := by
  -- The bound on the fuel is the number of lines.
  have sound := (run.refines InterruptSystem.Sound InterruptSystem.desk interruptStep_simulates
    (picRemap_sound idle devices).1).1
  refine serveAll_open sound running ?_
  exact (Finset.card_filter_le _ _).trans (Finset.card_range 16).le

/-- Two devices ask while one line is masked: the other one is served, and the system drains. -/
theorem masked_line_waits :
    ∃ sys, Run (InterruptStep fun _ => 0) bootedSystem [.mask 1, .raise 1, .raise 12] sys ∧
      ∃ lines final, Drains (fun _ => 0) 16 sys lines final := by
  -- The masked line waits, so the drain serves line 12 only.
  have turns : ([InterruptEvent.mask 1, .raise 1, .raise 12].foldlM (interruptStep fun _ => 0) bootedSystem).map
      InterruptSystem.turn = some .running := by decide
  obtain ⟨sys, took, turn⟩ := Option.map_eq_some_iff.mp turns
  have run : Run (InterruptStep fun _ => 0) bootedSystem _ sys := Run.of_foldlM took
  exact ⟨sys, run, interrupts_drain ⟨rfl, rfl⟩ run turn⟩

end

end MiraOS
