import MiraOS.Drivers.Interrupts
import Mathlib.Data.List.Permutation

/-! Which interrupts reach which driver: every handler runs for every vector. -/

namespace MiraOS

open Machine

/-- The three drivers with handlers are listed, in any order and among others without. -/
def DriversListed (inb : Nat → UInt8) (driverList : List Driver) : Prop :=
  (driverList.filter (·.irq.isSome)).Perm [timerDriver, keyboardDriver inb, mouseDriver inb]

/-- How many bytes the keyboard handler reads before the mouse handler, in one interrupt. -/
def keyboardAhead (driverList : List Driver) : Nat :=
  ((driverList.filter (·.irq.isSome)).takeWhile (·.id ≠ 4)).countP (·.id = 2)

/-- At every moment of the run the ticks are the interrupts of the timer. -/
def TimerOwn (driverList : List Driver) (start : Devices) (vectors : List Nat) : Prop :=
  ∀ before, before <+: vectors → ∃ devices,
    interruptRun noHandlers driverList start before = .ok devices ∧
      timerTicks devices = UInt64.ofNat (before.count 32)

/-- At every moment of the run the keyboard driver has read one byte for each of its interrupts. -/
def KeyboardOwn (driverList : List Driver) (start : Devices) (vectors : List Nat) : Prop :=
  ∀ before, before <+: vectors → ∃ devices,
    interruptRun noHandlers driverList start before = .ok devices ∧
      devices.keyboardBytes = before.count 33

/-- The packet of the mouse moves on in the interrupts of the mouse only. -/
def MouseOwn (driverList : List Driver) (start : Devices) (vectors : List Nat) : Prop :=
  ∀ before intNo, before ++ [intNo] <+: vectors → intNo ≠ 44 → ∃ devices after,
    interruptRun noHandlers driverList start before = .ok devices ∧
      isrHandler noHandlers driverList intNo devices = .ok after ∧
      after.mouse.mouseCycle = devices.mouse.mouseCycle

/-- Every interrupt but those of the mouse finds the mouse at the first byte of a packet and reads a
byte that starts none. -/
def MouseIdle (inb : Nat → UInt8) (driverList : List Driver) (start : Devices)
    (vectors : List Nat) : Prop :=
  ∀ before intNo, before ++ [intNo] <+: vectors → intNo ≠ 44 → ∃ devices,
    interruptRun noHandlers driverList start before = .ok devices ∧
      devices.mouse.mouseCycle = 0 ∧
      inb (devices.reads + keyboardAhead driverList) &&& 0x08 = 0

/-- What one hardware interrupt does, whichever it is. -/
structure Handled (inb : Nat → UInt8) (ahead : Nat) (before after : Devices) : Prop where
  ticks : after.tickCount = before.tickCount + 1
  keyboardBytes : after.keyboardBytes = before.keyboardBytes + 1
  mouse : after.mouse = mouseByte before.mouse (inb (before.reads + ahead))

/-- The orders of three things. -/
theorem orders_of_three {α : Type} {items : List α} {a b c : α} (perm : items.Perm [a, b, c]) :
    items = [a, b, c] ∨ items = [a, c, b] ∨ items = [b, a, c] ∨ items = [b, c, a] ∨
      items = [c, a, b] ∨ items = [c, b, a] := by
  -- Three items have six orders.
  have among := List.mem_permutations.mpr perm
  simp [List.permutations, List.permutationsAux_cons, List.permutationsAux_nil,
    List.permutationsAux2] at among
  tauto

/-- Drivers without a handler see nothing of an interrupt. -/
theorem driverDispatchIrq_handlers (driverList : List Driver) (irq : UInt8) (devices : Devices) :
    driverDispatchIrq driverList irq devices =
      driverDispatchIrq (driverList.filter (·.irq.isSome)) irq devices := by
  unfold driverDispatchIrq
  induction driverList generalizing devices with
  | nil => rfl
  | cons drv rest ih =>
    -- The loop calls a handler whenever there is one, and never looks at the vector.
    cases handler : drv.irq with
    | none => simp [handler, ih]
    | some handle => simp [handler, ih]

/-- Each of the three handlers runs once in every interrupt. -/
theorem driverDispatchIrq_handled {inb : Nat → UInt8} {driverList : List Driver}
    (listed : DriversListed inb driverList) (irq : UInt8) {devices : Devices}
    (cycle : devices.mouse.mouseCycle ≤ 2) :
    Handled inb (keyboardAhead driverList) devices (driverDispatchIrq driverList irq devices) := by
  -- The handlers work on different variables and share the port, so only its reads depend on the order.
  rw [driverDispatchIrq_handlers, keyboardAhead]
  rcases orders_of_three listed with order | order | order | order | order | order
  all_goals
    rw [order]
    constructor <;>
      simp [driverDispatchIrq, timerDriver, keyboardDriver, mouseDriver, timerDriverIrq, timerOnIrq,
        keyboardDriverIrq, mouseIrqHandler, cycle]

/-- The place in the packet after a byte. -/
theorem mouseByte_mouseCycle (mouse : Mouse) (byte : UInt8) :
    (mouseByte mouse byte).mouseCycle =
      if mouse.mouseCycle = 0 then (if byte &&& 0x08 = 0 then 0 else 1)
      else if mouse.mouseCycle = 1 then 2 else 0 := by
  unfold mouseByte
  -- The cycle advances with each byte, and a first byte without the marker bit leaves it at 0.
  split_ifs with first starts <;> simp_all [mouseReport]

/-- A byte leaves the mouse in one of the three places of a packet. -/
theorem mouseByte_cycle (mouse : Mouse) (byte : UInt8) : (mouseByte mouse byte).mouseCycle ≤ 2 := by
  rw [mouseByte_mouseCycle]
  split_ifs <;> decide

/-- A byte leaves the place in the packet exactly when it is skipped at the start of one. -/
theorem mouseByte_stays (mouse : Mouse) (byte : UInt8) :
    (mouseByte mouse byte).mouseCycle = mouse.mouseCycle ↔
      mouse.mouseCycle = 0 ∧ byte &&& 0x08 = 0 := by
  -- A byte is skipped where the first one of a packet lacks its mark, and every other byte moves the cycle.
  rw [mouseByte_mouseCycle]
  split_ifs with first skipped second
  · simp [first, skipped]
  · simp [first, skipped]
  · simp [second]
  · simp [first, eq_comm]

/-- A hardware interrupt without a handler of its own goes through the driver list. -/
theorem isrHandler_handled {inb : Nat → UInt8} {driverList : List Driver}
    (listed : DriversListed inb driverList) {intNo : Nat} (hardware : 32 ≤ intNo ∧ intNo < 48)
    {devices : Devices} (cycle : devices.mouse.mouseCycle ≤ 2) :
    ∃ after, isrHandler noHandlers driverList intNo devices = .ok after ∧
      Handled inb (keyboardAhead driverList) devices after := by
  have handled := driverDispatchIrq_handled listed (UInt8.ofNat (intNo - 32)) cycle
  refine ⟨driversPicSendEoi (UInt8.ofNat (intNo - 32))
    (driverDispatchIrq driverList (UInt8.ofNat (intNo - 32)) devices), ?_, ?_⟩
  · -- The vector is no exception and has no handler of its own.
    rw [isrHandler, if_neg (by omega), if_neg (by omega)]
    simp only [noHandlers, if_pos hardware.2]
  · -- Telling the controllers leaves the devices.
    unfold driversPicSendEoi
    split_ifs
    · exact ⟨handled.ticks, handled.keyboardBytes, handled.mouse⟩
    · exact ⟨handled.ticks, handled.keyboardBytes, handled.mouse⟩

/-- A run of hardware interrupts counts each of them as a tick and as a byte of the keyboard. -/
theorem interruptRun_counts {inb : Nat → UInt8} {driverList : List Driver}
    (listed : DriversListed inb driverList) {vectors : List Nat}
    (hardware : ∀ intNo ∈ vectors, 32 ≤ intNo ∧ intNo < 48) {start : Devices}
    (cycle : start.mouse.mouseCycle ≤ 2) :
    ∃ devices, interruptRun noHandlers driverList start vectors = .ok devices ∧
      devices.tickCount = start.tickCount + UInt64.ofNat vectors.length ∧
      devices.keyboardBytes = start.keyboardBytes + vectors.length ∧
      devices.mouse.mouseCycle ≤ 2 := by
  -- The place in the packet stays in range, which the step for the mouse needs.
  induction vectors generalizing start with
  | nil => exact ⟨start, rfl, by simp, by simp, cycle⟩
  | cons intNo rest ih =>
    obtain ⟨next, ran, handled⟩ := isrHandler_handled listed (hardware intNo (by simp)) cycle
    have later : next.mouse.mouseCycle ≤ 2 := by
      rw [handled.mouse]
      exact mouseByte_cycle _ _
    obtain ⟨devices, onward, ticks, bytes, last⟩ :=
      ih (fun other among => hardware other (List.mem_cons_of_mem intNo among)) later
    refine ⟨devices, bind_eq_ok.mpr ⟨next, ran, onward⟩, ?_, ?_, last⟩
    · -- The counter of ticks is a machine word, so the sum is one of machine words.
      rw [ticks, handled.ticks, List.length_cons, UInt64.ofNat_add, UInt64.add_assoc,
        UInt64.add_comm (UInt64.ofNat rest.length)]
      rfl
    · rw [bytes, handled.keyboardBytes, List.length_cons]
      omega

/-- A run of hardware interrupts from the start of the devices. -/
theorem interruptRun_start {inb : Nat → UInt8} {driverList : List Driver}
    (listed : DriversListed inb driverList) {vectors : List Nat}
    (hardware : ∀ intNo ∈ vectors, 32 ≤ intNo ∧ intNo < 48) (kernel : Kernel)
    (kbdBuffer : Nat → UInt8) (packet : UInt8 × UInt8 × UInt8) (reads : Nat) :
    ∃ devices,
      interruptRun noHandlers driverList (devicesStart kernel kbdBuffer packet reads) vectors =
        .ok devices ∧
      timerTicks devices = UInt64.ofNat vectors.length ∧ devices.keyboardBytes = vectors.length ∧
      devices.mouse.mouseCycle ≤ 2 := by
  -- The cycle starts at the first byte.
  have first : (devicesStart kernel kbdBuffer packet reads).mouse.mouseCycle ≤ 2 := by
    simp [devicesStart]
  obtain ⟨devices, ran, ticks, bytes, cycle⟩ := interruptRun_counts listed hardware first
  refine ⟨devices, ran, ?_, ?_, cycle⟩
  · rw [timerTicks, ticks]
    exact UInt64.zero_add _
  · rw [bytes]
    exact Nat.zero_add _

/-- Numbers that go along with the length of every front of a list count all of its elements. -/
theorem all_of_front_counts {vectors : List Nat} {own : Nat}
    (counts : ∀ before, before <+: vectors →
      UInt64.ofNat before.length = UInt64.ofNat (before.count own)) :
    ∀ intNo ∈ vectors, intNo = own := by
  -- The first other element makes the length one more than the count.
  induction vectors using List.reverseRecOn with
  | nil => simp
  | append_singleton front last ih =>
    have rest := ih fun before prefixed => counts before (prefixed.trans (List.prefix_append _ _))
    have counted : front.count own = front.length :=
      List.count_eq_length.mpr fun intNo among => (rest intNo among).symm
    have whole := counts _ List.prefix_rfl
    have same : last = own := by
      by_contra other
      rw [List.length_append, List.count_append, counted, List.length_singleton,
        List.count_singleton, if_neg (by simpa using other), UInt64.ofNat_add,
        Nat.add_zero] at whole
      simp at whole
    intro intNo among
    rcases List.mem_append.mp among with inside | final
    · exact rest intNo inside
    · rw [List.mem_singleton.mp final, same]

section

variable {inb : Nat → UInt8} {driverList : List Driver} (listed : DriversListed inb driverList)
  {vectors : List Nat} (hardware : ∀ intNo ∈ vectors, 32 ≤ intNo ∧ intNo < 48)
  (kernel : Kernel) (kbdBuffer : Nat → UInt8) (packet : UInt8 × UInt8 × UInt8) (reads : Nat)

include listed hardware

/-- The ticks are those of the timer exactly when no other interrupt comes. -/
theorem timerOwn_iff :
    TimerOwn driverList (devicesStart kernel kbdBuffer packet reads) vectors ↔
      ∀ intNo ∈ vectors, intNo = 32 := by
  -- At each moment the ticks are the interrupts so far, of any vector.
  have front := fun before (prefixed : before <+: vectors) =>
    interruptRun_start listed (fun intNo among => hardware intNo (prefixed.subset among))
      kernel kbdBuffer packet reads
  constructor
  · intro timer
    refine all_of_front_counts fun before prefixed => ?_
    obtain ⟨devices, ran, ticks, -⟩ := front before prefixed
    obtain ⟨other, again, counted⟩ := timer before prefixed
    -- There is one run, so the ticks it counts are the ones asked for.
    obtain rfl : devices = other := Except.ok.inj (ran.symm.trans again)
    exact ticks.symm.trans counted
  · intro own before prefixed
    obtain ⟨devices, ran, ticks, -⟩ := front before prefixed
    have counted : before.count 32 = before.length :=
      List.count_eq_length.mpr fun intNo among => (own intNo (prefixed.subset among)).symm
    exact ⟨devices, ran, by rw [ticks, counted]⟩

/-- The bytes read are those of the keyboard exactly when no other interrupt comes. -/
theorem keyboardOwn_iff :
    KeyboardOwn driverList (devicesStart kernel kbdBuffer packet reads) vectors ↔
      ∀ intNo ∈ vectors, intNo = 33 := by
  have front := fun before (prefixed : before <+: vectors) =>
    interruptRun_start listed (fun intNo among => hardware intNo (prefixed.subset among))
      kernel kbdBuffer packet reads
  constructor
  · -- The whole run alone settles it, since this count does not wrap.
    intro keyboard intNo among
    obtain ⟨devices, ran, -, bytes, -⟩ := front vectors List.prefix_rfl
    obtain ⟨other, again, counted⟩ := keyboard vectors List.prefix_rfl
    obtain rfl : devices = other := Except.ok.inj (ran.symm.trans again)
    exact (List.count_eq_length.mp (counted.symm.trans bytes) intNo among).symm
  · intro own before prefixed
    obtain ⟨devices, ran, -, bytes, -⟩ := front before prefixed
    have counted : before.count 33 = before.length :=
      List.count_eq_length.mpr fun intNo among => (own intNo (prefixed.subset among)).symm
    exact ⟨devices, ran, by rw [bytes, counted]⟩

/-- The packet of the mouse is left alone exactly when other interrupts find no packet begun and
read bytes that begin none. -/
theorem mouseOwn_iff :
    MouseOwn driverList (devicesStart kernel kbdBuffer packet reads) vectors ↔
      MouseIdle inb driverList (devicesStart kernel kbdBuffer packet reads) vectors := by
  -- Each interrupt hands the mouse one byte, which moves the packet on or is skipped.
  have step : ∀ before intNo, before ++ [intNo] <+: vectors → ∃ devices after,
      interruptRun noHandlers driverList (devicesStart kernel kbdBuffer packet reads) before =
        .ok devices ∧
      isrHandler noHandlers driverList intNo devices = .ok after ∧
      (after.mouse.mouseCycle = devices.mouse.mouseCycle ↔
        devices.mouse.mouseCycle = 0 ∧
          inb (devices.reads + keyboardAhead driverList) &&& 0x08 = 0) := by
    intro before intNo prefixed
    have inside : ∀ other ∈ before ++ [intNo], 32 ≤ other ∧ other < 48 := fun other among =>
      hardware other (prefixed.subset among)
    obtain ⟨devices, ran, -, -, cycle⟩ := interruptRun_start listed
      (fun other among => inside other (List.mem_append_left _ among)) kernel kbdBuffer packet reads
    obtain ⟨after, handled, done⟩ := isrHandler_handled listed (inside intNo (by simp)) cycle
    refine ⟨devices, after, ran, handled, ?_⟩
    rw [done.mouse]
    exact mouseByte_stays _ _
  -- Both directions compare the two runs of the same interrupts, which end in one state.
  constructor
  · intro mouse before intNo prefixed other
    obtain ⟨devices, after, ran, handled, stays⟩ := step before intNo prefixed
    obtain ⟨same, next, again, twice, kept⟩ := mouse before intNo prefixed other
    obtain rfl : devices = same := Except.ok.inj (ran.symm.trans again)
    obtain rfl : after = next := Except.ok.inj (handled.symm.trans twice)
    exact ⟨devices, ran, stays.mp kept⟩
  · intro idle before intNo prefixed other
    obtain ⟨devices, after, ran, handled, stays⟩ := step before intNo prefixed
    obtain ⟨same, again, quiet⟩ := idle before intNo prefixed other
    obtain rfl : devices = same := Except.ok.inj (ran.symm.trans again)
    exact ⟨devices, after, ran, handled, stays.mpr quiet⟩

/-- The clock counts its own interrupts exactly in runs of nothing else, the keyboard likewise, and
the mouse is left alone exactly where it is idle; all of it together holds in the empty run only. -/
theorem interrupts_reach_own_driver_iff :
    let start := devicesStart kernel kbdBuffer packet reads
    (TimerOwn driverList start vectors ↔ ∀ intNo ∈ vectors, intNo = 32) ∧
      (KeyboardOwn driverList start vectors ↔ ∀ intNo ∈ vectors, intNo = 33) ∧
      (MouseOwn driverList start vectors ↔ MouseIdle inb driverList start vectors) ∧
      ((TimerOwn driverList start vectors ∧ KeyboardOwn driverList start vectors ∧
        MouseOwn driverList start vectors) ↔ vectors = []) := by
  intro start
  have timer := timerOwn_iff listed hardware kernel kbdBuffer packet reads
  have keyboard := keyboardOwn_iff listed hardware kernel kbdBuffer packet reads
  have mouse := mouseOwn_iff listed hardware kernel kbdBuffer packet reads
  refine ⟨timer, keyboard, mouse, ?_, ?_⟩
  · -- An interrupt would be one of the timer and one of the keyboard.
    rintro ⟨ticks, bytes, -⟩
    cases vectors with
    | nil => rfl
    | cons intNo rest =>
      have one := timer.mp ticks intNo (by simp)
      have two := keyboard.mp bytes intNo (by simp)
      omega
  · rintro rfl
    refine ⟨timer.mpr (by simp), keyboard.mpr (by simp), ?_⟩
    intro before intNo prefixed
    simp at prefixed

end

/-- The linked drivers are listed. -/
theorem driversListed_linked (inb : Nat → UInt8) :
    DriversListed inb (driverSubsystemInit (linkedDrivers inb)) := List.Perm.refl _

/-- The drivers as they are linked, where the port holds the scancode of a letter. -/
def letterDrivers : List Driver := driverSubsystemInit (linkedDrivers fun _ => 0x1E)

/-- Fresh devices of a fresh kernel. -/
def freshDevices : Devices := devicesStart (bootKernel pmmReset) (fun _ => 0) (0, 0, 0) 0

/-- Two interrupts of the timer: the clock counts its own, but the others are not left alone. -/
theorem interrupts_timer_twice :
    TimerOwn letterDrivers freshDevices [32, 32] ∧
      ¬ (TimerOwn letterDrivers freshDevices [32, 32] ∧
        KeyboardOwn letterDrivers freshDevices [32, 32] ∧
        MouseOwn letterDrivers freshDevices [32, 32]) := by
  have all := interrupts_reach_own_driver_iff (driversListed_linked fun _ => 0x1E)
    (show ∀ intNo ∈ [32, 32], 32 ≤ intNo ∧ intNo < 48 by simp) (bootKernel pmmReset)
    (fun _ => 0) (0, 0, 0) 0
  -- Both vectors are the timer's, and the three parts hold together of the empty sequence only.
  exact ⟨all.1.mpr (by simp), fun own => absurd (all.2.2.2.mp own) (by simp)⟩

/-- One interrupt of the keyboard ticks the clock. -/
theorem keyboard_interrupt_ticks :
    ¬ (TimerOwn letterDrivers freshDevices [33] ∧ KeyboardOwn letterDrivers freshDevices [33] ∧
      MouseOwn letterDrivers freshDevices [33]) := by
  intro own
  -- The timer counts exactly if every vector is its own, and 33 is the keyboard's.
  have ticks := (timerOwn_iff (driversListed_linked fun _ => 0x1E)
    (show ∀ intNo ∈ [33], 32 ≤ intNo ∧ intNo < 48 by simp) (bootKernel pmmReset)
    (fun _ => 0) (0, 0, 0) 0).mp own.1
  exact absurd (ticks 33 (by simp)) (by decide)

end MiraOS
