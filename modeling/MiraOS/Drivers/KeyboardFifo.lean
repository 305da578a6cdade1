import MiraOS.Drivers.Keyboard

/-! The ring of scancodes over whole runs: what interrupts store and what polls deliver. -/

namespace MiraOS

open Machine

/-- Store a scancode, with the value returned: minus one when the ring is full. -/
def kbdPushReturn (keyboard : Keyboard) (sc : UInt8) : Int × Keyboard :=
  let next := (keyboard.kbdHead + 1) % kbdBufSize
  if next = keyboard.kbdTail then (-1, keyboard)
  else
    (0,
      { keyboard with
        kbdBuffer := Function.update keyboard.kbdBuffer keyboard.kbdHead sc
        kbdHead := next })

/-- The interrupt handler drops the value returned and keeps the ring. -/
theorem kbdPushReturn_ring (keyboard : Keyboard) (sc : UInt8) :
    (kbdPushReturn keyboard sc).2 = kbdPush keyboard sc := by
  -- Both test the same slot and write the same one.
  by_cases full : (keyboard.kbdHead + 1) % kbdBufSize = keyboard.kbdTail
  · rw [kbdPushReturn, kbdPush, if_pos full, if_pos full]
  · rw [kbdPushReturn, kbdPush, if_neg full, if_neg full]

/-- A use of the ring: an interrupt stores a scancode, or the consumer polls. -/
inductive RingUse where
  | push (sc : UInt8)
  | poll
  deriving DecidableEq

/-- A use of the ring with what it returned. -/
inductive RingEvent where
  | pushed (sc : UInt8) (status : Int)
  | polled (scancode : Option UInt8)
  deriving DecidableEq

/-- One use of the ring. -/
def ringStep (keyboard : Keyboard) : RingUse → RingEvent × Keyboard
  | .push sc => (.pushed sc (kbdPushReturn keyboard sc).1, (kbdPushReturn keyboard sc).2)
  | .poll =>
    match keyboardPoll keyboard with
    | none => (.polled none, keyboard)
    | some (sc, after) => (.polled (some sc), after)

/-- The ring after a run of uses. -/
def ringAfter (keyboard : Keyboard) (uses : List RingUse) : Keyboard :=
  uses.foldl (fun state use => (ringStep state use).2) keyboard

/-- What the uses of a run returned, in order. -/
def ringEvents (keyboard : Keyboard) : List RingUse → List RingEvent
  | [] => []
  | use :: rest => (ringStep keyboard use).1 :: ringEvents (ringStep keyboard use).2 rest

/-- The scancode of a push that was accepted. -/
def RingEvent.accepted : RingEvent → Option UInt8
  | .pushed sc 0 => some sc
  | _ => none

/-- The scancode a poll delivered. -/
def RingEvent.delivered : RingEvent → Option UInt8
  | .polled scancode => scancode
  | _ => none

/-- The accepted scancodes of a run, in order. -/
def acceptedCodes (events : List RingEvent) : List UInt8 := events.filterMap RingEvent.accepted

/-- The delivered scancodes of a run, in order. -/
def deliveredCodes (events : List RingEvent) : List UInt8 := events.filterMap RingEvent.delivered

/-- How many accepted scancodes are still to be delivered. -/
def pendingCodes (events : List RingEvent) : Nat :=
  (acceptedCodes events).length - (deliveredCodes events).length

/-- The pushed scancodes without those pushed while 127 are pending, for a run of uses that starts
with a number of them pending. -/
def keptCodes (pending : Nat) : List RingUse → List UInt8
  | [] => []
  | .push sc :: rest =>
    if pending = 127 then keptCodes pending rest else sc :: keptCodes (pending + 1) rest
  | .poll :: rest => keptCodes (pending - 1) rest

/-- Storing a scancode in a ring with room for it. -/
theorem kbdPushReturn_room {keyboard : Keyboard} {waiting : List UInt8}
    (holds : keyboard.Holds waiting) (room : waiting.length + 1 < kbdBufSize) (sc : UInt8) :
    (kbdPushReturn keyboard sc).1 = 0 ∧ (kbdPushReturn keyboard sc).2.Holds (waiting ++ [sc]) := by
  constructor
  · -- Room in the ring means the push is accepted.
    rw [kbdPushReturn, if_neg (RingHolds.push holds sc room).1]
  · rw [kbdPushReturn_ring]
    exact (kbdPush_holds holds room sc).1

/-- Storing a scancode in a full ring. -/
theorem kbdPushReturn_full {keyboard : Keyboard} {waiting : List UInt8}
    (holds : keyboard.Holds waiting) (full : waiting.length + 1 = kbdBufSize) (sc : UInt8) :
    kbdPushReturn keyboard sc = (-1, keyboard) := by
  rw [kbdPushReturn, if_pos (RingHolds.full holds full)]

/-- One use of the ring: the waiting scancodes are those waiting before and the one accepted, less
the one delivered, which is the oldest. -/
theorem ringStep_waiting {keyboard : Keyboard} {waiting : List UInt8}
    (holds : keyboard.Holds waiting) (use : RingUse) :
    ∃ after, (ringStep keyboard use).2.Holds after ∧
      waiting ++ acceptedCodes [(ringStep keyboard use).1] =
        deliveredCodes [(ringStep keyboard use).1] ++ after := by
  cases use with
  | push sc =>
    by_cases full : waiting.length + 1 = kbdBufSize
    · -- A full ring drops the scancode and stays as it is.
      have dropped := kbdPushReturn_full holds full sc
      refine ⟨waiting, ?_, ?_⟩
      · simpa only [ringStep, dropped] using holds
      · simp [ringStep, dropped, acceptedCodes, deliveredCodes, RingEvent.accepted,
          RingEvent.delivered]
    · -- With room the scancode goes behind the waiting ones, and nothing is delivered.
      have bound := holds.room
      obtain ⟨status, stored⟩ := kbdPushReturn_room holds (by omega) sc
      refine ⟨waiting ++ [sc], stored, ?_⟩
      simp [ringStep, status, acceptedCodes, deliveredCodes, RingEvent.accepted,
        RingEvent.delivered]
  | poll =>
    cases waiting with
    | nil =>
      have idle := keyboardPoll_empty holds
      refine ⟨[], ?_, ?_⟩
      · simpa only [ringStep, idle] using holds
      · rw [ringStep, idle]
        rfl
    | cons sc rest =>
      -- The oldest scancode is delivered, and the others keep their order.
      obtain ⟨after, polled, remaining, -⟩ := keyboardPoll_holds holds
      refine ⟨rest, ?_, ?_⟩
      · simpa only [ringStep, polled] using remaining
      · simp [ringStep, polled, acceptedCodes, deliveredCodes, RingEvent.accepted,
          RingEvent.delivered]

/-- A run of uses: what was accepted is what was delivered, followed by what is waiting. -/
theorem ringAfter_waiting {keyboard : Keyboard} {waiting : List UInt8}
    (holds : keyboard.Holds waiting) (uses : List RingUse) :
    ∃ after, (ringAfter keyboard uses).Holds after ∧
      waiting ++ acceptedCodes (ringEvents keyboard uses) =
        deliveredCodes (ringEvents keyboard uses) ++ after := by
  -- Each use adds what it accepted behind the waiting scancodes and takes what it delivered.
  induction uses generalizing keyboard waiting with
  | nil => exact ⟨waiting, holds, by simp [ringEvents, acceptedCodes, deliveredCodes]⟩
  | cons use rest ih =>
    obtain ⟨middle, held, first⟩ := ringStep_waiting holds use
    obtain ⟨after, last, later⟩ := ih held
    refine ⟨after, last, ?_⟩
    have events : ringEvents keyboard (use :: rest) =
        [(ringStep keyboard use).1] ++ ringEvents (ringStep keyboard use).2 rest := rfl
    rw [acceptedCodes, deliveredCodes] at first later ⊢
    calc waiting ++ (ringEvents keyboard (use :: rest)).filterMap RingEvent.accepted
        = (waiting ++ [(ringStep keyboard use).1].filterMap RingEvent.accepted) ++
            (ringEvents (ringStep keyboard use).2 rest).filterMap RingEvent.accepted := by
          rw [events, List.filterMap_append, List.append_assoc]
      _ = [(ringStep keyboard use).1].filterMap RingEvent.delivered ++
            (middle ++
              (ringEvents (ringStep keyboard use).2 rest).filterMap RingEvent.accepted) := by
          rw [first, List.append_assoc]
      _ = (ringEvents keyboard (use :: rest)).filterMap RingEvent.delivered ++ after := by
          rw [later, events, List.filterMap_append, List.append_assoc]

/-- The accepted scancodes are those pushed while fewer than 127 are pending. -/
theorem acceptedCodes_kept {keyboard : Keyboard} {waiting : List UInt8}
    (holds : keyboard.Holds waiting) (uses : List RingUse) :
    acceptedCodes (ringEvents keyboard uses) = keptCodes waiting.length uses := by
  -- What is pending is what waits in the ring before each use.
  induction uses generalizing keyboard waiting with
  | nil => rfl
  | cons use rest ih =>
    cases use with
    | push sc =>
      rw [keptCodes, ringEvents, acceptedCodes, List.filterMap_cons]
      by_cases full : waiting.length = 127
      · -- A full ring accepts nothing, and what is pending stays.
        have dropped := kbdPushReturn_full holds (by rw [full]; rfl) sc
        rw [if_pos full, ringStep, dropped]
        exact ih holds
      · have bound : waiting.length < 128 := holds.room
        have room : waiting.length + 1 < kbdBufSize := by
          rw [kbdBufSize]
          omega
        -- One more is pending from here on.
        obtain ⟨status, stored⟩ := kbdPushReturn_room holds room sc
        have later := ih stored
        rw [List.length_append, List.length_singleton] at later
        rw [if_neg full, ringStep, status]
        exact congrArg (sc :: ·) later
    | poll =>
      rw [keptCodes, ringEvents, acceptedCodes, List.filterMap_cons]
      cases waiting with
      | nil =>
        -- Nothing is pending, and truncated subtraction leaves it so.
        rw [ringStep, keyboardPoll_empty holds]
        exact ih holds
      | cons sc remaining =>
        obtain ⟨after, polled, held, -⟩ := keyboardPoll_holds holds
        rw [ringStep, polled]
        exact ih held

/-- From the initialised driver on, the ring delivers every accepted scancode once and in order,
refuses exactly those pushed while 127 are pending, and is found empty exactly when every accepted
scancode has been delivered. -/
theorem keyboard_ring_fifo (kbdBuffer : Nat → UInt8) (uses : List RingUse) :
    let keyboard := ringAfter (keyboardInit kbdBuffer) uses
    let events := ringEvents (keyboardInit kbdBuffer) uses
    acceptedCodes events = keptCodes 0 uses ∧
      deliveredCodes events <+: acceptedCodes events ∧
      pendingCodes events ≤ 127 ∧
      (∀ sc,
        (pendingCodes events = 127 → kbdPushReturn keyboard sc = (-1, keyboard)) ∧
        (pendingCodes events ≠ 127 → (kbdPushReturn keyboard sc).1 = 0)) ∧
      (keyboardPoll keyboard = none ↔ deliveredCodes events = acceptedCodes events) := by
  -- What is pending is what waits in the ring, which has room for one scancode less than slots.
  intro keyboard events
  obtain ⟨after, held, account⟩ :=
    ringAfter_waiting (keyboardInit_holds kbdBuffer) uses
  have account : acceptedCodes events = deliveredCodes events ++ after := by simpa using account
  have pending : pendingCodes events = after.length := by
    rw [pendingCodes, account, List.length_append]
    omega
  have bound : after.length < kbdBufSize := held.room
  have size : kbdBufSize = 128 := rfl
  have kept := acceptedCodes_kept (keyboardInit_holds kbdBuffer) uses
  refine ⟨kept, ⟨after, account.symm⟩, by omega, fun sc => ⟨?_, ?_⟩, ?_⟩
  · intro many
    exact kbdPushReturn_full held (by omega) sc
  · intro few
    exact (kbdPushReturn_room held (by omega) sc).1
  · rw [account]
    -- The ring is found empty when nothing waits, and then nothing separates the two lists.
    cases after with
    | nil =>
      have idle : keyboardPoll keyboard = none := keyboardPoll_empty held
      simp [idle]
    | cons sc rest =>
      obtain ⟨next, polled, -⟩ := keyboardPoll_holds held
      have found : keyboardPoll keyboard ≠ none := by
        rw [polled]
        exact Option.some_ne_none _
      simp [found]

end MiraOS
