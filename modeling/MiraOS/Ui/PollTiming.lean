import MiraOS.Ui.Input

/-! Typed text and the moments of polling: modifiers are read when a key is polled. -/

namespace MiraOS

open Machine

/-- The characters that the polling loop handles, in order. -/
def polledCharacters : Nat → Keyboard → List UInt8
  | 0, _ => []
  | fuel + 1, keyboard =>
    match keyboardPoll keyboard with
    | none => []
    | some (sc, keyboard) => keyboardScancodeToAscii keyboard sc :: polledCharacters fuel keyboard

/-- The driver and the line editor, with every character handled so far. -/
structure Typing where
  keyboard : Keyboard
  input : Input
  consumed : List UInt8

/-- The driver and the line editor after their initialisation. -/
def typingStart (kbdBuffer : Nat → UInt8) (inputBuf : Memory) : Typing :=
  ⟨keyboardInit kbdBuffer, inputInit inputBuf, []⟩

/-- What happens: an interrupt with a byte of the keyboard, or a poll of the line editor. -/
inductive TypingStep where
  | byte (sc : UInt8)
  | poll
  deriving DecidableEq

/-- One step. -/
def typingStep (typing : Typing) : TypingStep → Except Halt Typing
  | .byte sc => .ok { typing with keyboard := keyboardOnIrq typing.keyboard sc }
  | .poll => do
    let (keyboard, input) ← inputPoll kbdBufSize typing.keyboard typing.input
    return ⟨keyboard, input, typing.consumed ++ polledCharacters kbdBufSize typing.keyboard⟩

/-- Steps one after another. -/
def typingRun : Typing → List TypingStep → Except Halt Typing
  | typing, [] => .ok typing
  | typing, step :: rest => do
    let next ← typingStep typing step
    typingRun next rest

/-- The ring takes no further scancode. -/
def RingFull (keyboard : Keyboard) : Prop := (keyboard.kbdHead + 1) % kbdBufSize = keyboard.kbdTail

/-- The ring is not full before, between and after the steps. -/
def NeverFull : Typing → List TypingStep → Prop
  | typing, [] => ¬ RingFull typing.keyboard
  | typing, step :: rest =>
    ¬ RingFull typing.keyboard ∧ ∀ next, typingStep typing step = .ok next → NeverFull next rest

/-- The byte of a step, if it has one. -/
def TypingStep.byte? : TypingStep → Option UInt8
  | .byte sc => some sc
  | .poll => none

/-- Steps that deliver these bytes in order, never fill the ring and end with a poll. -/
structure Interleaving (start : Typing) (bytes : List UInt8) (steps : List TypingStep) : Prop where
  order : steps.filterMap TypingStep.byte? = bytes
  roomy : NeverFull start steps
  polled : steps.getLast? = some .poll

/-- The bytes whose interrupt stores a scancode. -/
def StoredKey (sc : UInt8) : Prop := sc < 0x80 ∧ sc ≠ 0x2A ∧ sc ≠ 0x36 ∧ sc ≠ 0x3A

instance (sc : UInt8) : Decidable (StoredKey sc) := inferInstanceAs (Decidable (_ ∧ _))

/-- The scancodes that bytes of the keyboard store. -/
def storedKeys (bytes : List UInt8) : List UInt8 := bytes.filter (StoredKey ·)

/-- The text of bytes of the keyboard, each key under the modifiers in force when it is pressed. -/
def textAsPressed : Keyboard → List UInt8 → List UInt8
  | _, [] => []
  | keyboard, sc :: rest =>
    ([sc].filter (StoredKey ·)).map (keyboardScancodeToAscii keyboard) ++
      textAsPressed (keyboardOnIrq keyboard sc) rest

/-- No key gets another character through the modifiers that follow it, as long as it can wait: it
is polled at the latest before the ring is full. -/
def SteadyKeys (keyboard : Keyboard) (bytes : List UInt8) : Prop :=
  ∀ before sc between later, bytes = before ++ (sc :: between) ++ later → StoredKey sc →
    (storedKeys between).length + 1 < 127 →
    keyboardScancodeToAscii ((before ++ sc :: between).foldl keyboardOnIrq keyboard) sc =
      keyboardScancodeToAscii (before.foldl keyboardOnIrq keyboard) sc

/-- Storing a scancode leaves the modifiers, whether there is room or not. -/
theorem kbdPush_modifiers (keyboard : Keyboard) (sc : UInt8) :
    SameModifiers (kbdPush keyboard sc) keyboard := by
  -- A full ring drops the byte, and neither branch touches a modifier.
  by_cases full : (keyboard.kbdHead + 1) % kbdBufSize = keyboard.kbdTail
  · rw [kbdPush, if_pos full]
    exact ⟨rfl, rfl⟩
  · rw [kbdPush, if_neg full]
    exact ⟨rfl, rfl⟩

/-- The modifiers after an interrupt depend on the modifiers before it. -/
theorem SameModifiers.irq {one two : Keyboard} (same : SameModifiers one two) (sc : UInt8) :
    SameModifiers (keyboardOnIrq one sc) (keyboardOnIrq two sc) := by
  have push := fun keyboard => kbdPush_modifiers keyboard sc
  obtain ⟨shift, caps⟩ := same
  -- The cases are press, release, caps lock, a key that is stored and any other byte.
  unfold keyboardOnIrq
  split_ifs
  · exact ⟨rfl, caps⟩
  · exact ⟨rfl, caps⟩
  · exact ⟨shift, by simp [caps]⟩
  · exact ⟨(push one).1.trans (shift.trans (push two).1.symm),
      (push one).2.trans (caps.trans (push two).2.symm)⟩
  · exact ⟨shift, caps⟩

/-- The interrupt of a stored key leaves the modifiers. -/
theorem StoredKey.modifiers {sc : UInt8} (stored : StoredKey sc) (keyboard : Keyboard) :
    keyboardOnIrq keyboard sc = kbdPush keyboard sc := by
  -- Such a byte is no modifier, and its value is below those of the releases.
  obtain ⟨low, left, right, caps⟩ := stored
  have press : ¬ (sc = 0x2A ∨ sc = 0x36) := by
    rintro (rfl | rfl)
    · exact left rfl
    · exact right rfl
  have release : ¬ (sc = 0xAA ∨ sc = 0xB6) := by
    rintro (rfl | rfl)
    · exact absurd low (by decide)
    · exact absurd low (by decide)
  rw [keyboardOnIrq, if_neg press, if_neg release, if_neg caps, if_pos low]

/-- The interrupt of any other byte leaves the ring. -/
theorem keyboardOnIrq_unstored {sc : UInt8} (other : ¬ StoredKey sc) {keyboard : Keyboard}
    {waiting : List UInt8} (holds : keyboard.Holds waiting) :
    (keyboardOnIrq keyboard sc).Holds waiting := by
  unfold keyboardOnIrq
  -- Modifier keys, releases and keys outside the table change flags only; the one storing branch is excluded.
  split_ifs with press release caps low
  · exact holds
  · exact holds
  · exact holds
  · exact absurd ⟨low, fun left => press (.inl left), fun right => press (.inr right), caps⟩ other
  · exact holds

/-- An interrupt stores its scancode behind the waiting ones while there is room. -/
theorem keyboardOnIrq_holds {keyboard : Keyboard} {waiting : List UInt8}
    (holds : keyboard.Holds waiting) (room : waiting.length + 1 < kbdBufSize) (sc : UInt8) :
    (keyboardOnIrq keyboard sc).Holds (waiting ++ storedKeys [sc]) := by
  -- A stored key is pushed into a ring that has room; any other byte leaves the ring.
  by_cases stored : StoredKey sc
  · have keys : storedKeys [sc] = [sc] := by simp [storedKeys, stored]
    rw [keys, stored.modifiers]
    exact (kbdPush_holds holds room sc).1
  · have keys : storedKeys [sc] = [] := by simp [storedKeys, stored]
    rw [keys, List.append_nil]
    exact keyboardOnIrq_unstored stored holds

/-- The ring is full when 127 scancodes wait. -/
theorem ringFull_iff {keyboard : Keyboard} {waiting : List UInt8} (holds : keyboard.Holds waiting) :
    RingFull keyboard ↔ waiting.length = 127 := by
  have room : waiting.length < 128 := holds.room
  constructor
  · -- With fewer waiting, the next scancode would find room.
    intro full
    by_contra some
    exact (RingHolds.push holds 0 (by rw [kbdBufSize]; omega)).1 full
  · intro full
    exact RingHolds.full holds (by rw [full]; rfl)

/-- A poll handles the waiting scancodes under the modifiers it finds and empties the ring. -/
theorem inputPoll_consumes {fuel : Nat} {keyboard : Keyboard} {waiting : List UInt8}
    (holds : keyboard.Holds waiting) (input : Input) (enough : waiting.length < fuel) :
    ∃ quiet, inputPoll fuel keyboard input =
        .ok (quiet, (waiting.map (keyboardScancodeToAscii keyboard)).foldl inputKey input) ∧
      polledCharacters fuel keyboard = waiting.map (keyboardScancodeToAscii keyboard) ∧
      quiet.Holds [] ∧ SameModifiers quiet keyboard := by
  -- Each turn takes the oldest scancode and leaves the modifiers to the next.
  induction waiting generalizing fuel keyboard input with
  | nil =>
    obtain ⟨fuel, rfl⟩ : ∃ less, fuel = less + 1 := ⟨fuel - 1, by simp at enough; omega⟩
    have idle := keyboardPoll_empty holds
    exact ⟨keyboard, by rw [inputPoll, idle]; rfl, by rw [polledCharacters, idle]; rfl, holds,
      rfl, rfl⟩
  | cons sc rest ih =>
    rw [List.length_cons] at enough
    obtain ⟨fuel, rfl⟩ : ∃ less, fuel = less + 1 := ⟨fuel - 1, by omega⟩
    obtain ⟨next, polled, remaining, same⟩ := keyboardPoll_holds holds
    have letters := keyboardScancodeToAscii_congr same
    have fewer : rest.length < fuel := by omega
    obtain ⟨quiet, ran, read, empty, kept⟩ :=
      ih remaining (inputKey input (keyboardScancodeToAscii next sc)) fewer
    refine ⟨quiet, ?_, ?_, empty, kept.1.trans same.1, kept.2.trans same.2⟩
    · rw [inputPoll, polled]
      simpa only [letters, List.map_cons, List.foldl_cons] using ran
    · rw [polledCharacters, polled]
      simp only [read, letters, List.map_cons]

/-- Where a run stands: the bytes up to the last poll have been handled, and the keys among the bytes
since then wait. -/
structure TypedUpTo (start typing : Typing) (text handled pending : List UInt8) : Prop where
  waiting : typing.keyboard.Holds (storedKeys pending)
  modifiers : SameModifiers typing.keyboard ((handled ++ pending).foldl keyboardOnIrq start.keyboard)
  consumed : typing.consumed = start.consumed ++ text
  input : typing.input = text.foldl inputKey start.input

/-- The ring is not full while fewer than 127 keys are pending. -/
theorem TypedUpTo.roomy {start typing : Typing} {text handled pending : List UInt8}
    (up : TypedUpTo start typing text handled pending) (few : (storedKeys pending).length < 127) :
    ¬ RingFull typing.keyboard := by
  rw [ringFull_iff up.waiting]
  omega

/-- A byte joins those since the last poll. -/
theorem TypedUpTo.byte {start typing : Typing} {text handled pending : List UInt8}
    (up : TypedUpTo start typing text handled pending) (roomy : ¬ RingFull typing.keyboard)
    (sc : UInt8) :
    ∃ next, typingStep typing (.byte sc) = .ok next ∧
      TypedUpTo start next text handled (pending ++ [sc]) := by
  -- The ring holds one less than its size, and it is not full here, so the next byte fits.
  have bound : (storedKeys pending).length < 128 := up.waiting.room
  have few : (storedKeys pending).length ≠ 127 := fun many =>
    roomy ((ringFull_iff up.waiting).mpr many)
  have held := keyboardOnIrq_holds up.waiting (by rw [kbdBufSize]; omega) sc
  have turned := up.modifiers.irq sc
  refine ⟨_, rfl, ?_, ?_, up.consumed, up.input⟩
  · -- The stored keys of the longer list are the stored keys plus those of the new byte.
    rwa [storedKeys, List.filter_append]
  · rwa [← List.append_assoc, List.foldl_append]

/-- A poll handles the keys since the last one under the modifiers of its own moment. -/
theorem TypedUpTo.poll {start typing : Typing} {text handled pending : List UInt8}
    (up : TypedUpTo start typing text handled pending) :
    ∃ next, typingStep typing .poll = .ok next ∧
      TypedUpTo start next (text ++ (storedKeys pending).map
        (keyboardScancodeToAscii ((handled ++ pending).foldl keyboardOnIrq start.keyboard)))
        (handled ++ pending) [] := by
  obtain ⟨quiet, ran, read, empty, kept⟩ :=
    inputPoll_consumes up.waiting typing.input up.waiting.room
  have letters := keyboardScancodeToAscii_congr up.modifiers
  rw [up.input, ← List.foldl_append, letters] at ran
  rw [letters] at read
  -- The waiting keys are handled under the modifiers of now, which are those after all bytes.
  refine ⟨_, bind_eq_ok.mpr ⟨_, by rw [up.input]; exact ran, rfl⟩, empty, ?_, ?_, rfl⟩
  · rw [List.append_nil]
    exact ⟨kept.1.trans up.modifiers.1, kept.2.trans up.modifiers.2⟩
  · change typing.consumed ++ polledCharacters kbdBufSize typing.keyboard = _
    rw [read, up.consumed, List.append_assoc]

/-- Text of two groups of bytes. -/
theorem textAsPressed_append (keyboard : Keyboard) (bytes later : List UInt8) :
    textAsPressed keyboard (bytes ++ later) =
      textAsPressed keyboard bytes ++ textAsPressed (bytes.foldl keyboardOnIrq keyboard) later := by
  -- Induction on the bytes, with the modifiers they leave carried along.
  induction bytes generalizing keyboard with
  | nil => rfl
  | cons sc rest ih => simp [textAsPressed, ih]

/-- Keys whose characters are the same at a later moment spell the same text there. -/
theorem textAsPressed_late {keyboard late : Keyboard} {bytes : List UInt8}
    (steady : ∀ before sc after, bytes = before ++ sc :: after → StoredKey sc →
      keyboardScancodeToAscii late sc =
        keyboardScancodeToAscii (before.foldl keyboardOnIrq keyboard) sc) :
    textAsPressed keyboard bytes = (storedKeys bytes).map (keyboardScancodeToAscii late) := by
  induction bytes generalizing keyboard with
  | nil => rfl
  | cons sc rest ih =>
    have later := ih fun before key after same stored =>
      steady (sc :: before) key after (by rw [same]; rfl) stored
    -- The first key has its later character too, and the others are the rest of the bytes.
    by_cases stored : StoredKey sc
    · have now := steady [] sc rest rfl stored
      simp only [List.foldl_nil] at now
      simp [textAsPressed, storedKeys, stored, later, now]
    · simp [textAsPressed, storedKeys, stored, later]

/-- Steps from one state to another, with a ring that is never full. -/
def RunsTo (typing : Typing) (steps : List TypingStep) (last : Typing) : Prop :=
  typingRun typing steps = .ok last ∧ NeverFull typing steps

/-- One step and then others. -/
theorem RunsTo.cons {typing next last : Typing} {step : TypingStep} {steps : List TypingStep}
    (roomy : ¬ RingFull typing.keyboard) (stepped : typingStep typing step = .ok next)
    (runs : RunsTo next steps last) : RunsTo typing (step :: steps) last := by
  refine ⟨bind_eq_ok.mpr ⟨next, stepped, runs.1⟩, roomy, fun other same => ?_⟩
  -- The step has one result.
  obtain rfl : next = other := Except.ok.inj (stepped.symm.trans same)
  exact runs.2

/-- Steps in two groups. -/
theorem RunsTo.append {typing middle last : Typing} {steps later : List TypingStep}
    (first : RunsTo typing steps middle) (second : RunsTo middle later last) :
    RunsTo typing (steps ++ later) last := by
  -- Induction on the first part: its last state is where the second part starts.
  induction steps generalizing typing with
  | nil =>
    obtain rfl : typing = middle := Except.ok.inj first.1
    exact second
  | cons step rest ih =>
    obtain ⟨next, stepped, ran⟩ := bind_eq_ok.mp first.1
    exact RunsTo.cons first.2.1 stepped (ih ⟨ran, first.2.2 next stepped⟩)

/-- The bytes of steps that start with a poll. -/
theorem bytes_poll (steps : List TypingStep) :
    (TypingStep.poll :: steps).filterMap TypingStep.byte? = steps.filterMap TypingStep.byte? :=
  List.filterMap_cons_none rfl

/-- The bytes of steps that start with a byte. -/
theorem bytes_byte (sc : UInt8) (steps : List TypingStep) :
    (TypingStep.byte sc :: steps).filterMap TypingStep.byte? =
      sc :: steps.filterMap TypingStep.byte? :=
  List.filterMap_cons_some rfl

/-- A poll that finds the pending keys steady handles them as they were pressed. -/
theorem TypedUpTo.poll_steady {start typing : Typing} {handled pending later : List UInt8}
    (steady : SteadyKeys start.keyboard (handled ++ pending ++ later))
    (up : TypedUpTo start typing (textAsPressed start.keyboard handled) handled pending)
    (roomy : ¬ RingFull typing.keyboard) :
    ∃ next, typingStep typing .poll = .ok next ∧
      TypedUpTo start next (textAsPressed start.keyboard (handled ++ pending))
        (handled ++ pending) [] := by
  obtain ⟨next, stepped, emptied⟩ := up.poll
  refine ⟨next, stepped, ?_⟩
  -- The ring is not full, so every pending key is followed by few enough others.
  have bound : (storedKeys pending).length < 128 := up.waiting.room
  have some : (storedKeys pending).length ≠ 127 := fun many =>
    roomy ((ringFull_iff up.waiting).mpr many)
  have spelled : textAsPressed (handled.foldl keyboardOnIrq start.keyboard) pending =
      (storedKeys pending).map
        (keyboardScancodeToAscii ((handled ++ pending).foldl keyboardOnIrq start.keyboard)) := by
    refine textAsPressed_late fun before sc after same stored => ?_
    have counted : (storedKeys pending).length =
        (storedKeys before).length + ((storedKeys after).length + 1) := by
      rw [same, storedKeys, List.filter_append, List.filter_cons_of_pos (by simpa using stored),
        List.length_append, List.length_cons]
      rfl
    have fixed := steady (handled ++ before) sc after later
      (by rw [same]; simp only [List.append_assoc]) stored (by omega)
    rw [same, ← List.append_assoc, fixed, List.foldl_append]
  rw [textAsPressed_append, spelled]
  exact emptied

/-- A run whose keys are steady has handled the bytes up to its last poll as they were pressed. -/
theorem typingRun_steady {start typing : Typing} {steps : List TypingStep}
    {handled pending later : List UInt8}
    (steady : SteadyKeys start.keyboard
      (handled ++ pending ++ (steps.filterMap TypingStep.byte? ++ later)))
    (up : TypedUpTo start typing (textAsPressed start.keyboard handled) handled pending)
    (roomy : NeverFull typing steps) :
    ∃ last done rest, RunsTo typing steps last ∧ ¬ RingFull last.keyboard ∧
      done ++ rest = handled ++ pending ++ steps.filterMap TypingStep.byte? ∧
      TypedUpTo start last (textAsPressed start.keyboard done) done rest := by
  -- A byte joins the pending ones; a poll finds each pending key with the character it had.
  induction steps generalizing typing handled pending with
  | nil => exact ⟨typing, handled, pending, ⟨rfl, roomy⟩, roomy, by simp, up⟩
  | cons step rest ih =>
    obtain ⟨free, onward⟩ := roomy
    cases step with
    | byte sc =>
      obtain ⟨next, stepped, joined⟩ := up.byte free sc
      rw [bytes_byte] at steady ⊢
      have regroup : ∀ tail, handled ++ pending ++ (sc :: tail) = handled ++ (pending ++ [sc]) ++ tail := by
        simp
      rw [List.cons_append, regroup] at steady
      obtain ⟨last, done, left, runs, empty, whole, after⟩ := ih steady joined (onward next stepped)
      exact ⟨last, done, left, RunsTo.cons free stepped runs, empty, by rw [whole, regroup], after⟩
    | poll =>
      rw [bytes_poll] at steady ⊢
      obtain ⟨next, stepped, emptied⟩ := up.poll_steady steady free
      have regroup : ∀ tail, handled ++ pending ++ tail = handled ++ pending ++ [] ++ tail := by
        simp
      rw [regroup] at steady
      obtain ⟨last, done, left, runs, empty, whole, after⟩ := ih steady emptied (onward next stepped)
      exact ⟨last, done, left, RunsTo.cons free stepped runs, empty, by rw [whole, ← regroup], after⟩

/-- Where every run starts. -/
theorem typedUpTo_start (kbdBuffer : Nat → UInt8) (inputBuf : Memory) :
    TypedUpTo (typingStart kbdBuffer inputBuf) (typingStart kbdBuffer inputBuf) [] [] [] :=
  ⟨keyboardInit_holds kbdBuffer, ⟨rfl, rfl⟩, rfl, rfl⟩

/-- A ring that is never full along steps in two groups is never full along the first. -/
theorem NeverFull.front {typing : Typing} {steps later : List TypingStep}
    (roomy : NeverFull typing (steps ++ later)) : NeverFull typing steps := by
  -- Induction on the first part: the start state is asked in both, with or without steps behind.
  induction steps generalizing typing with
  | nil =>
    cases later with
    | nil => exact roomy
    | cons step rest => exact roomy.1
  | cons step rest ih => exact ⟨roomy.1, fun next stepped => ih (roomy.2 next stepped)⟩

/-- An interleaving of steady keys spells the text as it was pressed. -/
theorem Interleaving.steady {kbdBuffer : Nat → UInt8} {inputBuf : Memory} {bytes : List UInt8}
    {steps : List TypingStep} (steady : SteadyKeys (keyboardInit kbdBuffer) bytes)
    (interleaving : Interleaving (typingStart kbdBuffer inputBuf) bytes steps) :
    ∃ last, typingRun (typingStart kbdBuffer inputBuf) steps = .ok last ∧
      last.consumed = textAsPressed (keyboardInit kbdBuffer) bytes ∧
      last.input = (textAsPressed (keyboardInit kbdBuffer) bytes).foldl inputKey (inputInit inputBuf) := by
  -- Everything before the last poll leaves some keys pending, which that poll handles.
  obtain ⟨front, rfl⟩ := List.getLast?_eq_some_iff.mp interleaving.polled
  have order := interleaving.order
  rw [List.filterMap_append, bytes_poll, List.filterMap_nil, List.append_nil] at order
  have whole : SteadyKeys (typingStart kbdBuffer inputBuf).keyboard
      ([] ++ [] ++ (front.filterMap TypingStep.byte? ++ [])) := by
    simpa [order, typingStart] using steady
  obtain ⟨middle, done, left, runs, free, split, up⟩ :=
    typingRun_steady whole (typedUpTo_start kbdBuffer inputBuf) interleaving.roomy.front
  have all : done ++ left = bytes := by simpa [order] using split
  obtain ⟨last, stepped, emptied⟩ := up.poll_steady (by rw [all, List.append_nil]; exact steady) free
  have quiet : RunsTo last [] last := ⟨rfl, emptied.roomy (by decide)⟩
  have joined := RunsTo.append runs (RunsTo.cons free stepped quiet)
  rw [all] at emptied
  exact ⟨last, joined.1, emptied.consumed, emptied.input⟩

/-- Bytes without a poll between them. -/
theorem TypedUpTo.burst {start typing : Typing} {text handled pending : List UInt8}
    (up : TypedUpTo start typing text handled pending) (bytes : List UInt8)
    (few : (storedKeys (pending ++ bytes)).length < 127) :
    ∃ next, RunsTo typing (bytes.map .byte) next ∧
      TypedUpTo start next text handled (pending ++ bytes) := by
  induction bytes generalizing typing pending with
  | nil =>
    rw [List.append_nil] at few ⊢
    exact ⟨typing, ⟨rfl, up.roomy few⟩, up⟩
  | cons sc rest ih =>
    -- The ring has room before each byte, since it has room after the last.
    have fewer : (storedKeys pending).length < 127 := by
      rw [storedKeys, List.filter_append, List.length_append] at few
      exact Nat.lt_of_le_of_lt (Nat.le_add_right _ _) few
    obtain ⟨next, stepped, joined⟩ := up.byte (up.roomy fewer) sc
    rw [List.append_cons] at few ⊢
    obtain ⟨last, runs, after⟩ := ih joined few
    exact ⟨last, RunsTo.cons (up.roomy fewer) stepped runs, after⟩

/-- A group of bytes with a poll behind it. -/
theorem TypedUpTo.group {start typing : Typing} {text handled : List UInt8}
    (up : TypedUpTo start typing text handled []) (bytes : List UInt8)
    (few : (storedKeys bytes).length < 127) :
    ∃ next, RunsTo typing (bytes.map .byte ++ [.poll]) next ∧
      TypedUpTo start next (text ++ (storedKeys bytes).map
        (keyboardScancodeToAscii ((handled ++ bytes).foldl keyboardOnIrq start.keyboard)))
        (handled ++ bytes) [] := by
  -- The bytes of the group are handled with nothing waiting, so they fit into the ring.
  obtain ⟨middle, runs, waiting⟩ := up.burst bytes (by simpa using few)
  rw [List.nil_append] at waiting
  -- One poll takes them all.
  obtain ⟨next, stepped, emptied⟩ := waiting.poll
  have last : RunsTo next [] next := ⟨rfl, emptied.roomy (by decide)⟩
  exact ⟨next, runs.append (RunsTo.cons (waiting.roomy few) stepped last), emptied⟩

/-- The steps that poll after every byte. -/
def eagerSteps (bytes : List UInt8) : List TypingStep := bytes.flatMap fun sc => [.byte sc, .poll]

/-- Polling after every byte handles each key as it is pressed. -/
theorem TypedUpTo.eager {start typing : Typing} {text handled : List UInt8}
    (up : TypedUpTo start typing text handled []) (bytes : List UInt8) :
    ∃ next, RunsTo typing (eagerSteps bytes) next ∧
      TypedUpTo start next
        (text ++ textAsPressed (handled.foldl keyboardOnIrq start.keyboard) bytes)
        (handled ++ bytes) [] := by
  induction bytes generalizing typing text handled with
  | nil =>
    refine ⟨typing, ⟨rfl, up.roomy (by decide)⟩, ?_⟩
    simpa [textAsPressed] using up
  | cons sc rest ih =>
    -- A single byte stores at most one key.
    have one : (storedKeys [sc]).length < 127 := by
      have := List.length_filter_le (fun key => decide (StoredKey key)) [sc]
      rw [List.length_singleton] at this
      exact Nat.lt_of_le_of_lt this (by decide)
    obtain ⟨middle, runs, polled⟩ := up.group [sc] one
    obtain ⟨next, later, after⟩ := ih polled
    refine ⟨next, runs.append later, ?_⟩
    -- The interrupt of a stored key leaves the modifiers, so the key has the character it had before.
    have alone : textAsPressed (handled.foldl keyboardOnIrq start.keyboard) [sc] =
        (storedKeys [sc]).map
          (keyboardScancodeToAscii ((handled ++ [sc]).foldl keyboardOnIrq start.keyboard)) := by
      refine textAsPressed_late fun before key behind same stored => ?_
      obtain ⟨rfl, rfl⟩ : before = [] ∧ sc = key := by
        cases before with
        | nil => exact ⟨rfl, (List.cons.inj same).1⟩
        | cons first others => simp at same
      rw [List.foldl_append, List.foldl_cons, List.foldl_nil, stored.modifiers]
      exact congrFun (keyboardScancodeToAscii_congr (kbdPush_modifiers _ _)) sc
    rw [← alone, List.append_assoc, List.foldl_append, ← textAsPressed_append,
      List.append_assoc] at after
    exact after

/-- The last of these steps is a poll. -/
theorem eagerSteps_polled (bytes : List UInt8) :
    (TypingStep.poll :: eagerSteps bytes).getLast? = some .poll := by
  -- Induction on the bytes: every byte has a poll behind it.
  induction bytes with
  | nil => rfl
  | cons sc rest ih =>
    change (TypingStep.poll :: .byte sc :: .poll :: eagerSteps rest).getLast? = some .poll
    rwa [List.getLast?_cons_cons, List.getLast?_cons_cons]

/-- The bytes of steps that poll after each of them. -/
theorem eagerSteps_bytes (bytes : List UInt8) :
    (eagerSteps bytes).filterMap TypingStep.byte? = bytes := by
  -- Induction on the bytes: the polls between them carry no byte.
  induction bytes with
  | nil => rfl
  | cons sc rest ih =>
    change (TypingStep.byte sc :: .poll :: eagerSteps rest).filterMap TypingStep.byte? = sc :: rest
    rw [bytes_byte, bytes_poll, ih]

/-- The bytes of steps without polls. -/
theorem burst_bytes (bytes : List UInt8) :
    (bytes.map TypingStep.byte).filterMap TypingStep.byte? = bytes := by
  -- Induction on the bytes.
  induction bytes with
  | nil => rfl
  | cons sc rest ih => rw [List.map_cons, bytes_byte, ih]

/-- A group of bytes can be polled at once at its end and all others one by one: an interleaving in
which the keys of the group have the characters of that moment. -/
theorem exists_interleaving (kbdBuffer : Nat → UInt8) (inputBuf : Memory)
    (before group later : List UInt8) (few : (storedKeys group).length < 127) :
    ∃ steps last, Interleaving (typingStart kbdBuffer inputBuf) (before ++ group ++ later) steps ∧
      typingRun (typingStart kbdBuffer inputBuf) steps = .ok last ∧
      last.consumed = textAsPressed (keyboardInit kbdBuffer) before ++
        (storedKeys group).map (keyboardScancodeToAscii
          ((before ++ group).foldl keyboardOnIrq (keyboardInit kbdBuffer))) ++
        textAsPressed ((before ++ group).foldl keyboardOnIrq (keyboardInit kbdBuffer)) later := by
  -- One by one up to the group, the group at once, and one by one behind it.
  obtain ⟨first, early, one⟩ := (typedUpTo_start kbdBuffer inputBuf).eager before
  obtain ⟨second, grouped, two⟩ := one.group group few
  obtain ⟨last, late, three⟩ := two.eager later
  have runs := (early.append grouped).append late
  refine ⟨_, last, ⟨?_, runs.2, ?_⟩, runs.1, three.consumed⟩
  · simp only [List.filterMap_append, eagerSteps_bytes, burst_bytes, bytes_poll, List.filterMap_nil,
      List.append_nil]
  · rw [← List.append_assoc, List.append_assoc, List.singleton_append, List.getLast?_append,
      eagerSteps_polled]
    rfl

/-- The text typed by bytes of the keyboard is the same for every two interleavings, each key under
the modifiers in force when it was pressed. -/
def TimingFree (kbdBuffer : Nat → UInt8) (inputBuf : Memory) (bytes : List UInt8) : Prop :=
  ∀ one two, Interleaving (typingStart kbdBuffer inputBuf) bytes one →
    Interleaving (typingStart kbdBuffer inputBuf) bytes two →
    ∃ first second, typingRun (typingStart kbdBuffer inputBuf) one = .ok first ∧
      typingRun (typingStart kbdBuffer inputBuf) two = .ok second ∧
      first.consumed = second.consumed ∧ first.input = second.input ∧
      first.consumed = textAsPressed (keyboardInit kbdBuffer) bytes

/-- Where the text is free of timing, no key gets another character while it may wait. -/
theorem TimingFree.steadyKeys {kbdBuffer : Nat → UInt8} {inputBuf : Memory} {bytes : List UInt8}
    (free : TimingFree kbdBuffer inputBuf bytes) : SteadyKeys (keyboardInit kbdBuffer) bytes := by
  -- A key with the bytes that follow it can be polled at once, which shows its later character.
  intro before sc between later split stored few
  have keys : storedKeys (sc :: between) = sc :: storedKeys between :=
    List.filter_cons_of_pos (by simpa using stored)
  obtain ⟨steps, last, interleaving, ran, consumed⟩ :=
    exists_interleaving kbdBuffer inputBuf before (sc :: between) later (by simpa [keys] using few)
  rw [← split] at interleaving
  obtain ⟨first, -, again, -, -, -, pressed⟩ := free steps steps interleaving interleaving
  obtain rfl : last = first := Except.ok.inj (ran.symm.trans again)
  -- Both spell the same text, so the key has the same character in both.
  rw [consumed, split, textAsPressed_append, textAsPressed_append, keys] at pressed
  have group := List.append_cancel_left (List.append_cancel_right pressed)
  rw [textAsPressed, List.filter_cons_of_pos (by simpa using stored)] at group
  exact (List.cons.inj group).1

/-- Every sequence of bytes has an interleaving, and its text is free of the timing of polls exactly
when no key gets another character through the modifiers that follow it while it may wait. -/
theorem timing_free_iff (kbdBuffer : Nat → UInt8) (inputBuf : Memory) (bytes : List UInt8) :
    (∃ steps, Interleaving (typingStart kbdBuffer inputBuf) bytes steps) ∧
      (TimingFree kbdBuffer inputBuf bytes ↔ SteadyKeys (keyboardInit kbdBuffer) bytes) := by
  constructor
  · obtain ⟨steps, -, interleaving, -⟩ :=
      exists_interleaving kbdBuffer inputBuf [] [] bytes (by decide)
    exact ⟨steps, interleaving⟩
  · refine ⟨TimingFree.steadyKeys, fun steady one two left right => ?_⟩
    -- Both interleavings spell the text as it was pressed.
    obtain ⟨first, ranFirst, textFirst, lineFirst⟩ := left.steady steady
    obtain ⟨second, ranSecond, textSecond, lineSecond⟩ := right.steady steady
    exact ⟨first, second, ranFirst, ranSecond, textFirst.trans textSecond.symm,
      lineFirst.trans lineSecond.symm, textFirst⟩

/-- A letter typed with shift gets another character when shift is released before the poll. -/
theorem shift_released_before_poll :
    ¬ TimingFree (fun _ => 0) (fun _ => 0) [0x2A, 0x1E, 0xAA] := by
  intro free
  -- Shift is released before the poll, so the letter is read without it.
  have steady := free.steadyKeys [0x2A] 0x1E [0xAA] [] rfl (by decide) (by decide)
  revert steady
  decide

end MiraOS
