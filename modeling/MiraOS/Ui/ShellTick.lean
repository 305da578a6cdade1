import MiraOS.Ui.Input

/-! The tick of ui/shell.c that polls the keyboard and hands ended lines to the interpreter. -/

namespace MiraOS

open Machine

/-- What the tick asks of the rest of the shell, with the text it passes. -/
inductive ShellCall where
  | executeCommand (cmd : List UInt8)
  | addHistory (cmd : List UInt8)
  deriving DecidableEq

/-- The static variables that the tick reads and writes. -/
structure Shell where
  keyboard : Keyboard
  input : Input
  cmdBuf : Memory
  cmdFieldLen : Nat
  dirty : Bool

/-- Prepare the line editor and the command field. -/
def shellInit (shell : Shell) : Shell :=
  { shell with
    dirty := true
    input := inputInit shell.input.inputBuf
    cmdBuf := Function.update shell.cmdBuf 0 0
    cmdFieldLen := 0 }

/-- The copy of the line that the tick takes before polling, over what the stack held. -/
def shellSnapshot (input : Input) (stack : Memory) : Memory :=
  let snapLen := if input.inputLen < inputMax then input.inputLen else inputMax - 1
  Function.update (copyFront snapLen input.inputBuf stack) snapLen 0

/-- One tick: the state after it and the calls it makes, in order. -/
def shellTick (fuel : Nat) (stack : Memory) (shell : Shell) : Except Halt (Shell × List ShellCall) := do
  let prev := shell.input.inputLen
  let snapshot := shellSnapshot shell.input stack
  let (keyboard, input) ← inputPoll fuel shell.keyboard shell.input
  let len := if inputMax ≤ input.inputLen then inputMax - 1 else input.inputLen
  let cmdBuf := Function.update (copyFront len input.inputBuf shell.cmdBuf) len 0
  -- An ended line is recognised by the editor having become empty during the poll.
  if 0 < prev ∧ len = 0 then
    -- The commands themselves leave the keyboard and the line alone.
    let calls :=
      if snapshot 0 ≠ 0 then
        [.executeCommand (readText snapshot 0 inputMax), .addHistory (readText snapshot 0 inputMax)]
      else []
    return (⟨keyboard, input, Function.update cmdBuf 0 0, 0, true⟩, calls)
  else return (⟨keyboard, input, cmdBuf, len, true⟩, [])

/-- Ticks one after another, each after the interrupts of its batch of scancodes. -/
def shellRun (fuel : Nat) (stack : Memory) : Shell → List (List UInt8) →
    Except Halt (Shell × List ShellCall)
  | shell, [] => .ok (shell, [])
  | shell, batch :: rest => do
    let pressed := { shell with keyboard := batch.foldl keyboardOnIrq shell.keyboard }
    let (shell, calls) ← shellTick fuel stack pressed
    let (shell, later) ← shellRun fuel stack shell rest
    return (shell, calls ++ later)

/-- The texts handed to the interpreter. -/
def executedCommands (calls : List ShellCall) : List (List UInt8) :=
  calls.filterMap fun
    | .executeCommand cmd => some cmd
    | .addHistory _ => none

/-- A tick sees what its characters do: either they end no line and leave a held line non-empty, or
they end the line held before the tick, unchanged, and nothing else. -/
def EnterVisible (line characters : List UInt8) : Prop :=
  let after := Typed.keys ⟨line, []⟩ characters
  (after.done = [] ∧ (line = [] ∨ after.line ≠ [])) ∨ (line ≠ [] ∧ after = ⟨[], [line]⟩)

instance (line characters : List UInt8) : Decidable (EnterVisible line characters) :=
  inferInstanceAs (Decidable (_ ∨ _))

/-- Every tick of a run sees what its characters do. -/
def EntersVisible : List UInt8 → List (List UInt8) → Prop
  | _, [] => True
  | line, characters :: rest =>
    EnterVisible line characters ∧ EntersVisible (Typed.keys ⟨line, []⟩ characters).line rest

/-- After every number of ticks, the texts handed over are the non-empty lines ended so far. -/
def ExecutesLines (fuel : Nat) (stack : Memory) (shell : Shell) (line : List UInt8)
    (batches : List (List UInt8)) : Prop :=
  ∀ count, ∃ next calls, shellRun fuel stack shell (batches.take count) = .ok (next, calls) ∧
    executedCommands calls = (Typed.keys ⟨line, []⟩
      ((batches.take count).flatten.map (keyboardScancodeToAscii shell.keyboard))).done

/-- The snapshot of a held line. -/
theorem shellSnapshot_holds {input : Input} {line : List UInt8} (holds : input.Holds line)
    (stack : Memory) : TextAt (shellSnapshot input stack) 0 line := by
  -- The copy and the terminator behind it are the bytes of the line.
  have fits := holds.fits
  rw [shellSnapshot, if_pos (by rw [holds.length]; exact fits), holds.length]
  apply holds.text.congr
  intro i within
  rw [Nat.zero_add]
  by_cases last : i = line.length
  · have ended := holds.text.ended
    rw [Nat.zero_add] at ended
    rw [last, Function.update_self, ended]
  · rw [Function.update_of_ne last, copyFront_apply, if_pos (by omega)]

/-- What one tick does when a batch of characters is waiting. -/
theorem shellTick_spec {fuel : Nat} {shell : Shell} {line waiting : List UInt8} (stack : Memory)
    (ring : shell.keyboard.Holds waiting) (holds : shell.input.Holds line)
    (short : Typed.Short ⟨line, []⟩ (waiting.map (keyboardScancodeToAscii shell.keyboard)))
    (enough : waiting.length < fuel) :
    let after := Typed.keys ⟨line, []⟩ (waiting.map (keyboardScancodeToAscii shell.keyboard))
    ∃ next calls, shellTick fuel stack shell = .ok (next, calls) ∧ next.keyboard.Holds [] ∧
      SameModifiers next.keyboard shell.keyboard ∧ next.input.Holds after.line ∧
      executedCommands calls = if line ≠ [] ∧ after.line = [] then [line] else [] := by
  intro after
  obtain ⟨quiet, input, polled, empty, same, held⟩ :=
    @inputPoll_holds fuel _ _ ⟨line, []⟩ _ ring holds short enough
  have snapshot := shellSnapshot_holds holds stack
  -- The lengths before and after the poll are those of the two lines.
  have before : 0 < shell.input.inputLen ↔ line ≠ [] := by
    rw [holds.length, List.length_pos_iff]
  have now : (if inputMax ≤ input.inputLen then inputMax - 1 else input.inputLen) = 0 ↔
      after.line = [] := by
    have fits := held.fits
    rw [← held.length] at fits
    rw [if_neg (by omega), held.length, List.length_eq_zero_iff]
  have test : (0 < shell.input.inputLen ∧
      (if inputMax ≤ input.inputLen then inputMax - 1 else input.inputLen) = 0) ↔
      (line ≠ [] ∧ after.line = []) := and_congr before now
  rw [shellTick, polled]
  dsimp only [bind, Except.bind, pure, Except.pure]
  -- The code asks for a line before and none after, in terms of lengths.
  by_cases ended : line ≠ [] ∧ after.line = []
  -- A line that is not empty starts with a byte that is not zero.
  · have solid : shellSnapshot shell.input stack 0 ≠ 0 := by
      obtain ⟨first, rest, rfl⟩ := List.exists_cons_of_ne_nil ended.1
      obtain ⟨stored, whole⟩ := snapshot.head
      rw [stored]
      exact whole
    rw [if_pos (test.mpr ended), if_pos solid, if_pos ended, snapshot.read holds.fits]
    exact ⟨_, _, rfl, empty, same, held, rfl⟩
  · rw [if_neg (fun both => ended (test.mp both)), if_neg ended]
    exact ⟨_, _, rfl, empty, same, held, rfl⟩

/-- A tick hands over the lines its characters end exactly when it sees what they do. -/
theorem enterVisible_iff (line characters : List UInt8) :
    (if line ≠ [] ∧ (Typed.keys ⟨line, []⟩ characters).line = [] then [line] else []) =
        (Typed.keys ⟨line, []⟩ characters).done ↔
      EnterVisible line characters := by
  -- The four cases are a line held or not before the tick, and held or not after it.
  unfold EnterVisible
  generalize Typed.keys ⟨line, []⟩ characters = after
  obtain ⟨rest, done⟩ := after
  by_cases held : line = []
  · simp [held, eq_comm]
  · by_cases cleared : rest = []
    · simp [held, cleared, eq_comm]
    · simp [held, cleared, eq_comm]

/-- A run whose first tick is known. -/
theorem shellRun_cons {fuel : Nat} {stack : Memory} {shell next : Shell} {batch : List UInt8}
    {calls : List ShellCall}
    (tick : shellTick fuel stack
      { shell with keyboard := batch.foldl keyboardOnIrq shell.keyboard } = .ok (next, calls))
    (rest : List (List UInt8)) (last : Shell) (all : List ShellCall) :
    shellRun fuel stack shell (batch :: rest) = .ok (last, all) ↔
      ∃ later, shellRun fuel stack next rest = .ok (last, later) ∧ all = calls ++ later := by
  -- The calls of the first tick come first, and the others run from the state it leaves.
  rw [shellRun, tick]
  dsimp only [bind, Except.bind, pure, Except.pure]
  cases shellRun fuel stack next rest with
  | error halt => simp
  | ok value =>
    obtain ⟨reached, later⟩ := value
    constructor
    · intro same
      cases same
      exact ⟨later, rfl, rfl⟩
    · rintro ⟨_, same, rfl⟩
      cases same
      rfl

/-- The texts handed over by two groups of calls. -/
theorem executedCommands_append (calls later : List ShellCall) :
    executedCommands (calls ++ later) = executedCommands calls ++ executedCommands later :=
  List.filterMap_append ..

/-- A run hands over the right lines exactly when its first tick does and the rest of it does. -/
theorem executesLines_cons {fuel : Nat} {stack : Memory} {shell next : Shell}
    {line batch : List UInt8} {rest : List (List UInt8)} {calls : List ShellCall}
    (tick : shellTick fuel stack
      { shell with keyboard := batch.foldl keyboardOnIrq shell.keyboard } = .ok (next, calls))
    (same : SameModifiers next.keyboard shell.keyboard) :
    let after := Typed.keys ⟨line, []⟩ (batch.map (keyboardScancodeToAscii shell.keyboard))
    ExecutesLines fuel stack shell line (batch :: rest) ↔
      executedCommands calls = after.done ∧ ExecutesLines fuel stack next after.line rest := by
  intro after
  have letters := keyboardScancodeToAscii_congr same
  -- The lines ended by a longer run: those of the first tick, then those of the others.
  have split : ∀ count, (Typed.keys ⟨line, []⟩ (((batch :: rest).take (count + 1)).flatten.map
      (keyboardScancodeToAscii shell.keyboard))).done =
      after.done ++ (Typed.keys ⟨after.line, []⟩
        ((rest.take count).flatten.map (keyboardScancodeToAscii next.keyboard))).done := by
    intro count
    rw [List.take_succ_cons, List.flatten_cons, List.map_append, Typed.keys_append, Typed.keys_eq,
      letters]
  constructor
  -- One tick is the shortest run, and longer ones are one tick longer than runs of the rest.
  · intro runs
    have first : executedCommands calls = after.done := by
      obtain ⟨last, all, ran, handed⟩ := runs 1
      obtain ⟨later, nothing, rfl⟩ := (shellRun_cons tick _ _ _).mp ran
      rw [List.take_zero, shellRun] at nothing
      cases nothing
      rw [split 0, executedCommands_append] at handed
      simpa [executedCommands, Typed.keys] using handed
    refine ⟨first, fun count => ?_⟩
    obtain ⟨last, all, ran, handed⟩ := runs (count + 1)
    obtain ⟨later, ranLater, rfl⟩ := (shellRun_cons tick _ _ _).mp ran
    rw [split, executedCommands_append, first] at handed
    exact ⟨last, later, ranLater, List.append_cancel_left handed⟩
  · rintro ⟨first, runs⟩ count
    cases count with
    | zero => exact ⟨shell, [], rfl, rfl⟩
    | succ count =>
      obtain ⟨last, later, ran, handed⟩ := runs count
      refine ⟨last, calls ++ later, (shellRun_cons tick _ _ _).mpr ⟨later, ran, rfl⟩, ?_⟩
      rw [split, executedCommands_append, first, handed]

/-- From an idle shell that holds a line, the ticks hand over the lines that are ended exactly when
each of them sees what its characters do. -/
theorem executesLines_iff {fuel : Nat} {stack : Memory} {shell : Shell} {line : List UInt8}
    {batches : List (List UInt8)} (ring : shell.keyboard.Holds []) (holds : shell.input.Holds line)
    (types : ∀ batch ∈ batches, ∀ sc ∈ batch, TypingKey shell.keyboard sc)
    (room : ∀ batch ∈ batches, batch.length < kbdBufSize)
    (short : Typed.Short ⟨line, []⟩
      (batches.flatten.map (keyboardScancodeToAscii shell.keyboard)))
    (enough : kbdBufSize ≤ fuel) :
    ExecutesLines fuel stack shell line batches ↔
      EntersVisible line (batches.map (List.map (keyboardScancodeToAscii shell.keyboard))) := by
  induction batches generalizing shell line with
  | nil =>
    refine ⟨fun _ => trivial, fun _ count => ⟨shell, [], ?_, ?_⟩⟩
    · rw [List.take_nil, shellRun]
    · rw [List.take_nil]
      rfl
  | cons batch rest ih =>
    have fitting := room batch List.mem_cons_self
    -- The interrupts of the batch fill the ring, and the tick empties it again.
    obtain ⟨pressed, same⟩ := keyboardOnIrq_batch ring batch (types batch List.mem_cons_self)
      (by simpa using fitting)
    rw [List.nil_append] at pressed
    have letters := keyboardScancodeToAscii_congr same
    rw [List.flatten_cons, List.map_append] at short
    obtain ⟨shortBatch, shortRest⟩ := short.split
    obtain ⟨next, calls, tick, empty, kept, held, handed⟩ :=
      @shellTick_spec fuel { shell with keyboard := batch.foldl keyboardOnIrq shell.keyboard } line
        batch stack pressed holds (by rw [letters]; exact shortBatch) (by omega)
    rw [letters] at held handed
    have sameNext : SameModifiers next.keyboard shell.keyboard :=
      ⟨kept.1.trans same.1, kept.2.trans same.2⟩
    have lettersNext := keyboardScancodeToAscii_congr sameNext
    -- Typing changes no modifier, so the keys of the later batches are read in the same way.
    have typesRest : ∀ batch ∈ rest, ∀ sc ∈ batch, TypingKey next.keyboard sc := by
      intro later among sc inside
      rw [TypingKey, lettersNext]
      exact types later (List.mem_cons_of_mem batch among) sc inside
    have tail := ih empty held typesRest
      (fun later among => room later (List.mem_cons_of_mem batch among))
      (by rw [lettersNext]; exact shortRest)
    rw [lettersNext] at tail
    -- The line of this batch is visible exactly if the tick hands it over.
    rw [List.map_cons, EntersVisible, ← tail, ← enterVisible_iff, ← handed]
    exact executesLines_cons tick sameNext

/-- From the initial state and under constant modifiers, whatever keys are typed and however they are
spread over the ticks, the texts handed to the interpreter are the non-empty lines ended so far,
after every tick, exactly when each tick sees what its characters do. -/
theorem typed_lines_executed_iff {fuel : Nat} {stack : Memory} {shell : Shell}
    {batches : List (List UInt8)} (idle : shell.keyboard.Holds [])
    (types : ∀ batch ∈ batches, ∀ sc ∈ batch, TypingKey shell.keyboard sc)
    (room : ∀ batch ∈ batches, batch.length < kbdBufSize)
    (short : Typed.Short ⟨[], []⟩ (batches.flatten.map (keyboardScancodeToAscii shell.keyboard)))
    (enough : kbdBufSize ≤ fuel) :
    ExecutesLines fuel stack (shellInit shell) [] batches ↔
      EntersVisible [] (batches.map (List.map (keyboardScancodeToAscii shell.keyboard))) := by
  have holds : (shellInit shell).input.Holds [] := inputInit_holds shell.input.inputBuf
  exact @executesLines_iff fuel stack (shellInit shell) [] batches idle holds types room short enough

/-- A shell over cleared memory, before its initialisation. -/
def blankShell : Shell :=
  ⟨keyboardInit fun _ => 0, ⟨fun _ => 0, 0, false⟩, fun _ => 0, 0, false⟩

/-- A letter and the Enter key keep the line short. -/
theorem letterEnter_short : Typed.Short ⟨[], []⟩ [97, 10] := by
  -- After no byte, after the letter and after the line the input is shorter than the buffer.
  intro count
  rcases count with _ | _ | count
  · decide
  · decide
  · rw [List.take_of_length_le (by simp)]
    decide

/-- A letter and the Enter key type. -/
theorem letterEnter_types : ∀ sc ∈ ([0x1E, 0x1C] : List UInt8), TypingKey blankShell.keyboard sc := by
  intro sc among
  -- Both keys are among those that type.
  rcases List.mem_cons.mp among with rfl | last
  · decide
  · rw [List.mem_singleton.mp last]
    decide

/-- A letter in one tick and the Enter key in the next. -/
theorem separate_enter_executed :
    ExecutesLines kbdBufSize (fun _ => 0) (shellInit blankShell) [] [[0x1E], [0x1C]] :=
  (@typed_lines_executed_iff kbdBufSize (fun _ => 0) blankShell [[0x1E], [0x1C]]
    (keyboardInit_holds _)
    (fun batch among sc inside => letterEnter_types sc (List.mem_flatten.mpr ⟨batch, among, inside⟩))
    (by decide) letterEnter_short (Nat.le_refl _)).mpr
    ⟨by decide, by decide, trivial⟩

/-- A letter and the Enter key in one tick: the line was ended and nothing is executed. -/
theorem enter_in_same_tick_lost :
    (∀ sc ∈ ([0x1E, 0x1C] : List UInt8), TypingKey blankShell.keyboard sc) ∧
      Typed.Short ⟨[], []⟩ ([0x1E, 0x1C].map (keyboardScancodeToAscii blankShell.keyboard)) ∧
      (Typed.keys ⟨[], []⟩ ([0x1E, 0x1C].map (keyboardScancodeToAscii blankShell.keyboard))).done =
        [[97]] ∧
      (∃ next, shellRun kbdBufSize (fun _ => 0) (shellInit blankShell) [[0x1E, 0x1C]] =
        .ok (next, [])) ∧
      ¬ ExecutesLines kbdBufSize (fun _ => 0) (shellInit blankShell) [] [[0x1E, 0x1C]] := by
  -- Both keys arrive within one tick, and that tick calls nobody.
  have silent : ∃ next, shellRun kbdBufSize (fun _ => 0) (shellInit blankShell) [[0x1E, 0x1C]] =
      .ok (next, []) := by
    obtain ⟨⟨next, calls⟩, ran, none⟩ := @exists_ok Halt _
      (shellRun kbdBufSize (fun _ => 0) (shellInit blankShell) [[0x1E, 0x1C]])
      (fun result => decide (result.2 = [])) (by decide +kernel)
    have empty : calls = [] := of_decide_eq_true none
    exact ⟨next, by rw [ran, empty]⟩
  refine ⟨letterEnter_types, letterEnter_short, by decide, silent, fun lines => ?_⟩
  -- After that one tick a line is done and none was executed.
  obtain ⟨next, ran⟩ := silent
  obtain ⟨last, calls, again, handed⟩ := lines 1
  rw [List.take_succ_cons, List.take_zero, ran] at again
  cases again
  revert handed
  decide

end MiraOS
