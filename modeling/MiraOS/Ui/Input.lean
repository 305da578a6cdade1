import MiraOS.Drivers.Keyboard
import MiraOS.Machine.Run
import MiraOS.Machine.Text

/-! The line editor of ui/input.c, and the line a sequence of characters spells. -/

namespace MiraOS

open Machine

/-- Size of the line buffer. -/
def inputMax : Nat := 256

/-- The static variables of the line editor. -/
structure Input where
  inputBuf : Memory
  inputLen : Nat
  inputChanged : Bool

/-- The line editor after its initialisation, with whatever the buffer held. -/
def inputInit (inputBuf : Memory) : Input := ⟨Function.update inputBuf 0 0, 0, false⟩

/-- What one character does to the line, as in the body of the polling loop. -/
def inputKey (input : Input) (c : UInt8) : Input :=
  if c = 8 then
    if 0 < input.inputLen then
      { inputBuf := Function.update input.inputBuf (input.inputLen - 1) 0
        inputLen := input.inputLen - 1
        inputChanged := true }
    else input
  else if c = 10 then
    { inputBuf := Function.update (Function.update input.inputBuf input.inputLen 0) 0 0
      inputLen := 0
      inputChanged := true }
  -- A line that fills the buffer takes no further characters.
  else if Printable c ∧ input.inputLen < inputMax - 1 then
    { inputBuf := Function.update (Function.update input.inputBuf input.inputLen c) (input.inputLen + 1) 0
      inputLen := input.inputLen + 1
      inputChanged := true }
  else input

/-- Handle every scancode waiting in the ring. -/
def inputPoll : Nat → Keyboard → Input → Except Halt (Keyboard × Input)
  -- The ring is emptied by the loop, which takes one turn for each scancode and one more.
  | 0, _, _ => .error .outOfFuel
  | fuel + 1, keyboard, input =>
    match keyboardPoll keyboard with
    | none => .ok (keyboard, input)
    | some (sc, keyboard) =>
      inputPoll fuel keyboard (inputKey input (keyboardScancodeToAscii keyboard sc))

/-- What has been typed: the line so far and the non-empty lines that were ended, oldest first. -/
structure Typed where
  line : List UInt8
  done : List (List UInt8)
  deriving DecidableEq

/-- One more character typed. -/
def Typed.key (typed : Typed) (c : UInt8) : Typed :=
  if c = 8 then { typed with line := typed.line.dropLast }
  else if c = 10 then
    -- An empty line that is ended counts for nothing.
    { line := [], done := if typed.line = [] then typed.done else typed.done ++ [typed.line] }
  else if Printable c then { typed with line := typed.line ++ [c] }
  else typed

/-- Several characters typed. -/
def Typed.keys (typed : Typed) (characters : List UInt8) : Typed := characters.foldl Typed.key typed

/-- The line stays shorter than the buffer while the characters are typed. -/
def Typed.Short (typed : Typed) (characters : List UInt8) : Prop :=
  ∀ count, (typed.keys (characters.take count)).line.length < inputMax

/-- Characters typed in two groups. -/
theorem Typed.keys_append (typed : Typed) (characters later : List UInt8) :
    typed.keys (characters ++ later) = (typed.keys characters).keys later :=
  List.foldl_append ..

/-- What is typed later does not depend on the lines already ended. -/
theorem Typed.keys_eq (typed : Typed) (characters : List UInt8) :
    typed.keys characters =
      ⟨(Typed.keys ⟨typed.line, []⟩ characters).line,
        typed.done ++ (Typed.keys ⟨typed.line, []⟩ characters).done⟩ := by
  -- The lines ended before stand in front of those ended later.
  induction characters generalizing typed with
  | nil => simp [Typed.keys]
  | cons c rest ih =>
    have later := ih (typed.key c)
    have fresh := ih (Typed.key ⟨typed.line, []⟩ c)
    -- One character acts on the line alone and ends at most that line.
    have line : (Typed.key ⟨typed.line, []⟩ c).line = (typed.key c).line := by
      unfold Typed.key
      split_ifs <;> rfl
    have done : (typed.key c).done = typed.done ++ (Typed.key ⟨typed.line, []⟩ c).done := by
      unfold Typed.key
      split_ifs <;> simp
    change (typed.key c).keys rest =
      ⟨((Typed.key ⟨typed.line, []⟩ c).keys rest).line,
        typed.done ++ ((Typed.key ⟨typed.line, []⟩ c).keys rest).done⟩
    rw [later, fresh, line, done, List.append_assoc]

/-- Whether lines stay short depends on the line only. -/
theorem Typed.Short.of_line {typed : Typed} {characters : List UInt8} (short : typed.Short characters) :
    Typed.Short ⟨typed.line, []⟩ characters := by
  intro count
  -- The lines done before do not count.
  have bound := short count
  rwa [Typed.keys_eq] at bound

/-- Lines that stay short while two groups of characters are typed. -/
theorem Typed.Short.split {typed : Typed} {characters later : List UInt8}
    (short : typed.Short (characters ++ later)) :
    typed.Short characters ∧ Typed.Short ⟨(typed.keys characters).line, []⟩ later := by
  -- Every prefix of the two groups is one of the first, or the first and one of the second.
  constructor
  · intro count
    by_cases inside : count ≤ characters.length
    · have bound := short count
      rwa [List.take_append_of_le_length inside] at bound
    · have bound := short characters.length
      rw [List.take_left] at bound
      rwa [List.take_of_length_le (by omega)]
  · have rest : (typed.keys characters).Short later := by
      intro count
      have bound := short (characters.length + count)
      rwa [List.take_length_add_append, Typed.keys_append] at bound
    exact rest.of_line

/-- The buffer of the editor holds a line. -/
structure Input.Holds (input : Input) (line : List UInt8) : Prop where
  text : TextAt input.inputBuf 0 line
  length : input.inputLen = line.length
  fits : line.length < inputMax

/-- The editor starts with an empty line. -/
theorem inputInit_holds (inputBuf : Memory) : (inputInit inputBuf).Holds [] :=
  ⟨TextAt.nil (by simp [inputInit]), rfl, by simp [inputMax]⟩

/-- One character does to the buffer what it does to the line. -/
theorem inputKey_holds {input : Input} {typed : Typed} {c : UInt8} (holds : input.Holds typed.line)
    (short : (typed.key c).line.length < inputMax) :
    (inputKey input c).Holds (typed.key c).line := by
  -- The tests of the code and of the line are the same, except that the buffer may be full.
  have text := holds.text
  have length := holds.length
  unfold inputKey
  unfold Typed.key at short ⊢
  by_cases erase : c = 8
  · rw [if_pos erase] at short ⊢
    rw [if_pos erase]
    by_cases some : typed.line = []
    · -- Erasing an empty line changes nothing.
      rw [if_neg (by rw [length, some]; simp)]
      simpa [some] using holds
    · -- A line with a character loses its last one, and the zero moves up.
      have positive : 0 < typed.line.length := List.length_pos_iff.mpr some
      rw [if_pos (by omega)]
      refine ⟨?_, ?_, short⟩
      · have cut := text.pop some
        rw [Nat.zero_add] at cut
        simpa only [length] using cut
      · simp only [length, List.length_dropLast]
  · rw [if_neg erase] at short ⊢
    rw [if_neg erase]
    -- Enter starts an empty line.
    by_cases enter : c = 10
    · rw [if_pos enter]
      rw [if_pos enter]
      exact ⟨TextAt.nil (by simp), rfl, by simp [inputMax]⟩
    · rw [if_neg enter] at short ⊢
      rw [if_neg enter]
      by_cases printable : Printable c
      · rw [if_pos printable] at short ⊢
        rw [List.length_append, List.length_singleton] at short
        rw [if_pos ⟨printable, by omega⟩]
        -- A printable character is no zero, so the text stays one string.
        have solid : c ≠ 0 := by
          rintro rfl
          revert printable
          decide
        refine ⟨?_, by simp [length], by simpa using short⟩
        have longer := text.push solid
        rw [Nat.zero_add, Nat.zero_add] at longer
        simpa only [length] using longer
      · rw [if_neg printable] at short ⊢
        rw [if_neg (fun both => printable both.1)]
        exact holds

/-- Polling handles every waiting scancode and ends with an empty ring. -/
theorem inputPoll_holds {fuel : Nat} {keyboard : Keyboard} {input : Input} {typed : Typed}
    {waiting : List UInt8} (ring : keyboard.Holds waiting) (holds : input.Holds typed.line)
    (short : typed.Short (waiting.map (keyboardScancodeToAscii keyboard)))
    (enough : waiting.length < fuel) :
    ∃ quiet after, inputPoll fuel keyboard input = .ok (quiet, after) ∧ quiet.Holds [] ∧
      SameModifiers quiet keyboard ∧
      after.Holds (typed.keys (waiting.map (keyboardScancodeToAscii keyboard))).line := by
  -- Each turn takes the oldest scancode, and its character is typed.
  induction waiting generalizing fuel keyboard input typed with
  | nil =>
    obtain ⟨fuel, rfl⟩ : ∃ less, fuel = less + 1 := ⟨fuel - 1, by simp at enough; omega⟩
    exact ⟨keyboard, input, by rw [inputPoll, keyboardPoll_empty ring], ring, ⟨rfl, rfl⟩, holds⟩
  | cons sc rest ih =>
    rw [List.length_cons] at enough
    obtain ⟨fuel, rfl⟩ : ∃ less, fuel = less + 1 := ⟨fuel - 1, by omega⟩
    obtain ⟨next, polled, remaining, same⟩ := keyboardPoll_holds ring
    -- The modifiers stay, so the later scancodes keep their characters.
    have letters := keyboardScancodeToAscii_congr same
    have typedOne := inputKey_holds holds (short 1)
    rw [← letters] at typedOne
    have later : (typed.key (keyboardScancodeToAscii next sc)).Short
        (rest.map (keyboardScancodeToAscii next)) := by
      intro count
      rw [letters]
      exact short (count + 1)
    have fewer : rest.length < fuel := by omega
    obtain ⟨quiet, after, ran, empty, kept, held⟩ := ih remaining typedOne later fewer
    refine ⟨quiet, after, ?_, empty, ⟨kept.1.trans same.1, kept.2.trans same.2⟩, ?_⟩
    · rw [inputPoll, polled]
      exact ran
    · rw [letters] at held
      exact held

end MiraOS
