import MiraOS.Machine.Histories
import MiraOS.Ui.PollTiming

/-! Typed text against a keyboard with Shift and Caps Lock as they are usually meant. -/

namespace MiraOS

open Machine

/-- The character of a key without modifiers, and with Shift. -/
def plainCharacter (sc : UInt8) : UInt8 := normalKeys.getD sc.toNat 0
def shiftedCharacter (sc : UInt8) : UInt8 := shiftedKeys.getD sc.toNat 0

/-- A key for which the modifiers make a difference. -/
def TwoCharacters (sc : UInt8) : Prop := plainCharacter sc ≠ shiftedCharacter sc

instance (sc : UInt8) : Decidable (TwoCharacters sc) := inferInstanceAs (Decidable (_ ≠ _))

/-- A key of a letter. -/
def LetterKey (sc : UInt8) : Prop := 97 ≤ plainCharacter sc ∧ plainCharacter sc ≤ 122

instance (sc : UInt8) : Decidable (LetterKey sc) := inferInstanceAs (Decidable (_ ∧ _))

/-- The character that a key is meant to have. -/
def keyCharacter (shiftHeld capsLock : Bool) (sc : UInt8) : UInt8 :=
  if LetterKey sc then
    -- Shift and Caps Lock cancel each other on letters.
    if shiftHeld != capsLock then plainCharacter sc - 97 + 65 else plainCharacter sc
  else if shiftHeld then shiftedCharacter sc
  else plainCharacter sc

/-- What a character does to a line that keeps at most 255 of them. -/
def lineKey (line : List UInt8) (c : UInt8) : List UInt8 :=
  if c = 8 then line.dropLast
  else if c = 10 then []
  else if Printable c ∧ line.length < inputMax - 1 then line ++ [c]
  else line

/-- The keyboard as it is meant: the modifier keys that are down, and the line. -/
structure Reference where
  leftShift : Bool := false
  rightShift : Bool := false
  capsLock : Bool := false
  line : List UInt8 := []
  deriving DecidableEq

/-- Shift is held while either of its keys is down. -/
def Reference.shiftHeld (reference : Reference) : Bool := reference.leftShift || reference.rightShift

/-- A byte of the keyboard, with the line edited at once. -/
def Reference.byte (reference : Reference) (sc : UInt8) : Reference :=
  if sc = 0x2A then { reference with leftShift := true }
  else if sc = 0x36 then { reference with rightShift := true }
  else if sc = 0xAA then { reference with leftShift := false }
  else if sc = 0xB6 then { reference with rightShift := false }
  else if sc = 0x3A then { reference with capsLock := !reference.capsLock }
  else if sc < 0x80 then
    { reference with
      line := lineKey reference.line (keyCharacter reference.shiftHeld reference.capsLock sc) }
  else reference

/-- The keyboard as it is meant after bytes from its start. -/
def referenceAfter (bytes : List UInt8) : Reference := bytes.foldl Reference.byte {}

/-- The driver's modifiers after bytes from its initialisation. -/
def modifiersAfter (kbdBuffer : Nat → UInt8) (bytes : List UInt8) : Keyboard :=
  bytes.foldl keyboardOnIrq (keyboardInit kbdBuffer)

/-- Polling after every byte ends with the line of the keyboard as it is meant. -/
def TypesAsMeant (kbdBuffer : Nat → UInt8) (inputBuf : Memory) (bytes : List UInt8) : Prop :=
  ∃ typing, typingRun (typingStart kbdBuffer inputBuf) (eagerSteps bytes) = .ok typing ∧
    typing.input.Holds (referenceAfter bytes).line

/--
A byte that is typed as it is meant.

Where the key has two characters and the line has room, Caps Lock is off and the driver knows whether Shift is
held, or both are wrong.
-/
def KeyAsMeant (keyboard : Keyboard) (reference : Reference) (sc : UInt8) : Prop :=
  TwoCharacters sc → reference.line.length < inputMax - 1 →
    reference.capsLock = (keyboard.shiftPressed != reference.shiftHeld)

/-- The driver, the line it leads to and the keyboard as it is meant, side by side. -/
structure SideBySide where
  keyboard : Keyboard
  line : List UInt8
  reference : Reference

/-- A byte for both of them. -/
def sideStep (both : SideBySide) (sc : UInt8) : SideBySide where
  keyboard := keyboardOnIrq both.keyboard sc
  line := (([sc].filter (StoredKey ·)).map (keyboardScancodeToAscii both.keyboard)).foldl lineKey both.line
  reference := both.reference.byte sc

/-- Both at their start. -/
def sideStart (kbdBuffer : Nat → UInt8) : SideBySide := ⟨keyboardInit kbdBuffer, [], {}⟩

/-- A key without characters in the tables has none. -/
theorem no_character {sc : UInt8} (past : 58 ≤ sc.toNat) :
    plainCharacter sc = 0 ∧ shiftedCharacter sc = 0 := by
  -- The tables end before the key.
  constructor
  · rw [plainCharacter, List.getD_eq_getElem?_getD, List.getElem?_eq_none, Option.getD_none]
    exact Nat.le_trans (by decide +kernel) past
  · rw [shiftedCharacter, List.getD_eq_getElem?_getD, List.getElem?_eq_none, Option.getD_none]
    exact Nat.le_trans (by decide +kernel) past

/-- What holds of the keys in the tables and of a key without characters holds of every key. -/
theorem forall_keys {holds : UInt8 → Prop} (inside : ∀ n : Fin 58, holds (UInt8.ofNat n))
    (outside : ∀ sc, plainCharacter sc = 0 → shiftedCharacter sc = 0 → 58 ≤ sc.toNat → holds sc) (sc : UInt8) :
    holds sc := by
  -- The tables end at this key.
  by_cases past : 58 ≤ sc.toNat
  · obtain ⟨plain, shifted⟩ := no_character past
    exact outside sc plain shifted past
  · have here := inside ⟨sc.toNat, by omega⟩
    rwa [show UInt8.ofNat ((⟨sc.toNat, _⟩ : Fin 58) : Nat) = sc by simp] at here

/-- The characters of a key that has two of them are printable. -/
theorem TwoCharacters.printable {sc : UInt8} (two : TwoCharacters sc) (held caps : Bool) :
    Printable (keyCharacter held caps sc) := by
  -- The keys in the tables are tried one by one.
  revert sc
  refine @forall_keys _ ?_ ?_
  · revert held caps
    decide +kernel
  · intro sc plain shifted _ two
    exact absurd (plain.trans shifted.symm) two

/-- The driver's character of a key, with the caps lock used twice. -/
theorem scancodeMap_eq_keyCharacter (flag held caps : Bool) (sc : UInt8) :
    scancodeMap caps sc (flag ^^ caps) = keyCharacter held caps sc ↔
      (TwoCharacters sc → caps = (flag != held)) := by
  -- In the tables each key is tried with each state of the modifiers.
  revert sc
  refine @forall_keys _ ?_ ?_
  · revert flag held caps
    decide +kernel
  · intro sc plain shifted past
    -- Past the tables both give nothing.
    have silent : scancodeMap caps sc (flag ^^ caps) = 0 := by
      rw [scancodeMap, if_pos (Nat.le_trans (by decide +kernel) past)]
    have none : keyCharacter held caps sc = 0 := by
      have letter : ¬ LetterKey sc := by
        rw [LetterKey, plain]
        decide
      rw [keyCharacter, if_neg letter, plain, shifted, ite_self]
    have single : ¬ TwoCharacters sc := fun two => two (plain.trans shifted.symm)
    simp [silent, none, single]

/-- The driver's character of a key with two of them is printable. -/
theorem scancodeMap_printable {sc : UInt8} (two : TwoCharacters sc) (flag caps : Bool) :
    Printable (scancodeMap caps sc (flag ^^ caps)) := by
  -- It is what the key is meant to have with the flag the other way or not.
  have meant := (scancodeMap_eq_keyCharacter flag (flag != caps) caps sc).mpr
    (by cases flag <;> cases caps <;> simp)
  rw [meant]
  exact two.printable _ _

/-- The modifier keys have one character, which is none. -/
theorem TwoCharacters.stored {sc : UInt8} (two : TwoCharacters sc) : StoredKey sc := by
  revert sc
  -- The keys are checked one by one: a key that is not stored gives the same character with Shift and
  -- without.
  refine @forall_keys _ (by decide +kernel) ?_
  intro sc plain shifted _ two
  exact absurd (plain.trans shifted.symm) two

/-- A printable character neither erases nor ends a line. -/
theorem Printable.plain {c : UInt8} (printable : Printable c) : c ≠ 8 ∧ c ≠ 10 := by
  -- Backspace and newline lie below the printable range.
  constructor
  · rintro rfl
    revert printable
    decide
  · rintro rfl
    revert printable
    decide

/-- A printable character is appended while there is room. -/
theorem lineKey_room {line : List UInt8} {c : UInt8} (printable : Printable c)
    (room : line.length < inputMax - 1) : lineKey line c = line ++ [c] := by
  rw [lineKey, if_neg printable.plain.1, if_neg printable.plain.2, if_pos ⟨printable, room⟩]

/-- A printable character is dropped by a full line. -/
theorem lineKey_full {line : List UInt8} {c : UInt8} (printable : Printable c)
    (full : ¬ line.length < inputMax - 1) : lineKey line c = line := by
  rw [lineKey, if_neg printable.plain.1, if_neg printable.plain.2, if_neg fun both => full both.2]

/-- One character does to the buffer what it does to a line that is kept short. -/
theorem Input.Holds.lineKey {input : Input} {line : List UInt8} (holds : input.Holds line) (c : UInt8) :
    (inputKey input c).Holds (lineKey line c) := by
  have length := holds.length
  have fits := holds.fits
  by_cases full : Printable c ∧ ¬ line.length < inputMax - 1
  · -- A printable character is dropped by both when the line is full.
    obtain ⟨printable, long⟩ := full
    rw [lineKey_full printable long, inputKey, if_neg printable.plain.1, if_neg printable.plain.2,
      if_neg (by omega)]
    exact holds
  · -- Otherwise the line is that of a text of any length, and stays short.
    have same : (Typed.key ⟨line, []⟩ c).line = MiraOS.lineKey line c := by
      unfold Typed.key MiraOS.lineKey
      by_cases printable : Printable c
      · have room : line.length < inputMax - 1 := by
          by_contra long
          exact full ⟨printable, long⟩
        split_ifs <;> simp_all
      · split_ifs <;> simp_all
    -- Erasing, ending and appending all leave a line that fits.
    have short : (Typed.key ⟨line, []⟩ c).line.length < inputMax := by
      rw [same]
      unfold MiraOS.lineKey
      split_ifs with erase enter more
      · rw [List.length_dropLast]
        omega
      · decide
      · rw [List.length_append, List.length_singleton]
        omega
      · exact fits
    have held := @inputKey_holds input ⟨line, []⟩ c holds short
    rwa [same] at held

/-- Characters one after another. -/
theorem Input.Holds.lineKeys {input : Input} {line : List UInt8} (holds : input.Holds line)
    (text : List UInt8) : (text.foldl inputKey input).Holds (text.foldl MiraOS.lineKey line) := by
  -- Induction on the text, one key at a time.
  induction text generalizing input line with
  | nil => exact holds
  | cons c rest ih => exact ih (holds.lineKey c)

/-- The line of the editor is the only one that its buffer holds. -/
theorem Input.Holds.unique {input : Input} {line other : List UInt8} (holds : input.Holds line)
    (again : input.Holds other) : line = other := by
  have one := holds.text.read holds.fits
  have two := again.text.read again.fits
  exact one.symm.trans two

section

variable (kbdBuffer : Nat → UInt8)

/-- What stands side by side after bytes. -/
theorem sideStep_foldl (bytes : List UInt8) (both : SideBySide) :
    bytes.foldl sideStep both =
      ⟨bytes.foldl keyboardOnIrq both.keyboard,
        (textAsPressed both.keyboard bytes).foldl lineKey both.line,
        bytes.foldl Reference.byte both.reference⟩ := by
  -- The keys of the first byte come in front of those behind it.
  induction bytes generalizing both with
  | nil => rfl
  | cons sc rest ih =>
    rw [List.foldl_cons, ih, textAsPressed, List.foldl_append]
    rfl

/-- A byte keeps the caps lock of both the same. -/
theorem capsLock_step (both : SideBySide) (sc : UInt8)
    (same : both.reference.capsLock = both.keyboard.capsLock) :
    (sideStep both sc).reference.capsLock = (sideStep both sc).keyboard.capsLock := by
  simp only [sideStep]
  unfold Reference.byte keyboardOnIrq kbdPush
  grind

/-- From one line, a byte leads to one line exactly when it is typed as it is meant. -/
theorem sameLine_step (both : SideBySide) (sc : UInt8)
    (caps : both.reference.capsLock = both.keyboard.capsLock) (same : both.line = both.reference.line) :
    (sideStep both sc).line = (sideStep both sc).reference.line ↔
      KeyAsMeant both.keyboard both.reference sc := by
  by_cases stored : StoredKey sc
  swap
  · -- A byte that stores no key leaves both lines.
    have single : ¬ TwoCharacters sc := fun two => stored two.stored
    have left : (sideStep both sc).line = both.line := by
      rw [sideStep]
      simp [stored]
    have kept : (both.reference.byte sc).line = both.reference.line := by
      unfold Reference.byte
      rw [StoredKey] at stored
      grind
    simp only [left, KeyAsMeant, single, false_imp_iff, iff_true]
    exact same.trans kept.symm
  -- A key is looked up by both, under the modifiers of this moment.
  have typed : (sideStep both sc).line =
      lineKey both.line (scancodeMap both.keyboard.capsLock sc
        (both.keyboard.shiftPressed ^^ both.keyboard.capsLock)) := by
    have low : ¬ 0x80 ≤ sc := UInt8.not_le.mpr stored.1
    simp [sideStep, stored, keyboardScancodeToAscii, low]
  have meant : (sideStep both sc).reference.line =
      lineKey both.line (keyCharacter both.reference.shiftHeld both.keyboard.capsLock sc) := by
    obtain ⟨low, left, right, lock⟩ := stored
    -- The releases of both keys have the high bit, which a stored key has not.
    have noRelease : sc ≠ 0xAA ∧ sc ≠ 0xB6 := by
      constructor
      · rintro rfl
        revert low
        decide
      · rintro rfl
        revert low
        decide
    simp only [sideStep]
    rw [Reference.byte, if_neg left, if_neg right, if_neg noRelease.1, if_neg noRelease.2, if_neg lock,
      if_pos low, caps, same]
  rw [typed, meant, KeyAsMeant, caps, ← same]
  have agree := scancodeMap_eq_keyCharacter both.keyboard.shiftPressed both.reference.shiftHeld
    both.keyboard.capsLock sc
  constructor
  · intro lines two room
    -- With room both characters are appended, so the lines show them.
    have one := scancodeMap_printable two both.keyboard.shiftPressed both.keyboard.capsLock
    have other := two.printable both.reference.shiftHeld both.keyboard.capsLock
    rw [lineKey_room one room, lineKey_room other room] at lines
    exact agree.mp (by simpa using lines) two
  · intro safe
    by_cases full : TwoCharacters sc ∧ ¬ both.line.length < inputMax - 1
    · -- A full line takes neither character.
      obtain ⟨two, long⟩ := full
      rw [lineKey_full (scancodeMap_printable two _ _) long, lineKey_full (two.printable _ _) long]
    · rw [agree.mpr fun two => safe two (by
        by_contra long
        exact full ⟨two, long⟩)]

/-- Polling after every byte gives the line that stands beside the one that is meant. -/
theorem typesAsMeant_iff (inputBuf : Memory) (bytes : List UInt8) :
    TypesAsMeant kbdBuffer inputBuf bytes ↔
      (bytes.foldl sideStep (sideStart kbdBuffer)).line =
        (bytes.foldl sideStep (sideStart kbdBuffer)).reference.line := by
  obtain ⟨typing, runs, upTo⟩ := (typedUpTo_start kbdBuffer inputBuf).eager bytes
  -- The editor holds the characters of the keys as they were pressed.
  have held : typing.input.Holds ((textAsPressed (keyboardInit kbdBuffer) bytes).foldl lineKey []) := by
    rw [upTo.input]
    exact (inputInit_holds inputBuf).lineKeys _
  rw [sideStep_foldl]
  constructor
  · rintro ⟨again, ran, meant⟩
    obtain rfl : typing = again := Except.ok.inj (runs.1.symm.trans ran)
    exact held.unique meant
  · intro same
    refine ⟨typing, runs.1, ?_⟩
    rw [show (referenceAfter bytes).line = _ from same.symm]
    exact held

/--
The line is the one that is meant after every byte exactly when each key is typed as it is meant.

Caps Lock is applied twice to letters and once to every other key, and Shift is taken for released as soon as one
of its two keys is.
-/
theorem typed_as_meant_iff (inputBuf : Memory) (bytes : List UInt8) :
    (∀ before, before <+: bytes → TypesAsMeant kbdBuffer inputBuf before) ↔
      ∀ before sc, before ++ [sc] <+: bytes →
        KeyAsMeant (modifiersAfter kbdBuffer before) (referenceAfter before) sc := by
  simp only [typesAsMeant_iff]
  -- The lines are the same all the way exactly when no key tells them apart.
  have whole := @history_good_iff SideBySide UInt8 sideStep (sideStart kbdBuffer) bytes
    (fun both => both.reference.capsLock = both.keyboard.capsLock)
    (fun both => both.line = both.reference.line)
    (fun both sc => KeyAsMeant both.keyboard both.reference sc) rfl rfl
    (fun both sc _ same => capsLock_step both sc same)
    (fun both sc _ caps same => sameLine_step both sc caps same)
  rw [whole]
  simp only [sideStep_foldl]
  rfl

/-- A letter typed with Caps Lock stays small. -/
theorem caps_lock_types_small :
    ¬ TypesAsMeant (fun _ => 0) (fun _ => 0) [0x3A, 0x1E] := by
  rw [typesAsMeant_iff]
  decide +kernel

end

end MiraOS
