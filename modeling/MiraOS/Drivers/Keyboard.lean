import MiraOS.Machine.Ring
import MiraOS.Machine.Text

/-! The keyboard driver of drivers/ps2/keyboard.c: a ring of scancodes and their characters. -/

namespace MiraOS

open Machine

/-- Size of the ring of scancodes. -/
def kbdBufSize : Nat := 128

/-- The static variables of the driver. -/
structure Keyboard where
  kbdBuffer : Nat → UInt8
  kbdHead : Nat
  kbdTail : Nat
  shiftPressed : Bool
  capsLock : Bool

/-- The characters of the scancodes without shift. -/
def normalKeys : List UInt8 :=
  [0, 27] ++ asciiBytes "1234567890-=" ++ [8, 9] ++ asciiBytes "qwertyuiop[]" ++ [10, 0] ++
  asciiBytes "asdfghjkl;'`" ++ [0] ++ asciiBytes "\\zxcvbnm,./" ++ [0] ++ asciiBytes "*" ++ [0] ++
  asciiBytes " "

/-- The characters of the scancodes with shift. -/
def shiftedKeys : List UInt8 :=
  [0, 27] ++ asciiBytes "!@#$%^&*()_+" ++ [8, 9] ++ asciiBytes "QWERTYUIOP\x7b\x7d" ++ [10, 0] ++
  asciiBytes "ASDFGHJKL:\"~" ++ [0] ++ asciiBytes "|ZXCVBNM<>?" ++ [0] ++ asciiBytes "*" ++ [0] ++
  asciiBytes " "

/-- The character of a scancode, where the caps lock swaps the case of letters once more. -/
def scancodeMap (capsLock : Bool) (sc : UInt8) (shift : Bool) : UInt8 :=
  if normalKeys.length ≤ sc.toNat then 0
  else
    -- Both tables have the same length, so the test covers either of them.
    let c := (if shift then shiftedKeys else normalKeys).getD sc.toNat 0
    if shift = false ∧ capsLock ∧ 97 ≤ c ∧ c ≤ 122 then c - 97 + 65
    else if shift ∧ capsLock ∧ 65 ≤ c ∧ c ≤ 90 then c - 65 + 97
    else c

/-- The character of a scancode under the current modifiers. -/
def keyboardScancodeToAscii (keyboard : Keyboard) (scancode : UInt8) : UInt8 :=
  if 0x80 ≤ scancode then 0
  else scancodeMap keyboard.capsLock scancode (keyboard.shiftPressed ^^ keyboard.capsLock)

/-- Store a scancode, which is dropped when the ring is full. -/
def kbdPush (keyboard : Keyboard) (sc : UInt8) : Keyboard :=
  let next := (keyboard.kbdHead + 1) % kbdBufSize
  -- One slot stays free to tell a full ring from an empty one.
  if next = keyboard.kbdTail then keyboard
  else
    { keyboard with
      kbdBuffer := Function.update keyboard.kbdBuffer keyboard.kbdHead sc
      kbdHead := next }

/-- The interrupt handler, for the scancode read from the port. -/
def keyboardOnIrq (keyboard : Keyboard) (sc : UInt8) : Keyboard :=
  if sc = 0x2A ∨ sc = 0x36 then { keyboard with shiftPressed := true }
  else if sc = 0xAA ∨ sc = 0xB6 then { keyboard with shiftPressed := false }
  else if sc = 0x3A then { keyboard with capsLock := !keyboard.capsLock }
  -- Releases of other keys are dropped.
  else if sc < 0x80 then kbdPush keyboard sc
  else keyboard

/-- Take the oldest scancode out of the ring. -/
def keyboardPoll (keyboard : Keyboard) : Option (UInt8 × Keyboard) :=
  if keyboard.kbdHead = keyboard.kbdTail then none
  else
    some (keyboard.kbdBuffer keyboard.kbdTail,
      { keyboard with kbdTail := (keyboard.kbdTail + 1) % kbdBufSize })

/-- The driver after its initialisation; pending bytes of the port are read and dropped. -/
def keyboardInit (kbdBuffer : Nat → UInt8) : Keyboard := ⟨kbdBuffer, 0, 0, false, false⟩

/-- The scancodes waiting in the ring, oldest first. -/
def Keyboard.Holds (keyboard : Keyboard) (scancodes : List UInt8) : Prop :=
  RingHolds kbdBufSize keyboard.kbdBuffer keyboard.kbdHead keyboard.kbdTail scancodes

/-- The printable characters; the type of characters is signed, so the upper half is negative. -/
def Printable (c : UInt8) : Prop := 32 ≤ c ∧ c < 128

instance (c : UInt8) : Decidable (Printable c) := inferInstanceAs (Decidable (_ ∧ _))

/-- The keys that type a character, erase one or end a line. -/
def TypingKey (keyboard : Keyboard) (sc : UInt8) : Prop :=
  keyboardScancodeToAscii keyboard sc = 8 ∨ keyboardScancodeToAscii keyboard sc = 10 ∨
    Printable (keyboardScancodeToAscii keyboard sc)

instance (keyboard : Keyboard) (sc : UInt8) : Decidable (TypingKey keyboard sc) :=
  inferInstanceAs (Decidable (_ ∨ _))

/-- Two states of the driver with the same modifiers. -/
def SameModifiers (one two : Keyboard) : Prop :=
  one.shiftPressed = two.shiftPressed ∧ one.capsLock = two.capsLock

/-- Characters depend on the modifiers only. -/
theorem keyboardScancodeToAscii_congr {one two : Keyboard} (same : SameModifiers one two) :
    keyboardScancodeToAscii one = keyboardScancodeToAscii two := by
  funext sc
  rw [keyboardScancodeToAscii, keyboardScancodeToAscii, same.1, same.2]

/-- The driver starts with nothing waiting. -/
theorem keyboardInit_holds (kbdBuffer : Nat → UInt8) : (keyboardInit kbdBuffer).Holds [] :=
  ⟨by simp [keyboardInit, kbdBufSize], by simp [kbdBufSize], rfl, fun found => by simp at found⟩

/-- A modifier key has no character. -/
theorem modifier_no_character (keyboard : Keyboard) :
    ∀ sc ∈ ([0x2A, 0x36, 0x3A] : List UInt8), keyboardScancodeToAscii keyboard sc = 0 := by
  -- The character is looked up under each of the four settings of the modifiers.
  intro sc modifier
  unfold keyboardScancodeToAscii
  generalize keyboard.shiftPressed = shift
  generalize keyboard.capsLock = caps
  have either : sc = 0x2A ∨ sc = 0x36 ∨ sc = 0x3A := by simpa using modifier
  rcases either with rfl | rfl | rfl
  · cases shift <;> cases caps <;> decide
  · cases shift <;> cases caps <;> decide
  · cases shift <;> cases caps <;> decide

/-- The scancode of a key that types is stored as it is. -/
theorem keyboardOnIrq_typing {keyboard : Keyboard} {sc : UInt8} (types : TypingKey keyboard sc) :
    keyboardOnIrq keyboard sc = kbdPush keyboard sc := by
  -- A key that types has a character, which no modifier and no release has.
  have speaks : keyboardScancodeToAscii keyboard sc ≠ 0 := by
    intro silent
    rw [TypingKey, silent] at types
    revert types
    decide
  have low : ¬ 0x80 ≤ sc := by
    intro high
    exact speaks (by rw [keyboardScancodeToAscii, if_pos high])
  have below : sc < 0x80 := UInt8.not_le.mp low
  have plain := modifier_no_character keyboard
  -- Releases of the shift keys lie in the upper half, presses of modifiers have no character.
  have noPress : ¬ (sc = 0x2A ∨ sc = 0x36) := by
    rintro (rfl | rfl)
    · exact speaks (plain _ (by simp))
    · exact speaks (plain _ (by simp))
  have noRelease : ¬ (sc = 0xAA ∨ sc = 0xB6) := by
    rintro (rfl | rfl)
    · exact low (by decide)
    · exact low (by decide)
  have noCaps : sc ≠ 0x3A := by
    rintro rfl
    exact speaks (plain _ (by simp))
  rw [keyboardOnIrq, if_neg noPress, if_neg noRelease, if_neg noCaps, if_pos below]

/-- Storing a scancode while there is room. -/
theorem kbdPush_holds {keyboard : Keyboard} {waiting : List UInt8} (holds : keyboard.Holds waiting)
    (room : waiting.length + 1 < kbdBufSize) (sc : UInt8) :
    (kbdPush keyboard sc).Holds (waiting ++ [sc]) ∧ SameModifiers (kbdPush keyboard sc) keyboard := by
  obtain ⟨free, stored⟩ := RingHolds.push holds sc room
  -- With room left the byte is stored, and pushing touches no modifier.
  rw [kbdPush, if_neg free]
  exact ⟨stored, rfl, rfl⟩

/-- Nothing is taken out of an empty ring. -/
theorem keyboardPoll_empty {keyboard : Keyboard} (holds : keyboard.Holds []) :
    keyboardPoll keyboard = none := by
  rw [keyboardPoll, if_pos (RingHolds.empty_iff holds |>.mpr rfl)]

/-- The oldest scancode is the one taken out. -/
theorem keyboardPoll_holds {keyboard : Keyboard} {sc : UInt8} {rest : List UInt8}
    (holds : keyboard.Holds (sc :: rest)) :
    ∃ after, keyboardPoll keyboard = some (sc, after) ∧ after.Holds rest ∧
      SameModifiers after keyboard := by
  -- A byte waits, so head and tail differ.
  have waiting : keyboard.kbdHead ≠ keyboard.kbdTail := fun same =>
    absurd ((RingHolds.empty_iff holds).mp same) (List.cons_ne_nil sc rest)
  obtain ⟨oldest, remaining⟩ := RingHolds.pop holds
  exact ⟨{ keyboard with kbdTail := (keyboard.kbdTail + 1) % kbdBufSize },
    by rw [keyboardPoll, if_neg waiting, oldest], remaining, rfl, rfl⟩

/-- Typing a number of keys that the ring has room for, one interrupt for each. -/
theorem keyboardOnIrq_batch {keyboard : Keyboard} {waiting : List UInt8}
    (holds : keyboard.Holds waiting) (batch : List UInt8)
    (types : ∀ sc ∈ batch, TypingKey keyboard sc)
    (room : waiting.length + batch.length < kbdBufSize) :
    (batch.foldl keyboardOnIrq keyboard).Holds (waiting ++ batch) ∧
      SameModifiers (batch.foldl keyboardOnIrq keyboard) keyboard := by
  -- Each interrupt stores one scancode and leaves the modifiers, so the next one types as well.
  induction batch generalizing keyboard waiting with
  | nil =>
    rw [List.append_nil]
    exact ⟨holds, rfl, rfl⟩
  | cons sc rest ih =>
    rw [List.length_cons] at room
    obtain ⟨stored, same⟩ := kbdPush_holds holds (by omega) sc
    have later : ∀ other ∈ rest, TypingKey (kbdPush keyboard sc) other := by
      intro other among
      rw [TypingKey, keyboardScancodeToAscii_congr same]
      exact types other (List.mem_cons_of_mem sc among)
    have folded := ih stored later (by rw [List.length_append, List.length_singleton]; omega)
    rw [List.append_assoc, List.singleton_append] at folded
    rw [List.foldl_cons, keyboardOnIrq_typing (types sc List.mem_cons_self)]
    exact ⟨folded.1, folded.2.1.trans same.1, folded.2.2.trans same.2⟩

end MiraOS
