import MiraOS.Machine.Occurrences
import MiraOS.Machine.Text
import MiraOS.Machine.Traced

/-! The search of lib/common/string.c for a string inside another one. -/

namespace MiraOS

open Machine

/-- The two strings of a search, each with a pointer of its own. -/
inductive Operand where
  | haystack
  | needle
  deriving DecidableEq

/-- A character that was read, and through the pointer into which string. -/
structure CharRead where
  operand : Operand
  address : Nat

/-- Read a character, and log where. -/
def readChar (operand : Operand) (address : Nat) : Traced Memory CharRead UInt8 :=
  fun mem => ([⟨operand, address⟩], .ok (mem address, mem))

/-- The inner loop, and where it leaves the pointer into the needle. -/
def strstrMatch : Nat → Nat → Nat → Traced Memory CharRead Nat
  | 0, _, _ => .stop .outOfFuel
  | fuel + 1, h, n => do
    let c ← readChar .haystack h
    if c = 0 then return n
    let d ← readChar .needle n
    if d = 0 then return n
    -- Both characters are read once more to compare them.
    let c ← readChar .haystack h
    let d ← readChar .needle n
    if c = d then strstrMatch fuel (h + 1) (n + 1) else return n

/-- The outer loop over the places of the haystack. -/
def strstrLoop (needle : Nat) : Nat → Nat → Traced Memory CharRead (Option Nat)
  | 0, _ => .stop .outOfFuel
  | fuel + 1, haystack => do
    let c ← readChar .haystack haystack
    if c = 0 then return none
    let n ← strstrMatch fuel haystack needle
    let d ← readChar .needle n
    if d = 0 then return some haystack
    strstrLoop needle fuel (haystack + 1)

/-- Find a string inside another one; without it the pointer is null. -/
def strstr (fuel haystack needle : Nat) : Traced Memory CharRead (Option Nat) := do
  let d ← readChar .needle needle
  if d = 0 then return some haystack
  strstrLoop needle fuel haystack

/-- The character is one of its string, or the zero that ends it. -/
def CharRead.Inside (haystack needle : Nat) (text part : List UInt8) (read : CharRead) : Prop :=
  match read.operand with
  | .haystack => haystack ≤ read.address ∧ read.address ≤ haystack + text.length
  | .needle => needle ≤ read.address ∧ read.address ≤ needle + part.length

/-- A string in memory from a pointer on that has passed the characters in front of it. -/
structure StringFrom (mem : Memory) (start : Nat) (whole : List UInt8) (pointer : Nat) (rest : List UInt8) : Prop where
  held : TextAt mem pointer rest
  passed : start ≤ pointer
  left : pointer + rest.length = start + whole.length

/-- The pointer goes on to the next character. -/
theorem StringFrom.next {mem : Memory} {start pointer : Nat} {whole rest : List UInt8} {c : UInt8}
    (string : StringFrom mem start whole pointer (c :: rest)) :
    StringFrom mem start whole (pointer + 1) rest := by
  have left := string.left
  rw [List.length_cons] at left
  exact ⟨string.held.tail, Nat.le_succ_of_le string.passed, by omega⟩

section

variable {mem : Memory} {haystack needle h n : Nat} {text part rest others : List UInt8}

/-- Reading a character inside its string. -/
theorem readChar_guards {operand : Operand} {address : Nat}
    (inside : CharRead.Inside haystack needle text part ⟨operand, address⟩) :
    Guards (fun read => ¬ read.Inside haystack needle text part) (readChar operand address) mem True (mem address)
      mem := by
  refine Guards.quiet rfl fun read among => ?_
  rw [List.mem_singleton.mp among]
  exact not_not_intro inside

/-- Reading where the pointer into the haystack is. -/
theorem readHaystack_guards (string : StringFrom mem haystack text h rest) :
    Guards (fun read => ¬ read.Inside haystack needle text part) (readChar .haystack h) mem True (mem h) mem := by
  have left := string.left
  exact readChar_guards ⟨string.passed, by dsimp only; omega⟩

/-- Reading where the pointer into the needle is. -/
theorem readNeedle_guards (string : StringFrom mem needle part n others) :
    Guards (fun read => ¬ read.Inside haystack needle text part) (readChar .needle n) mem True (mem n) mem := by
  have left := string.left
  exact readChar_guards ⟨string.passed, by dsimp only; omega⟩

/-- The inner loop stops behind the characters that the strings have in common. -/
theorem strstrMatch_guards {fuel : Nat} (hay : StringFrom mem haystack text h rest)
    (pin : StringFrom mem needle part n others) (enough : rest.length < fuel) :
    Guards (fun read => ¬ read.Inside haystack needle text part) (strstrMatch fuel h n) mem True
      (n + agreed rest others) mem := by
  -- Both pointers go on together, and each stays in front of the end of its string.
  induction rest generalizing h n others fuel with
  | nil =>
    have ended : mem h = 0 := hay.held.ended
    obtain ⟨fuel, rfl⟩ : ∃ less, fuel = less + 1 := ⟨fuel - 1, by omega⟩
    rw [strstrMatch]
    refine (readHaystack_guards hay).next ?_
    rw [if_pos ended]
    exact .pure n mem
  | cons c rest ih =>
    obtain ⟨fuel, rfl⟩ : ∃ less, fuel = less + 1 := ⟨fuel - 1, by omega⟩
    obtain ⟨first, solid⟩ := hay.held.head
    rw [strstrMatch]
    refine (readHaystack_guards hay).next ?_
    rw [first, if_neg solid]
    refine (readNeedle_guards pin).next ?_
    -- At the end of the needle the comparison has matched all of it.
    cases others with
    | nil =>
      have ended : mem n = 0 := pin.held.ended
      rw [if_pos ended]
      exact .pure n mem
    | cons d others =>
      obtain ⟨second, real⟩ := pin.held.head
      rw [second, if_neg real]
      refine (readHaystack_guards hay).next ((readNeedle_guards pin).next ?_)
      rw [first, second, agreed]
      -- Equal bytes move both pointers on, different ones end the comparison.
      split_ifs with same
      · have further := ih hay.next pin.next (Nat.lt_of_succ_lt_succ enough)
        rw [Nat.add_right_comm, Nat.add_assoc] at further
        exact further
      · exact .pure n mem

/-- From a place on, the outer loop finds the first occurrence in what is left. -/
theorem strstrLoop_guards {fuel : Nat} (hay : StringFrom mem haystack text h rest)
    (sought : TextAt mem needle part) (some : part ≠ []) (enough : rest.length + 1 < fuel) :
    Guards (fun read => ¬ read.Inside haystack needle text part) (strstrLoop needle fuel h) mem True
      ((firstOccurrence rest part).map (h + ·)) mem := by
  induction rest generalizing h fuel with
  | nil =>
    have ended : mem h = 0 := hay.held.ended
    obtain ⟨fuel, rfl⟩ : ∃ less, fuel = less + 1 := ⟨fuel - 1, by omega⟩
    rw [strstrLoop, firstOccurrence_nil some]
    refine (readHaystack_guards hay).next ?_
    rw [if_pos ended]
    exact .pure none mem
  | cons c rest ih =>
    obtain ⟨fuel, rfl⟩ : ∃ less, fuel = less + 1 := ⟨fuel - 1, by omega⟩
    rw [List.length_cons] at enough
    obtain ⟨first, solid⟩ := hay.held.head
    obtain ⟨short, whole⟩ := agreed_le (c :: rest) part
    rw [strstrLoop]
    refine (readHaystack_guards hay).next ?_
    rw [first, if_neg solid]
    have start : StringFrom mem needle part needle part := ⟨sought, Nat.le_refl _, rfl⟩
    refine (strstrMatch_guards hay start (by rw [List.length_cons]; omega)).next ?_
    -- The comparison stops inside the needle or at its terminator.
    have inside : CharRead.Inside haystack needle text part ⟨.needle, needle + agreed (c :: rest) part⟩ :=
      ⟨Nat.le_add_right _ _, Nat.add_le_add_left short _⟩
    refine (readChar_guards inside).next ?_
    by_cases front : part <+: c :: rest
    · -- The needle ends where the two stop to agree.
      rw [if_pos ((sought.zero_iff short).mpr (whole.mpr front)), firstOccurrence_front front]
      exact .pure (Option.some h) mem
    · rw [if_neg (mt (sought.zero_iff short).mp (mt whole.mp front)), firstOccurrence_behind front]
      have later := @ih (h + 1) fuel hay.next (by omega)
      -- A place behind the first character is one further on in the string.
      have places : (h + ·) ∘ (· + 1) = (h + 1 + ·) := by
        funext place
        rw [Function.comp_apply, ← Nat.add_assoc, Nat.add_right_comm]
      rw [Option.map_map, places]
      exact later

/-- The search finds the first occurrence. -/
theorem strstr_guards {fuel : Nat} (held : TextAt mem haystack text) (sought : TextAt mem needle part)
    (enough : text.length + 1 < fuel) :
    Guards (fun read => ¬ read.Inside haystack needle text part) (strstr fuel haystack needle) mem True
      ((firstOccurrence text part).map (haystack + ·)) mem := by
  -- The first read is that of the needle, whose end means an occurrence at the start.
  have pin : StringFrom mem needle part needle part := ⟨sought, Nat.le_refl _, rfl⟩
  rw [strstr]
  refine (readNeedle_guards pin).next ?_
  cases part with
  | nil =>
    have ended : mem needle = 0 := sought.ended
    rw [if_pos ended, firstOccurrence_front List.nil_prefix]
    exact .pure (some haystack) mem
  | cons d others =>
    obtain ⟨second, real⟩ := sought.head
    rw [second, if_neg real]
    exact strstrLoop_guards ⟨held, Nat.le_refl _, rfl⟩ sought (List.cons_ne_nil d others) enough

/--
The search for a string inside another one returns the pointer to its first occurrence, or null when there is none.

No character behind the zero that ends either of the strings is read.
-/
theorem strstr_finds_first (held : TextAt mem haystack text) (sought : TextAt mem needle part) :
    ∃ found enough, (∀ fuel, enough ≤ fuel → (strstr fuel haystack needle mem).2 = .ok (found, mem) ∧
        ∀ read ∈ (strstr fuel haystack needle mem).1, read.Inside haystack needle text part) ∧
      (∀ ptr, found = some ptr ↔ ∃ i, IsLeast {i | OccursAt text part i} i ∧ ptr = haystack + i) ∧
      (found = none ↔ ¬ ∃ i, OccursAt text part i) := by
  -- With fuel for the text and its end the search comes back, and every read is inside.
  refine ⟨(firstOccurrence text part).map (haystack + ·), text.length + 2, fun fuel enough => ?_, fun ptr => ?_, ?_⟩
  · have guards := @strstr_guards mem haystack needle text part fuel held sought enough
    refine ⟨guards.goes trivial, fun read among => ?_⟩
    by_contra outside
    exact guards.bad_iff.mp ⟨read, among, outside⟩ trivial
  · simp only [Option.map_eq_some_iff, firstOccurrence_eq_some, eq_comm]
  · rw [Option.map_eq_none_iff, firstOccurrence_eq_none]

end

/-- Memory with a string, of which the end is the string to be found. -/
def overlappingStrings : Memory := fun address => (asciiBytes "aab").getD (address - 16) 0

/-- Both strings are there. -/
theorem overlappingStrings_held :
    TextAt overlappingStrings 16 (asciiBytes "aab") ∧ TextAt overlappingStrings 17 (asciiBytes "ab") := by
  -- The second text is the end of the first one.
  constructor
  · refine ⟨fun {i byte} found => ?_, by decide, rfl⟩
    rw [overlappingStrings, Nat.add_sub_cancel_left, List.getD_eq_getElem?_getD, found, Option.getD_some]
  · refine ⟨fun {i byte} found => ?_, by decide, rfl⟩
    have place : 17 + i - 16 = i + 1 := by omega
    have behind : (asciiBytes "aab")[i + 1]? = (asciiBytes "ab")[i]? := rfl
    rw [overlappingStrings, place, List.getD_eq_getElem?_getD, behind, found, Option.getD_some]

/-- The end of the string is found where it is, behind a place where the two agree at first only. -/
theorem overlapping_found : ∃ enough, ∀ fuel, enough ≤ fuel →
    (strstr fuel 16 17 overlappingStrings).2 = .ok (some 17, overlappingStrings) := by
  obtain ⟨held, sought⟩ := overlappingStrings_held
  obtain ⟨found, enough, runs, place, -⟩ := strstr_finds_first held sought
  -- The part begins at the second character.
  have first : IsLeast {i | OccursAt (asciiBytes "aab") (asciiBytes "ab") i} 1 :=
    firstOccurrence_eq_some.mp (by decide)
  rw [(place 17).mpr ⟨1, first, rfl⟩] at runs
  exact ⟨enough, fun fuel more => (runs fuel more).1⟩

end MiraOS
