import MiraOS.Machine.Bytes

/-! Words behind pointers of 64 bits, and stacks of them that grow towards lower addresses. -/

namespace Machine

/-- The word behind a pointer. -/
def loadWord (mem : Memory) (p : UInt64) : UInt64 := UInt64.ofNat (read64 mem p.toNat)

/-- Store a word behind a pointer. -/
def storeWord (mem : Memory) (p value : UInt64) : Memory := write64 mem p.toNat value.toNat

/-- A pointer to a place for words. -/
def WordAligned (p : UInt64) : Prop := p.toNat % 8 = 0

instance (p : UInt64) : Decidable (WordAligned p) := inferInstanceAs (Decidable (p.toNat % 8 = 0))

/-- The pointer to the word that comes a number of words behind another one. -/
def wordAt (sp : UInt64) (i : Nat) : UInt64 := sp + 8 * UInt64.ofNat i

/-- From a pointer on the memory has these words. -/
def StackHolds (mem : Memory) (sp : UInt64) (words : List UInt64) : Prop :=
  ∀ i word, words[i]? = some word → loadWord mem (wordAt sp i) = word

/-- A word that was stored is read back. -/
theorem loadWord_storeWord (mem : Memory) (p value : UInt64) : loadWord (storeWord mem p value) p = value := by
  rw [loadWord, storeWord, read64_write64 value.toNat_lt, UInt64.ofNat_toNat]

/-- Words at other places are not touched. -/
theorem loadWord_storeWord_of_ne {p q : UInt64} (mem : Memory) (value : UInt64) (one : WordAligned p)
    (other : WordAligned q) (apart : q ≠ p) : loadWord (storeWord mem p value) q = loadWord mem q := by
  -- Places for words are eight bytes apart.
  have differ : q.toNat ≠ p.toNat := fun same => apart (UInt64.toNat_inj.mp same)
  rw [WordAligned] at one other
  rw [loadWord, loadWord, storeWord, read64, write64, readLE_writeLE_apart (by omega), read64]

/-- The number of bytes in front of a word. -/
theorem toNat_wordAt (sp : UInt64) (i : Nat) : (wordAt sp i).toNat = (sp.toNat + 8 * i) % 2 ^ 64 := by
  rw [wordAt, UInt64.toNat_add, UInt64.toNat_mul, UInt64.toNat_ofNat', show (8 : UInt64).toNat = 8 from rfl]
  omega

/-- Behind a pointer to a place for words all of them are. -/
theorem WordAligned.wordAt {sp : UInt64} (aligned : WordAligned sp) (i : Nat) : WordAligned (wordAt sp i) := by
  rw [WordAligned] at aligned ⊢
  rw [toNat_wordAt]
  omega

@[simp] theorem wordAt_zero (sp : UInt64) : wordAt sp 0 = sp := by
  rw [wordAt, show UInt64.ofNat 0 = 0 from rfl, UInt64.mul_zero, UInt64.add_zero]

/-- Words behind a word. -/
theorem wordAt_wordAt (sp : UInt64) (i j : Nat) : wordAt (wordAt sp i) j = wordAt sp (i + j) := by
  rw [← UInt64.toNat_inj, toNat_wordAt, toNat_wordAt, toNat_wordAt]
  omega

/-- The place below a stack pointer has its words behind it, one after the other. -/
theorem wordAt_below (sp : UInt64) (i : Nat) : wordAt (sp - 8) (i + 1) = wordAt sp i := by
  have low := sp.toNat_lt
  rw [← UInt64.toNat_inj, toNat_wordAt, toNat_wordAt, UInt64.toNat_sub, show (8 : UInt64).toNat = 8 from rfl]
  omega

/-- Places that are fewer than the words of the memory apart are different. -/
theorem wordAt_inj {sp : UInt64} {i j : Nat} (first : i < 2 ^ 61) (second : j < 2 ^ 61) :
    wordAt sp i = wordAt sp j ↔ i = j := by
  rw [← UInt64.toNat_inj, toNat_wordAt, toNat_wordAt]
  omega

section

variable {mem : Memory} {sp : UInt64} {words : List UInt64}

/-- There may be no words. -/
theorem StackHolds.nil : StackHolds mem sp [] := fun i word found => by simp at found

/-- A first word, and those behind it. -/
theorem stackHolds_cons {word : UInt64} :
    StackHolds mem sp (word :: words) ↔ loadWord mem sp = word ∧ StackHolds mem (wordAt sp 1) words := by
  -- The first word lies at the pointer, and the others from the next word on.
  constructor
  · intro holds
    refine ⟨?_, fun i later found => ?_⟩
    · have first := holds 0 word rfl
      rwa [wordAt_zero] at first
    · rw [wordAt_wordAt, Nat.add_comm]
      exact holds (i + 1) later found
  · rintro ⟨first, behind⟩ i other found
    cases i with
    | zero =>
      rw [wordAt_zero, first]
      exact Option.some.inj found
    | succ i =>
      have later := behind i other found
      rwa [wordAt_wordAt, Nat.add_comm] at later

/-- The words behind some others. -/
theorem StackHolds.behind {front : List UInt64} (holds : StackHolds mem sp (front ++ words)) :
    StackHolds mem (wordAt sp front.length) words := by
  intro i word found
  -- Words behind the front are counted from where the front ends.
  rw [wordAt_wordAt]
  refine holds (front.length + i) word ?_
  rwa [List.getElem?_append_right (by omega), Nat.add_sub_cancel_left]

/-- Words that the other memory has as well. -/
theorem StackHolds.congr {other : Memory} (holds : StackHolds mem sp words)
    (same : ∀ i < words.length, loadWord other (wordAt sp i) = loadWord mem (wordAt sp i)) :
    StackHolds other sp words := by
  intro i word found
  -- Each word of the list is read at the same place.
  rw [same i (List.getElem?_eq_some_iff.mp found).1]
  exact holds i word found

/-- A word that is pushed comes in front of the others. -/
theorem StackHolds.push (holds : StackHolds mem sp words) (aligned : WordAligned sp) (few : words.length < 2 ^ 60)
    (value : UInt64) : StackHolds (storeWord mem (sp - 8) value) (sp - 8) (value :: words) := by
  have place : WordAligned (sp - 8) := by
    have low := sp.toNat_lt
    rw [WordAligned] at aligned ⊢
    rw [UInt64.toNat_sub, show (8 : UInt64).toNat = 8 from rfl]
    omega
  refine stackHolds_cons.mpr ⟨loadWord_storeWord mem _ value, ?_⟩
  rw [wordAt_below, wordAt_zero]
  refine holds.congr fun i inside => loadWord_storeWord_of_ne mem value place (aligned.wordAt i) fun same => ?_
  -- The place below is not one of those behind it.
  have differ := (@wordAt_inj (sp - 8) (i + 1) 0 (by omega) (by omega)).mp (by rw [wordAt_below, same, wordAt_zero])
  omega

end

end Machine
