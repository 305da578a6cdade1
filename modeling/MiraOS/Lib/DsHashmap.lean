import Mathlib.Data.List.Perm.Subperm
import MiraOS.Lib.DsArray
import MiraOS.Machine.Histories
import MiraOS.Machine.Keyed

/-! The maps of lib/common/ds.c, and when they are the finite maps that their calls mean. -/

namespace MiraOS

open Machine

/-- A map: keys and values in two arrays of bytes, one entry after another. -/
structure DsHashmap where
  keys : List UInt8
  values : List UInt8
  keySize : Nat
  valueSize : Nat
  capacity : Nat
  count : Nat
  deriving DecidableEq

/-- Make a map in the memory that is given for it, for its keys and for its values. -/
def dsHashmapCreate (keySize valueSize capacity : Nat) (map : Bool) (keys values : Option (Nat → UInt8)) :
    Option DsHashmap :=
  if map then
    match keys, values with
    | some keys, some values =>
      some ⟨slots keys (sizeMul keySize capacity), slots values (sizeMul valueSize capacity), keySize,
        valueSize, capacity, 0⟩
    -- Without memory for one of the arrays what was taken is given back.
    | _, _ => none
  else none

/-- Add an entry behind the others, unless the map is full. -/
def dsHashmapSet (map : DsHashmap) (key value : Option (List UInt8)) : Except Halt (DsHashmap × Bool) :=
  match key, value with
  | some key, some value =>
    -- A key that is there already is not looked for.
    if map.capacity ≤ map.count then .ok (map, false)
    else do
      let keys ← storeElement map.keySize map.count key map.keys
      let values ← storeElement map.valueSize map.count value map.values
      return ({ map with keys := keys, values := values, count := map.count + 1 }, true)
  | _, _ => .ok (map, false)

/-- Compare the bytes of an array, from an offset on, with those of a key. -/
def matchLoop (data : List UInt8) (offset : Nat) (key : List UInt8) : Nat → Nat → Except Halt Bool
  | 0, _ => .ok true
  | turns + 1, j => do
    let stored ← loadByte data (offset + j)
    let wanted ← loadByte key j
    -- The first byte that differs ends the comparison.
    if stored ≠ wanted then return false else matchLoop data offset key turns (j + 1)

/-- Look for the first entry of a key. -/
def entryLoop (map : DsHashmap) (key : List UInt8) : Nat → Nat → Except Halt (Option Nat)
  | 0, _ => .ok none
  | turns + 1, i => do
    let found ← matchLoop map.keys (sizeMul i map.keySize) key map.keySize 0
    if found then return some i else entryLoop map key turns (i + 1)

/-- Where the value of the first entry of a key starts. -/
def dsHashmapGet (map : DsHashmap) (key : Option (List UInt8)) : Except Halt (Option Nat) :=
  match key with
  | none => .ok none
  | some key => do
    match ← entryLoop map key map.count 0 with
    -- The caller gets a pointer into the array of values.
    | some i => return some (sizeMul i map.valueSize)
    | none => return none

/-- Move the entries behind an index down by one place, a key and a value at a time. -/
def moveEntries (keySize valueSize : Nat) :
    Nat → Nat → List UInt8 → List UInt8 → Except Halt (List UInt8 × List UInt8)
  | _, 0, keys, values => .ok (keys, values)
  | k, turns + 1, keys, values => do
    let keys ← moveLoop (sizeMul k keySize) (sizeMul (k + 1) keySize) keySize 0 keys
    let values ← moveLoop (sizeMul k valueSize) (sizeMul (k + 1) valueSize) valueSize 0 values
    moveEntries keySize valueSize (k + 1) turns keys values

/-- Take the first entry of a key out. -/
def dsHashmapRemove (map : DsHashmap) (key : Option (List UInt8)) : Except Halt (DsHashmap × Bool) :=
  match key with
  | none => .ok (map, false)
  | some key => do
    match ← entryLoop map key map.count 0 with
    -- One entry goes, and the search ends with it.
    | some i =>
      let (keys, values) ← moveEntries map.keySize map.valueSize i (map.count - 1 - i) map.keys map.values
      return ({ map with keys := keys, values := values, count := map.count - 1 }, true)
    | none => return (map, false)

/-- A use of a map. -/
inductive HashmapUse where
  | set (key value : List UInt8)
  | get (key : List UInt8)
  | remove (key : List UInt8)

/-- What a use answers: whether it did something, or the bytes of a value. -/
inductive HashmapAnswer where
  | done (success : Bool)
  | value (bytes : Option (List UInt8))
  deriving DecidableEq

/-- A map after a use, and the answer. -/
def dsHashmapStep (map : DsHashmap) : HashmapUse → Except Halt (DsHashmap × HashmapAnswer)
  | .set key value => do
    let (map, success) ← dsHashmapSet map (some key) (some value)
    return (map, .done success)
  | .get key => do
    let start ← dsHashmapGet map (some key)
    -- What is read at the pointer is one value.
    return (map, .value (start.map fun start => (map.values.drop start).take map.valueSize))
  | .remove key => do
    let (map, success) ← dsHashmapRemove map (some key)
    return (map, .done success)

/-- The entries of a map in their order. -/
def DsHashmap.entries (map : DsHashmap) : List (List UInt8 × List UInt8) :=
  slots (fun i => (cell map.keySize map.keys i, cell map.valueSize map.values i)) map.count

/-- The finite map that the uses of a map mean. -/
abbrev MapMeaning : Type := List UInt8 → Option (List UInt8)

/-- A successful use changes what the map means for its key. -/
def meaningStep (meaning : MapMeaning) : HashmapUse → HashmapAnswer → MapMeaning
  | .set key value, .done true => Function.update meaning key (some value)
  | .remove key, .done true => Function.update meaning key none
  | _, _ => meaning

/-- The answer of a use is the one of the finite map, which holds at most a number of keys. -/
def AnswerRight (capacity : Nat) (meaning : MapMeaning) : HashmapUse → HashmapAnswer → Prop
  -- A key that is there already or fits in beside the others has to be taken.
  | .set key _, .done success => success = false → meaning key = none ∧
    ∃ held : List (List UInt8), held.Nodup ∧ held.length = capacity ∧ ∀ other ∈ held, meaning other ≠ none
  | .get key, .value bytes => bytes = meaning key
  | .remove key, .done success => success = (meaning key).isSome
  | _, _ => False

/-- A map in use, with what its uses mean so far. -/
abbrev MapHistory : Type := Except Halt (DsHashmap × MapMeaning)

/-- The history after one more use. -/
def historyStep (history : MapHistory) (use : HashmapUse) : MapHistory := do
  let (map, meaning) ← history
  let (map, answer) ← dsHashmapStep map use
  return (map, meaningStep meaning use answer)

/-- The history of the uses of a map. -/
def mapHistory (map : DsHashmap) (uses : List HashmapUse) : MapHistory :=
  uses.foldl historyStep (.ok (map, fun _ => none))

/-- Every key is found with the value that it means. -/
def MapHistory.Faithful (history : MapHistory) : Prop :=
  ∃ map meaning, history = .ok (map, meaning) ∧ ∀ key, key.length = map.keySize →
    dsHashmapStep map (.get key) = .ok (map, .value (meaning key))

/-- A use is answered as the finite map answers. -/
def MapHistory.Answers (history : MapHistory) (use : HashmapUse) : Prop :=
  ∃ map meaning after answer, history = .ok (map, meaning) ∧ dsHashmapStep map use = .ok (after, answer) ∧
    AnswerRight map.capacity meaning use answer

/-- The bytes at the pointers of a use have the sizes of the map. -/
def HashmapUse.Sized (keySize valueSize : Nat) : HashmapUse → Prop
  | .set key value => key.length = keySize ∧ value.length = valueSize
  | .get key => key.length = keySize
  | .remove key => key.length = keySize

/-- An entry more lies inside the arrays, whose sizes are words. -/
def DsHashmap.Fits (map : DsHashmap) : Prop :=
  map.count * map.keySize + map.keySize ≤ sizeMul map.keySize map.capacity ∧
    map.count * map.valueSize + map.valueSize ≤ sizeMul map.valueSize map.capacity

/-- A use that keeps the map faithful: a new entry lies inside the arrays and its key has no entry or
another one of the same value first, a map is full with different keys only, and a key that is removed
has one entry at most. -/
def HashmapUse.Safe (map : DsHashmap) : HashmapUse → Prop
  | .set key value =>
    if map.count < map.capacity then
      map.Fits ∧ ∀ entry, keyed Prod.fst map.entries key = some entry → entry.2 = value
    else (map.entries.map Prod.fst).Nodup ∧ key ∉ map.entries.map Prod.fst
  | .get _ => True
  | .remove key => (map.entries.filter (·.1 = key)).length ≤ 1

instance DsHashmap.decidableFits (map : DsHashmap) : Decidable map.Fits :=
  inferInstanceAs (Decidable (_ ∧ _))

instance HashmapUse.decidableSafe (map : DsHashmap) : (use : HashmapUse) → Decidable (use.Safe map)
  | .set key value =>
    inferInstanceAs (Decidable (if map.count < map.capacity then
      map.Fits ∧ ∀ entry ∈ keyed Prod.fst map.entries key, entry.2 = value
    else (map.entries.map Prod.fst).Nodup ∧ key ∉ map.entries.map Prod.fst))
  | .get _ => inferInstanceAs (Decidable True)
  | .remove key => inferInstanceAs (Decidable ((map.entries.filter (·.1 = key)).length ≤ 1))

/-- What holds of a map in every history. -/
structure DsHashmap.Holds (map : DsHashmap) : Prop where
  bounded : map.count ≤ map.capacity
  keyRoom : map.keys.length = sizeMul map.keySize map.capacity
  valueRoom : map.values.length = sizeMul map.valueSize map.capacity
  keysInside : map.count * map.keySize ≤ map.keys.length
  valuesInside : map.count * map.valueSize ≤ map.values.length

/-- A map is used with the sizes and the capacity of another one. -/
structure DsHashmap.LikeIn (map after : DsHashmap) : Prop where
  keySize : after.keySize = map.keySize
  valueSize : after.valueSize = map.valueSize
  capacity : after.capacity = map.capacity

/-- Sizes are words. -/
theorem sizeMul_lt (a b : Nat) : sizeMul a b < 2 ^ 64 := Nat.mod_lt _ (by decide)

/-- The comparison of a cell with a key. -/
theorem matchLoop_eq {data key : List UInt8} {offset j turns : Nat} (inside : offset + j + turns ≤ data.length)
    (full : j + turns ≤ key.length) :
    matchLoop data offset key turns j =
      .ok (decide ((data.drop (offset + j)).take turns = (key.drop j).take turns)) := by
  -- The first bytes decide unless they are equal.
  induction turns generalizing j with
  | zero => simp [matchLoop]
  | succ turns ih =>
    have stored : offset + j < data.length := by omega
    have wanted : j < key.length := by omega
    rw [matchLoop, loadByte_inside stored, ok_bind, loadByte_inside wanted, ok_bind,
      List.drop_eq_getElem_cons stored, List.drop_eq_getElem_cons wanted, List.take_succ_cons,
      List.take_succ_cons]
    by_cases same : data[offset + j] = key[j]
    · rw [if_neg (by simpa using same), @ih (j + 1) (by omega) (by omega)]
      simp [same, Nat.add_assoc]
    · rw [if_pos same]
      simp only [List.cons.injEq, same, false_and, decide_false]
      rfl

section

variable {map : DsHashmap} {key : List UInt8}

theorem DsHashmap.entries_length (map : DsHashmap) : map.entries.length = map.count := slots_length _ _

/-- An entry in use lies inside the arrays. -/
theorem DsHashmap.Holds.inside (holds : map.Holds) {i : Nat} (used : i < map.count) :
    i * map.keySize + map.keySize ≤ map.keys.length ∧
      i * map.valueSize + map.valueSize ≤ map.values.length :=
  ⟨Nat.le_trans (cell_end_le used _) holds.keysInside, Nat.le_trans (cell_end_le used _) holds.valuesInside⟩

/-- The arrays are not longer than words can say. -/
theorem DsHashmap.Holds.words (holds : map.Holds) : map.keys.length < 2 ^ 64 ∧ map.values.length < 2 ^ 64 := by
  rw [holds.keyRoom, holds.valueRoom]
  exact ⟨sizeMul_lt _ _, sizeMul_lt _ _⟩

theorem DsHashmap.entries_getElem? (map : DsHashmap) (i : Nat) :
    map.entries[i]? = if i < map.count then
      some (cell map.keySize map.keys i, cell map.valueSize map.values i) else none := slots_getElem? _ _ _

/-- Looking for a key from an entry on finds the first entry of the key behind it. -/
theorem entryLoop_from (holds : map.Holds) (sized : key.length = map.keySize) {turns i : Nat}
    (rest : i + turns = map.count) :
    entryLoop map key turns i = .ok (((map.entries.drop i).findIdx? (·.1 = key)).map (· + i)) := by
  -- What is left to look through gets shorter from the front.
  induction turns generalizing i with
  | zero =>
    rw [List.drop_eq_nil_of_le (by rw [map.entries_length]; omega)]
    rfl
  | succ turns ih =>
    have used : i < map.count := by omega
    have there : i < map.entries.length := by rw [map.entries_length]; exact used
    have inside := (holds.inside used).1
    have words := holds.words.1
    -- The entry is inside of the keys, whose length is a word, so the product is not wrapped.
    have exact : sizeMul i map.keySize = i * map.keySize := Nat.mod_eq_of_lt (by omega)
    have entry : map.entries[i] = (cell map.keySize map.keys i, cell map.valueSize map.values i) := by
      have found := map.entries_getElem? i
      rw [if_pos used, List.getElem?_eq_getElem there] at found
      exact Option.some.inj found
    -- The bytes of the entry are compared with all of those of the key.
    have whole : key.take map.keySize = key := List.take_of_length_le (by omega)
    have compared : matchLoop map.keys (i * map.keySize) key map.keySize 0 =
        .ok (decide (cell map.keySize map.keys i = key)) := by
      rw [matchLoop_eq (by omega) (by omega), Nat.add_zero, List.drop_zero, whole, cell]
    rw [entryLoop, exact, compared, ok_bind, List.drop_eq_getElem_cons there, List.findIdx?_cons, entry]
    by_cases same : cell map.keySize map.keys i = key
    · simp [same]
      rfl
    · simp only [same, decide_false]
      rw [if_neg Bool.false_ne_true, if_neg Bool.false_ne_true, @ih (i + 1) (by omega), Option.map_map]
      -- Found one place further on from the next entry is found there from this one.
      congr 2
      funext later
      simp only [Function.comp_apply]
      omega

/-- Looking for a key finds its first entry. -/
theorem entryLoop_eq (holds : map.Holds) (sized : key.length = map.keySize) :
    entryLoop map key map.count 0 = .ok (map.entries.findIdx? (·.1 = key)) := by
  rw [entryLoop_from holds sized (Nat.zero_add _), List.drop_zero]
  simp

/-- The answer of a read is the value of the first entry of the key. -/
theorem get_eq (holds : map.Holds) (sized : key.length = map.keySize) :
    dsHashmapStep map (.get key) = .ok (map, .value ((keyed Prod.fst map.entries key).map Prod.snd)) := by
  rw [dsHashmapStep, dsHashmapGet, entryLoop_eq holds sized, ok_bind]
  cases found : map.entries.findIdx? (·.1 = key) with
  | none =>
    have absent : keyed Prod.fst map.entries key = none :=
      keyed_eq_none.mpr (findIdx?_key_eq_none.mp found)
    rw [absent]
    rfl
  | some i =>
    -- The entry that is found is in use, so its value is inside of the values.
    obtain ⟨entry, here, -, first⟩ := @getElem?_of_findIdx? _ _ _ Prod.fst _ _ _ found
    rw [map.entries_getElem?] at here
    split_ifs at here with used
    have inside := (holds.inside used).2
    have words := holds.words.2
    have exact : sizeMul i map.valueSize = i * map.valueSize := Nat.mod_eq_of_lt (by omega)
    -- What is read at the pointer is the cell of the entry.
    rw [first, ← Option.some.inj here]
    dsimp only
    rw [exact]
    rfl

/-- A new entry inside the arrays stands behind the others. -/
theorem set_eq (holds : map.Holds) {value : List UInt8} (keySized : key.length = map.keySize)
    (valueSized : value.length = map.valueSize) (free : map.count < map.capacity) (fits : map.Fits) :
    ∃ after, dsHashmapStep map (.set key value) = .ok (after, .done true) ∧ after.Holds ∧ map.LikeIn after ∧
      after.entries = map.entries ++ [(key, value)] := by
  obtain ⟨keysWord, valuesWord⟩ := holds.words
  have keyFits : map.count * map.keySize + map.keySize ≤ map.keys.length := holds.keyRoom ▸ fits.1
  have valueFits : map.count * map.valueSize + map.valueSize ≤ map.values.length := holds.valueRoom ▸ fits.2
  -- Both stores stay inside of their arrays.
  have keyStored := storeElement_fits keySized keyFits keysWord
  have valueStored := storeElement_fits valueSized valueFits valuesWord
  have keyLength : (overlay map.keys (map.count * map.keySize) key).length = map.keys.length := by
    rw [overlay_length (by omega)]
    omega
  have valueLength : (overlay map.values (map.count * map.valueSize) value).length = map.values.length := by
    rw [overlay_length (by omega)]
    omega
  refine ⟨⟨overlay map.keys (map.count * map.keySize) key,
    overlay map.values (map.count * map.valueSize) value, map.keySize, map.valueSize, map.capacity,
    map.count + 1⟩, ?_, ?_, ⟨rfl, rfl, rfl⟩, ?_⟩
  · -- The two stores and the count are all that the code does.
    rw [dsHashmapStep, dsHashmapSet, if_neg (by omega), keyStored, ok_bind, valueStored]
    rfl
  · refine ⟨free, keyLength.trans holds.keyRoom, valueLength.trans holds.valueRoom, ?_, ?_⟩
    · dsimp only
      rw [keyLength, Nat.succ_mul]
      exact keyFits
    · dsimp only
      rw [valueLength, Nat.succ_mul]
      exact valueFits
  · -- The entries are the old ones and the pair behind them.
    rw [DsHashmap.entries, DsHashmap.entries, ← slots_push]
    dsimp only
    rw [cell_overlay keySized keyFits, cell_overlay valueSized valueFits]
    refine slots_congr fun i _ => ?_
    -- Only the place behind the last entry has changed.
    by_cases last : i = map.count
    · rw [last, Function.update_self, Function.update_self, Function.update_self]
    · rw [Function.update_of_ne last, Function.update_of_ne last, Function.update_of_ne last]

/-- A new entry outside the arrays stops the code. -/
theorem set_outside (holds : map.Holds) {value : List UInt8} (keySized : key.length = map.keySize)
    (valueSized : value.length = map.valueSize) (free : map.count < map.capacity) (outside : ¬ map.Fits) :
    dsHashmapStep map (.set key value) = .error .outOfBounds := by
  obtain ⟨keysWord, valuesWord⟩ := holds.words
  rw [DsHashmap.Fits, ← holds.keyRoom, ← holds.valueRoom] at outside
  rw [dsHashmapStep, dsHashmapSet, if_neg (by omega)]
  by_cases keyFits : map.count * map.keySize + map.keySize ≤ map.keys.length
  · -- The key is stored, and the value passes the end of its array.
    have past : map.values.length < map.count * map.valueSize + map.valueSize :=
      Nat.lt_of_not_le fun fits => outside ⟨keyFits, fits⟩
    rw [storeElement_fits keySized keyFits keysWord, ok_bind,
      storeElement_outside valueSized holds.valuesInside past valuesWord]
    rfl
  · -- The key passes the end of its array before the value is looked at.
    rw [storeElement_outside keySized holds.keysInside (Nat.lt_of_not_le keyFits) keysWord]
    rfl

/-- A full map takes no entry. -/
theorem set_full (full : ¬ map.count < map.capacity) (key value : List UInt8) :
    dsHashmapStep map (.set key value) = .ok (map, .done false) := by
  rw [dsHashmapStep, dsHashmapSet, if_pos (by omega)]
  rfl

/-- Moving entries moves their keys and their values. -/
theorem moveEntries_eq {keySize valueSize k turns : Nat} {keys values movedKeys movedValues : List UInt8}
    (keysMove : moveElements keySize k turns keys = .ok movedKeys)
    (valuesMove : moveElements valueSize k turns values = .ok movedValues) :
    moveEntries keySize valueSize k turns keys values = .ok (movedKeys, movedValues) := by
  induction turns generalizing k keys values with
  | zero =>
    obtain rfl := Except.ok.inj keysMove
    obtain rfl := Except.ok.inj valuesMove
    rfl
  | succ turns ih =>
    -- A turn of both is a turn of the one and a turn of the other.
    obtain ⟨nextKeys, keysMoved, keysRest⟩ := bind_eq_ok.mp keysMove
    obtain ⟨nextValues, valuesMoved, valuesRest⟩ := bind_eq_ok.mp valuesMove
    rw [moveEntries, keysMoved, ok_bind, valuesMoved, ok_bind]
    exact ih keysRest valuesRest

/-- A removal takes the first entry of the key out. -/
theorem remove_eq (holds : map.Holds) (sized : key.length = map.keySize) {i : Nat}
    (found : map.entries.findIdx? (·.1 = key) = some i) :
    ∃ after, dsHashmapStep map (.remove key) = .ok (after, .done true) ∧ after.Holds ∧ map.LikeIn after ∧
      after.entries = map.entries.eraseIdx i := by
  obtain ⟨keysWord, valuesWord⟩ := holds.words
  have used : i < map.count := by
    obtain ⟨inside, -⟩ := List.findIdx?_eq_some_iff_getElem.mp found
    rwa [map.entries_length] at inside
  have last : i + (map.count - 1 - i) < map.count := by omega
  -- The last entry that moves is in use, so no read passes the arrays.
  obtain ⟨keyInside, valueInside⟩ := holds.inside last
  obtain ⟨keys, keysMove, keyLength, keyCells⟩ := moveElements_fits keyInside keysWord
  obtain ⟨values, valuesMove, valueLength, valueCells⟩ := moveElements_fits valueInside valuesWord
  have bounded := holds.bounded
  have less : map.count - 1 ≤ map.count := Nat.sub_le _ _
  refine ⟨⟨keys, values, map.keySize, map.valueSize, map.capacity, map.count - 1⟩, ?_, ?_,
    ⟨rfl, rfl, rfl⟩, ?_⟩
  · rw [dsHashmapStep, dsHashmapRemove, entryLoop_eq holds sized, ok_bind, found]
    dsimp only
    rw [moveEntries_eq keysMove valuesMove]
    rfl
  · refine ⟨Nat.le_trans less bounded, keyLength.trans holds.keyRoom,
      valueLength.trans holds.valueRoom, ?_, ?_⟩
    · rw [keyLength]
      exact Nat.le_trans (Nat.mul_le_mul_right _ less) holds.keysInside
    · rw [valueLength]
      exact Nat.le_trans (Nat.mul_le_mul_right _ less) holds.valuesInside
  · rw [DsHashmap.entries, DsHashmap.entries, ← slots_shiftDown _ used]
    dsimp only
    -- Keys and values are shifted over the same place.
    rw [keyCells, valueCells]
    refine slots_congr fun j _ => ?_
    rw [shiftDown_apply, shiftDown_apply, shiftDown_apply]
    split_ifs <;> rfl

/-- Nothing is removed without an entry of the key. -/
theorem remove_absent (holds : map.Holds) (sized : key.length = map.keySize)
    (absent : map.entries.findIdx? (·.1 = key) = none) :
    dsHashmapStep map (.remove key) = .ok (map, .done false) := by
  rw [dsHashmapStep, dsHashmapRemove, entryLoop_eq holds sized, ok_bind, absent]
  rfl

end

/-- What holds of every history of uses of the sizes of the map. -/
def MapHistory.Based (keySize valueSize : Nat) (history : MapHistory) : Prop :=
  ∀ map meaning, history = .ok (map, meaning) →
    map.Holds ∧ map.keySize = keySize ∧ map.valueSize = valueSize ∧
      ∀ key, meaning key ≠ none → key.length = keySize

section

variable {map : DsHashmap} {meaning : MapMeaning}

/-- A history goes on from a map that is in use. -/
theorem historyStep_eq {use : HashmapUse} {after : DsHashmap} {answer : HashmapAnswer}
    (stepped : dsHashmapStep map use = .ok (after, answer)) :
    historyStep (.ok (map, meaning)) use = .ok (after, meaningStep meaning use answer) := by
  -- The code's step and the meaning's step are taken side by side.
  rw [historyStep, ok_bind]
  dsimp only
  rw [stepped]
  rfl

/-- A map is faithful when the first entry of every key has the value that it means. -/
theorem faithful_iff (holds : map.Holds) :
    MapHistory.Faithful (.ok (map, meaning)) ↔ ∀ key, key.length = map.keySize →
      (keyed Prod.fst map.entries key).map Prod.snd = meaning key := by
  constructor
  · rintro ⟨same, means, first, found⟩ key sized
    -- The history says which map and which meaning are read.
    obtain ⟨rfl, rfl⟩ := Prod.mk.inj (Except.ok.inj first)
    have read := found key sized
    rw [get_eq holds sized] at read
    simpa using read
  · intro found
    refine ⟨map, meaning, rfl, fun key sized => ?_⟩
    rw [get_eq holds sized, found key sized]

/-- The answer of a use of a map that is in use. -/
theorem answers_iff {use : HashmapUse} {after : DsHashmap} {answer : HashmapAnswer}
    (stepped : dsHashmapStep map use = .ok (after, answer)) :
    MapHistory.Answers (.ok (map, meaning)) use ↔ AnswerRight map.capacity meaning use answer := by
  -- A step has one result, which is the one that was given.
  constructor
  · rintro ⟨same, means, next, given, first, ran, right⟩
    obtain ⟨rfl, rfl⟩ := Prod.mk.inj (Except.ok.inj first)
    rw [stepped] at ran
    obtain ⟨-, rfl⟩ := Prod.mk.inj (Except.ok.inj ran)
    exact right
  · intro right
    exact ⟨map, meaning, after, answer, rfl, stepped, right⟩

/-- A full map that is faithful is right to refuse an entry exactly when its keys are different ones. -/
theorem refusal_iff (holds : map.Holds) (full : ¬ map.count < map.capacity) {key : List UInt8}
    (sized : key.length = map.keySize) (wide : ∀ key, meaning key ≠ none → key.length = map.keySize)
    (found : ∀ key, key.length = map.keySize →
      (keyed Prod.fst map.entries key).map Prod.snd = meaning key) :
    (meaning key = none ∧ ∃ held : List (List UInt8), held.Nodup ∧ held.length = map.capacity ∧
        ∀ other ∈ held, meaning other ≠ none) ↔
      (map.entries.map Prod.fst).Nodup ∧ key ∉ map.entries.map Prod.fst := by
  have bounded := holds.bounded
  -- A full map has as many entries as it has room for.
  have length : (map.entries.map Prod.fst).length = map.capacity := by
    rw [List.length_map, map.entries_length]
    omega
  -- A key means something exactly when it has an entry.
  have present : ∀ other, other.length = map.keySize →
      (meaning other = none ↔ other ∉ map.entries.map Prod.fst) := by
    intro other sized
    rw [← found other sized, Option.map_eq_none_iff, keyed_eq_none]
  rw [present key sized, and_comm]
  refine and_congr_left fun _ => ?_
  constructor
  · rintro ⟨held, distinct, many, means⟩
    -- The keys that are held are all the keys of the entries, as many as these are.
    have among : held ⊆ map.entries.map Prod.fst := by
      intro other member
      by_contra absent
      exact means other member ((present other (wide other (means other member))).mpr absent)
    have same := (distinct.subperm among).perm_of_length_le (by omega)
    exact same.nodup_iff.mp distinct
  · intro distinct
    refine ⟨map.entries.map Prod.fst, distinct, length, fun other member none => ?_⟩
    -- The keys of the entries have the size of a key.
    have size : other.length = map.keySize := by
      obtain ⟨entry, listed, rfl⟩ := List.mem_map.mp member
      obtain ⟨i, used, rfl⟩ := mem_slots.mp listed
      exact cell_length (holds.inside used).1
    exact (present other size).mp none member

/-- From a faithful map, a use is answered right and leads to a faithful map exactly when it is safe. -/
theorem historyStep_right_iff (holds : map.Holds) {use : HashmapUse}
    (sized : use.Sized map.keySize map.valueSize)
    (wide : ∀ key, meaning key ≠ none → key.length = map.keySize)
    (faithful : MapHistory.Faithful (.ok (map, meaning))) :
    (MapHistory.Faithful (historyStep (.ok (map, meaning)) use) ∧
        MapHistory.Answers (.ok (map, meaning)) use) ↔ use.Safe map := by
  have found := (faithful_iff holds).mp faithful
  cases use with
  | set key value =>
    obtain ⟨keySized, valueSized⟩ := sized
    rw [HashmapUse.Safe]
    by_cases free : map.count < map.capacity
    · rw [if_pos free]
      by_cases fits : map.Fits
      · -- The entry is taken, which is never the wrong answer.
        obtain ⟨after, stepped, kept, like, listed⟩ := set_eq holds keySized valueSized free fits
        rw [historyStep_eq stepped, answers_iff stepped, faithful_iff kept, listed, like.keySize, meaningStep]
        have right : AnswerRight map.capacity meaning (.set key value) (.done true) := by
          rw [AnswerRight]
          exact fun failed => absurd failed (by decide)
        simp only [right, and_true, fits, true_and, keyed_append]
        constructor
        · intro reads entry first
          -- An older entry of the key hides the new one, so it has to have its value.
          have read := reads key keySized
          rw [first, Function.update_self] at read
          simpa using read
        · intro first other otherSized
          by_cases same : other = key
          · -- The new entry is found, or an older one with its value.
            rw [same, Function.update_self]
            cases older : keyed Prod.fst map.entries key with
            | none => simp
            | some entry => simp [first entry older]
          · rw [Function.update_of_ne same, if_neg (Ne.symm same), Option.or_none]
            exact found other otherSized
      · -- The code stops, and no history goes on from there.
        have stopped := set_outside holds keySized valueSized free fits
        simp only [fits, false_and, iff_false]
        rintro ⟨-, same, means, next, given, first, ran, -⟩
        obtain ⟨rfl, rfl⟩ := Prod.mk.inj (Except.ok.inj first)
        rw [stopped] at ran
        cases ran
    · -- A refusal changes nothing, so only the answer can be wrong.
      have stepped := set_full free key value
      rw [if_neg free, historyStep_eq stepped, answers_iff stepped, AnswerRight,
        ← refusal_iff holds free keySized wide found]
      simp [meaningStep, faithful]
  | get key =>
    -- A faithful map answers a read with what the key means.
    have stepped := get_eq holds sized
    rw [historyStep_eq stepped, answers_iff stepped, AnswerRight, found key sized]
    simp [meaningStep, faithful, HashmapUse.Safe]
  | remove key =>
    rw [HashmapUse.Safe]
    have values := found key sized
    cases first : map.entries.findIdx? (·.1 = key) with
    | none =>
      -- Without an entry the key means nothing, and nothing is what was removed.
      have stepped := remove_absent holds sized first
      have absent := findIdx?_key_eq_none.mp first
      rw [keyed_eq_none.mpr absent] at values
      have none : map.entries.filter (·.1 = key) = [] := by
        rw [List.filter_eq_nil_iff]
        intro entry listed
        simpa using fun same : entry.1 = key => absent (same ▸ List.mem_map_of_mem listed)
      rw [historyStep_eq stepped, answers_iff stepped, AnswerRight, ← values, none]
      simp [meaningStep, faithful]
    | some i =>
      obtain ⟨after, stepped, kept, like, listed⟩ := remove_eq holds sized first
      obtain ⟨entry, -, -, present⟩ := @getElem?_of_findIdx? _ _ _ Prod.fst _ _ _ first
      -- The first entry of the key is gone.
      have erased : after.entries = map.entries.eraseP (·.1 = key) := by
        rw [listed, List.eraseP_eq_eraseIdx, first]
      have right : AnswerRight map.capacity meaning (.remove key) (.done true) := by
        rw [AnswerRight, ← values, present]
        rfl
      rw [historyStep_eq stepped, answers_iff stepped, faithful_iff kept, erased, like.keySize, meaningStep]
      simp only [right, and_true, keyed_eq_head?, filter_eraseP]
      -- What is left of the key is found, and nothing may be left.
      have left : ((map.entries.filter (·.1 = key)).tail.head?).map Prod.snd = none ↔
          (map.entries.filter (·.1 = key)).length ≤ 1 := by
        rw [Option.map_eq_none_iff, List.head?_eq_none_iff, ← List.length_eq_zero_iff, List.length_tail]
        omega
      rw [← left]
      constructor
      · intro reads
        have read := reads key sized
        rwa [if_pos rfl, Function.update_self] at read
      · intro gone other otherSized
        by_cases same : other = key
        · rw [if_pos same, same, Function.update_self]
          exact gone
        · rw [if_neg same, Function.update_of_ne same, ← keyed_eq_head?]
          exact found other otherSized

/-- Every use of the sizes of the map keeps what holds of all histories. -/
theorem MapHistory.Based.step {keySize valueSize : Nat} {history : MapHistory} {use : HashmapUse}
    (based : history.Based keySize valueSize) (sized : use.Sized keySize valueSize) :
    (historyStep history use).Based keySize valueSize := by
  intro after later ran
  -- A step that goes on had a map before it and ran the use on it.
  obtain ⟨⟨map, meaning⟩, rfl, stepped⟩ := bind_eq_ok.mp ran
  obtain ⟨⟨next, answer⟩, one, same⟩ := bind_eq_ok.mp stepped
  obtain ⟨rfl, rfl⟩ := Prod.mk.inj (Except.ok.inj same)
  obtain ⟨holds, rfl, rfl, wide⟩ := based map meaning rfl
  cases use with
  | set key value =>
    obtain ⟨keySized, valueSized⟩ := sized
    -- A new entry gives a meaning to its own key only, which has the right size.
    have widened : ∀ other, meaningStep meaning (.set key value) (.done true) other ≠ none →
        other.length = map.keySize := by
      intro other means
      rw [meaningStep] at means
      by_cases same : other = key
      · rw [same, keySized]
      · rw [Function.update_of_ne same] at means
        exact wide other means
    -- A map with room stores the pair, one without room returns it unchanged.
    by_cases free : map.count < map.capacity
    · by_cases fits : map.Fits
      · obtain ⟨after, stepped, kept, like, -⟩ := set_eq holds keySized valueSized free fits
        rw [stepped] at one
        obtain ⟨rfl, rfl⟩ := Prod.mk.inj (Except.ok.inj one)
        exact ⟨kept, like.keySize, like.valueSize, widened⟩
      · rw [set_outside holds keySized valueSized free fits] at one
        cases one
    · rw [set_full free] at one
      obtain ⟨rfl, rfl⟩ := Prod.mk.inj (Except.ok.inj one)
      exact ⟨holds, rfl, rfl, wide⟩
  | get key =>
    rw [get_eq holds sized] at one
    obtain ⟨rfl, rfl⟩ := Prod.mk.inj (Except.ok.inj one)
    exact ⟨holds, rfl, rfl, wide⟩
  | remove key =>
    -- An absent key removes nothing, a key that is there removes its first pair.
    cases first : map.entries.findIdx? (·.1 = key) with
    | none =>
      rw [remove_absent holds sized first] at one
      obtain ⟨rfl, rfl⟩ := Prod.mk.inj (Except.ok.inj one)
      exact ⟨holds, rfl, rfl, wide⟩
    | some i =>
      obtain ⟨after, stepped, kept, like, -⟩ := remove_eq holds sized first
      rw [stepped] at one
      obtain ⟨rfl, rfl⟩ := Prod.mk.inj (Except.ok.inj one)
      -- A removal takes a meaning away.
      refine ⟨kept, like.keySize, like.valueSize, fun other means => ?_⟩
      rw [meaningStep] at means
      by_cases same : other = key
      · rw [same, Function.update_self] at means
        exact absurd rfl means
      · rw [Function.update_of_ne same] at means
        exact wide other means

end

/--
A map is the finite map that its uses mean, throughout a history, exactly when every use is safe.

Setting a key again adds an entry behind the first one, which is the one that is found, takes up room of
its own and comes to light when the first one is removed.
-/
theorem dsHashmap_refines_iff {keySize valueSize capacity : Nat} {made : Bool}
    {keys values : Option (Nat → UInt8)} {map : DsHashmap}
    (created : dsHashmapCreate keySize valueSize capacity made keys values = some map)
    (uses : List HashmapUse) (sized : ∀ use ∈ uses, use.Sized keySize valueSize) :
    ((∀ before, before <+: uses → (mapHistory map before).Faithful) ∧
        ∀ before use, before ++ [use] <+: uses → (mapHistory map before).Answers use) ↔
      ∀ before use, before ++ [use] <+: uses →
        ∀ now meaning, mapHistory map before = .ok (now, meaning) → use.Safe now := by
  -- A new map has no entries and whole arrays.
  have start : map.Holds ∧ map.keySize = keySize ∧ map.valueSize = valueSize ∧ map.entries = [] := by
    rw [dsHashmapCreate.eq_def] at created
    split_ifs at created
    split at created
    · obtain rfl := Option.some.inj created
      refine ⟨⟨Nat.zero_le _, slots_length _ _, slots_length _ _, ?_, ?_⟩, rfl, rfl, rfl⟩
      · simp
      · simp
    · cases created
  obtain ⟨holds, rfl, rfl, empty⟩ := start
  -- Which uses are right is decided one step at a time.
  refine @history_right_iff _ _ historyStep _ uses (MapHistory.Based map.keySize map.valueSize)
    MapHistory.Faithful MapHistory.Answers
    (fun history use => ∀ now meaning, history = .ok (now, meaning) → use.Safe now) ?_ ?_ ?_ ?_
  · intro now meaning same
    obtain ⟨rfl, rfl⟩ := Prod.mk.inj (Except.ok.inj same)
    exact ⟨holds, rfl, rfl, fun key means => absurd rfl means⟩
  · rw [faithful_iff holds, empty]
    exact fun key _ => rfl
  · intro history use among based
    exact based.step (sized use among)
  · rintro history use among based ⟨now, meaning, rfl, found⟩
    obtain ⟨nowHolds, keySame, valueSame, wide⟩ := based now meaning rfl
    -- The map has kept the sizes that the uses were made for.
    have use_sized : use.Sized now.keySize now.valueSize := by
      rw [keySame, valueSame]
      exact sized use among
    rw [historyStep_right_iff nowHolds use_sized (by rwa [keySame]) ⟨now, meaning, rfl, found⟩]
    simp

/-- Three keys in turn in a map with room for two, of which the first is removed for the third. -/
def threeKeys : List HashmapUse := [.set [1] [10], .set [2] [20], .get [1], .remove [1], .set [3] [30], .get [2]]

/-- Each of the uses is safe in the map that it finds, so the map is faithful all along. -/
theorem dsHashmap_refines_three :
    ∃ map, dsHashmapCreate 1 1 2 true (some fun _ => 0) (some fun _ => 0) = some map ∧
      (∀ before, before <+: threeKeys → (mapHistory map before).Faithful) ∧
      ∀ before use, before ++ [use] <+: threeKeys → (mapHistory map before).Answers use := by
  refine ⟨⟨[0, 0], [0, 0], 1, 1, 2, 0⟩, rfl, ?_⟩
  have sized : ∀ use ∈ threeKeys, use.Sized 1 1 := by
    simp [threeKeys, HashmapUse.Sized]
  refine (@dsHashmap_refines_iff 1 1 2 true (some fun _ => 0) (some fun _ => 0) _ rfl _ sized).mpr ?_
  have check : ∀ i < 6, ∀ use ∈ threeKeys[i]?,
      (match mapHistory ⟨[0, 0], [0, 0], 1, 1, 2, 0⟩ (threeKeys.take i) with
        | .ok (now, _) => decide (use.Safe now)
        | .error _ => true) = true := by decide
  rintro before use ⟨later, whole⟩ now meaning ran
  -- What stands before a use is as many of the uses as its place tells.
  have length := congrArg List.length whole
  have place : threeKeys[before.length]? = some use := by simp [← whole]
  have front : threeKeys.take before.length = before := by simp [← whole]
  have safe := check before.length (by simp [threeKeys] at length; omega) use place
  rw [front] at safe
  change mapHistory ⟨[0, 0], [0, 0], 1, 1, 2, 0⟩ before = _ at ran
  rw [ran] at safe
  exact of_decide_eq_true safe

/-- A key that is set a second time is still found with its first value. -/
theorem dsHashmap_keeps_first :
    ¬ ∀ (keySize valueSize capacity : Nat) (made : Bool) (keys values : Option (Nat → UInt8)) (map : DsHashmap),
      dsHashmapCreate keySize valueSize capacity made keys values = some map →
      ∀ uses : List HashmapUse, (∀ use ∈ uses, use.Sized keySize valueSize) →
        (mapHistory map uses).Faithful := by
  intro all
  obtain ⟨map, meaning, ran, found⟩ := all 1 1 2 true (some fun _ => 0) (some fun _ => 0)
    ⟨[0, 0], [0, 0], 1, 1, 2, 0⟩ rfl [.set [1] [10], .set [1] [20]] (by simp [HashmapUse.Sized])
  -- The second entry is what the key means, and the first one is what is read.
  have check : (match mapHistory ⟨[0, 0], [0, 0], 1, 1, 2, 0⟩ [.set [1] [10], .set [1] [20]] with
    | .ok (map, meaning) =>
      decide (1 = map.keySize ∧ dsHashmapStep map (.get [1]) ≠ .ok (map, .value (meaning [1])))
    | .error _ => false) = true := by decide
  rw [ran] at check
  obtain ⟨sized, wrong⟩ := of_decide_eq_true check
  exact wrong (found [1] sized)

end MiraOS
